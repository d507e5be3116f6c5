import AiFS.Lib.Links
import AiFS.Porcupine.Bitset

set_option autoImplicit false

/-! # The checker

`porcupine/model.go` and `porcupine/checker.go` up to `checkSingle`: whether the calls and returns
of a history can be ordered such that a sequential model explains them.

A value of the source is an `interface{}`; here inputs and outputs have types of their own, a call
carries an input and a return an output. The history is a doubly linked list of nodes, and a node is
named by the position of its entry. `next` and `prev`, the only fields that change once the list is
built, are in `Links`; the head has the first free name, and its other fields are never read. A nil
pointer that is followed and an index that is out of range, at which the source panics, are `none`.

The descriptions of operations and states are for the visualization only and left out. -/

namespace AiFS

namespace Porcupine

variable {S ι ο : Type}

/-! ## Models and histories -/

structure Operation (ι ο : Type) where
  clientId : ℤ
  input : ι
  call : ℤ
  output : ο
  /-- `Return` -/
  ret : ℤ
deriving DecidableEq, Repr, Inhabited

/-- `Kind` says whether `Value` is an input or an output. -/
structure Event (ι ο : Type) where
  clientId : ℤ
  value : ι ⊕ ο
  id : ℤ
deriving DecidableEq, Repr

/-- `none` is a nil function. -/
structure Model (S ι ο : Type) where
  partition : Option (List (Operation ι ο) → List (List (Operation ι ο))) := none
  partitionEvent : Option (List (Event ι ο) → List (List (Event ι ο))) := none
  init : S
  step : S → ι → ο → Bool × S
  equal : Option (S → S → Bool) := none

def noPartition (history : List (Operation ι ο)) : List (List (Operation ι ο)) :=
  [history]

def noPartitionEvent (history : List (Event ι ο)) : List (List (Event ι ο)) :=
  [history]

def shallowEqual [DecidableEq S] (state1 state2 : S) : Bool :=
  state1 = state2

/-- A model without nil functions. -/
structure FilledModel (S ι ο : Type) where
  partition : List (Operation ι ο) → List (List (Operation ι ο))
  partitionEvent : List (Event ι ο) → List (List (Event ι ο))
  init : S
  step : S → ι → ο → Bool × S
  equal : S → S → Bool

def fillDefault [DecidableEq S] (model : Model S ι ο) : FilledModel S ι ο where
  partition := model.partition.getD noPartition
  partitionEvent := model.partitionEvent.getD noPartitionEvent
  init := model.init
  step := model.step
  equal := model.equal.getD shallowEqual

/-! ## Entries -/

structure Entry (ι ο : Type) where
  value : ι ⊕ ο
  id : ℕ
  time : ℤ
  clientId : ℤ
deriving DecidableEq, Repr

/-- `kind == callEntry` -/
def Entry.isCall (e : Entry ι ο) : Bool :=
  e.value.isLeft

/-- `byTime.Less`: at the same time, calls come before returns. -/
def Entry.less (a b : Entry ι ο) : Bool :=
  if a.time ≠ b.time then decide (a.time < b.time) else a.isCall && !b.isCall

/-- `sort.Sort` on `byTime`. It is not stable: of entries that are not less than each other, either
    may come first. -/
structure Sorter (ι ο : Type) where
  sort : List (Entry ι ο) → List (Entry ι ο)
  perm : ∀ es, (sort es).Perm es
  sorted : ∀ es, (sort es).Pairwise fun a b => b.less a = false

/-- The loop of `makeEntries` from `id` on. -/
def entriesFrom (id : ℕ) : List (Operation ι ο) → List (Entry ι ο)
  | [] => []
  | elem :: history =>
      ⟨.inl elem.input, id, elem.call, elem.clientId⟩ ::
        ⟨.inr elem.output, id, elem.ret, elem.clientId⟩ :: entriesFrom (id + 1) history

def makeEntries (sorter : Sorter ι ο) (history : List (Operation ι ο)) : List (Entry ι ο) :=
  sorter.sort (entriesFrom 0 history)

/-- The loop of `renumber` with its map and its counter. -/
def renumberFrom (m : ℤ → Option ℕ) (id : ℕ) : List (Event ι ο) → List (Event ι ο)
  | [] => []
  | v :: events =>
      match m v.id with
      | some r => { v with id := r } :: renumberFrom m id events
      | none =>
          { v with id := id } :: renumberFrom (Function.update m v.id (some id)) (id + 1) events

def renumber (events : List (Event ι ο)) : List (Event ι ο) :=
  renumberFrom (fun _ => none) 0 events

/-- Renumbered events have no negative `Id`. -/
def convertEntries (events : List (Event ι ο)) : List (Entry ι ο) :=
  events.mapIdx fun i elem => ⟨elem.value, elem.id.toNat, i, elem.clientId⟩

/-! ## The linked list -/

/-- `mtch` is the node of the return, nil in a node that is no call. -/
structure Node (ι ο : Type) where
  value : ι ⊕ ο
  mtch : Option ℕ
  id : ℕ
deriving DecidableEq, Repr

/-- `n` goes in front of `mark`, if that is a node. -/
def insertBefore (l : Links ℕ) (n : ℕ) : Option ℕ → Links ℕ
  | none => l
  | some mark =>
      match l.prev mark with
      | none => (l.setPrev mark (some n)).setNext n (some mark)
      | some beforeMark =>
          (((l.setPrev mark (some n)).setNext n (some mark)).setPrev n (some beforeMark)).setNext
            beforeMark (some n)

/-- What the loop of `makeLinkedEntries` has built: the nodes, the first one of the list, and the
    returns by their `id`. -/
structure Heap (ι ο : Type) where
  nodes : List (Node ι ο)
  links : Links ℕ
  root : Option ℕ
  returns : ℕ → Option ℕ

namespace Heap

def empty : Heap ι ο where
  nodes := []
  links := { next := fun _ => none, prev := fun _ => none }
  root := none
  returns := fun _ => none

/-- A round of the loop, at position `i`. -/
def push (h : Heap ι ο) (i : ℕ) (elem : Entry ι ο) : Heap ι ο where
  nodes := ⟨elem.value, if elem.isCall then h.returns elem.id else none, elem.id⟩ :: h.nodes
  links := insertBefore h.links i h.root
  root := some i
  returns := if elem.isCall then h.returns else Function.update h.returns elem.id (some i)

def idOf (h : Heap ι ο) (a : ℕ) : ℕ :=
  ((h.nodes[a]?).map Node.id).getD 0

def mtchOf (h : Heap ι ο) (a : ℕ) : Option ℕ :=
  (h.nodes[a]?).bind Node.mtch

/-- The name of the head. -/
def head (h : Heap ι ο) : ℕ :=
  h.nodes.length

end Heap

/-- The entries from position `i` on, the last one first. -/
def makeLinkedEntriesFrom (i : ℕ) : List (Entry ι ο) → Heap ι ο
  | [] => Heap.empty
  | elem :: entries => (makeLinkedEntriesFrom (i + 1) entries).push i elem

def makeLinkedEntries (entries : List (Entry ι ο)) : Heap ι ο :=
  makeLinkedEntriesFrom 0 entries

/-- The nodes from `n` on, at most `bound` of them. -/
def length (l : Links ℕ) : ℕ → Option ℕ → ℕ
  | 0, _ => 0
  | _ + 1, none => 0
  | bound + 1, some n => length l bound (l.next n) + 1

/-- `match` is `entry.match`. -/
def lift (l : Links ℕ) (entry mtch : ℕ) : Option (Links ℕ) :=
  match l.prev entry with
  | none => none
  | some p =>
      let l := l.setNext p (l.next entry)
      match l.next entry with
      | none => none
      | some q => (l.setPrev q (l.prev entry)).unlink mtch

def unlift (l : Links ℕ) (entry mtch : ℕ) : Option (Links ℕ) :=
  match l.relink mtch with
  | none => none
  | some l =>
      match l.prev entry with
      | none => none
      | some p =>
          let l := l.setNext p (some entry)
          match l.next entry with
          | none => none
          | some q => some (l.setPrev q (some entry))

/-! ## The search -/

structure CacheEntry (S : Type) where
  linearized : Bitset
  state : S

def cacheContains (equal : S → S → Bool) (cache : BitVec 64 → List (CacheEntry S))
    (entry : CacheEntry S) : Bool :=
  (cache (Bitset.hash entry.linearized)).any fun elem =>
    Bitset.equals entry.linearized elem.linearized && equal entry.state elem.state

/-- The variables of the loop of `checkSingle`. `calls` has its last element first. -/
structure Search (S : Type) where
  links : Links ℕ
  entry : Option ℕ
  linearized : Bitset
  cache : BitVec 64 → List (CacheEntry S)
  calls : List (ℕ × S)
  longest : List (Option (List ℕ))
  state : S

/-- What `checkSingle` returns. -/
abbrev Verdict := Bool × List (Option (List ℕ))

/-- The ids of `calls`, the first one first. -/
def Heap.seq (h : Heap ι ο) (calls : List (ℕ × S)) : List ℕ :=
  calls.reverse.map fun v => h.idOf v.1

/-- `seq` becomes the longest sequence with `id`, if there is none as long. -/
def noteOne (seq : List ℕ) (longest : List (Option (List ℕ))) (id : ℕ) :
    Option (List (Option (List ℕ))) :=
  match longest[id]? with
  | none => none
  | some old =>
      if old.all fun l => l.length < seq.length then some (longest.set id (some seq))
      else some longest

/-- The loop over `calls` that updates `longest`. -/
def noteLongest (seq : List ℕ) (longest : List (Option (List ℕ))) :
    Option (List (Option (List ℕ))) :=
  seq.foldlM (noteOne seq) longest

section CheckSingle

variable (model : FilledModel S ι ο) (h : Heap ι ο)

/-- The branch for a call, whose return is `matching`. -/
def tryCall (s : Search S) (entry matching : ℕ) : Option (Search S) :=
  match (h.nodes[entry]?).map Node.value, (h.nodes[matching]?).map Node.value with
  | some (.inl input), some (.inr output) =>
      let (ok, newState) := model.step s.state input output
      if ok then
        match Bitset.set s.linearized (h.idOf entry) with
        | none => none
        | some newLinearized =>
            let newCacheEntry : CacheEntry S := ⟨newLinearized, newState⟩
            if cacheContains model.equal s.cache newCacheEntry then
              some { s with entry := s.links.next entry }
            else
              let hash := Bitset.hash newLinearized
              match lift s.links entry matching with
              | none => none
              | some links =>
                  some
                    { s with
                      links := links
                      entry := links.next h.head
                      linearized := newLinearized
                      cache := Function.update s.cache hash (s.cache hash ++ [newCacheEntry])
                      calls := (entry, s.state) :: s.calls
                      state := newState }
      else some { s with entry := s.links.next entry }
  | _, _ => none

/-- The branch for a return with the call on top of `calls`. -/
def backtrack (computePartial : Bool) (s : Search S) (entry : ℕ) (state : S)
    (calls : List (ℕ × S)) : Option (Search S) :=
  match if computePartial then noteLongest (h.seq s.calls) s.longest else some s.longest with
  | none => none
  | some longest =>
      match Bitset.clear s.linearized (h.idOf entry),
          (h.mtchOf entry).bind (unlift s.links entry) with
      | some linearized, some links =>
          some
            { s with
              links := links
              entry := links.next entry
              linearized := linearized
              calls := calls
              longest := longest
              state := state }
      | _, _ => none

/-- One round of the loop of `checkSingle`; `kill` is what the round reads. -/
def round (computePartial kill : Bool) (s : Search S) : Option (Search S ⊕ Verdict) :=
  match s.links.next h.head with
  | none => some (.inr (true, List.replicate s.longest.length (some (h.seq s.calls))))
  | some _ =>
      if kill then some (.inr (false, s.longest))
      else
        match s.entry with
        | none => none
        | some entry =>
            match h.mtchOf entry with
            | some matching => (tryCall model h s entry matching).map .inl
            | none =>
                match s.calls with
                | [] => some (.inr (false, s.longest))
                | (top, state) :: calls => (backtrack h computePartial s top state calls).map .inl

end CheckSingle

/-- The variables of `checkSingle` before its loop. -/
def Search.start (model : FilledModel S ι ο) (h : Heap ι ο) : Search S :=
  let n := length h.links h.nodes.length h.root / 2
  { links := insertBefore h.links h.head h.root
    entry := h.root
    linearized := newBitset n
    cache := fun _ => []
    calls := []
    longest := List.replicate n none
    state := model.init }

/-- `checkSingle`, for at most `bound` rounds and with `kill` not set. -/
def checkSingle (model : FilledModel S ι ο) (history : List (Entry ι ο)) (computePartial : Bool)
    (bound : ℕ) : Option Verdict :=
  let h := makeLinkedEntries history
  Machine.loop (round model h computePartial false) bound (Search.start model h)

end Porcupine

end AiFS
