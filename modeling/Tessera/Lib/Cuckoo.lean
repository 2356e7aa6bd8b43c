import Mathlib.Algebra.Ring.Int.Defs
import Mathlib.Algebra.Ring.Nat
import Mathlib.Data.List.Basic

/-!
# A cuckoo cache

The cache of `cuckoocache.h`: a table in which an element has eight places. An element is marked for
collection instead of being erased, and inserting one may push others on to another place of theirs
until one finds a place that is marked, or the last one is dropped.

What is lost is hard to say, but nothing is made up: a table holds the elements that were inserted
and the one that it was filled with.

## Main results

* `mem_of_contains`: an element that is found is in the table.
* `mem_insert`: the elements after an insertion are the inserted one and some of those before it.
-/

namespace Tessera.Lib.Cuckoo

structure Cache (E : Type) where
  table : List E
  collectionFlags : List Bool
  epochFlags : List Bool
  epochHeuristicCounter : Nat
  epochSize : Nat
  depthLimit : Nat

variable {E : Type}

/-- The total number of places. -/
def Cache.size (c : Cache E) : Nat := c.table.length

/-- `setup`: a table filled with the default element, all of it free. The limit on the depth is a
logarithm of the size in floating point, and is a parameter here. -/
def setup (zero : E) (newSize depthLimit : Nat) : Cache E :=
  let size := max 2 newSize
  let epochSize := max 1 (45 * size % 2 ^ 32 / 100)
  { table := List.replicate size zero
    collectionFlags := List.replicate size true
    epochFlags := List.replicate size false
    epochHeuristicCounter := epochSize
    epochSize := epochSize
    depthLimit := depthLimit }

def fastRange32 (x : UInt32) (n : Nat) : Nat := x.toNat * n / 2 ^ 32

variable (c : Cache E)

def Cache.allowErase (n : Nat) : Cache E :=
  { c with collectionFlags := c.collectionFlags.set n true }

/-- `please_keep`, with the epoch of the element. -/
def Cache.pleaseKeep (n : Nat) (epoch : Bool) : Cache E :=
  { c with
    collectionFlags := c.collectionFlags.set n false, epochFlags := c.epochFlags.set n epoch }

/-- `bit_is_set`: whether the place is free. -/
def Cache.bitIsSet (n : Nat) : Bool := c.collectionFlags.getD n false

def Cache.epochCheck : Cache E :=
  if c.epochHeuristicCounter ≠
    0 then { c with epochHeuristicCounter := c.epochHeuristicCounter - 1 }
  else
    let epochUnusedCount :=
      (c.epochFlags.zip c.collectionFlags).countP fun p => p.1 && !p.2
    if c.epochSize ≤ epochUnusedCount then
      -- the old epoch may be erased, and the current one becomes the old one
      { c with
        collectionFlags := (c.epochFlags.zip c.collectionFlags).map fun p =>
          if p.1 then p.2 else true
        epochFlags := c.epochFlags.map fun _ => false
        epochHeuristicCounter := c.epochSize }
    else
      { c with epochHeuristicCounter := max 1 (max (c.epochSize / 16)
        (c.epochSize - epochUnusedCount)) }

section Hash

variable [DecidableEq E] (hashFunction : Fin 8 → E → UInt32) (c : Cache E)

def Cache.computeHashes (e : E) : List Nat :=
  (List.finRange 8).map fun k => fastRange32 (hashFunction k e) c.size

/-- The first of some places that holds an element. -/
def Cache.find (e : E) (locs : List Nat) : Option Nat :=
  locs.find? fun loc => c.table[loc]? == some e

/-- `contains`, which marks the element for collection if `erase` is set. -/
def Cache.contains (e : E) (erase : Bool) : Bool × Cache E :=
  match c.find e (c.computeHashes hashFunction e) with
  | some loc => (true, if erase then c.allowErase loc else c)
  | none => (false, c)

/-- The place that an element is pushed out of: the one after the last place, at first
the second one. -/
def nextLoc (locs : List Nat) (lastLoc : Option Nat) : Nat :=
  let k := match lastLoc with
    | some loc => locs.idxOf loc
    | none => locs.length
  locs.getD ((k + 1) % 8) 0

def Cache.insertLoop : Nat → Cache E → E → Option Nat → Bool → Cache E
  | 0, c, _, _, _ => c
  | depth + 1, c, e, lastLoc, lastEpoch =>
    let locs := c.computeHashes hashFunction e
    match locs.find? c.bitIsSet with
    | some loc => Cache.pleaseKeep { c with table := c.table.set loc e } loc lastEpoch
    | none =>
      let loc := nextLoc locs lastLoc
      match c.table[loc]? with
      | none => c
      | some evicted =>
        insertLoop depth
          { c with table := c.table.set loc e, epochFlags := c.epochFlags.set loc lastEpoch }
          evicted (some loc) (c.epochFlags.getD loc false)

def Cache.insert (c : Cache E) (e : E) : Cache E :=
  let c := c.epochCheck
  match c.find e (c.computeHashes hashFunction e) with
  | some loc => c.pleaseKeep loc true
  | none => c.insertLoop hashFunction c.depthLimit e none true

/-! ### What a table holds -/

variable {hashFunction} {c : Cache E} {e x : E}

omit [DecidableEq E] in
theorem eq_of_mem_setup {zero : E} {newSize depthLimit : Nat}
    (h : x ∈ (setup zero newSize depthLimit).table) : x = zero :=
  List.eq_of_mem_replicate h

omit [DecidableEq E] in
theorem epochCheck_table (c : Cache E) : c.epochCheck.table = c.table := by
  unfold Cache.epochCheck
  split
  · rfl
  · dsimp only
    split <;> rfl

theorem mem_of_find {locs : List Nat} {loc : Nat} (h : c.find e locs = some loc) : e ∈ c.table := by
  have hloc : (c.table[loc]? == some e) :=
    List.find?_some (p := fun loc => c.table[loc]? == some e) h
  exact List.mem_of_getElem? (eq_of_beq hloc)

/-- An element that is found is in the table. -/
theorem mem_of_contains {erase : Bool} (h : (c.contains hashFunction e erase).1) : e ∈ c.table := by
  unfold Cache.contains at h
  split at h
  next hfind => exact mem_of_find hfind
  · cases h

theorem contains_table (c : Cache E) (e : E) (erase : Bool) :
    (c.contains hashFunction e erase).2.table = c.table := by
  unfold Cache.contains
  split
  · cases erase <;> rfl
  · rfl

omit [DecidableEq E] in
theorem mem_insertLoop {depth : Nat} {lastLoc : Option Nat} {lastEpoch : Bool}
    (h : x ∈ (c.insertLoop hashFunction depth e lastLoc lastEpoch).table) : x ∈
      c.table ∨ x = e := by
  -- the elements in the table and the one in hand are never others than at the start
  induction depth generalizing c e lastLoc lastEpoch with
  | zero => exact .inl h
  | succ depth ih =>
    unfold Cache.insertLoop at h
    dsimp only at h
    split at h
    · exact List.mem_or_eq_of_mem_set h
    split at h
    · exact .inl h
    next evicted hevicted =>
      rcases ih h with hmem | rfl
      · exact List.mem_or_eq_of_mem_set hmem
      · exact .inl (List.mem_of_getElem? hevicted)

/-- The elements after an insertion are the inserted one and some of those before it. -/
theorem mem_insert (h : x ∈ (c.insert hashFunction e).table) : x ∈ c.table ∨ x = e := by
  unfold Cache.insert at h
  dsimp only at h
  split at h
  · rw [← epochCheck_table c]
    exact .inl h
  · rw [← epochCheck_table c]
    exact mem_insertLoop h

end Hash

end Tessera.Lib.Cuckoo
