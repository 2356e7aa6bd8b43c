import Mathlib.Data.Nat.Bitwise
import Tessera.Validation.CheckBlock

/-!
# Merkle paths

`MerkleComputation` of `consensus/merkle.cpp` computes the path of a leaf in one pass over the
leaves. It keeps the hashes of complete subtrees, one for each bit of the number of leaves so far,
as a binary counter does, and sweeps over the rightmost branch at the end. A pair of leaves is one
leaf of the level above: the pass over the leaves is the pass over that level, with the sibling of
the leaf put in front of the path.
-/

namespace Tessera.Validation

open Function Lib Merkle List

/-! ### The computation -/

/-- The hash that moves up, with `level`, `matchh` and `path`. -/
structure Climb (α : Type) where
  level : Nat
  h : α
  matchh : Bool
  path : List α

/-- The subtrees so far: `count`, `inner`, `matchlevel` and `path`. -/
structure Subtrees (α : Type) where
  count : Nat := 0
  inner : Nat → α
  matchlevel : Option Nat := none
  path : List α := []

variable {α : Type} (node : α → α → α)

/-- The body of the loops that combine the hash with the subtree to its left. -/
def Climb.join (s : Subtrees α) (c : Climb α) : Climb α where
  level := c.level + 1
  h := node (s.inner c.level) c.h
  matchh := c.matchh || s.matchlevel == some c.level
  path :=
    if c.matchh then c.path ++ [s.inner c.level]
    else if s.matchlevel = some c.level then c.path ++ [c.h]
    else c.path

/-- The hash of an odd level is combined with itself. -/
def Climb.double (c : Climb α) : Climb α :=
  ⟨c.level + 1, node c.h c.h, c.matchh, if c.matchh then c.path ++ [c.h] else c.path⟩

/-- Combine the hash up to the first bit of `count` that is set. There are `levels` levels from here
on. -/
def climb (s : Subtrees α) (count : Nat) : Nat → Climb α → Climb α
  | 0, c => c
  | levels + 1, c => if count.testBit c.level then c else climb s count levels (c.join node s)

def addLeaf (levels leafPos : Nat) (s : Subtrees α) (leaf : α) : Subtrees α :=
  let c := climb node s (s.count + 1) levels ⟨0, leaf, s.count == leafPos, s.path⟩
  { count := s.count + 1
    inner := update s.inner c.level c.h
    matchlevel := if c.matchh then some c.level else s.matchlevel
    path := c.path }

/-- The final sweep, a level at a time: the hash is combined with the subtree to its left, or with
itself if there is none and it is not the top. -/
def sweep (s : Subtrees α) : Nat → Nat → Climb α → List α
  | 0, _, c => c.path
  | levels + 1, count, c =>
    if count.testBit c.level then
      if count = 2 ^ c.level then c.path else sweep s levels (count + 2 ^ c.level) (c.double node)
    else sweep s levels count (c.join node s)

/-- The first bit of `count` that is set. -/
def firstBit : Nat → Nat → Nat
  | 0, _ => 0
  | levels + 1, count => if count.testBit 0 then 0 else firstBit levels (count / 2) + 1

/-- The sweep from the last subtree. -/
def sweepAll (levels : Nat) (s : Subtrees α) : List α :=
  let level := firstBit levels s.count
  sweep node s (levels - level) s.count ⟨level, s.inner level, s.matchlevel == some level, s.path⟩

/-- `ComputeMerklePath`, by `MerkleComputation`. The array of subtrees has 32 entries. -/
def computeMerklePath (P : Primitives) (leaves : List Uint256) (leafPos : Nat) : List Uint256 :=
  if leaves = [] then []
  else sweepAll (hashPair P) 32
    (leaves.foldl (addLeaf (hashPair P) 32 leafPos) { inner := fun _ => .null 32 })

/-! ### Paths -/

/-- What a path makes of a leaf: a sibling is on the left if the bit of the position is set. -/
def foldPath : α → Nat → List α → α
  | h, _, [] => h
  | h, pos, sibling :: path =>
    foldPath (if pos % 2 = 1 then node sibling h else node h sibling) (pos / 2) path

/-- A path leads from the node at a position to the top, which is alone on its level. -/
def LeadsUp (level : List α) (pos : Nat) (path : List α) : Prop :=
  ∀ a, level[pos]? = some a → levelAt node level path.length = [foldPath node a pos path] ∧
    ∀ k < path.length, 1 < (levelAt node level k).length

/-- The sibling of the node at a position, in the pair that they are joined in. -/
def sibling (pos : Nat) (p : α × α) : α := if pos % 2 = 1 then p.1 else p.2

/-- What the path begins with. -/
def front (pos : Nat) (ps : List (α × α)) : List α := (ps[pos / 2]?).toList.map (sibling pos)

variable {node}

private theorem leadsUp_nil (a : α) (pos : Nat) : LeadsUp node [a] pos [] := by
  refine fun b hb => ⟨?_, fun k hk => absurd hk (Nat.not_lt_zero k)⟩
  rw [mem_singleton.mp (mem_of_getElem? hb)]
  rfl

private theorem joined_getElem? {level : List α} {pos : Nat} {a : α} (h : level[pos]? = some a) :
    ∃ b, (joined level)[pos / 2]? = some (if pos % 2 = 1 then (b, a) else (a, b)) := by
  induction level using above.induct generalizing pos with
  | case1 => cases h
  | case2 b =>
    cases pos with
    | zero => exact ⟨b, Option.some.inj h ▸ rfl⟩
    | succ pos => cases h
  | case3 b c rest ih =>
    rcases pos with _ | _ | pos
    · exact ⟨c, Option.some.inj h ▸ rfl⟩
    · exact ⟨b, Option.some.inj h ▸ rfl⟩
    · rw [add_assoc, Nat.add_div_right _ Nat.two_pos, Nat.add_mod_right]
      exact ih h

private theorem leadsUp_front {level path : List α} {pos : Nat} (hlength : 1 < level.length)
    (h : LeadsUp node ((joined level).map fun p => node p.1 p.2) (pos / 2) path) :
    LeadsUp node level pos (front pos (joined level) ++ path) := by
  intro a ha
  obtain ⟨b, hpair⟩ := joined_getElem? ha
  have hfront : front pos (joined level) = [b] := by
    rw [front, hpair]
    split <;> simp [sibling, *]
  have hnode : ((joined level).map fun p => node p.1 p.2)[pos / 2]? =
      some (if pos % 2 = 1 then node b a else node a b) := by
    rw [getElem?_map, hpair]
    split <;> rfl
  obtain ⟨htop, hbelow⟩ := h _ hnode
  rw [← above_eq_map] at htop hbelow
  rw [hfront]
  refine ⟨(levelAt_above node level _).symm.trans htop, fun k hk => ?_⟩
  cases k with
  | zero => exact hlength
  | succ k =>
    exact hbelow k (Nat.lt_of_succ_lt_succ hk)

/-! ### One level up -/

/-- The hash seen from the level below, where the path begins with `front`. -/
def Climb.lift (front : List α) (c : Climb α) : Climb α :=
  ⟨c.level + 1, c.h, c.matchh, front ++ c.path⟩

section Lift

variable {s t : Subtrees α} (hinner : ∀ j, s.inner (j + 1) = t.inner j) {c : Climb α}
  (h : c.matchh = false → s.matchlevel = t.matchlevel.map (· + 1)) {front : List α}
  {levels : Nat} (count : Nat)

private theorem testBit_lift : (2 * count).testBit (c.lift front).level =
    count.testBit c.level := by
  rw [Climb.lift, Nat.testBit_succ, Nat.mul_div_cancel_left _ Nat.two_pos]

include hinner h

private theorem join_lift : (c.lift front).join node s = (c.join node t).lift front := by
  unfold Climb.join Climb.lift
  cases hc : c.matchh with
  | true => simp [hinner]
  | false =>
    rw [h hc]
    cases t.matchlevel with
    | none => simp [hinner]
    | some level => by_cases hlevel : level = c.level <;> simp [hinner, hlevel]

private theorem climb_lift :
    climb node s (2 * count) levels (c.lift front) = (climb node t count levels c).lift front := by
  induction levels generalizing c with
  | zero => rfl
  | succ levels ih =>
    rw [climb, climb, testBit_lift, join_lift hinner h]
    split
    · rfl
    · exact ih fun hc => h (Bool.or_eq_false_iff.mp hc).1

private theorem sweep_lift : sweep node s levels (2 * count) (c.lift front) = front ++
    sweep node t levels count c := by
  induction levels generalizing c count with
  | zero => rfl
  | succ levels ih =>
    have hpow : 2 ^ (c.lift front).level = 2 * 2 ^ c.level := Nat.pow_succ'
    have hsame : 2 * count = 2 * 2 ^ c.level ↔ count = 2 ^ c.level := by omega
    have hdouble : (c.lift front).double node = (c.double node).lift front := by
      unfold Climb.double Climb.lift
      cases c.matchh <;> simp
    rw [sweep, sweep, testBit_lift, hpow, join_lift hinner h, ← mul_add, hdouble]
    simp only [hsame]
    split
    · split
      · rfl
      · exact ih (c := c.double node) h _
    · exact ih (fun hc => h (Bool.or_eq_false_iff.mp hc).1) _

end Lift

section Climb

variable {s : Subtrees α} (count levels : Nat) {c : Climb α}

private theorem climb_matched (hc : c.matchh) : (climb node s count levels c).matchh := by
  induction levels generalizing c with
  | zero => exact hc
  | succ levels ih =>
    rw [climb]
    split
    · exact hc
    · exact ih (by simp [Climb.join, hc])

private theorem climb_unmatched (h : s.matchlevel = none) (hc : c.matchh = false) :
    (climb node s count levels c).matchh = false ∧ (climb node s count levels c).path = c.path := by
  induction levels generalizing c with
  | zero => exact ⟨hc, rfl⟩
  | succ levels ih =>
    have hjoin : (c.join node s).matchh = false ∧ (c.join node s).path =
      c.path := by simp [Climb.join, hc, h]
    rw [climb]
    split
    · exact ⟨hc, rfl⟩
    · exact hjoin.2 ▸ ih hjoin.1

end Climb

/-! ### Pairs of leaves -/

/-- The subtrees over the leaves of some pairs, and those over the nodes of the level above. -/
structure Paired (pos : Nat) (ps : List (α × α)) (s t : Subtrees α) : Prop where
  length : ps.length = t.count
  count : s.count = 2 * t.count
  inner : ∀ j, s.inner (j + 1) = t.inner j
  matchlevel : s.matchlevel = t.matchlevel.map (· + 1)
  path : s.path = front pos ps ++ t.path
  unmatched : t.count ≤ pos / 2 → t.matchlevel = none ∧ t.path = []

/-- The subtrees when the first leaf of a pair waits for the second one. -/
def Subtrees.wait (pos : Nat) (s : Subtrees α) (a : α) : Subtrees α where
  count := s.count + 1
  inner := update s.inner 0 a
  matchlevel := if s.count = pos then some 0 else s.matchlevel
  path := s.path

/-- The node of a pair on its way up. -/
def Subtrees.start (pos : Nat) (t : Subtrees α) (a : α) : Climb α := ⟨0, a, t.count == pos, t.path⟩

section Paired

variable {pos levels : Nat} {ps : List (α × α)} {s t : Subtrees α} (h : Paired pos ps s t) (a b : α)

include h

private theorem Paired.matchlevel_ne : s.matchlevel ≠ some 0 := by
  rw [h.matchlevel]
  cases t.matchlevel <;> simp

private theorem Paired.addLeaf_first : addLeaf node (levels + 1) pos s a = s.wait pos a := by
  have hclimb (c : Climb α) (hc : c.level = 0) : climb node s (s.count + 1) (levels + 1) c = c := by
    rw [climb, hc, if_pos (by simp [h.count])]
  rw [addLeaf, hclimb _ rfl]
  simp [Subtrees.wait]

private theorem Paired.wait_count : (s.wait pos a).count + 1 = 2 * (t.count + 1) :=
  congrArg (· + 2) h.count

private theorem Paired.wait_inner (j : Nat) : (s.wait pos a).inner (j + 1) = t.inner j :=
  (update_of_ne (Nat.succ_ne_zero j) a s.inner).trans (h.inner j)

private theorem Paired.wait_matchlevel (hne : (t.count == pos / 2) = false) :
    (s.wait pos a).matchlevel = t.matchlevel.map (· + 1) := by
  have hcount := h.count
  have hne := ne_of_beq_false hne
  exact (if_neg (by omega)).trans h.matchlevel

private theorem Paired.front_eq (p : α × α) : front pos (ps ++ [p]) ++ t.path =
    if t.count = pos / 2 then s.path ++ [sibling pos p] else s.path := by
  have hlength := h.length
  rw [h.path, front, front]
  by_cases heq : t.count = pos / 2
  · rw [if_pos heq, ← heq, ← hlength, getElem?_concat_length, getElem?_eq_none (le_refl _),
      (h.unmatched heq.le).2]
    rfl
  rw [getElem?_append]
  split
  · rfl
  · rw [getElem?_eq_none (by simp; omega), getElem?_eq_none (by omega)]

private theorem Paired.join_second : ((s.wait pos a).start pos b).join node (s.wait pos a) =
    (t.start (pos / 2) (node a b)).lift (front pos (ps ++ [(a, b)])) := by
  rw [Subtrees.start, Subtrees.start, Climb.lift, h.front_eq, Climb.join, Subtrees.wait, h.count]
  obtain hpos | hpos | hpos : pos = 2 * t.count ∨ pos = 2 * t.count + 1 ∨
    t.count ≠ pos / 2 := by omega
  · simp [hpos, sibling]
  · simp [hpos, sibling, show (2 * t.count + 1) / 2 = t.count by omega]
  · have hne : 2 * t.count ≠ pos := by omega
    have hne' : (2 * t.count + 1 == pos) = false := beq_false_of_ne (by omega)
    simp [hpos, hne, hne', h.matchlevel_ne]

private theorem Paired.double_last (hpos : pos ≤ 2 * t.count) : (s.start pos a).double node =
    (t.start (pos / 2) (node a a)).lift (front pos (ps ++ [(a, a)])) := by
  rw [Subtrees.start, Subtrees.start, Climb.lift, h.front_eq, Climb.double, h.count]
  by_cases heq : pos = 2 * t.count
  · simp [heq, sibling]
  · have hne : t.count ≠ pos / 2 := by omega
    simp [hne, Ne.symm heq]

/-- A pair of leaves is a leaf of the level above. -/
theorem Paired.next : Paired pos (ps ++ [(a, b)]) (addLeaf node (levels + 1) pos (s.wait pos a) b)
    (addLeaf node levels (pos / 2) t (node a b)) := by
  have hclimb : climb node (s.wait pos a) ((s.wait pos a).count + 1) (levels + 1)
      ((s.wait pos a).start pos b) =
      (climb node t (t.count + 1) levels (t.start (pos / 2) (node a b))).lift
        (front pos (ps ++ [(a, b)])) := by
    rw [climb, h.wait_count a, if_neg (by simp [Subtrees.start]), h.join_second]
    exact climb_lift (h.wait_inner a) (h.wait_matchlevel a) _
  obtain ⟨c, hc⟩ : ∃ c, climb node t (t.count + 1) levels (t.start (pos / 2) (node a b)) = c :=
    ⟨_, rfl⟩
  have hs : addLeaf node (levels + 1) pos (s.wait pos a) b =
      ⟨(s.wait pos a).count + 1, update (s.wait pos a).inner (c.level + 1) c.h,
        if c.matchh then some (c.level + 1) else (s.wait pos a).matchlevel,
        front pos (ps ++ [(a, b)]) ++ c.path⟩ := by
    rw [addLeaf, ← Subtrees.start, hclimb, hc]
    rfl
  have ht : addLeaf node levels (pos / 2) t (node a b) =
      ⟨t.count + 1, update t.inner c.level c.h, if c.matchh then some c.level
        else t.matchlevel, c.path⟩ := by
    rw [addLeaf, ← Subtrees.start, hc]
  rw [hs, ht]
  refine ⟨by simp [h.length], h.wait_count a, fun j => ?_, ?_, rfl, fun hle => ?_⟩
  · by_cases hj : j = c.level
    · simp [hj]
    · simp [hj, h.wait_inner]
  · cases hm : c.matchh with
    | true => rfl
    | false =>
      refine h.wait_matchlevel a (Bool.eq_false_iff.mpr fun heq => ?_)
      rw [← hc, climb_matched _ _ heq] at hm
      cases hm
  · obtain ⟨hold, hpath⟩ := h.unmatched (Nat.le_of_succ_le hle)
    obtain ⟨hm, hsame⟩ := climb_unmatched (t.count + 1) levels hold
      (c := t.start (pos / 2) (node a b)) (beq_false_of_ne (ne_of_lt hle))
    rw [hc] at hm hsame
    rw [hm]
    exact ⟨hold, hsame.trans hpath⟩

/-! ### The sweep -/

private theorem Paired.sweepAll_eq : sweepAll node (levels + 1) s = front pos ps ++
    sweepAll node levels t := by
  have hbit : firstBit (levels + 1) s.count = firstBit levels t.count + 1 := by
    rw [firstBit, h.count, Nat.mul_div_cancel_left _ Nat.two_pos, if_neg (by simp)]
  have hmatch (level : Nat) : (s.matchlevel == some (level + 1)) =
      (t.matchlevel == some level) := by
    rw [h.matchlevel]
    cases t.matchlevel <;> simp
  rw [sweepAll, hbit, Nat.add_sub_add_right, h.inner, hmatch, h.path, h.count]
  exact sweep_lift h.inner (c := ⟨_, t.inner _, t.matchlevel == some _, t.path⟩)
    (fun _ => h.matchlevel) _

/-- A leaf that ends an odd level, on its way up. The subtrees may hold it already. -/
theorem Paired.sweep_last (hne : ps ≠ []) (hpos : pos ≤ 2 * t.count) {s' : Subtrees α}
    (hinner : ∀ j, s'.inner (j + 1) = t.inner j)
    (hmatch : (t.count == pos / 2) = false → s'.matchlevel = t.matchlevel.map (· + 1)) :
    sweep node s' (levels + 1) (s.count + 1) (s.start pos a) = front pos (ps ++ [(a, a)]) ++
      sweep node t levels (t.count + 1) (t.start (pos / 2) (node a a)) := by
  have hlength := h.length ▸ length_pos_iff.mpr hne
  rw [sweep, h.count, if_pos (by simp [Subtrees.start]), if_neg (by simp [Subtrees.start]; omega),
    h.double_last a hpos]
  exact sweep_lift hinner hmatch (t.count + 1)

private theorem Paired.sweepAll_wait : sweepAll node (levels + 1) (s.wait pos a) =
    sweep node (s.wait pos a) (levels + 1) (s.count + 1) (s.start pos a) := by
  have hmatch : ((s.wait pos a).matchlevel == some 0) = (s.count == pos) := by
    unfold Subtrees.wait
    by_cases heq : s.count = pos
    · simp [heq]
    · simp [heq, h.matchlevel_ne]
  have hbit : firstBit (levels + 1) (s.wait pos a).count = 0 :=
    if_pos (by simp [Subtrees.wait, h.count])
  rw [sweepAll, hbit, hmatch]
  rfl

private theorem Paired.sweep_second : sweep node (s.wait pos a) (levels + 1)
      ((s.wait pos a).count + 1) ((s.wait pos a).start pos b) = front pos (ps ++ [(a, b)]) ++
        sweep node t levels (t.count + 1) (t.start (pos / 2) (node a b)) := by
  rw [sweep, h.wait_count a, if_neg (by simp [Subtrees.start]), h.join_second]
  exact sweep_lift (h.wait_inner a) (h.wait_matchlevel a) _

end Paired

/-- The leaves of some pairs. -/
def flat (ps : List (α × α)) : List α := ps.flatMap fun p => [p.1, p.2]

private theorem exists_flat (leaves : List α) :
    ∃ ps tail, leaves = flat ps ++ tail ∧ (tail = [] ∨ ∃ a, tail = [a]) := by
  induction leaves using above.induct with
  | case1 => exact ⟨[], [], rfl, .inl rfl⟩
  | case2 a => exact ⟨[], [a], rfl, .inr ⟨a, rfl⟩⟩
  | case3 a b rest ih =>
    obtain ⟨ps, tail, rfl, htail⟩ := ih
    exact ⟨(a, b) :: ps, tail, rfl, htail⟩

private theorem joined_flat (ps : List (α × α)) (tail : List α) : joined (flat ps ++ tail) = ps ++
    joined tail := by
  induction ps with
  | nil => rfl
  | cons p ps ih => exact congrArg (p :: ·) ih

private theorem paired_flat (null : α) (levels pos : Nat) (ps : List (α × α)) : Paired pos ps
    ((flat ps).foldl (addLeaf node (levels + 1) pos) { inner := fun _ => null })
    ((ps.map fun p => node p.1 p.2).foldl (addLeaf node levels (pos / 2))
      { inner := fun _ => null }) := by
  induction ps using reverseRecOn with
  | nil => exact ⟨rfl, rfl, fun _ => rfl, rfl, rfl, fun _ => ⟨rfl, rfl⟩⟩
  | append_singleton ps p ih =>
    have hflat : flat (ps ++ [p]) = flat ps ++ [p.1, p.2] := by simp [flat]
    rw [hflat, map_append, foldl_append, foldl_append, foldl_cons, ih.addLeaf_first]
    exact ih.next p.1 p.2

/-- The sweep finds the path, from the last leaf on its way up and from the subtree that it ends in.
-/
theorem leadsUp_sweep (null : α) (levels : Nat) (leaves : List α) (leaf : α) (pos : Nat)
    (hlength : leaves.length < 2 ^ levels) (hpos : pos ≤ leaves.length) {s : Subtrees α}
    (hs : leaves.foldl (addLeaf node levels pos) { inner := fun _ => null } = s) :
    LeadsUp node (leaves ++ [leaf]) pos (sweep node s levels (s.count + 1) (s.start pos leaf)) ∧
      LeadsUp node (leaves ++ [leaf]) pos
        (sweepAll node levels (addLeaf node levels pos s leaf)) := by
  induction levels generalizing leaves leaf pos s with
  | zero =>
    obtain rfl := length_eq_zero_iff.mp (Nat.lt_one_iff.mp hlength)
    subst hs
    exact ⟨leadsUp_nil leaf pos, leadsUp_nil leaf pos⟩
  | succ levels ih =>
    obtain ⟨ps, tail, rfl, htail⟩ := exists_flat leaves
    obtain ⟨t, ht⟩ : ∃ t, (ps.map fun p => node p.1 p.2).foldl (addLeaf node levels (pos / 2))
        { inner := fun _ => null } = t := ⟨_, rfl⟩
    have h : Paired pos ps ((flat ps).foldl (addLeaf node (levels + 1) pos) _) t :=
      ht ▸ paired_flat null levels pos ps
    have hflat : (flat ps).length = 2 * ps.length := by simp [flat, mul_comm]
    have hmap : (ps.map fun p => node p.1 p.2).length = ps.length := length_map _
    rw [length_append, hflat] at hlength hpos
    have htail' : tail.length ≤ 1 := by rcases htail with rfl | ⟨a, rfl⟩ <;> simp
    have hup (a b : α) := ih _ (node a b) (pos / 2) (by omega) (by omega) ht
    have hfront (a b : α) {level path : List α} (hlevel : joined level = ps ++ [(a, b)])
        (hlen : 1 < level.length)
        (hpath : LeadsUp node (ps.map (fun p => node p.1 p.2) ++ [node a b]) (pos / 2) path) :
        LeadsUp node level pos (front pos (ps ++ [(a, b)]) ++ path) := by
      rw [← hlevel]
      exact leadsUp_front hlen (by rwa [hlevel, map_append])
    rcases htail with rfl | ⟨a, rfl⟩
    · rw [append_nil] at hs ⊢
      rw [hs] at h
      rw [h.addLeaf_first, h.sweepAll_wait]
      by_cases hne : ps = []
      · subst hne hs
        have hone (s : Subtrees α) :
            sweep node s (levels + 1) 1 (Subtrees.start pos { inner := fun _ => null } leaf) =
              [] := by
          simp [sweep, Subtrees.start]
        have hnil : LeadsUp node [leaf] pos [] := leadsUp_nil leaf pos
        exact ⟨(hone _).symm ▸ hnil, (hone _).symm ▸ hnil⟩
      have hlast := hfront leaf leaf (joined_flat ps [leaf])
        (by simp [hflat, length_pos_iff.mpr hne]) (hup leaf leaf).1
      have hle : pos ≤ 2 * t.count := h.length ▸ hpos
      rw [h.sweep_last leaf hne hle h.inner fun _ => h.matchlevel,
        h.sweep_last leaf hne hle (h.wait_inner leaf) (h.wait_matchlevel leaf)]
      exact ⟨hlast, hlast⟩
    · rw [foldl_append, foldl_cons, h.addLeaf_first] at hs
      subst hs
      have hjoined := append_assoc (flat ps) [a] [leaf] ▸ joined_flat ps [a, leaf]
      refine ⟨?_, ?_⟩
      · exact h.sweep_second a leaf ▸ hfront a leaf hjoined (by simp) (hup a leaf).1
      · exact (h.next a leaf).sweepAll_eq ▸ hfront a leaf hjoined (by simp) (hup a leaf).2

/-- For as many leaves as the 32 bits of the counter allow, the path of a leaf leads to the root,
and it has a hash for each level below the root. -/
theorem computeMerklePath_spec (P : Primitives) (leaves : List Uint256) (leafPos : Nat)
    (hpos : leafPos < leaves.length) (hlength : leaves.length ≤ 2 ^ 31) :
    foldPath (hashPair P) (leaves.get ⟨leafPos, hpos⟩) leafPos
      (computeMerklePath P leaves leafPos) = (computeMerkleRoot P leaves).1 ∧
      (levelAt (hashPair P) leaves (computeMerklePath P leaves leafPos).length).length = 1 ∧
      ∀ k < (computeMerklePath P leaves leafPos).length,
      1 < (levelAt (hashPair P) leaves k).length := by
  have hne : leaves ≠ [] := length_pos_iff.mp (by omega)
  have hpath : LeadsUp (hashPair P) leaves leafPos (computeMerklePath P leaves leafPos) := by
    obtain ⟨init, leaf, rfl⟩ : ∃ init leaf, leaves = init ++ [leaf] :=
      ⟨_, _, (dropLast_append_getLast hne).symm⟩
    rw [length_append, length_singleton] at hpos hlength
    rw [computeMerklePath, if_neg hne, foldl_append]
    exact (leadsUp_sweep (.null 32) 32 init leaf leafPos (by omega) (by omega) rfl).2
  obtain ⟨htop, hbelow⟩ := hpath _ (getElem?_eq_getElem hpos)
  obtain ⟨height, r, hroot, hcomputes⟩ := root_computes (hashPair P) hne
  have hheight := hcomputes.height_eq (congrArg length htop) hbelow
  rw [computeMerkleRoot, hroot]
  rw [hheight, hcomputes.top] at htop
  exact ⟨(cons.inj htop).1.symm, hheight ▸ congrArg length hcomputes.top, hbelow⟩

/-- The last of three leaves, which is combined with itself. -/
theorem computeMerklePath_spec_three : foldPath (hashPair .repeating) (.fill 32 3) 2
        (computeMerklePath .repeating [.fill 32 1, .fill 32 2, .fill 32 3] 2) =
      (computeMerkleRoot .repeating [.fill 32 1, .fill 32 2, .fill 32 3]).1 :=
  (computeMerklePath_spec .repeating [.fill 32 1, .fill 32 2, .fill 32 3] 2 (by decide)
    (by decide)).1

end Tessera.Validation
