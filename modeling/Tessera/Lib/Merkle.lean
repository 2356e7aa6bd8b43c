import Mathlib.Data.List.Basic
import Mathlib.Logic.Function.Iterate

/-!
# Merkle trees that repeat the last node of an odd level

The tree over a list is built level by level from the leaves: neighbours are joined, and the last
node of an odd level is joined with itself. A list and the same list with its end repeated therefore
have the same root; a level in which two neighbours are equal is the sign of it.

Two lists with the same root are equal if different pairs that are joined in their trees have
different nodes, no leaf is such a node, and no level repeats (`eq_of_root_eq`); or if they have the
same length (`eq_of_root_eq_of_length`).
-/

namespace Tessera.Lib.Merkle

open List

variable {α : Type} (node : α → α → α)

/-- The level above a level. -/
def above : List α → List α
  | [] => []
  | [a] => [node a a]
  | a :: b :: rest => node a b :: above rest

/-- Two neighbours that are joined are equal. -/
def repeats [DecidableEq α] : List α → Bool
  | a :: b :: rest => decide (a = b) || repeats rest
  | _ => false

theorem above_length (level : List α) : (above node level).length = (level.length + 1) / 2 := by
  induction level using above.induct with
  | case1 => simp [above]
  | case2 a => simp [above]
  | case3 a b rest ih =>
    simp only [above, length_cons, ih]
    omega

variable [DecidableEq α]

/-- The root of the tree over a level, and whether a level of it repeats. There are fewer levels
than leaves. -/
def rootFuel : Nat → List α → Bool → Option α × Bool
  | 0, level, mutated => (level.head?, mutated)
  | fuel + 1, level, mutated =>
    if 1 < level.length then rootFuel fuel (above node level) (mutated || repeats level)
    else (level.head?, mutated)

/-- The root of the tree over a list of leaves, none for the empty list, and whether a level of the
tree repeats. -/
def root (leaves : List α) : Option α × Bool := rootFuel node leaves.length leaves false

/-! ### Levels -/

section Levels

/-- The pairs of a level that are joined. -/
def joined : List α → List (α × α)
  | [] => []
  | [a] => [(a, a)]
  | a :: b :: rest => (a, b) :: joined rest

omit [DecidableEq α] in
theorem above_eq_map (level : List α) : above node level = (joined level).map fun p =>
    node p.1 p.2 := by
  induction level using above.induct with
  | case1 => rfl
  | case2 a => rfl
  | case3 a b rest ih => rw [above, joined, map_cons, ih]

/-- A level can be told from its pairs, if its length is known or it does not repeat. -/
theorem eq_of_joined_eq {xs ys : List α} (h : joined xs = joined ys)
    (hshape : xs.length = ys.length ∨ repeats xs = false ∧ repeats ys = false) : xs = ys := by
  induction xs using above.induct generalizing ys with
  | case1 =>
    rcases ys with _ | ⟨b, _ | ⟨c, rest⟩⟩
    · rfl
    · cases h
    · cases h
  | case2 a =>
    rcases ys with _ | ⟨b, _ | ⟨c, rest⟩⟩
    · cases h
    · cases h
      rfl
    -- the single node was joined with itself, so that the pair repeats
    obtain ⟨hpair, -⟩ := cons.inj h
    cases hpair
    rcases hshape with hlen | ⟨-, hrep⟩
    · simp at hlen
    · simp [repeats] at hrep
  | case3 a b rest ih =>
    rcases ys with _ | ⟨c, _ | ⟨d, rest'⟩⟩
    · cases h
    · obtain ⟨hpair, -⟩ := cons.inj h
      cases hpair
      rcases hshape with hlen | ⟨hrep, -⟩
      · simp at hlen
      · simp [repeats] at hrep
    · obtain ⟨hpair, hrest⟩ := cons.inj h
      cases hpair
      rw [ih hrest]
      rcases hshape with hlen | ⟨hrep, hrep'⟩
      · exact .inl (by simpa using hlen)
      · simp only [repeats, Bool.or_eq_false_iff] at hrep hrep'
        exact .inr ⟨hrep.2, hrep'.2⟩

/-- The level a number of levels above the leaves. -/
def levelAt (leaves : List α) (k : Nat) : List α := (above node)^[k] leaves

omit [DecidableEq α] in
theorem levelAt_succ (leaves : List α) (k : Nat) :
    levelAt node leaves (k + 1) = above node (levelAt node leaves k) :=
  Function.iterate_succ_apply' _ _ _

omit [DecidableEq α] in
theorem levelAt_above (leaves : List α) (k : Nat) :
    levelAt node (above node leaves) k = levelAt node leaves (k + 1) :=
  (Function.iterate_succ_apply _ _ _).symm

omit [DecidableEq α] in
theorem levelAt_length {xs ys : List α} (h : xs.length = ys.length) (k : Nat) :
    (levelAt node xs k).length = (levelAt node ys k).length := by
  induction k with
  | zero => exact h
  | succ k ih => rw [levelAt_succ, levelAt_succ, above_length, above_length, ih]

/-- The pairs that are joined in the tree over a level. -/
def pairsFuel : Nat → List α → List (α × α)
  | 0, _ => []
  | fuel + 1, level =>
    if 1 < level.length then joined level ++ pairsFuel fuel (above node level) else []

/-- The pairs that are joined in the tree over a list of leaves. -/
def pairs (leaves : List α) : List (α × α) := pairsFuel node leaves.length leaves

/-- How a root is computed: it is alone on its level, the levels below have more nodes, their pairs
are among those of the tree, and they do not repeat if the flag says so. -/
structure Computes (leaves : List α) (pairs : List (α × α)) (mutated : Bool) (height : Nat)
    (r : α) : Prop where
  top : levelAt node leaves height = [r]
  below : ∀ k < height, 1 < (levelAt node leaves k).length
  subset : ∀ k < height, joined (levelAt node leaves k) ⊆ pairs
  unrepeated : mutated = false → ∀ k < height, repeats (levelAt node leaves k) = false

theorem rootFuel_computes {fuel : Nat} {level : List α} (hne : level ≠ [])
    (hfuel : level.length ≤ fuel + 1) (mutated : Bool) :
    ∃ height r, (rootFuel node fuel level mutated).1 = some r ∧
      Computes node level (pairsFuel node fuel level)
        (rootFuel node fuel level mutated).2 height r ∧
      ((rootFuel node fuel level mutated).2 = false → mutated = false) := by
  -- a level of one node is the top
  have htop : ∀ level : List α, level ≠ [] → ¬ 1 < level.length → ∃ r, level = [r] := by
    intro level hne hlen
    rcases level with _ | ⟨r, _ | ⟨b, rest⟩⟩
    · exact absurd rfl hne
    · exact ⟨r, rfl⟩
    · exact absurd (by simp) hlen
  have hdone : ∀ (r : α) (ps : List (α × α)) (m : Bool), Computes node [r] ps m 0 r := fun r ps m =>
    ⟨rfl, fun k hk => absurd hk (Nat.not_lt_zero k), fun k hk => absurd hk (Nat.not_lt_zero k),
      fun _ k hk => absurd hk (Nat.not_lt_zero k)⟩
  induction fuel generalizing level mutated with
  | zero =>
    obtain ⟨r, rfl⟩ := htop level hne (by omega)
    exact ⟨0, r, rfl, hdone r _ _, id⟩
  | succ fuel ih =>
    by_cases hlen : 1 < level.length
    · have hlength := above_length node level
      have habove : above node level ≠ [] := length_pos_iff.mp (by omega)
      obtain ⟨height, r, hroot, hcomputes, hflag⟩ :=
        ih habove (by omega) (mutated || repeats level)
      rw [rootFuel, if_pos hlen, pairsFuel, if_pos hlen]
      refine ⟨height + 1, r, hroot, ⟨?_, fun k hk => ?_, fun k hk => ?_, fun hfalse k hk => ?_⟩,
        fun hfalse => (Bool.or_eq_false_iff.mp (hflag hfalse)).1⟩
      · rw [← levelAt_above]
        exact hcomputes.top
      · cases k with
        | zero => exact hlen
        | succ k =>
          exact hcomputes.below k (by omega)
      · cases k with
        | zero => exact subset_append_left _ _
        | succ k =>
          exact subset_append_of_subset_right _ (hcomputes.subset k (by omega))
      · cases k with
        | zero => exact (Bool.or_eq_false_iff.mp (hflag hfalse)).2
        | succ k =>
          exact hcomputes.unrepeated hfalse k (by omega)
    · obtain ⟨r, rfl⟩ := htop level hne hlen
      exact ⟨0, r, rfl, hdone r _ _, id⟩

theorem root_computes {leaves : List α} (hne : leaves ≠ []) : ∃ height r,
      (root node leaves).1 = some r ∧
      Computes node leaves (pairs node leaves) (root node leaves).2 height r := by
  obtain ⟨height, r, hroot, hcomputes, -⟩ :=
    rootFuel_computes node hne (Nat.le_succ leaves.length) false
  exact ⟨height, r, hroot, hcomputes⟩

variable {node} in
/-- The height is where the first level of one node is. -/
theorem Computes.height_eq {leaves : List α} {ps : List (α × α)} {m : Bool} {h k : Nat} {r : α}
    (hc : Computes node leaves ps m h r) (hk : (levelAt node leaves k).length = 1)
    (hbelow : ∀ j < k, 1 < (levelAt node leaves j).length) : k = h := by
  rcases Nat.lt_trichotomy k h with hlt | heq | hlt
  · have := hc.below k hlt
    omega
  · exact heq
  · have hmore := hbelow h hlt
    rw [hc.top] at hmore
    simp at hmore

end Levels

/-! ### Equal roots -/

section Injective

variable {node} {xs ys : List α} {ps qs : List (α × α)} {m m' : Bool} {h h' : Nat} {r : α}

variable (node) in
/-- Different pairs of two lists of pairs have different nodes. -/
def NoCollision (ps qs : List (α × α)) : Prop :=
  ∀ p ∈ ps, ∀ q ∈ qs, node p.1 p.2 = node q.1 q.2 → p = q

omit [DecidableEq α] in
theorem NoCollision.symm (hps : NoCollision node ps qs) : NoCollision node qs ps :=
  fun q hq p hp heq => (hps p hp q hq heq.symm).symm

/-- Levels with the same level above them are equal. -/
theorem eq_of_above_eq (hinj : NoCollision node (joined xs) (joined ys))
    (habove : above node xs = above node ys)
    (hshape : xs.length = ys.length ∨ repeats xs = false ∧ repeats ys = false) : xs = ys := by
  rw [above_eq_map, above_eq_map] at habove
  refine eq_of_joined_eq ?_ hshape
  generalize joined xs = ps at hinj habove
  generalize joined ys = qs at hinj habove
  induction ps generalizing qs with
  | nil => exact (map_eq_nil_iff.mp habove.symm).symm
  | cons p ps ih =>
    cases qs with
    | nil => cases habove
    | cons q qs =>
      obtain ⟨hhead, htail⟩ := cons.inj habove
      rw [hinj p mem_cons_self q mem_cons_self hhead, ih qs
        (fun p hp q hq => hinj p (mem_cons_of_mem _ hp) q (mem_cons_of_mem _ hq)) htail]

/-- Going down from a common root, the levels of two trees agree. -/
theorem Computes.levels_eq (hx : Computes node xs ps m h r) (hy : Computes node ys qs m' h' r)
    (hinj : NoCollision node ps qs) (hle : h ≤ h')
    (hshape : h = h' ∧ xs.length = ys.length ∨ m = false ∧ m' = false) {k : Nat} (hk : k ≤ h) :
    levelAt node xs (h - k) = levelAt node ys (h' - k) := by
  induction k with
  | zero => exact hx.top.trans hy.top.symm
  | succ k ih =>
    have hup := ih (by omega)
    have hx' : h - k = (h - (k + 1)) + 1 := by omega
    have hy' : h' - k = (h' - (k + 1)) + 1 := by omega
    rw [hx', hy', levelAt_succ, levelAt_succ] at hup
    refine eq_of_above_eq (fun p hp q hq => hinj p (hx.subset _ (by omega) hp) q
      (hy.subset _ (by omega) hq)) hup ?_
    rcases hshape with ⟨heq, hlen⟩ | ⟨hm, hm'⟩
    · left
      rw [heq]
      exact levelAt_length node hlen _
    · exact .inr ⟨hx.unrepeated hm _ (by omega), hy.unrepeated hm' _ (by omega)⟩

/-- If one tree is higher, the leaves of the other are nodes of it. -/
theorem Computes.node_of_lt (hx : Computes node xs ps m h r) (hy : Computes node ys qs m' h' r)
    (hinj : NoCollision node ps qs) (hlt : h < h') (hm : m = false) (hm' : m' = false) : ∀ a ∈ xs,
    ∃ q ∈ qs, a = node q.1 q.2 := by
  have hlevels := hx.levels_eq hy hinj (Nat.le_of_lt hlt) (.inr ⟨hm, hm'⟩) (Nat.le_refl h)
  have hsucc : h' - h = (h' - h - 1) + 1 := by omega
  rw [Nat.sub_self, hsucc, levelAt_succ, above_eq_map] at hlevels
  intro a ha
  have hmem : a ∈ (joined (levelAt node ys (h' - h - 1))).map fun p => node p.1 p.2 := by
    rw [← hlevels]
    exact ha
  obtain ⟨q, hq, rfl⟩ := mem_map.mp hmem
  exact ⟨q, hy.subset _ (by omega) hq, rfl⟩

/-- Lists with the same root are equal, if their trees do not repeat and no leaf is a node. -/
theorem eq_of_root_eq (hx : xs ≠ []) (hy : ys ≠ [])
    (hinj : NoCollision node (pairs node xs) (pairs node ys))
    (hroot : (root node xs).1 = (root node ys).1) (hm : (root node xs).2 = false)
    (hm' : (root node ys).2 = false) (hleaf : ∀ a ∈ xs, ∀ p ∈ pairs node ys, a ≠ node p.1 p.2)
    (hleaf' : ∀ a ∈ ys, ∀ p ∈ pairs node xs, a ≠ node p.1 p.2) : xs = ys := by
  obtain ⟨h, r, hr, hcomputes⟩ := root_computes node hx
  obtain ⟨h', r', hr', hcomputes'⟩ := root_computes node hy
  rw [hr, hr'] at hroot
  cases hroot
  rcases Nat.lt_trichotomy h h' with hlt | heq | hlt
  · obtain ⟨a, ha⟩ := exists_mem_of_ne_nil xs hx
    obtain ⟨q, hq, hnode⟩ := hcomputes.node_of_lt hcomputes' hinj hlt hm hm' a ha
    exact absurd hnode (hleaf a ha q hq)
  · have hlevels := hcomputes.levels_eq hcomputes' hinj (Nat.le_of_eq heq) (.inr ⟨hm, hm'⟩)
      (Nat.le_refl h)
    rwa [heq, Nat.sub_self] at hlevels
  · obtain ⟨a, ha⟩ := exists_mem_of_ne_nil ys hy
    obtain ⟨q, hq, hnode⟩ := hcomputes'.node_of_lt hcomputes hinj.symm hlt hm' hm a ha
    exact absurd hnode (hleaf' a ha q hq)

/-- Lists of the same length with the same root are equal. -/
theorem eq_of_root_eq_of_length (hlen : xs.length = ys.length)
    (hinj : NoCollision node (pairs node xs) (pairs node ys))
    (hroot : (root node xs).1 = (root node ys).1) : xs = ys := by
  by_cases hx : xs = []
  · rw [hx] at hlen ⊢
    exact (eq_nil_of_length_eq_zero hlen.symm).symm
  have hy : ys ≠ [] := by
    rintro rfl
    exact hx (eq_nil_of_length_eq_zero hlen)
  obtain ⟨h, r, hr, hcomputes⟩ := root_computes node hx
  obtain ⟨h', r', hr', hcomputes'⟩ := root_computes node hy
  rw [hr, hr'] at hroot
  cases hroot
  have hheight : h = h' := by
    refine hcomputes'.height_eq ?_ fun j hj => ?_
    · rw [← levelAt_length node hlen, hcomputes.top]
      rfl
    · rw [← levelAt_length node hlen]
      exact hcomputes.below j hj
  have hlevels := hcomputes.levels_eq hcomputes' hinj (Nat.le_of_eq hheight) (.inl ⟨hheight, hlen⟩)
    (Nat.le_refl h)
  rwa [hheight, Nat.sub_self] at hlevels

end Injective

/-! ### Nodes that are their left child -/

section Left

variable {node} (hleft : ∀ a b, node a b = a)

include hleft

omit [DecidableEq α] in
theorem above_sublist (level : List α) : (above node level).Sublist level := by
  induction level using above.induct with
  | case1 => exact .slnil
  | case2 a =>
    rw [above, hleft]
  | case3 a b rest ih =>
    rw [above, hleft]
    exact (ih.cons b).cons_cons a

omit [DecidableEq α] in
theorem head?_above (level : List α) : (above node level).head? = level.head? := by
  rcases level with _ | ⟨a, _ | ⟨b, rest⟩⟩
  · rfl
  · rw [above, hleft]
  · rw [above, hleft, head?_cons, head?_cons]

omit hleft in
theorem repeats_of_nodup {level : List α} (h : level.Nodup) : repeats level = false := by
  induction level using above.induct with
  | case1 => rfl
  | case2 a => rfl
  | case3 a b rest ih =>
    obtain ⟨ha, hrest⟩ := nodup_cons.mp h
    have hne : a ≠ b := fun hab => ha (hab ▸ mem_cons_self)
    rw [repeats, ih (nodup_cons.mp hrest).2, decide_eq_false hne, Bool.or_false]

/-- The root over different leaves is the first of them, and no level repeats. -/
theorem root_eq_head {leaves : List α} (h : leaves.Nodup) : root node leaves =
    (leaves.head?, false) := by
  have hfuel : ∀ (fuel : Nat) (level : List α), level.Nodup →
      rootFuel node fuel level false = (level.head?, false) := by
    intro fuel
    induction fuel with
    | zero => exact fun _ _ => rfl
    | succ fuel ih =>
      intro level hlevel
      rw [rootFuel, repeats_of_nodup hlevel, Bool.or_false,
        ih _ ((above_sublist hleft level).nodup hlevel), head?_above hleft, ite_self]
  exact hfuel _ _ h

end Left

end Tessera.Lib.Merkle
