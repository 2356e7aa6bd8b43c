import Mathlib.Algebra.Order.BigOperators.Group.List
import Mathlib.Data.List.Perm.Subperm
import Tessera.Lib.SubsetSearch

/-!
# Selections from a list

A search works on indices. Here a selection of indices chooses a sublist, every sublist is chosen by
one, and the sums over a selection are those over what it chooses.

## Main definitions

* `chosen` : what a selection chooses from a list.
* `total` : the sum of a number over a selection.
* `behind` : the selection of all indices from one on.

## Main results

* `chosen_sublist`, `exists_chosen` : selections and sublists.
* `total_le_drop` : indices from one on add up to at most the rest of the list.
-/

namespace Tessera.Lib.SubsetSearch

open List

variable {α : Type} (l : List α) (f : α → Int)

/-- The elements at the indices of a selection, the first one first. -/
def chosen (S : List Nat) : List α := S.reverse.filterMap fun i => l[i]?

/-- A number of the element at an index. -/
def valueAt (i : Nat) : Int := (l[i]?.map f).getD 0

/-- The sum of a number over a selection. -/
def total (S : List Nat) : Int := (S.map (valueAt l f)).sum

/-- All indices from `k` on, the last one first. -/
def behind (k : Nat) : List Nat := (List.range' k (l.length - k)).reverse

variable {l f} {S T : List Nat} {i k : Nat}

theorem valueAt_of_lt (h : i < l.length) : valueAt l f i = f l[i] := by
  rw [valueAt, getElem?_eq_getElem h, Option.map_some, Option.getD_some]

theorem valueAt_nonneg (hf : ∀ a ∈ l, 0 ≤ f a) (i : Nat) : 0 ≤ valueAt l f i := by
  by_cases h : i < l.length
  · rw [valueAt_of_lt h]
    exact hf _ (getElem_mem h)
  · rw [valueAt, getElem?_eq_none (not_lt.mp h)]
    exact le_refl 0

@[simp] theorem total_nil : total l f [] = 0 := rfl

@[simp] theorem total_cons : total l f (i :: S) = valueAt l f i + total l f S := by
  rw [total, map_cons, sum_cons, total]

@[simp] theorem total_append : total l f (S ++ T) = total l f S + total l f T := by
  rw [total, map_append, sum_append, total, total]

/-! ### Bounds -/

theorem total_nonneg (hf : ∀ a ∈ l, 0 ≤ f a) (S : List Nat) : 0 ≤ total l f S :=
  sum_nonneg (forall_mem_map.mpr fun i _ => valueAt_nonneg hf i)

theorem total_pos (hf : ∀ a ∈ l, 0 < f a) (hS : IsSelection l.length S) (hne : S ≠ []) : 0 <
    total l f S := by
  cases S with
  | nil => exact absurd rfl hne
  | cons i S =>
    have hi : 0 < valueAt l f i := by
      rw [valueAt_of_lt (hS.2 i mem_cons_self)]
      exact hf _ (getElem_mem _)
    have hS := total_nonneg (fun a ha => le_of_lt (hf a ha)) S
    rw [total_cons]
    omega

theorem total_le_length_mul {b : Int} (h : ∀ i ∈ S, valueAt l f i ≤ b) : total l f S ≤
    S.length * b := by
  simpa [total] using sum_le_card_nsmul _ b (forall_mem_map.mpr h)

theorem length_mul_le_total {b : Int} (h : ∀ i ∈ S, b ≤ valueAt l f i) : S.length * b ≤
    total l f S := by
  simpa [total] using card_nsmul_le_sum _ b (forall_mem_map.mpr h)

theorem total_perm (h : S.Perm T) : total l f S = total l f T := (h.map _).sum_eq

theorem total_le_of_sublist (hf : ∀ a ∈ l, 0 ≤ f a) (h : S.Sublist T) : total l f S ≤ total l f T :=
  (h.map _).sum_le_sum (forall_mem_map.mpr fun i _ => valueAt_nonneg hf i)

theorem total_behind (k : Nat) : total l f (behind l k) = ((l.drop k).map f).sum := by
  have hmap : (range' k (l.length - k)).map (valueAt l f) = (l.drop k).map f := by
    apply ext_getElem
    · simp
    intro i h _
    have hi : k + i < l.length := by
      rw [length_map, length_range'] at h
      omega
    simp [valueAt_of_lt hi]
  rw [behind, total_perm (reverse_perm _), total, hmap]

theorem isSelection_behind (k : Nat) : IsSelection l.length (behind l k) := by
  refine ⟨pairwise_reverse.mpr (pairwise_lt_range' ..), fun i hi => ?_⟩
  rw [behind, mem_reverse, mem_range'_1] at hi
  omega

theorem le_of_mem_behind (hi : i ∈ behind l k) : k ≤ i := by
  rw [behind, mem_reverse, mem_range'_1] at hi
  exact hi.1

/-- A selection with all that is behind its last index. -/
theorem IsSelection.behind_append {last : Nat} {rest : List Nat}
    (h : IsSelection l.length (last :: rest)) :
    IsSelection l.length (behind l (last + 1) ++ last :: rest) := by
  have hbehind := isSelection_behind (l := l) (last + 1)
  refine ⟨pairwise_append.mpr ⟨hbehind.1, h.1, fun i hi j hj => ?_⟩, fun i hi => ?_⟩
  · have hlast := le_of_mem_behind hi
    rcases mem_cons.mp hj with rfl | hj
    · exact hlast
    · exact ((isSelection_cons.mp h).2.2 j hj).trans hlast
  · rcases mem_append.mp hi with hi | hi
    · exact hbehind.2 i hi
    · exact h.2 i hi

/-- Indices from `k` on are among all of them. -/
theorem IsSelection.subperm_behind (hT : IsSelection l.length T) (hk : ∀ i ∈ T, k ≤ i) :
    T.Subperm (behind l k) := by
  have hnodup : T.Nodup := hT.1.imp fun h => ne_of_gt h
  refine hnodup.subperm fun i hi => ?_
  have := hT.2 i hi
  have := hk i hi
  rw [behind, mem_reverse, mem_range'_1]
  omega

theorem total_le_drop (hf : ∀ a ∈ l, 0 ≤ f a) (hT : IsSelection l.length T) (hk : ∀ i ∈ T, k ≤ i) :
    total l f T ≤ ((l.drop k).map f).sum := by
  obtain ⟨T', hperm, hsub⟩ := hT.subperm_behind hk
  rw [← total_perm hperm, ← total_behind]
  exact total_le_of_sublist hf hsub

theorem total_le_sum (hf : ∀ a ∈ l, 0 ≤ f a) (hS : IsSelection l.length S) : total l f S ≤
    (l.map f).sum := by
  have h := total_le_drop hf hS fun i _ => Nat.zero_le i
  rwa [drop_zero] at h

/-! ### Sublists -/

theorem chosen_cons (i : Nat) (S : List Nat) : chosen l (i :: S) = chosen l S ++
    (l[i]?).toList := by
  rw [chosen, chosen]
  cases h : l[i]? with
  | none => simp [h]
  | some a => simp [h]

theorem sum_chosen (S : List Nat) : ((chosen l S).map f).sum = total l f S := by
  induction S with
  | nil => rfl
  | cons i S ih =>
    rw [chosen_cons, map_append, sum_append, ih, total_cons, valueAt, add_comm]
    cases l[i]? with
    | none => rfl
    | some a => simp

/-- The indices of a selection, in the order of the list, choose what the selection chooses. -/
theorem chosen_reverse_map_val (indices : List (Fin l.length)) :
    chosen l (indices.map Fin.val).reverse = indices.map (l[·]) := by
  rw [chosen]
  induction indices with
  | nil => rfl
  | cons i indices _ => simp

theorem chosen_sublist (hS : IsSelection l.length S) : (chosen l S).Sublist l := by
  -- the same indices, with their bounds
  obtain ⟨indices, hval⟩ : ∃ indices : List (Fin l.length), indices.map Fin.val = S.reverse :=
    ⟨S.reverse.pmap Fin.mk fun i hi => hS.2 i (mem_reverse.mp hi), by simp [map_pmap]⟩
  have hlt : (indices.map Fin.val).Pairwise (· < ·) := by
    rw [hval]
    exact pairwise_reverse.mpr hS.1
  rw [← reverse_reverse S, ← hval, chosen_reverse_map_val]
  exact map_getElem_sublist ((pairwise_map (f := Fin.val)).mp hlt)

theorem exists_chosen {l' : List α} (h : l'.Sublist l) : ∃ S, IsSelection l.length S ∧
    chosen l S = l' := by
  obtain ⟨indices, rfl, hlt⟩ := sublist_eq_map_getElem h
  refine ⟨(indices.map Fin.val).reverse, ⟨?_, ?_⟩, chosen_reverse_map_val indices⟩
  · exact pairwise_reverse.mpr (pairwise_map.mpr hlt)
  · intro i hi
    obtain ⟨j, -, rfl⟩ := mem_map.mp (mem_reverse.mp hi)
    exact j.2

/-- A part of a list, in any order, has the sums of a selection. -/
theorem exists_total {l' : List α} (h : l'.Subperm l) :
    ∃ S, IsSelection l.length S ∧ ∀ f : α → Int, total l f S = (l'.map f).sum := by
  obtain ⟨l'', hperm, hsub⟩ := h
  obtain ⟨S, hS, rfl⟩ := exists_chosen hsub
  exact ⟨S, hS, fun f => by rw [← sum_chosen, (hperm.map f).sum_eq]⟩

end Tessera.Lib.SubsetSearch
