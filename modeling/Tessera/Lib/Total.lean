import Mathlib.Algebra.BigOperators.Finprod
import Tessera.Lib.PartialMap

/-!
# Totals of partial maps

The sum of the weights of all entries of a map with finitely many keys, and how it changes when a
batch of entries is removed or laid over the map.

## Main definitions

* `keys M`: the keys that have a value.
* `total w M`: the sum of the weights of the values.
-/

namespace Tessera.Lib.PartialMap

open Function

variable {K V : Type}

/-- The keys that have a value. -/
def keys (M : K → Option V) : Set K := {k | (M k).isSome}

/-- The weight of the value of a key, zero if there is none. -/
def weightAt (w : V → ℤ) (M : K → Option V) (k : K) : ℤ := (M k).elim 0 w

/-- The sum of the weights of all values. -/
noncomputable def total (w : V → ℤ) (M : K → Option V) : ℤ := ∑ᶠ k, weightAt w M k

variable {w : V → ℤ} {M N : K → Option V}

theorem mem_keys {k : K} : k ∈ keys M ↔ (M k).isSome := Iff.rfl

theorem weightAt_of_some {k : K} {v : V} (h : M k = some v) : weightAt w M k = w v := by
  simp [weightAt, h]

theorem weightAt_of_none {k : K} (h : M k = none) : weightAt w M k = 0 := by
  simp [weightAt, h]

theorem weightAt_nonneg (hM : ∀ k v, M k = some v → 0 ≤ w v) (k : K) : 0 ≤ weightAt w M k := by
  cases hk : M k with
  | none => rw [weightAt_of_none hk]
  | some v =>
    rw [weightAt_of_some hk]
    exact hM k v hk

/-- The total is a sum over any finite set that has all keys. -/
theorem total_eq_sum {S : Finset K} (hS : keys M ⊆ S) : total w M = ∑ k ∈ S, weightAt w M k := by
  refine finsum_eq_sum_of_support_subset _ fun k hk => hS ?_
  rw [mem_keys, Option.isSome_iff_ne_none]
  intro hnone
  exact hk (weightAt_of_none hnone)

@[simp] theorem keys_none : keys (fun _ : K => (none : Option V)) = ∅ := by
  ext k
  simp [mem_keys]

@[simp] theorem total_none : total w (fun _ : K => none) = 0 := by
  rw [total_eq_sum (S := ∅) (by simp), Finset.sum_empty]

theorem total_nonneg (hM : ∀ k v, M k = some v → 0 ≤ w v) : 0 ≤ total w M :=
  finsum_nonneg (weightAt_nonneg hM)

theorem keys_subset_of_sub (h : Sub N M) : keys N ⊆ keys M := by
  intro k hk
  obtain ⟨v, hv⟩ := Option.isSome_iff_exists.mp (mem_keys.mp hk)
  rw [mem_keys, h k v hv]
  rfl

theorem keys_overlay_subset : keys (overlay N M) ⊆ keys N ∪ keys M := by
  intro k hk
  cases hN : N k with
  | some v => exact .inl (by rw [mem_keys, hN]; rfl)
  | none =>
    right
    rwa [mem_keys, overlay_of_none hN] at hk

/-- A map with fewer entries has a smaller total. -/
theorem total_le_of_sub (hfin : (keys M).Finite) (hM : ∀ k v, M k = some v → 0 ≤ w v)
    (h : Sub N M) : total w N ≤ total w M := by
  have hS : keys M ⊆ hfin.toFinset := by simp
  rw [total_eq_sum ((keys_subset_of_sub h).trans hS), total_eq_sum hS]
  refine Finset.sum_le_sum fun k _ => ?_
  cases hN : N k with
  | none =>
    rw [weightAt_of_none hN]
    exact weightAt_nonneg hM k
  | some v => rw [weightAt_of_some hN, weightAt_of_some (h k v hN)]

/-- Entries that are laid over a map add at most their total. -/
theorem total_overlay_le (hN : (keys N).Finite) (hM : (keys M).Finite)
    (hw : ∀ k v, M k = some v → 0 ≤ w v) : total w (overlay N M) ≤ total w N + total w M := by
  have hboth : keys N ∪ keys M ⊆ ↑(hN.union hM).toFinset := by simp
  rw [total_eq_sum (keys_overlay_subset.trans hboth),
    total_eq_sum (Set.subset_union_left.trans hboth),
    total_eq_sum (Set.subset_union_right.trans hboth), ← Finset.sum_add_distrib]
  refine Finset.sum_le_sum fun k _ => ?_
  have hnonneg := weightAt_nonneg hw k
  cases hk : N k with
  | some v =>
    rw [weightAt_of_some hk, weightAt_of_some (overlay_of_some hk)]
    omega
  | none =>
    rw [weightAt_of_none hk, weightAt, overlay_of_none hk]
    simp [weightAt]

variable [DecidableEq K]

theorem keys_update_finite (hfin : (keys M).Finite) (k : K) (x : Option V) :
    (keys (update M k x)).Finite := by
  refine (hfin.insert k).subset fun k' hk' => ?_
  by_cases heq : k' = k
  · exact .inl heq
  · right
    rwa [mem_keys, update_of_ne heq] at hk'

/-- One value more adds at most its weight. -/
theorem total_update_le (hfin : (keys M).Finite) (hM : ∀ k v, M k = some v → 0 ≤ w v) (k : K)
    (x : Option V) : total w (update M k x) ≤ x.elim 0 w + total w M := by
  have hweights : weightAt w (update M k x) = update (weightAt w M) k (x.elim 0 w) := by
    funext k'
    by_cases heq : k' = k
    · subst heq
      simp [weightAt]
    · simp [weightAt, update_of_ne heq]
  have hS : keys M ⊆ ↑(insert k hfin.toFinset) := by simp
  have hS' : keys (update M k x) ⊆ ↑(insert k hfin.toFinset) := by
    intro k' hk'
    by_cases heq : k' = k
    · simp [heq]
    · rw [mem_keys, update_of_ne heq] at hk'
      exact hS hk'
  rw [total_eq_sum hS', total_eq_sum hS, hweights,
    Finset.sum_update_of_mem (Finset.mem_insert_self k _)]
  refine Int.add_le_add_left ?_ _
  exact Finset.sum_le_sum_of_subset_of_nonneg Finset.sdiff_subset
    fun k' _ _ => weightAt_nonneg hM k'

theorem sub_without (M : K → Option V) (ks : List K) : Sub (without M ks) M := by
  intro k v h
  by_cases hk : k ∈ ks
  · rw [without_of_mem hk] at h
    cases h
  · rwa [without_of_not_mem hk] at h

/-- Keys that are removed take the weights of their values with them. -/
theorem total_without {ks : List K} (hnodup : ks.Nodup) (hfin : (keys M).Finite) :
    total w (without M ks) + (ks.map (weightAt w M)).sum = total w M := by
  have hS : keys M ⊆ ↑(hfin.toFinset ∪ ks.toFinset) := by
    intro k hk
    simp [hk]
  have hks : ks.toFinset ⊆ hfin.toFinset ∪ ks.toFinset := Finset.subset_union_right
  rw [total_eq_sum ((keys_subset_of_sub (sub_without M ks)).trans hS), total_eq_sum hS,
    ← List.sum_toFinset _ hnodup, ← Finset.sum_sdiff hks]
  -- outside the removed keys nothing changes, and on them nothing is left
  have hrest : ∑ k ∈ (hfin.toFinset ∪ ks.toFinset) \ ks.toFinset, weightAt w (without M ks) k =
      ∑ k ∈ (hfin.toFinset ∪ ks.toFinset) \ ks.toFinset, weightAt w M k := by
    refine Finset.sum_congr rfl fun k hk => ?_
    have hnot : k ∉ ks := by simpa using (Finset.mem_sdiff.mp hk).2
    simp [weightAt, without_of_not_mem hnot]
  have hgone : ∑ k ∈ ks.toFinset, weightAt w (without M ks) k = 0 := by
    refine Finset.sum_eq_zero fun k hk => ?_
    exact weightAt_of_none (without_of_mem (List.mem_toFinset.mp hk))
  rw [hrest, hgone, add_zero, ← Finset.sum_sdiff hks]

end Tessera.Lib.PartialMap
