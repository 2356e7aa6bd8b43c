import Mathlib.Data.List.Nodup

/-!
# Partial maps

Maps `K → Option V`, with the operations by which a batch of changes acts on one: some keys are
removed, and others get new values.

## Main definitions

* `overlay N M`: the values of `N`, and those of `M` where `N` has none.
* `without M ks`: the map without some keys.
* `erased M N`: the map without the keys of another map.
* `ofList kvs`: the map that a list of entries stands for.
* `Sub N M`: every entry of `N` is one of `M`.
* `IsPatch f`: at every key, the operation `f` on maps sets a value of its own or leaves the map
  alone.
-/

namespace Tessera.Lib.PartialMap

open Function List

variable {K V : Type}

/-- The values of `N`, and those of `M` where `N` has none. -/
def overlay (N M : K → Option V) : K → Option V := fun k => (N k).or (M k)

/-- The map without the keys of another one. -/
def erased (M N : K → Option V) : K → Option V := fun k => if (N k).isSome then none else M k

/-- Every entry of a map is one of another. -/
def Sub (N M : K → Option V) : Prop := ∀ k v, N k = some v → M k = some v

variable {M M' N L : K → Option V} {k : K} {v : V}

theorem overlay_of_some (h : N k = some v) : overlay N M k = some v := by
  simp [overlay, h]

theorem overlay_of_none (h : N k = none) : overlay N M k = M k := by
  simp [overlay, h]

theorem erased_of_some (h : N k = some v) : erased M N k = none := by
  simp [erased, h]

theorem erased_of_none (h : N k = none) : erased M N k = M k := by
  simp [erased, h]

theorem Sub.refl (M : K → Option V) : Sub M M := fun _ _ h => h

/-- Erasing what was laid over a map gives the map back, if nothing was hidden. -/
theorem erased_overlay (h : ∀ k v, N k = some v → M k = none) : erased (overlay N M) N = M := by
  funext k
  cases hN : N k with
  | none => rw [erased_of_none hN, overlay_of_none hN]
  | some v => rw [erased_of_some hN, h k v hN]

theorem Sub.overlay (h : Sub M M') (N : K → Option V) : Sub (overlay N M)
    (PartialMap.overlay N M') := by
  intro k v hv
  cases hN : N k with
  | some u => rwa [overlay_of_some hN] at hv ⊢
  | none =>
    rw [overlay_of_none hN] at hv ⊢
    exact h k v hv

variable [DecidableEq K]

/-- The map without some keys. -/
def without (M : K → Option V) (ks : List K) : K → Option V := fun k => if k ∈ ks then none else M k

/-- The map of a list of entries. -/
def ofList (kvs : List (K × V)) : K → Option V := fun k => (kvs.find? fun p => p.1 = k).map Prod.snd

variable {ks : List K}

theorem without_of_mem (h : k ∈ ks) : without M ks k = none := if_pos h

theorem without_of_not_mem (h : k ∉ ks) : without M ks k = M k := if_neg h

theorem without_nil (M : K → Option V) : without M [] = M := by
  funext k
  exact without_of_not_mem (not_mem_nil)

theorem without_cons (M : K → Option V) (k : K) (ks : List K) :
    without M (k :: ks) = without (update M k none) ks := by
  funext k'
  by_cases hk : k' = k
  · subst hk
    rw [without_of_mem mem_cons_self]
    by_cases hmem : k' ∈ ks
    · rw [without_of_mem hmem]
    · rw [without_of_not_mem hmem, update_self]
  · by_cases hmem : k' ∈ ks
    · rw [without_of_mem hmem, without_of_mem (mem_cons_of_mem k hmem)]
    · have hcons : k' ∉ k :: ks := by simp [hk, hmem]
      rw [without_of_not_mem hmem, without_of_not_mem hcons, update_of_ne hk]

theorem Sub.without (h : Sub M M') (ks : List K) : Sub (without M ks)
    (PartialMap.without M' ks) := by
  intro k v hv
  by_cases hk : k ∈ ks
  · rw [without_of_mem hk] at hv
    cases hv
  · rw [without_of_not_mem hk] at hv ⊢
    exact h k v hv

/-- Setting a key in the upper map sets it in the lower one, if the upper map did not have it. -/
theorem overlay_update (hk : N k = none) (v : V) :
    overlay (update N k (some v)) M = overlay N (update M k (some v)) := by
  funext k'
  by_cases heq : k' = k
  · subst heq
    rw [overlay_of_none hk, update_self]
    exact overlay_of_some (update_self ..)
  · simp [overlay, update_of_ne heq]

theorem erased_update (hk : N k = none) (v : V) : erased M (update N k (some v)) =
    erased (update M k none) N := by
  funext k'
  by_cases heq : k' = k
  · subst heq
    rw [erased_of_none hk, update_self]
    exact erased_of_some (update_self ..)
  · simp [erased, update_of_ne heq]

/-- A map with one more entry is part of another if that has the entry, and the rest without it. -/
theorem sub_update_iff (hk : N k = none) :
    Sub (update N k (some v)) M ↔ M k = some v ∧ Sub N (update M k none) := by
  constructor
  · intro h
    refine ⟨h k v (update_self ..), fun k' v' hv' => ?_⟩
    have hne : k' ≠ k := by
      rintro rfl
      rw [hk] at hv'
      cases hv'
    rw [update_of_ne hne]
    exact h k' v' (by rwa [update_of_ne hne])
  · rintro ⟨hhead, htail⟩ k' v' hv'
    by_cases heq : k' = k
    · subst heq
      rw [update_self] at hv'
      rw [hhead, hv']
    · rw [update_of_ne heq] at hv'
      have := htail k' v' hv'
      rwa [update_of_ne heq] at this

variable {kvs : List (K × V)}

theorem ofList_eq_some (h : ofList kvs k = some v) : (k, v) ∈ kvs := by
  obtain ⟨p, hp, hv⟩ := Option.map_eq_some_iff.mp h
  have hk : p.1 = k := by simpa using find?_some hp
  have hmem := mem_of_find?_eq_some hp
  rw [← hk, ← hv]
  exact hmem

theorem ofList_eq_none_iff : ofList kvs k = none ↔ k ∉ kvs.map Prod.fst := by
  rw [ofList, Option.map_eq_none_iff, find?_eq_none]
  constructor
  · intro h hmem
    obtain ⟨p, hp, hk⟩ := mem_map.mp hmem
    exact h p hp (by simpa using hk)
  · intro h p hp hk
    exact h (mem_map.mpr ⟨p, hp, by simpa using hk⟩)

/-- Laying a list of entries over a map sets them one by one. -/
theorem overlay_ofList_cons (hk : k ∉ kvs.map Prod.fst) :
    overlay (ofList ((k, v) :: kvs)) M = overlay (ofList kvs) (update M k (some v)) := by
  funext k'
  by_cases heq : k' = k
  · subst heq
    rw [overlay_of_none (ofList_eq_none_iff.mpr hk), update_self]
    exact overlay_of_some (by simp [ofList])
  · have hof : ofList ((k, v) :: kvs) k' = ofList kvs k' := by
      simp [ofList, Ne.symm heq]
    simp [overlay, hof, update_of_ne heq]

/-- Putting entries of a map back after their keys were removed. -/
theorem overlay_ofList_without (h : ∀ p ∈ kvs, M p.1 = some p.2)
    (hks : ∀ k, k ∈ ks ↔ k ∈ kvs.map Prod.fst) : overlay (ofList kvs) (without M ks) = M := by
  funext k
  cases hk : ofList kvs k with
  | none =>
    rw [overlay_of_none hk, without_of_not_mem
      (fun hmem => ofList_eq_none_iff.mp hk ((hks k).mp hmem))]
  | some v => rw [overlay_of_some hk, h (k, v) (ofList_eq_some hk)]

/-! ### Patches -/

section Patch

variable {α : Type}

/-- An operation on maps that sets some keys to values of its own and leaves the others alone. -/
def IsPatch (f : (K → α) → K → α) : Prop := ∀ k, (∀ M N, f M k = f N k) ∨ ∀ M, f M k = M k

omit [DecidableEq K] in
theorem isPatch_id : IsPatch (fun M : K → α => M) := fun _ => .inr fun _ => rfl

omit [DecidableEq K] in
theorem IsPatch.comp {f g : (K → α) → K → α} (hf : IsPatch f) (hg : IsPatch g) :
    IsPatch fun M => g (f M) := by
  intro k
  rcases hg k with hconst | hleft
  · exact .inl fun M N => hconst _ _
  · simp only [hleft]
    exact hf k

omit [DecidableEq K] in
/-- A map that is partly what a patch started from and partly what the next patch leads to: the two
patches lead there from it too. -/
theorem IsPatch.of_mixture {f g : (K → α) → K → α} (hf : IsPatch f) (hg : IsPatch g) {A B M : K → α}
    (hB : g (f A) = B) (hM : ∀ k, M k = A k ∨ M k = B k) : g (f M) = B := by
  funext k
  have hBk : g (f A) k = B k := congrFun hB k
  rcases hg k with hconst | hleft
  · rw [hconst (f M) (f A), hBk]
  rw [hleft] at hBk ⊢
  rcases hf k with hconst | hleft'
  · rw [hconst M A, hBk]
  rw [hleft'] at hBk ⊢
  rcases hM k with hk | hk
  · rw [hk, hBk]
  · exact hk

end Patch

omit [DecidableEq K] in
theorem isPatch_overlay (N : K → Option V) : IsPatch (overlay N) := by
  intro k
  cases hN : N k with
  | some v => exact .inl fun M M' => by rw [overlay_of_some hN, overlay_of_some hN]
  | none => exact .inr fun M => overlay_of_none hN

theorem isPatch_overlay_without (N : K → Option V) (ks : List K) : IsPatch fun M =>
    overlay N (without M ks) := by
  refine IsPatch.comp (fun k => ?_) (isPatch_overlay N)
  by_cases hk : k ∈ ks
  · exact .inl fun M M' => by rw [without_of_mem hk, without_of_mem hk]
  · exact .inr fun M => without_of_not_mem hk

omit [DecidableEq K] in
theorem isPatch_overlay_erased (N L : K → Option V) : IsPatch fun M => overlay N (erased M L) := by
  refine IsPatch.comp (fun k => ?_) (isPatch_overlay N)
  cases hL : L k with
  | some v => exact .inl fun M M' => by rw [erased_of_some hL, erased_of_some hL]
  | none => exact .inr fun M => erased_of_none hL

end Tessera.Lib.PartialMap
