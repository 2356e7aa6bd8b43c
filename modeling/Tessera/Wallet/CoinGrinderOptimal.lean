import Tessera.Wallet.SelectionSearch

/-!
# The lightest selection is found

A selection is feasible if it reaches the target within the maximum weight. What `CoinGrinder`
leaves out of its search is no better than the best selection so far: it does not reach the target,
it is heavier, or it has a group in the place of a lighter one of the same amount.
-/

namespace Tessera.Wallet

open Lib.SubsetSearch Tx Validation OutputGroup CoinGrinder List Option

variable {pool : List OutputGroup} {target : Int} {tail : Nat} {maxWeight : Int} {best : Lightest}
  {rest : List Nat}

private theorem descendingEffvalWeight_eq_false_iff {a b : OutputGroup} :
    descendingEffvalWeight b a = false ↔ b.getSelectionAmount ≤ a.getSelectionAmount ∧
      (a.getSelectionAmount = b.getSelectionAmount → a.weight ≤ b.weight) := by
  unfold descendingEffvalWeight
  split
  · rw [decide_eq_false_iff_not]
    omega
  · rw [decide_eq_false_iff_not]
    omega

namespace CoinGrinder

/-- A pool in the order in which `CoinGrinder` searches it. -/
structure Searchable (pool : List OutputGroup) : Prop where
  sorted : pool.Pairwise fun a b => descendingEffvalWeight b a = false
  amount_pos : ∀ group ∈ pool, 0 < group.getSelectionAmount
  weight_pos : ∀ group ∈ pool, 0 < group.weight
  amount_lt : amountOf pool < maxMoney

namespace Searchable

variable (hpool : Searchable pool) {i j : Nat}

include hpool

theorem amount_nonneg : ∀ group ∈ pool, 0 ≤ group.getSelectionAmount :=
  fun group hgroup => le_of_lt (hpool.amount_pos group hgroup)

theorem weight_nonneg : ∀ group ∈ pool, 0 ≤ group.weight :=
  fun group hgroup => le_of_lt (hpool.weight_pos group hgroup)

private theorem valueAt_amount_pos (hi : i < pool.length) : 0 <
    valueAt pool getSelectionAmount i := by
  rw [valueAt_of_lt hi]
  exact hpool.amount_pos _ (getElem_mem hi)

theorem ordered (hij : i < j) (hj : j < pool.length) :
    valueAt pool getSelectionAmount j ≤ valueAt pool getSelectionAmount i ∧
      (valueAt pool getSelectionAmount i = valueAt pool getSelectionAmount j →
        valueAt pool weight i ≤ valueAt pool weight j) := by
  have hi := hij.trans hj
  rw [valueAt_of_lt hi, valueAt_of_lt hj, valueAt_of_lt hi, valueAt_of_lt hj]
  exact descendingEffvalWeight_eq_false_iff.mp (pairwise_iff_getElem.mp hpool.sorted i j hi hj hij)

omit hpool in
private theorem minTail_le (hij : i < j) (hj : j < pool.length) :
    (minTailWeights pool).1.getD i 0 ≤ valueAt pool weight j := by
  rw [minTailWeights_fst_getD (hij.trans hj), valueAt_of_lt hj]
  apply minTailWeights_snd_le
  rw [mem_drop_iff_getElem]
  exact ⟨j - (i + 1), by omega, by congr 1; omega⟩

private theorem minTail_nonneg (hi : i < pool.length) : 0 ≤ (minTailWeights pool).1.getD i 0 := by
  rw [minTailWeights_fst_getD hi]
  apply le_of_lt
  exact minTailWeights_snd_pos fun group hgroup => hpool.weight_pos group (mem_of_mem_drop hgroup)

private theorem total_lt {S : List Nat} (hS : IsSelection pool.length S) :
    total pool getSelectionAmount S < maxMoney :=
  lt_of_le_of_lt (total_le_sum hpool.amount_nonneg hS) hpool.amount_lt

end Searchable

/-! ### The estimate -/

section Estimate

variable (hpool : Searchable pool) {s : Selection pool}
  (htail : tail < pool.length) (hmissing : s.amount < target)

include hpool htail hmissing

/-- No more groups are counted than are needed if each has the amount of the last one. -/
theorem estimate_le_mul {n : Int}
    (hn : target - s.amount ≤ n * valueAt pool getSelectionAmount tail) :
    estimate target s tail ≤ (minTailWeights pool).1.getD tail 0 * n := by
  have hpos := hpool.valueAt_amount_pos htail
  apply Int.mul_le_mul_of_nonneg_left _ (hpool.minTail_nonneg htail)
  rw [Int.tdiv_eq_ediv_of_nonneg (by omega)]
  apply Int.le_of_lt_add_one
  apply Int.ediv_lt_of_lt_mul hpos
  rw [add_mul]
  omega

variable {T : List Nat} (hT : ∀ i ∈ T, tail < i) (hsize : ∀ i ∈ T, i < pool.length)

include hT hsize

/-- Groups that make up for what is missing weigh as much as the estimate. -/
theorem estimate_le_total (hreach : target - s.amount ≤ total pool getSelectionAmount T) :
    estimate target s tail ≤ total pool weight T := by
  have hamount := total_le_length_mul fun i hi => (hpool.ordered (hT i hi) (hsize i hi)).1
  have hweight := length_mul_le_total fun i hi => Searchable.minTail_le (hT i hi) (hsize i hi)
  have hestimate := estimate_le_mul hpool htail hmissing (le_trans hreach hamount)
  rw [mul_comm] at hestimate
  exact le_trans hestimate hweight

/-- Groups that also make up for the last one weigh as much as one more group. -/
theorem estimate_add_le_total
    (hreach : target - s.amount + valueAt pool getSelectionAmount tail ≤
      total pool getSelectionAmount T) :
    estimate target s tail + (minTailWeights pool).1.getD tail 0 ≤ total pool weight T := by
  have hamount := total_le_length_mul fun i hi => (hpool.ordered (hT i hi) (hsize i hi)).1
  have hweight := length_mul_le_total fun i hi => Searchable.minTail_le (hT i hi) (hsize i hi)
  have hestimate : estimate target s tail ≤ (minTailWeights pool).1.getD tail 0 *
      (T.length - 1) := by
    apply estimate_le_mul hpool htail hmissing
    rw [sub_mul]
    omega
  rw [mul_comm, sub_mul] at hestimate
  omega

end Estimate

/-! ### What is left out is covered -/

section Prunes

variable (pool) (target maxWeight)

/-- A selection that reaches the target within the maximum weight. -/
def Feasible (S : List Nat) : Prop :=
  target ≤ total pool getSelectionAmount S ∧ total pool weight S ≤ maxWeight

/-- The best selection so far is lighter than another one, or as light with no more amount. -/
def Covers (best : Lightest) (S : List Nat) : Prop :=
  best.selection ≠ [] ∧ (best.weight < total pool weight S ∨
    best.weight = total pool weight S ∧ best.amount ≤ total pool getSelectionAmount S)

/-- What is known of the best selection so far. -/
structure Good (best : Lightest) : Prop where
  isSelection : IsSelection pool.length best.selection
  start : best.selection = [] → best.weight = maxWeight ∧ best.amount = maxMoney
  found : best.selection ≠ [] → Feasible pool target maxWeight best.selection ∧
    best.weight = total pool weight best.selection ∧
    best.amount = total pool getSelectionAmount best.selection

variable {pool target maxWeight} {best' : Lightest} {S T : List Nat} {s : Selection pool}
  {d : Decision}

theorem Good.weight_le (hgood : Good pool target maxWeight best) : best.weight ≤ maxWeight := by
  by_cases hne : best.selection = []
  · rw [(hgood.start hne).1]
  · obtain ⟨hfeasible, hweight, -⟩ := hgood.found hne
    rw [hweight]
    exact hfeasible.2

/-- A feasible selection that is heavier than the best one so far is covered: there is a best one.
-/
theorem Good.covers_of_lt (hgood : Good pool target maxWeight best)
    (hfeasible : Feasible pool target maxWeight S) (h : best.weight < total pool weight S) :
    Covers pool best S := by
  refine ⟨fun hnil => ?_, .inl h⟩
  rw [(hgood.start hnil).1] at h
  exact absurd hfeasible.2 (not_le.mpr h)

theorem Evaluated.good (hs : IsSelection pool.length s.indices) (hne : s.indices ≠ [])
    (hgood : Good pool target maxWeight best) (h : Evaluated target s tail best d best') :
    Good pool target maxWeight best' := by
  cases h with
  | heavy exceeded h => exact ⟨hgood.isSelection, hgood.start, hgood.found⟩
  | better h hbetter =>
    refine ⟨hs, fun hnil => absurd hnil hne, fun _ => ⟨⟨?_, ?_⟩, s.weight_eq, s.amount_eq⟩⟩
    · rwa [← s.amount_eq]
    · have := hgood.weight_le
      rw [← s.weight_eq]
      omega
  | short | worse | explore | hopeless => exact hgood

theorem Evaluated.keeps (hne : s.indices ≠ []) (h : Evaluated target s tail best d best')
    (hcovers : Covers pool best S) : Covers pool best' S := by
  obtain ⟨hbest, hcovers⟩ := hcovers
  cases h with
  | better h hbetter =>
    refine ⟨hne, ?_⟩
    dsimp only
    omega
  | short | heavy | worse | explore | hopeless => exact ⟨hbest, hcovers⟩

section Search

variable (hpool : Searchable pool) (hs : s.indices = tail :: rest)
  (hsel : IsSelection pool.length (tail :: rest))
  (hgood : Good pool target maxWeight best) (h : Evaluated target s tail best d best')

include hpool hs hsel hgood h

/-- A selection that reaches the target is covered once it was evaluated. -/
theorem Evaluated.self (hfeasible : Feasible pool target maxWeight s.indices) :
    Covers pool best' s.indices := by
  have htarget := hfeasible.1
  rw [← s.amount_eq] at htarget
  cases h with
  | short h =>
    have := amountOf_drop_nonneg hpool.amount_pos (tail + 1)
    omega
  | heavy exceeded h => exact hgood.covers_of_lt hfeasible (by rwa [← s.weight_eq])
  | better h hbetter =>
    refine ⟨?_, .inr ⟨s.weight_eq, ?_⟩⟩
    · rw [hs]
      exact cons_ne_nil _ _
    · exact le_of_eq s.amount_eq
  | worse h hweight hamount =>
    refine ⟨fun hnil => ?_, .inr ⟨?_, ?_⟩⟩
    · -- the first selection within the weight limit is worth less than all money
      have hlt := hpool.total_lt hsel
      rw [(hgood.start hnil).2, s.amount_eq, hs] at hamount
      omega
    · rw [← hweight, s.weight_eq]
    · rwa [← s.amount_eq]
  | explore h => omega
  | hopeless h => omega

/-- What adds to a selection that is not explored is covered. -/
theorem Evaluated.shift (hd : d ≠ .explore) (hne : T ≠ [])
    (hT : IsSelection pool.length (T ++ tail :: rest))
    (hfeasible : Feasible pool target maxWeight (T ++ tail :: rest)) :
    Covers pool best' (T ++ tail :: rest) := by
  have hbehind : ∀ i ∈ T, tail < i := fun i hi => hT.lt_of_mem hi
  have hamount := s.amount_eq
  have hweight := s.weight_eq
  have htarget := hfeasible.1
  have hpos := total_pos hpool.weight_pos hT.left hne
  rw [hs] at hamount hweight
  rw [total_append] at htarget
  cases h with
  | short h =>
    have hle : total pool getSelectionAmount T ≤ amountOf (pool.drop (tail + 1)) :=
      total_le_drop hpool.amount_nonneg hT.left hbehind
    omega
  | heavy exceeded h =>
    apply hgood.covers_of_lt hfeasible
    rw [total_append]
    omega
  | better h hbetter =>
    refine ⟨?_, .inl ?_⟩
    · dsimp only
      rw [hs]
      exact cons_ne_nil _ _
    · rw [total_append]
      dsimp only
      omega
  | worse h hweight' =>
    apply hgood.covers_of_lt hfeasible
    rw [total_append]
    omega
  | explore => exact absurd rfl hd
  | hopeless h hbest hleast =>
    have hestimate := estimate_le_total hpool (hsel.2 tail mem_cons_self) h hbehind
      hT.left.2 (by omega)
    refine ⟨hbest, .inl ?_⟩
    rw [total_append]
    omega

/-- What replaces the last group of a selection that is cut is covered. -/
theorem Evaluated.cut (hd : d = .cut) (hne : T ≠ []) (hbehind : ∀ i ∈ T, tail < i)
    (hT : IsSelection pool.length (T ++ rest))
    (hfeasible : Feasible pool target maxWeight (T ++ rest)) : Covers pool best' (T ++ rest) := by
  have hamount := s.amount_eq
  have hweight := s.weight_eq
  have htarget := hfeasible.1
  have htail := hsel.2 tail mem_cons_self
  rw [hs, total_cons] at hamount hweight
  rw [total_append] at htarget
  -- a group that is cut has the least weight of those behind it
  have hleast : cutOrShift pool tail = .cut →
      valueAt pool weight tail ≤ (minTailWeights pool).1.getD tail 0 := by
    intro hcut
    by_contra hlt
    rw [cutOrShift, if_neg hlt] at hcut
    cases hcut
  cases h with
  | short h =>
    have hle : total pool getSelectionAmount T ≤ amountOf (pool.drop (tail + 1)) :=
      total_le_drop hpool.amount_nonneg hT.left hbehind
    have := hpool.valueAt_amount_pos htail
    omega
  | heavy exceeded h =>
    apply hgood.covers_of_lt hfeasible
    obtain ⟨i, T', rfl⟩ := exists_cons_of_ne_nil hne
    have hi := Searchable.minTail_le (hbehind i mem_cons_self) (hT.2 i (by simp))
    have hT' := total_nonneg hpool.weight_nonneg T'
    have := hleast hd
    rw [total_append, total_cons]
    omega
  | hopeless h hbest hestimate =>
    have hadd := estimate_add_le_total hpool htail h hbehind hT.left.2 (by omega)
    have := hleast hd
    refine ⟨hbest, .inl ?_⟩
    rw [total_append]
    omega
  | better | worse | explore => cases hd

end Search

/-- A group that ties with the one before it is no better. -/
theorem tie (hpool : Searchable pool) {m : Nat} (htie : sameAmount pool (m + 1))
    (hsel : IsSelection pool.length (T ++ (m + 1) :: rest))
    (hfeasible : Feasible pool target maxWeight (T ++ (m + 1) :: rest)) :
    Feasible pool target maxWeight (T ++ m :: rest) ∧
      (Covers pool best (T ++ m :: rest) → Covers pool best (T ++ (m + 1) :: rest)) := by
  have hm := hsel.2 (m + 1) (by simp)
  have hamount := sameAmount_iff.mp htie
  have hweight := (hpool.ordered (Nat.lt_add_one m) hm).2 hamount
  unfold Feasible Covers at *
  simp only [total_append, total_cons] at hfeasible ⊢
  refine ⟨by omega, fun hcovers => ⟨hcovers.1, ?_⟩⟩
  omega

/-- The search leaves out only what is covered. -/
theorem prunes (hpool : Searchable pool) :
    Prunes (Selection.walker pool) pool.length (sameAmount pool) (round pool target maxWeight)
      (Feasible pool target maxWeight) (Covers pool) (Good pool target maxWeight) where
  good hs hne hgood h := by
    obtain ⟨tail, rest, -, heval⟩ := exists_evaluated h
    exact heval.good hs hne hgood
  keeps hs hgood h S hcovers := by
    obtain ⟨tail, rest, hcons, heval⟩ := exists_evaluated h
    exact heval.keeps (hcons.trans_ne (cons_ne_nil _ _)) hcovers
  self hs hne hgood h hfeasible := by
    obtain ⟨tail, rest, hcons, heval⟩ := exists_evaluated h
    exact heval.self hpool hcons (hcons ▸ hs) hgood hfeasible
  shift {s _ _ _} hs hne hgood h hd T hT hsel hfeasible := by
    obtain ⟨tail, rest, hcons, heval⟩ := exists_evaluated h
    have hselected : (Selection.walker pool).selected s = tail :: rest := hcons
    rw [hselected] at hs hsel hfeasible ⊢
    exact heval.shift hpool hcons hs hgood hd hT hsel hfeasible
  cut hcons hs hgood h hd T hT hbehind hsel hfeasible := by
    obtain ⟨tail, rest, hcons', heval⟩ := exists_evaluated h
    cases hcons.symm.trans hcons'
    exact heval.cut hpool hcons hs hgood hd hT hbehind hsel hfeasible
  tie htie hsel _ hfeasible := tie hpool htie hsel hfeasible

end Prunes

/-! ### Nothing overflows -/

section Fits

variable (hpool : Searchable pool)

private theorem int64Range_of_nonneg {n : Int} (h0 : 0 ≤ n) (h : n < 2 ^ 63) : int64Range n :=
  int64Range_iff.mpr ⟨by omega, h⟩

private theorem cutOrShift_ne_explore (tail : Nat) : cutOrShift pool tail ≠ .explore := by
  unfold cutOrShift
  split
  · nofun
  · nofun

include hpool

section Evaluate

variable {s : Selection pool} (hs : s.indices = tail :: rest)
  (hsel : IsSelection pool.length (tail :: rest))

include hs hsel

/-- With all that is left, a selection is worth less than all money. -/
theorem amount_add_lookahead_lt : s.amount + amountOf (pool.drop (tail + 1)) < maxMoney := by
  have hlt := hpool.total_lt hsel.behind_append
  rw [total_append, total_behind, ← hs, ← s.amount_eq, add_comm] at hlt
  exact hlt

section

variable (hfits : weightOf pool < 2 ^ 63)

include hfits

private theorem leastWeight_ne_none (hmissing : s.amount < target)
    (hleft : target ≤ s.amount + amountOf (pool.drop (tail + 1))) : leastWeight pool target s
      tail ≠ none := by
  have htail := hsel.2 tail mem_cons_self
  have hpos := hpool.valueAt_amount_pos htail
  have hweight := s.weight_nonneg hpool.weight_nonneg
  have hle : valueAt pool getSelectionAmount tail ≤ s.amount := by
    have := total_nonneg hpool.amount_nonneg rest
    rw [s.amount_eq, hs, total_cons]
    omega
  have hlt := amount_add_lookahead_lt hpool hs hsel
  simp only [maxMoney, coin] at hlt
  -- all that is left makes up for what is missing
  have hestimate : estimate target s tail ≤ total pool weight (behind pool (tail + 1)) := by
    refine estimate_le_total hpool htail hmissing (fun i hi => le_of_mem_behind hi)
      (isSelection_behind _).2 ?_
    rw [total_behind]
    exact Int.sub_left_le_of_le_add hleft
  have hweights : s.weight + total pool weight (behind pool (tail + 1)) ≤ weightOf pool := by
    have hsum := total_le_sum hpool.weight_nonneg hsel.behind_append
    rw [total_append, ← hs, ← s.weight_eq, add_comm] at hsum
    exact hsum
  have hgroups : 0 ≤ (target - s.amount + valueAt pool getSelectionAmount tail - 1).tdiv
      (valueAt pool getSelectionAmount tail) := Int.tdiv_nonneg (by omega) (by omega)
  have hgroups' : (target - s.amount + valueAt pool getSelectionAmount tail - 1).tdiv
      (valueAt pool getSelectionAmount tail) ≤ target - s.amount + valueAt pool getSelectionAmount
        tail - 1 := by
    rw [Int.tdiv_eq_ediv_of_nonneg (by omega)]
    exact Int.ediv_le_self _ (by omega)
  have hestimate0 := Int.mul_nonneg (hpool.minTail_nonneg htail) hgroups
  unfold leastWeight
  rw [if_pos]
  · exact some_ne_none _
  simp only [all_cons, all_nil, and_true, Bool.and_eq_true]
  unfold estimate at hestimate hestimate0
  refine ⟨by omega, ?_, ?_, ?_, ?_, ?_, ?_⟩
  all_goals exact int64Range_of_nonneg (by omega) (by omega)

theorem evaluate_ne_none (best : Lightest) : evaluate pool target maxWeight s tail best ≠ none := by
  unfold evaluate
  rw [lookaheads_fst_getD]
  split
  · exact some_ne_none _
  split
  · exact some_ne_none _
  split
  · exact some_ne_none _
  split
  · exact some_ne_none _
  cases hleast : leastWeight pool target s tail with
  | none => exact absurd hleast (leastWeight_ne_none hpool hs hsel hfits (by omega) (by omega))
  | some least => exact some_ne_none _

theorem round_ne_none (hroom : ∀ group ∈ pool, max 0 maxWeight + group.weight ≤ intMax)
    (hrest : total pool weight rest ≤ max 0 maxWeight) (best : Lightest) :
    round pool target maxWeight s best ≠ none := by
  have htail := hsel.2 tail mem_cons_self
  have hamount := s.amount_nonneg hpool.amount_pos
  have hleft := amountOf_drop_nonneg hpool.amount_pos (tail + 1)
  have hlt := amount_add_lookahead_lt hpool hs hsel
  simp only [maxMoney, coin] at hlt
  have hint := Selection.int32Range_weight hpool.weight_nonneg hs htail hroom hrest
  unfold round
  rw [hs]
  dsimp only
  rw [lookaheads_fst_getD, if_pos]
  · exact evaluate_ne_none hpool hs hsel hfits best
  · rw [int64Range_of_nonneg hamount (by omega), hint, int64Range_of_nonneg (by omega) (by omega)]
    rfl

end

end Evaluate

omit hpool in
theorem good_start (target maxWeight : Int) : Good pool target maxWeight
    ⟨[], maxWeight, maxMoney, false⟩ :=
  ⟨⟨.nil, nofun⟩, fun _ => ⟨rfl, rfl⟩, fun hne => absurd rfl hne⟩

/-- The search does not overflow if there is room for one more group at the weight limit. -/
theorem search_ne_failed (hne : pool ≠ []) (hfits : weightOf pool < 2 ^ 63)
    (hroom : ∀ group ∈ pool, max 0 maxWeight + group.weight ≤ intMax) :
    search pool target maxWeight ≠ .failed := by
  have hempty : total pool weight [] ≤ max 0 maxWeight := le_max_left 0 _
  refine (prunes hpool).run_ne_failed (fun S => total pool weight S ≤ max 0 maxWeight)
    (fun S T hS hT => ?_) (fun s best hs hsne hrest _ => ?_) (fun s best best' hgood h => ?_) rfl
    (length_pos_iff.mpr hne) (good_start _ _) hempty
  · exact le_trans (total_le_of_sublist hpool.weight_nonneg hT.sublist) hS
  · obtain ⟨tail, rest, hcons⟩ := exists_cons_of_ne_nil hsne
    rw [hcons] at hs hrest
    exact round_ne_none hpool hcons hs hfits hroom hrest best
  · obtain ⟨tail, rest, -, heval⟩ := exists_evaluated h
    have hmax := hgood.weight_le
    -- only selections within the weight limit are explored
    have hweight : s.weight ≤ best.weight := by
      generalize hd : Decision.explore = d at heval
      cases heval with
      | explore h hweight => exact hweight
      | heavy | hopeless => exact absurd hd.symm (cutOrShift_ne_explore tail)
      | short | better | worse => cases hd
    change total pool weight s.indices ≤ _
    rw [← s.weight_eq]
    omega

end Fits

end CoinGrinder

/-! ### The result -/

/-- A part of the pool that reaches a target within a maximum weight. -/
def Reaches (pool : List OutputGroup) (target maxWeight : Int) (groups : List OutputGroup) : Prop :=
  groups.Subperm pool ∧ target ≤ amountOf groups ∧ weightOf groups ≤ maxWeight

/-- What `CoinGrinder` is called with: groups of positive amounts and weights that share no output,
a positive target, and weights with room for one more group at the limit. -/
structure GrinderCall (pool : List OutputGroup) (selectionTarget changeTarget maxWeight : Int) :
    Prop where
  amount_pos : ∀ group ∈ pool, 0 < group.getSelectionAmount
  weight_pos : ∀ group ∈ pool, 0 < group.weight
  amount_lt : amountOf pool < maxMoney
  distinct : ((pool.flatMap outputs).map COutput.outpoint).Nodup
  target_pos : 0 < selectionTarget + changeTarget
  target_fits : int64Range (selectionTarget + changeTarget) = true
  weight_room : ∀ group ∈ pool, max 0 maxWeight + group.weight ≤ intMax
  weight_fits : weightOf pool < 2 ^ 63

namespace CoinGrinder

private theorem exists_feasible {groups : List OutputGroup}
    (h : Reaches pool target maxWeight groups) :
    ∃ S, IsSelection pool.length S ∧ Feasible pool target maxWeight S ∧
      total pool getSelectionAmount S = amountOf groups ∧ total pool weight S =
        weightOf groups := by
  obtain ⟨hsub, hamount, hweight⟩ := h
  obtain ⟨S, hS, htotal⟩ := exists_total hsub
  have hamount' : total pool getSelectionAmount S = amountOf groups := htotal _
  have hweight' : total pool weight S = weightOf groups := htotal _
  refine ⟨S, hS, ⟨?_, ?_⟩, hamount', hweight'⟩
  · rwa [hamount']
  · rwa [hweight']

section Result

variable {selectionTarget changeTarget : Int}

theorem searchable (hcall : GrinderCall pool selectionTarget changeTarget maxWeight)
    (sort : StdSort descendingEffvalWeight) : Searchable (sort.sort pool) := by
  have hperm := sort.perm pool
  refine ⟨sort.sorted pool, fun group hgroup => ?_, fun group hgroup => ?_, ?_⟩
  · exact hcall.amount_pos group (hperm.mem_iff.mp hgroup)
  · exact hcall.weight_pos group (hperm.mem_iff.mp hgroup)
  · rw [amountOf_perm hperm]
    exact hcall.amount_lt

theorem search_covers (hpool : Searchable pool) (hne : pool ≠ []) {left : Nat}
    (h : search pool target maxWeight = .completed best left) : Good pool target maxWeight best ∧
      ∀ S, IsSelection pool.length S → S ≠ [] → Feasible pool target maxWeight S →
      Covers pool best S :=
  (prunes hpool).run_covers rfl (length_pos_iff.mpr hne) (good_start _ _) h

end Result

end CoinGrinder

/-- The groups of a lightest part that reaches the target are returned, of least amount among the
lightest. -/
def IsLightest (pool : List OutputGroup) (target maxWeight : Int) :
    Except SelectionError SelectionResult → Prop :=
  ReturnsBest (Reaches pool target maxWeight) fun groups other =>
    weightOf groups < weightOf other ∨
      (weightOf groups = weightOf other ∧ amountOf groups ≤ amountOf other)

private theorem reaches_perm {pool' : List OutputGroup} (h : pool.Perm pool')
    (target maxWeight : Int) : Reaches pool target maxWeight = Reaches pool' target maxWeight := by
  ext groups
  unfold Reaches
  rw [h.subperm_left]

/-- The best selection of a search that has covered everything is returned. -/
theorem CoinGrinder.isLightest_toResult
    (hdistinct : ((pool.flatMap outputs).map COutput.outpoint).Nodup)
    (hweight : ∀ group ∈ pool, 0 ≤ group.weight) (hmax : maxWeight ≤ intMax) (htarget : 0 < target)
    (hgood : Good pool target maxWeight best)
    (hcovers : ∀ S, IsSelection pool.length S → S ≠ [] → Feasible pool target maxWeight S →
      Covers pool best S)
    (selectionTarget : Int) (maxTxWeightExceeded completed : Bool) (evaluated : Nat) :
    IsLightest pool target maxWeight
      (toResult pool .cg selectionTarget best.selection maxTxWeightExceeded completed
        evaluated) := by
  refine returnsBest_toResult hdistinct hweight (fun groups hgroups => hgroups.2.2.trans hmax)
    hgood.isSelection (fun hne => ?_) (fun other hother => ?_) _ _ _ _ _
  · obtain ⟨hfeasible, -, -⟩ := hgood.found hne
    refine ⟨(chosen_sublist hgood.isSelection).subperm, ?_, ?_⟩
    · rw [amountOf_chosen]
      exact hfeasible.1
    · rw [weightOf_chosen]
      exact hfeasible.2
  · -- a part that reaches a positive target has a group, and so it is covered
    obtain ⟨S, hS, hfeasible, hamount', hweight'⟩ := exists_feasible hother
    have hS0 : S ≠ [] := by
      rintro rfl
      exact absurd hfeasible.1 (not_le.mpr htarget)
    obtain ⟨hne, hle⟩ := hcovers S hS hS0 hfeasible
    obtain ⟨-, hbest, hbest'⟩ := hgood.found hne
    rw [hamount', hweight', hbest, hbest'] at hle
    rw [amountOf_chosen, weightOf_chosen]
    exact ⟨hne, hle⟩

/-- A search of `CoinGrinder` that ends finds the lightest selection that reaches the target, and
the one of least amount among the lightest. -/
theorem coinGrinder_optimal (sort : StdSort descendingEffvalWeight) (utxoPool : List OutputGroup)
    (selectionTarget changeTarget maxSelectionWeight : Int)
    (hcall : GrinderCall utxoPool selectionTarget changeTarget maxSelectionWeight)
    (hended : ∀ best, search (sort.sort utxoPool) (selectionTarget + changeTarget)
      maxSelectionWeight ≠
      .stopped best) : IsLightest utxoPool (selectionTarget + changeTarget) maxSelectionWeight
      (coinGrinder sort utxoPool selectionTarget changeTarget maxSelectionWeight) := by
  have hperm := sort.perm utxoPool
  have hpool := searchable hcall sort
  rw [IsLightest, ← reaches_perm hperm]
  have hsums := lookaheads_all_int64Range hpool.amount_pos hpool.amount_lt
  unfold coinGrinder
  dsimp only
  rw [hsums, hcall.target_fits, lookaheads_snd]
  generalize sort.sort utxoPool = pool at *
  by_cases hshort : amountOf pool < selectionTarget + changeTarget
  · -- not even all groups reach the target
    rw [if_pos hshort]
    refine ReturnsBest.of_error _ fun groups hgroups => ?_
    obtain ⟨S, hS, hfeasible, -, -⟩ := exists_feasible hgroups
    have hle : total pool getSelectionAmount S ≤ amountOf pool :=
      total_le_sum hpool.amount_nonneg hS
    have := hfeasible.1
    omega
  rw [if_neg hshort]
  have hne : pool ≠ [] := by
    rintro rfl
    exact hshort hcall.target_pos
  have hroom : ∀ group ∈ pool, max 0 maxSelectionWeight + group.weight ≤ intMax :=
    fun group hgroup => hcall.weight_room group (hperm.mem_iff.mp hgroup)
  rw [if_neg hne]
  cases hsearch : search pool (selectionTarget + changeTarget) maxSelectionWeight with
  | failed =>
    refine absurd hsearch (search_ne_failed hpool hne ?_ hroom)
    rw [weightOf_perm hperm]
    exact hcall.weight_fits
  | stopped best => exact absurd hsearch (hended best)
  | completed best left =>
    have hdistinct := ((hperm.flatMap_right _).map _).nodup_iff.mpr hcall.distinct
    obtain ⟨hgood, hcovers⟩ := search_covers hpool hne hsearch
    have hmax := maxWeight_le_intMax hpool.weight_nonneg hne hroom
    exact isLightest_toResult hdistinct hpool.weight_nonneg hmax hcall.target_pos hgood
      hcovers _ _ _ _

private theorem descendingEffvalWeight_total (a b : OutputGroup) :
    descendingEffvalWeight b a = false ∨ descendingEffvalWeight a b = false := by
  rw [descendingEffvalWeight_eq_false_iff, descendingEffvalWeight_eq_false_iff]
  omega

private theorem descendingEffvalWeight_trans (a b c : OutputGroup)
    (hab : descendingEffvalWeight b a = false) (hbc : descendingEffvalWeight c b = false) :
    descendingEffvalWeight c a = false := by
  rw [descendingEffvalWeight_eq_false_iff] at *
  omega

/-- A sort by `descending_effval_weight`. -/
def sortByWeight : StdSort descendingEffvalWeight :=
  .insertion _ descendingEffvalWeight_total descendingEffvalWeight_trans

/-- Two light coins are chosen in the place of a heavy one. -/
theorem coinGrinder_optimal_three :
      IsLightest [.ofCoin 0 5 1 1 7, .ofCoin 1 3 1 1 2, .ofCoin 2 2 1 1 2] (4 + 1) 10
      (coinGrinder sortByWeight
        [.ofCoin 0 5 1 1 7, .ofCoin 1 3 1 1 2, .ofCoin 2 2 1 1 2] 4 1 10) := by
  refine coinGrinder_optimal _ _ _ _ _
    ⟨by decide, by decide, by decide, by decide, by decide, by decide, by decide,
    by decide⟩ fun best => ?_
  nofun

/-- Where a search that ends does not find the lightest part of a pool of positive amounts and
weights: without a target, no coin is needed, but one is selected; at the largest weight limit, the
weight overflows although two coins would do; and coins that are the same output cannot be selected
together. -/
theorem coinGrinder_not_optimal :
    ((coinGrinder sortByWeight [.ofCoin 0 1 1 1 1] 0 0 10).toOption.map fun result =>
        (result.weight, result.algoCompleted)) = some (1, true) ∧
      ¬ IsLightest [.ofCoin 0 1 1 1 1] 0 10 (coinGrinder sortByWeight [.ofCoin 0 1 1 1 1] 0 0 10) ∧
    coinGrinder sortByWeight [.ofCoin 0 3 1 1 (intMax - 1), .ofCoin 1 2 1 1 2, .ofCoin 2 2 1 1 2] 4
      0 intMax = .error .overflow ∧
      ¬ IsLightest [.ofCoin 0 3 1 1 (intMax - 1), .ofCoin 1 2 1 1 2, .ofCoin 2 2 1 1 2] 4 intMax
        (coinGrinder sortByWeight
          [.ofCoin 0 3 1 1 (intMax - 1), .ofCoin 1 2 1 1 2, .ofCoin 2 2 1 1 2] 4 0 intMax) ∧
    coinGrinder sortByWeight [.ofCoin 0 1 1 1 1, .ofCoin 0 1 1 1 1] 2 0 10 = .error .sharedInputs ∧
      ¬ IsLightest [.ofCoin 0 1 1 1 1, .ofCoin 0 1 1 1 1] 2 10
        (coinGrinder sortByWeight [.ofCoin 0 1 1 1 1, .ofCoin 0 1 1 1 1] 2 0 10) := by
  refine ⟨by decide, fun h => ?_, by rfl, fun h => ?_, by rfl, fun h => ?_⟩
  · -- the empty part reaches the target
    obtain ⟨result, best, hok, -, -, hweight, hle⟩ :=
      h.exists_le [] ⟨nil_subperm, by decide, by decide⟩
    have hselected : (coinGrinder sortByWeight [.ofCoin 0 1 1 1 1] 0 0 10).toOption.map
      SelectionResult.weight = some 1 := by decide
    rw [hok] at hselected
    have hone := some.inj hselected
    rw [← hweight, hone] at hle
    rcases hle with hlt | ⟨heq, -⟩
    · exact absurd hlt (by decide)
    · exact absurd heq (by decide)
  · obtain ⟨result, best, hok, -⟩ := h.exists_le [.ofCoin 1 2 1 1 2, .ofCoin 2 2 1 1 2]
      ⟨(sublist_cons_self _ _).subperm, by decide, by decide⟩
    cases hok
  · obtain ⟨result, best, hok, -⟩ := h.exists_le [.ofCoin 0 1 1 1 1, .ofCoin 0 1 1 1 1]
      ⟨Subperm.refl _, by decide, by decide⟩
    cases hok

end Tessera.Wallet
