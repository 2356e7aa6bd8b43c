import Mathlib.Data.List.Sublists
import Tessera.Wallet.SelectionSearch

/-!
# The least wasteful selection is found

A selection is feasible if it is within the target window and the maximum weight. `SelectCoinsBnB`
stops at the first selection within the window, gives up selections that are wasteful already if the
feerate is high, and skips groups of the same amount as one that it has left out. Each of these is
safe under a condition on the fees of the pool:

* a group does not cost more in the long term than it is worth, so that adding it does not make up
  for its amount;
* the feerate is on the same side of the long-term feerate for all groups;
* among groups of the same amount, those that waste less do not weigh more, unless the weight limit
  does not matter.
-/

namespace Tessera.Wallet

open Lib.SubsetSearch Tx Validation OutputGroup BranchAndBound List Option

private theorem descending_eq_false_iff {a b : OutputGroup} : descending b a = false ↔
    b.getSelectionAmount ≤ a.getSelectionAmount ∧
      (a.getSelectionAmount = b.getSelectionAmount → a.waste ≤ b.waste) := by
  unfold descending
  split
  · rw [decide_eq_false_iff_not]
    omega
  · rw [decide_eq_false_iff_not]
    omega

/-- The fees of a pool for which leaving selections out is safe. -/
structure FeesAgree (pool : List OutputGroup) (maxWeight : Int) : Prop where
  /-- All groups see the same side of the long-term feerate. -/
  oneSide : (∀ group ∈ pool, group.longTermFee ≤ group.fee) ∨ ∀ group ∈ pool, group.fee ≤
    group.longTermFee
  /-- No group costs more in the long term than it is worth. -/
  worth : ∀ group ∈ pool, group.longTermFee ≤ group.getSelectionAmount + group.fee
  /-- Of two groups of the same amount, the one that wastes less does not weigh more, or the limit
  does not matter. -/
  ties : (∀ a ∈ pool, ∀ b ∈ pool, a.getSelectionAmount = b.getSelectionAmount → a.waste ≤ b.waste →
    a.weight ≤ b.weight) ∨ weightOf pool ≤ maxWeight

namespace BranchAndBound

/-- A pool in the order in which `SelectCoinsBnB` searches it. -/
structure Searchable (pool : List OutputGroup) (maxWeight : Int) : Prop where
  sorted : pool.Pairwise fun a b => descending b a = false
  amount_pos : ∀ group ∈ pool, 0 < group.getSelectionAmount
  weight_nonneg : ∀ group ∈ pool, 0 ≤ group.weight
  fee_nonneg : ∀ group ∈ pool, 0 ≤ group.fee
  longTermFee_nonneg : ∀ group ∈ pool, 0 ≤ group.longTermFee
  value_lt : amountOf pool + (pool.map fee).sum < maxMoney
  fees : FeesAgree pool maxWeight

def feerateHigh (pool : List OutputGroup) : Bool :=
  match pool with
  | [] => false
  | first :: _ => decide (first.longTermFee < first.fee)

namespace Searchable

variable {pool : List OutputGroup} {maxWeight : Int} (hpool : Searchable pool maxWeight) {i j : Nat}

include hpool

theorem amount_nonneg : ∀ group ∈ pool, 0 ≤ group.getSelectionAmount :=
  fun group hgroup => le_of_lt (hpool.amount_pos group hgroup)

private theorem fees_nonneg : 0 ≤ (pool.map fee).sum := by
  have h := total_nonneg hpool.fee_nonneg (behind pool 0)
  rwa [total_behind] at h

theorem amount_lt : amountOf pool < maxMoney := by
  have := hpool.fees_nonneg
  have := hpool.value_lt
  omega

theorem ordered (hij : i < j) (hj : j < pool.length)
    (h : valueAt pool getSelectionAmount i = valueAt pool getSelectionAmount j) :
    valueAt pool waste i ≤ valueAt pool waste j ∧
      (valueAt pool weight i ≤ valueAt pool weight j ∨ weightOf pool ≤ maxWeight) := by
  have hi := hij.trans hj
  simp only [valueAt_of_lt hi, valueAt_of_lt hj] at h ⊢
  have hwaste := (descending_eq_false_iff.mp (pairwise_iff_getElem.mp hpool.sorted i j hi hj hij)).2
    h
  refine ⟨hwaste, hpool.fees.ties.imp_left fun hties => ?_⟩
  exact hties _ (getElem_mem hi) _ (getElem_mem hj) h hwaste

/-- At a high feerate, no group makes up for the waste of the others. -/
theorem waste_nonneg (hhigh : feerateHigh pool) : ∀ group ∈ pool, 0 ≤ group.waste := by
  intro group hgroup
  unfold waste
  rcases hpool.fees.oneSide with hside | hside
  · have := hside group hgroup
    omega
  cases pool with
  | nil => cases hgroup
  | cons first rest =>
    have hfirst := hside first mem_cons_self
    have hlt := of_decide_eq_true hhigh
    omega

variable {S : List Nat}

section

variable (hS : IsSelection pool.length S)

include hS

/-- No selection saves more than its amount. -/
theorem neg_amount_le_waste : -total pool getSelectionAmount S ≤ total pool waste S := by
  induction S with
  | nil => exact le_refl 0
  | cons i S ih =>
    obtain ⟨hS, hi, -⟩ := isSelection_cons.mp hS
    have hworth := hpool.fees.worth _ (getElem_mem hi)
    have := ih hS
    rw [total_cons, total_cons, valueAt_of_lt hi, valueAt_of_lt hi, waste]
    omega

private theorem waste_le_fees : total pool waste S ≤ total pool fee S := by
  refine sum_le_sum fun i hi => ?_
  have hlong := hpool.longTermFee_nonneg _ (getElem_mem (hS.2 i hi))
  rw [valueAt_of_lt (hS.2 i hi), valueAt_of_lt (hS.2 i hi), waste]
  omega

/-- The amount and the waste of a selection add up to less than all money. -/
theorem waste_add_amount_lt : total pool waste S + total pool getSelectionAmount S < maxMoney := by
  have hwaste := hpool.waste_le_fees hS
  have hfees := total_le_sum hpool.fee_nonneg hS
  have hamount : total pool getSelectionAmount S ≤ amountOf pool :=
    total_le_sum hpool.amount_nonneg hS
  have := hpool.value_lt
  omega

end

end Searchable

/-! ### What is left out is covered -/

section Prunes

variable (pool : List OutputGroup) (target cost maxWeight : Int)

/-- A selection within the target window and the maximum weight. -/
def Feasible (S : List Nat) : Prop :=
  target ≤ total pool getSelectionAmount S ∧ total pool getSelectionAmount S ≤ target + cost ∧
    total pool weight S ≤ maxWeight

/-- The waste of a selection with what it exceeds the target by. -/
def wasteScore (S : List Nat) : Int :=
  total pool waste S + (total pool getSelectionAmount S - target)

/-- The best selection so far is no more wasteful than another one. -/
def Covers (best : LeastWaste) (S : List Nat) : Prop :=
  best.selection ≠ [] ∧ best.waste ≤ wasteScore pool target S

/-- What is known of the best selection so far. -/
structure Good (best : LeastWaste) : Prop where
  isSelection : IsSelection pool.length best.selection
  start : best.selection = [] → best.waste = maxMoney
  found : best.selection ≠ [] → Feasible pool target cost maxWeight best.selection ∧
    best.waste = wasteScore pool target best.selection

variable {pool target cost maxWeight} {best best' : LeastWaste} {S T rest : List Nat}
  {s : Selection pool} {tail : Nat} {d : Decision}

private theorem wasteScore_append (target : Int) (T S : List Nat) :
    wasteScore pool target (T ++ S) =
      total pool waste T + total pool getSelectionAmount T + wasteScore pool target S := by
  rw [wasteScore, wasteScore, total_append, total_append]
  omega

private theorem wasteScore_indices (target : Int) (s : Selection pool) :
    wasteScore pool target s.indices = s.waste + (s.amount - target) := by
  rw [wasteScore, ← s.waste_eq, ← s.amount_eq]

/-- A selection that is more wasteful than the best one so far is covered: there is a best one. -/
theorem Good.covers_of_lt (hgood : Good pool target cost maxWeight best)
    (hpool : Searchable pool maxWeight) (htarget : 0 < target) (hS : IsSelection pool.length S)
    (h : best.waste < wasteScore pool target S) : Covers pool target best S := by
  refine ⟨fun hnil => ?_, le_of_lt h⟩
  have hlt := hpool.waste_add_amount_lt hS
  rw [hgood.start hnil, wasteScore] at h
  omega

variable {isFeerateHigh : Bool}

theorem Evaluated.good (hs : IsSelection pool.length s.indices) (hne : s.indices ≠ [])
    (hgood : Good pool target cost maxWeight best)
    (h : Evaluated target cost maxWeight isFeerateHigh s tail best d best') :
    Good pool target cost maxWeight best' := by
  cases h with
  | heavy h => exact ⟨hgood.isSelection, hgood.start, hgood.found⟩
  | better hweight h h' hbetter =>
    refine ⟨hs, fun hnil => absurd hnil hne, fun _ => ⟨⟨?_, ?_, ?_⟩, (wasteScore_indices _ s).symm⟩⟩
    · rwa [← s.amount_eq]
    · rwa [← s.amount_eq]
    · rwa [← s.weight_eq]
  | short | overshot | wasteful | worse | explore => exact hgood

theorem Evaluated.keeps (hne : s.indices ≠ [])
    (h : Evaluated target cost maxWeight isFeerateHigh s tail best d best')
    (hcovers : Covers pool target best S) : Covers pool target best' S := by
  obtain ⟨hbest, hcovers⟩ := hcovers
  cases h with
  | better hweight h h' hbetter => exact ⟨hne, le_trans hbetter hcovers⟩
  | short | heavy | overshot | wasteful | worse | explore => exact ⟨hbest, hcovers⟩

section Search

variable (hpool : Searchable pool maxWeight) (htarget : 0 < target) (hs : s.indices = tail :: rest)
  (hsel : IsSelection pool.length (tail :: rest))
  (hgood : Good pool target cost maxWeight best)
  (h : Evaluated target cost maxWeight (feerateHigh pool) s tail best d best')

include hpool htarget hs hsel hgood h

omit hsel in
/-- What a selection that is not explored begins, with or without more groups, is covered. -/
theorem Evaluated.begins (hd : d ≠ .explore) (hT : IsSelection pool.length (T ++ tail :: rest))
    (hfeasible : Feasible pool target cost maxWeight (T ++ tail :: rest)) :
    Covers pool target best' (T ++ tail :: rest) := by
  have hamount := s.amount_eq
  have hweight := s.weight_eq
  have hscore : wasteScore pool target (T ++ tail :: rest) = _ := wasteScore_append target T _
  have hself := wasteScore_indices target s
  have hsaves := hpool.neg_amount_le_waste hT.left
  rw [hs] at hamount hweight hself
  obtain ⟨hreach, hwindow, hlimit⟩ := hfeasible
  rw [total_append] at hreach hwindow hlimit
  cases h with
  | short h =>
    have hbehind : ∀ i ∈ T, tail < i := fun i hi => hT.lt_of_mem hi
    have hle : total pool getSelectionAmount T ≤ amountOf (pool.drop (tail + 1)) :=
      total_le_drop hpool.amount_nonneg hT.left hbehind
    omega
  | heavy h =>
    have := total_nonneg hpool.weight_nonneg T
    omega
  | overshot h =>
    have := total_nonneg hpool.amount_nonneg T
    omega
  | wasteful hhigh h =>
    -- the groups that are added waste something, too
    have := total_nonneg (hpool.waste_nonneg hhigh) T
    apply hgood.covers_of_lt hpool htarget hT
    omega
  | better hweight h h' hbetter =>
    refine ⟨?_, ?_⟩
    · dsimp only
      rw [hs]
      exact cons_ne_nil _ _
    · dsimp only
      omega
  | worse hworse h =>
    apply hgood.covers_of_lt hpool htarget hT
    omega
  | explore => exact absurd rfl hd

omit htarget hgood in
theorem Evaluated.cut (hd : d = .cut) (hbehind : ∀ i ∈ T, tail < i)
    (hT : IsSelection pool.length (T ++ rest))
    (hfeasible : Feasible pool target cost maxWeight (T ++ rest)) : Covers pool target best'
      (T ++ rest) := by
  cases h with
  | short h =>
    have htail : tail < pool.length := hsel.2 tail mem_cons_self
    have hle : total pool getSelectionAmount T ≤ amountOf (pool.drop (tail + 1)) :=
      total_le_drop hpool.amount_nonneg hT.left hbehind
    have hpos := hpool.amount_pos _ (getElem_mem htail)
    have hreach := hfeasible.1
    rw [s.amount_eq, hs, total_cons, valueAt_of_lt htail] at h
    rw [total_append] at hreach
    omega
  | heavy | overshot | wasteful | better | worse | explore => cases hd

theorem Evaluated.self (hfeasible : Feasible pool target cost maxWeight s.indices) :
    Covers pool target best' s.indices := by
  by_cases hd : d = .explore
  · subst hd
    cases h with
    | explore h hweight =>
      have hreach := hfeasible.1
      rw [← s.amount_eq] at hreach
      omega
  · rw [hs] at hfeasible ⊢
    exact h.begins hpool htarget hs hgood hd (T := []) hsel hfeasible

end Search

/-- A group that ties with the one before it is no better. -/
theorem tie (hpool : Searchable pool maxWeight) {m : Nat} (htie : sameAmount pool (m + 1))
    (hsel : IsSelection pool.length (T ++ (m + 1) :: rest))
    (hsel' : IsSelection pool.length (T ++ m :: rest))
    (hfeasible : Feasible pool target cost maxWeight (T ++ (m + 1) :: rest)) :
    Feasible pool target cost maxWeight (T ++ m :: rest) ∧
    (Covers pool target best (T ++ m :: rest) →
        Covers pool target best (T ++ (m + 1) :: rest)) := by
  have hm := hsel.2 (m + 1) (by simp)
  have hamount := sameAmount_iff.mp htie
  obtain ⟨hwaste, hweight⟩ := hpool.ordered (Nat.lt_add_one m) hm hamount
  have hall : total pool weight (T ++ m :: rest) ≤ weightOf pool :=
    total_le_sum hpool.weight_nonneg hsel'
  unfold Feasible Covers wasteScore at *
  simp only [total_append, total_cons] at hfeasible hall ⊢
  refine ⟨by omega, fun hcovers => ⟨hcovers.1, ?_⟩⟩
  omega

/-- The search leaves out only what is covered. -/
theorem prunes (hpool : Searchable pool maxWeight) (htarget : 0 < target) :
    Prunes (Selection.walker pool) pool.length (sameAmount pool)
      (round pool target cost maxWeight (feerateHigh pool))
      (Feasible pool target cost maxWeight) (Covers pool target)
      (Good pool target cost maxWeight) where
  good hs hne hgood h := by
    obtain ⟨tail, rest, -, heval⟩ := exists_evaluated h
    exact heval.good hs hne hgood
  keeps hs hgood h S hcovers := by
    obtain ⟨tail, rest, hcons, heval⟩ := exists_evaluated h
    exact heval.keeps (hcons.trans_ne (cons_ne_nil _ _)) hcovers
  self hs hne hgood h hfeasible := by
    obtain ⟨tail, rest, hcons, heval⟩ := exists_evaluated h
    exact heval.self hpool htarget hcons (hcons ▸ hs) hgood hfeasible
  shift {s _ _ _} hs hne hgood h hd T hT hsel hfeasible := by
    obtain ⟨tail, rest, hcons, heval⟩ := exists_evaluated h
    have hselected : (Selection.walker pool).selected s = tail :: rest := hcons
    rw [hselected] at hs hsel hfeasible ⊢
    exact heval.begins hpool htarget hcons hgood hd hsel hfeasible
  cut hcons hs hgood h hd T hT hbehind hsel hfeasible := by
    obtain ⟨tail, rest, hcons', heval⟩ := exists_evaluated h
    cases hcons.symm.trans hcons'
    exact heval.cut hpool hcons hs hd hbehind hsel hfeasible
  tie htie hsel hsel' hfeasible := tie hpool htie hsel hsel' hfeasible

end Prunes

/-! ### Nothing overflows -/

section Fits

variable {pool : List OutputGroup} {target cost maxWeight : Int}
  (hpool : Searchable pool maxWeight)

include hpool

section Evaluate

variable {s : Selection pool} {tail : Nat} {rest : List Nat} (hs : s.indices = tail :: rest)
  (hsel : IsSelection pool.length (tail :: rest))

include hs hsel

private theorem sums_bounded : 0 ≤ s.amount ∧ s.amount < maxMoney ∧
    0 ≤ amountOf (pool.drop (tail + 1)) ∧
    s.amount + amountOf (pool.drop (tail + 1)) < maxMoney ∧ -s.waste < maxMoney ∧ s.waste +
      s.amount < maxMoney := by
  have hamount := s.amount_nonneg hpool.amount_pos
  have hall : s.amount + amountOf (pool.drop (tail + 1)) ≤ amountOf pool := by
    have hsum := total_le_sum hpool.amount_nonneg hsel.behind_append
    rw [total_append, total_behind, ← hs, ← s.amount_eq, add_comm] at hsum
    exact hsum
  have hleft := amountOf_drop_nonneg hpool.amount_pos (tail + 1)
  have hlt := hpool.amount_lt
  have hwaste := hpool.neg_amount_le_waste hsel
  have hwaste' := hpool.waste_add_amount_lt hsel
  rw [← hs, ← s.waste_eq, ← s.amount_eq] at hwaste hwaste'
  all_goals omega

theorem evaluate_ne_none (hwindow : int64Range (target + cost))
    (htarget : 0 < target) (isFeerateHigh : Bool) (best : LeastWaste) :
    evaluate pool target cost maxWeight isFeerateHigh s tail best ≠ none := by
  obtain ⟨hamount, hmax, -, -, hwaste, hsum⟩ := sums_bounded hpool hs hsel
  simp only [maxMoney, coin] at hmax hwaste hsum
  unfold evaluate
  split
  · exact some_ne_none _
  split
  · exact some_ne_none _
  rw [hwindow, if_neg (by decide)]
  split
  · exact some_ne_none _
  split
  · exact some_ne_none _
  split
  next hreached =>
    have hexcess : int64Range (s.amount - target) := int64Range_iff.mpr (by omega)
    have hscore : int64Range (s.waste + (s.amount - target)) := int64Range_iff.mpr (by omega)
    dsimp only
    rw [hexcess, hscore]
    exact some_ne_none _
  · exact some_ne_none _

theorem round_ne_none (hwindow : int64Range (target + cost)) (htarget : 0 < target)
    (hroom : ∀ group ∈ pool, max 0 maxWeight + group.weight ≤ intMax)
    (hrest : total pool weight rest ≤ max 0 maxWeight) (isFeerateHigh : Bool) (best : LeastWaste) :
    round pool target cost maxWeight isFeerateHigh s best ≠ none := by
  have htail := hsel.2 tail mem_cons_self
  obtain ⟨hamount, hmax, hleft, hall, hwaste, hsum⟩ := sums_bounded hpool hs hsel
  -- the waste of the last group alone is that of a selection, too
  have hone : IsSelection pool.length [tail] := ⟨pairwise_singleton _ _, fun i hi => by
    rwa [mem_singleton.mp hi]⟩
  have hlast := hpool.neg_amount_le_waste hone
  have hlast' := hpool.waste_add_amount_lt hone
  have hlast'' := hpool.amount_pos _ (getElem_mem htail)
  have hle : total pool getSelectionAmount [tail] ≤ amountOf pool :=
    total_le_sum hpool.amount_nonneg hone
  have hlt := hpool.amount_lt
  rw [total_cons, total_nil, total_cons, total_nil] at hlast hlast'
  rw [total_cons, total_nil] at hle
  rw [← valueAt_of_lt (f := getSelectionAmount) htail] at hlast''
  have hint := Selection.int32Range_weight hpool.weight_nonneg hs htail hroom hrest
  simp only [maxMoney, coin] at hmax hall hwaste hsum hlast' hlt
  unfold round
  rw [hs]
  dsimp only
  rw [lookaheads_fst_getD, if_pos]
  · exact evaluate_ne_none hpool hs hsel hwindow htarget isFeerateHigh best
  · simp only [all_cons, all_nil, and_true, Bool.and_eq_true, int64Range_iff]
    refine ⟨⟨?_, ?_, ?_, ?_⟩, hint⟩
    all_goals omega

end Evaluate

omit hpool in
theorem good_start (target cost maxWeight : Int) : Good pool target cost maxWeight
    ⟨[], maxMoney, false⟩ :=
  ⟨⟨.nil, nofun⟩, fun _ => rfl, fun hne => absurd rfl hne⟩

/-- The search does not overflow if there is room for one more group at the weight limit. -/
theorem search_ne_failed (hne : pool ≠ []) (htarget : 0 < target)
    (hwindow : int64Range (target + cost))
    (hroom : ∀ group ∈ pool, max 0 maxWeight + group.weight ≤ intMax) :
    search pool target cost maxWeight (feerateHigh pool) ≠ .failed := by
  have hempty : total pool weight [] ≤ max 0 maxWeight := le_max_left 0 _
  refine (prunes hpool htarget).run_ne_failed (fun S => total pool weight S ≤ max 0 maxWeight)
    (fun S T hS hT => ?_) (fun s best hs hsne hrest _ => ?_) (fun s best best' hgood h => ?_) rfl
    (length_pos_iff.mpr hne) (good_start _ _ _) hempty
  · exact le_trans (total_le_of_sublist hpool.weight_nonneg hT.sublist) hS
  · obtain ⟨tail, rest, hcons⟩ := exists_cons_of_ne_nil hsne
    rw [hcons] at hs hrest
    exact round_ne_none hpool hcons hs hwindow htarget hroom hrest _ best
  · obtain ⟨tail, rest, -, heval⟩ := exists_evaluated h
    cases heval with
    | explore h hweight =>
      change total pool weight s.indices ≤ _
      rw [← s.weight_eq]
      omega

end Fits

theorem search_covers {pool : List OutputGroup} {target cost maxWeight : Int}
    (hpool : Searchable pool maxWeight) (htarget : 0 < target) (hne : pool ≠ []) {best : LeastWaste}
    {left : Nat} (h : search pool target cost maxWeight (feerateHigh pool) = .completed best left) :
    Good pool target cost maxWeight best ∧ ∀ S, IsSelection pool.length S → S ≠ [] →
        Feasible pool target cost maxWeight S → Covers pool target best S :=
  (prunes hpool htarget).run_covers rfl (length_pos_iff.mpr hne) (good_start _ _ _) h

end BranchAndBound

/-! ### The result -/

variable (pool : List OutputGroup) (target cost maxWeight : Int)

/-- A part of the pool within the target window and a maximum weight. -/
def InWindow (groups : List OutputGroup) : Prop :=
  groups.Subperm pool ∧ target ≤ amountOf groups ∧ amountOf groups ≤ target + cost ∧
    weightOf groups ≤ maxWeight

/-- The groups of a least wasteful part within the target window are returned. -/
def IsLeastWasteful : Except SelectionError SelectionResult → Prop :=
  ReturnsBest (InWindow pool target cost maxWeight) fun groups other =>
    wasteOf groups + (amountOf groups - target) ≤ wasteOf other + (amountOf other - target)

/-- What `SelectCoinsBnB` is called with: groups of positive amounts that share no output, whose
fees agree, a positive target, and weights with room for one more group at the limit. -/
structure BnBCall (pool : List OutputGroup) (target cost maxWeight : Int) : Prop where
  amount_pos : ∀ group ∈ pool, 0 < group.getSelectionAmount
  weight_nonneg : ∀ group ∈ pool, 0 ≤ group.weight
  fee_nonneg : ∀ group ∈ pool, 0 ≤ group.fee
  longTermFee_nonneg : ∀ group ∈ pool, 0 ≤ group.longTermFee
  value_lt : amountOf pool + (pool.map fee).sum < maxMoney
  fees : FeesAgree pool maxWeight
  distinct : ((pool.flatMap outputs).map COutput.outpoint).Nodup
  target_pos : 0 < target
  window_fits : int64Range (target + cost) = true
  weight_room : ∀ group ∈ pool, max 0 maxWeight + group.weight ≤ intMax
  length_fits : (pool.length : Int) ≤ intMax

variable {pool pool' : List OutputGroup} {maxWeight target cost : Int}

private theorem inWindow_perm (h : pool.Perm pool') (target cost maxWeight : Int) :
    InWindow pool target cost maxWeight = InWindow pool' target cost maxWeight := by
  ext groups
  unfold InWindow
  rw [h.subperm_left]

private theorem FeesAgree.of_perm (hperm : pool.Perm pool')
    (h : FeesAgree pool' maxWeight) : FeesAgree pool maxWeight := by
  have hmem : ∀ {group}, group ∈ pool → group ∈ pool' := hperm.mem_iff.mp
  refine ⟨?_, fun group hgroup => h.worth group (hmem hgroup), ?_⟩
  · exact h.oneSide.imp (fun hside group hgroup => hside group (hmem hgroup))
      fun hside group hgroup => hside group (hmem hgroup)
  · rw [weightOf_perm hperm]
    exact h.ties.imp_left fun hties a ha b hb => hties a (hmem ha) b (hmem hb)

theorem BnBCall.searchable (hcall : BnBCall pool target cost maxWeight)
    (sort : StdSort descending) : Searchable (sort.sort pool) maxWeight := by
  have hperm := sort.perm pool
  have hmem : ∀ {group}, group ∈ sort.sort pool → group ∈ pool := hperm.mem_iff.mp
  refine ⟨sort.sorted pool, fun group hgroup => hcall.amount_pos group (hmem hgroup),
    fun group hgroup => hcall.weight_nonneg group (hmem hgroup),
    fun group hgroup => hcall.fee_nonneg group (hmem hgroup),
    fun group hgroup => hcall.longTermFee_nonneg group (hmem hgroup), ?_, hcall.fees.of_perm hperm⟩
  rw [amountOf_perm hperm, (hperm.map _).sum_eq]
  exact hcall.value_lt

/-- The best selection of a search that has covered everything is returned. -/
theorem BranchAndBound.isLeastWasteful_toResult {best : LeastWaste}
    (hdistinct : ((pool.flatMap outputs).map COutput.outpoint).Nodup)
    (hweight : ∀ group ∈ pool, 0 ≤ group.weight) (hmax : maxWeight ≤ intMax) (htarget : 0 < target)
    (hgood : Good pool target cost maxWeight best)
    (hcovers : ∀ S, IsSelection pool.length S → S ≠ [] → Feasible pool target cost maxWeight S →
      Covers pool target best S)
    (maxTxWeightExceeded completed : Bool) (evaluated : Nat) :
    IsLeastWasteful pool target cost maxWeight
      (toResult pool .bnb target best.selection maxTxWeightExceeded completed evaluated) := by
  refine returnsBest_toResult hdistinct hweight (fun groups hgroups => hgroups.2.2.2.trans hmax)
    hgood.isSelection (fun hne => ?_) (fun other hother => ?_) _ _ _ _ _
  · obtain ⟨⟨hreach, hwindow, hlimit⟩, -⟩ := hgood.found hne
    rw [← amountOf_chosen] at hreach hwindow
    rw [← weightOf_chosen] at hlimit
    exact ⟨(chosen_sublist hgood.isSelection).subperm, hreach, hwindow, hlimit⟩
  · -- a part that reaches a positive target has a group, and so it is covered
    obtain ⟨hsub, hreach, hwindow, hlimit⟩ := hother
    obtain ⟨S, hS, htotal⟩ := exists_total hsub
    have hamount' : total pool getSelectionAmount S = amountOf other := htotal _
    have hweight' : total pool weight S = weightOf other := htotal _
    have hwaste' : total pool waste S = wasteOf other := htotal _
    have hS0 : S ≠ [] := by
      rintro rfl
      rw [← hamount', total_nil] at hreach
      omega
    rw [← hamount'] at hreach hwindow
    rw [← hweight'] at hlimit
    obtain ⟨hne, hle⟩ := hcovers S hS hS0 ⟨hreach, hwindow, hlimit⟩
    rw [(hgood.found hne).2, wasteScore, wasteScore, hamount', hwaste'] at hle
    rw [amountOf_chosen, wasteOf_chosen]
    exact ⟨hne, hle⟩

private theorem descending_total (a b : OutputGroup) : descending b a = false ∨
    descending a b = false := by
  rw [descending_eq_false_iff, descending_eq_false_iff]
  omega

private theorem descending_trans (a b c : OutputGroup) (hab : descending b a = false)
    (hbc : descending c b = false) : descending c a = false := by
  rw [descending_eq_false_iff] at *
  omega

def sortByWaste : StdSort descending := .insertion _ descending_total descending_trans

/-- A result of a certain weight is not the least wasteful one if all parts of that weight are more
wasteful than another one. -/
theorem IsLeastWasteful.not_of_sublists {returned : Except SelectionError SelectionResult}
    (weight : Int) (hreturned : returned.toOption.map SelectionResult.weight = some weight)
    (other : List OutputGroup) (hother : InWindow pool target cost maxWeight other)
    (h : ∀ groups ∈ pool.sublists, weightOf groups = weight →
      wasteOf other + (amountOf other - target) < wasteOf groups + (amountOf groups - target)) :
    ¬ IsLeastWasteful pool target cost maxWeight returned := by
  intro hleast
  obtain ⟨result, best, hok, hbest, -, hweight, hle⟩ := hleast.exists_le other hother
  obtain ⟨groups, hperm, hsub⟩ := hbest.1
  have hresult : result.weight = weight := by
    rw [hok] at hreturned
    exact some.inj hreturned
  have hlt := h groups (mem_sublists.mpr hsub) (by rw [weightOf_perm hperm, ← hweight, hresult])
  rw [amountOf_perm hperm, wasteOf_perm hperm] at hlt
  omega

end Tessera.Wallet
