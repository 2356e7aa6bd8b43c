import Tessera.Wallet.BranchAndBoundOptimal
import Tessera.Wallet.CoinGrinderOptimal
import Tessera.Wallet.Knapsack

/-!
# Selections are whole groups that reach their target

What the four algorithms of `wallet/coinselection.cpp` return, on every pool and with every random
draw: whole groups of the pool, within the maximum weight, that are worth the target. The searches
keep this of their best selection, so that it does not matter whether they come to an end. The
drawing algorithms keep totals beside their groups, which stay in step with them.

Two arguments are not checked. A negative change target lets `KnapsackSolver` take a group below the
target, and a negative maximum weight lets `SelectCoinsSRD` return nothing at all if nothing is
asked for.
-/

namespace Tessera.Wallet

open Lib Lib.SubsetSearch OutputGroup List

variable {start : SelectionResult} {rest : List OutputGroup} {sifted : Sifted}
  {pool groups : List OutputGroup} {target : Int} {result : SelectionResult} {maxWeight : Int}

/-- A result for a target that is made of groups of a pool. Whether it uses effective values is what
its last group says. -/
structure MadeOf (pool : List OutputGroup) (target : Int) (result : SelectionResult)
    (groups : List OutputGroup) : Prop where
  subperm : groups.Subperm pool
  inputs : result.selectedInputs = groups.flatMap OutputGroup.outputs
  weight : result.weight = weightOf groups
  target : result.target = target
  undiscounted : result.bumpFeeGroupDiscount = 0
  useEffective : groups = [] ∨ ∃ group ∈ groups, result.useEffective = !group.subtractFeeOutputs

/-- A result of whole groups that are worth a bound and within the maximum weight. -/
structure WholeGroups (pool : List OutputGroup) (target maxWeight bound : Int)
    (result : SelectionResult)
    (groups : List OutputGroup) : Prop extends MadeOf pool target result groups where
  distinct : (result.selectedInputs.map COutput.outpoint).Nodup
  weight_le : result.weight ≤ maxWeight
  amount : bound ≤ amountOf groups

section Results

variable {result' : SelectionResult}

theorem MadeOf.wholeGroups {bound : Int} (h : MadeOf pool target result groups)
    (hweight : weightOf groups ≤ maxWeight) (hamount : bound ≤ amountOf groups) :
    WholeGroups pool target maxWeight bound result groups :=
  ⟨h, result.distinct, by rwa [h.weight], hamount⟩

/-- A result without inputs, to which an algorithm adds what it has found. -/
structure Blank (target : Int) (result : SelectionResult) : Prop where
  inputs : result.selectedInputs = []
  weight : result.weight = 0
  target : result.target = target
  undiscounted : result.bumpFeeGroupDiscount = 0

private theorem blank_empty (target : Int) (algo : SelectionAlgorithm) : Blank target
    (.empty target algo) :=
  ⟨rfl, rfl, rfl, rfl⟩

/-- Groups that are added one after the other follow those that are there. -/
theorem MadeOf.addGroups {old : List OutputGroup} (h : MadeOf old target result old)
    (hok : result.addGroups groups = .ok result') : MadeOf (old ++ groups) target result'
      (old ++ groups) := by
  induction groups generalizing result old with
  | nil =>
    cases hok
    rwa [append_nil]
  | cons group rest ih =>
    obtain ⟨added, hadd, hrest⟩ := bind_eq_ok_iff.mp hok
    simp only [SelectionResult.addInput, bind_eq_ok_iff] at hadd
    obtain ⟨inserted, hinsert, weight, hweight, hadd⟩ := hadd
    rw [SelectionResult.insertInputs] at hinsert
    split at hinsert
    · cases hinsert
      cases hadd
      obtain rfl := addWeight_eq_ok hweight
      have hmade (hadded : MadeOf (old ++ [group]) target _ (old ++ [group])) := ih hadded hrest
      simpa using hmade ⟨.refl _,
        by simp [h.inputs], by simp [h.weight, weightOf], h.target, h.undiscounted,
        .inr ⟨group, by simp, rfl⟩⟩
    · cases hinsert

theorem Blank.addGroups (hblank : Blank target result) (hok : result.addGroups groups = .ok result')
    (hsub : groups.Subperm pool) : MadeOf pool target result' groups := by
  have hnone : MadeOf [] target result [] :=
    ⟨.refl _, hblank.inputs, hblank.weight, hblank.target, hblank.undiscounted, .inl rfl⟩
  exact { hnone.addGroups hok with subperm := hsub }

theorem MadeOf.clear (h : MadeOf pool target result groups) : Blank target result.clear :=
  ⟨rfl, rfl, h.target, h.undiscounted⟩

theorem Blank.addInput (hblank : Blank target result) {group : OutputGroup} (hgroup : group ∈ pool)
    (hok : result.addInput group = .ok result') : MadeOf pool target result' [group] := by
  refine hblank.addGroups ?_ (singleton_subperm_iff.mpr hgroup)
  rw [SelectionResult.addGroups, hok]
  rfl

end Results

/-! ### The searches -/

section Searches

variable {bound : Int}

private theorem wholeGroups_toResult {sorted : List OutputGroup} (hperm : sorted.Perm pool)
    {algo : SelectionAlgorithm} {selection : List Nat} {exceeded completed : Bool} {evaluated : Nat}
    (hok : toResult sorted algo target selection exceeded completed evaluated = .ok result)
    (hsel : IsSelection sorted.length selection)
    (hfound : selection ≠ [] → total sorted OutputGroup.weight selection ≤ maxWeight ∧
      bound ≤ total sorted getSelectionAmount selection) :
    ∃ groups, WholeGroups pool target maxWeight bound result groups := by
  rw [toResult] at hok
  split at hok
  · cases hok
  next hne =>
    obtain ⟨hweight, hamount⟩ := hfound hne
    have hblank : Blank target { SelectionResult.empty target algo with
        algoCompleted := completed, selectionsEvaluated := evaluated } := ⟨rfl, rfl, rfl, rfl⟩
    have hsub := (chosen_sublist hsel).subperm.trans hperm.subperm
    refine ⟨chosen sorted selection, (hblank.addGroups hok hsub).wholeGroups ?_ ?_⟩
    · rwa [weightOf_chosen]
    · rwa [amountOf_chosen]

private theorem stands_start {σ : Type} {W : Walker σ} {size : Nat} {s : σ}
    (hstart : W.selected s = []) (hsize : 0 < size) : Stands size (W.selected s) 0 := by
  rw [hstart]
  exact ⟨⟨.nil, nofun⟩, nofun, hsize⟩

theorem BranchAndBound.good_search {costOfChange : Int} {isFeerateHigh : Bool} {best : LeastWaste}
    (hne : pool ≠ [])
    (h : (search pool target costOfChange maxWeight isFeerateHigh).found = some best) :
    Good pool target costOfChange maxWeight best := by
  refine run_found (Good pool target costOfChange maxWeight) (fun hs hsne hgood heval => ?_)
    (stands_start rfl (length_pos_iff.mpr hne)) (good_start _ _ _) h
  obtain ⟨tail, rest, -, heval⟩ := exists_evaluated heval
  exact heval.good hs hsne hgood

theorem CoinGrinder.good_search {totalTarget : Int} {best : Lightest} (hne : pool ≠ [])
    (h : (search pool totalTarget maxWeight).found = some best) :
    Good pool totalTarget maxWeight best := by
  refine run_found (Good pool totalTarget maxWeight) (fun hs hsne hgood heval => ?_)
    (stands_start rfl (length_pos_iff.mpr hne)) (good_start _ _) h
  obtain ⟨tail, rest, -, heval⟩ := exists_evaluated heval
  exact heval.good hs hsne hgood

/-- `SelectCoinsBnB` returns whole groups that reach the target, also if it runs out of tries. -/
theorem wholeGroups_selectCoinsBnB (sort : StdSort descending) {costOfChange : Int}
    (hok : selectCoinsBnB sort pool target costOfChange maxWeight = .ok result) :
    ∃ groups, WholeGroups pool target maxWeight target result groups := by
  have hperm := sort.perm pool
  rw [selectCoinsBnB] at hok
  dsimp only at hok
  generalize sort.sort pool = sorted at hok hperm
  split at hok
  · cases hok
  split at hok
  · cases hok
  cases sorted with
  | nil => cases hok
  | cons first rest =>
    dsimp only at hok
    -- a search that ended and one that was stopped differ only in what they say of themselves
    split at hok
    · cases hok
    all_goals
      next hsearch =>
        have hgood := BranchAndBound.good_search (cons_ne_nil _ _) (congrArg Outcome.found hsearch)
        refine wholeGroups_toResult hperm hok hgood.isSelection fun hne => ?_
        have hfeasible := (hgood.found hne).1
        exact ⟨hfeasible.2.2, hfeasible.1⟩

/-- `CoinGrinder` returns whole groups that reach the target with change, also if it runs out of
tries. -/
theorem wholeGroups_coinGrinder (sort : StdSort descendingEffvalWeight) {changeTarget : Int}
    (hok : coinGrinder sort pool target changeTarget maxWeight = .ok result) :
    ∃ groups, WholeGroups pool target maxWeight (target + changeTarget) result groups := by
  have hperm := sort.perm pool
  rw [coinGrinder] at hok
  dsimp only at hok
  split at hok
  · cases hok
  split at hok
  · cases hok
  split at hok
  · cases hok
  next hsorted =>
    split at hok
    · cases hok
    all_goals
      next hsearch =>
        have hgood := CoinGrinder.good_search hsorted (congrArg Outcome.found hsearch)
        refine wholeGroups_toResult hperm hok hgood.isSelection fun hne => ?_
        have hfeasible := (hgood.found hne).1
        exact ⟨hfeasible.2, hfeasible.1⟩

end Searches

/-! ### Single random draw -/

section Draw

/-- The totals of a draw are those of its groups. -/
structure Draw.Tallied (draw : Draw) : Prop where
  amount : draw.selectedEffValue = amountOf draw.heap
  weight : draw.weight = weightOf draw.heap

theorem Draw.Tallied.push {draw pushed : Draw} (h : draw.Tallied)
    {sort : StdSort descendingEffvalWeight} {group : OutputGroup}
    (hok : draw.push sort group = .ok pushed) :
    pushed.Tallied ∧ pushed.heap.Perm (group :: draw.heap) := by
  obtain ⟨weight, hweight, hpushed⟩ := bind_eq_ok_iff.mp hok
  obtain rfl := addWeight_eq_ok hweight
  cases hpushed
  have hperm := (reverse_perm _).trans (sort.perm (group :: draw.heap))
  refine ⟨⟨?_, ?_⟩, hperm⟩
  · rw [amountOf_perm hperm, amountOf_cons, ← h.amount]
    exact add_comm _ _
  · rw [weightOf_perm hperm, weightOf_cons, ← h.weight]
    exact add_comm _ _

/-- Removing groups keeps the totals, and ends within the maximum weight or without groups. -/
theorem Draw.Tallied.shrink {heap : List OutputGroup} {value weight : Int} {shrunk : Draw}
    (h : (⟨heap, value, weight⟩ : Draw).Tallied)
    (hok : Draw.shrink maxWeight heap value weight = .ok shrunk) :
    shrunk.Tallied ∧ shrunk.heap.Sublist heap ∧ (shrunk.heap = [] ∨ shrunk.weight ≤ maxWeight) := by
  induction heap generalizing value weight with
  | nil =>
    cases hok
    exact ⟨h, .refl _, .inl rfl⟩
  | cons top rest ih =>
    obtain ⟨left, hleft, hok⟩ := bind_eq_ok_iff.mp hok
    obtain rfl := addWeight_eq_ok hleft
    have hrest : (⟨rest, value - top.getSelectionAmount, weight + -top.weight⟩ : Draw).Tallied := by
      obtain ⟨hamount, hweight⟩ := h
      rw [amountOf_cons] at hamount
      rw [weightOf_cons] at hweight
      exact ⟨by dsimp only at *; omega, by dsimp only at *; omega⟩
    split at hok
    next hfits =>
      cases hok
      exact ⟨hrest, sublist_cons_self top rest, .inr hfits⟩
    · obtain ⟨htallied, hsub, hends⟩ := ih hrest hok
      exact ⟨htallied, hsub.cons top, hends⟩

/-- The loop keeps totals in step with the heap, whose groups are different from those that are to
come. -/
theorem madeOf_drawGroups (sort : StdSort descendingEffvalWeight) {targetValue : Int}
    (hstart : Blank target start) {draw : Draw} {exceeded : Bool} (hdraw : draw.Tallied)
    (hsub : (draw.heap ++ rest).Subperm pool)
    (hok : drawGroups sort targetValue maxWeight start rest draw exceeded = .ok result) :
    ∃ groups, MadeOf pool target result groups ∧ targetValue ≤ amountOf groups ∧
      (groups = [] ∨ weightOf groups ≤ maxWeight) := by
  induction rest generalizing draw exceeded with
  | nil => cases hok
  | cons group rest ih =>
    simp only [drawGroups, bind_eq_ok_iff] at hok
    obtain ⟨pushed, hpushed, shrunk, hshrink, hok⟩ := hok
    obtain ⟨hpush, hperm⟩ := hdraw.push hpushed
    obtain ⟨htallied, hheap, hends⟩ : shrunk.Tallied ∧ shrunk.heap.Sublist pushed.heap ∧
        (shrunk.heap = [] ∨ shrunk.weight ≤ maxWeight) := by
      rw [Draw.limit] at hshrink
      split at hshrink
      · exact hpush.shrink hshrink
      next hfits =>
        cases hshrink
        exact ⟨hpush, .refl _, .inr (not_lt.mp hfits)⟩
    have hnext :=
      ((hheap.append_right rest).subperm.trans
        ((hperm.append_right rest).trans perm_middle.symm).subperm).trans hsub
    split at hok
    next hreached =>
      refine ⟨shrunk.heap, hstart.addGroups hok ?_, ?_, ?_⟩
      · exact (sublist_append_left _ _).subperm.trans hnext
      · rwa [← htallied.amount]
      · rwa [← htallied.weight]
    · exact ih htallied hnext hok

/-- `SelectCoinsSRD` returns groups that are worth the target with change. They are too heavy only
if there are none. -/
theorem madeOf_selectCoinsSRD (R : RandomSource) (sort : StdSort descendingEffvalWeight)
    {changeFee : Int} {rng : R.State}
    (hok : (selectCoinsSRD R sort pool target changeFee rng maxWeight).1 = .ok result) :
    ∃ groups, MadeOf pool target result groups ∧ target + (changeLower + changeFee) ≤
      amountOf groups ∧ (groups = [] ∨ weightOf groups ≤ maxWeight) := by
  have hnone : (⟨[], 0, 0⟩ : Draw).Tallied := ⟨rfl, rfl⟩
  exact madeOf_drawGroups sort (blank_empty target .srd) hnone (R.shuffle_perm rng pool).subperm hok

end Draw

/-! ### The knapsack solver -/

section Knapsack

variable {changeTarget : Int}

@[simp] theorem flagged_cons (group : OutputGroup) (groups : List OutputGroup) (flag : Bool)
    (flags : List Bool) :
    flagged (group :: groups) (flag :: flags) = (if flag then [group] else []) ++
    flagged groups flags := by
  cases flag <;> rfl

private theorem flagged_sublist (groups : List OutputGroup) (flags : List Bool) :
    (flagged groups flags).Sublist groups := by
  induction groups generalizing flags with
  | nil => exact .refl _
  | cons group groups ih =>
    cases flags with
    | nil => exact nil_sublist _
    | cons flag flags =>
      cases flag with
      | false => exact (ih flags).cons group
      | true => exact (ih flags).cons_cons group

private theorem flagged_replicate (groups : List OutputGroup) : flagged groups
    (List.replicate groups.length true) = groups := by
  induction groups with
  | nil => rfl
  | cons group groups ih => rw [length_cons, replicate_succ, flagged_cons, ih]; rfl

private theorem amountOf_flagged_replicate (groups : List OutputGroup) :
    amountOf (flagged groups (List.replicate groups.length false)) = 0 := by
  induction groups with
  | nil => rfl
  | cons group groups ih => rw [length_cons]; exact ih

private theorem amountOf_flagged_set {flags : List Bool} {i : Nat}
    (hlen : flags.length = groups.length) (hflag : flags[i]? = some false) :
    amountOf (flagged groups (flags.set i true)) =
      amountOf (flagged groups flags) + (groups[i]?.map getSelectionAmount).getD 0 := by
  induction groups generalizing flags i with
  | nil =>
    rw [length_eq_zero_iff.mp hlen] at hflag
    cases hflag
  | cons group groups ih =>
    cases flags with
    | nil => cases hflag
    | cons flag flags =>
      cases i with
      | zero =>
        cases hflag
        simp [add_comm]
      | succ i =>
        have hrest := ih (Nat.succ.inj hlen) hflag
        cases flag with
        | false => simpa using hrest
        | true => simp [hrest, add_assoc]

namespace Subset

variable {R : RandomSource} (groups target)

/-- The total is that of the groups that are included, and the best total so far is that of its
groups. -/
structure Tallied (s : Subset R) : Prop where
  length : s.included.length = groups.length
  total : s.total = amountOf (flagged groups s.included)
  best : s.nBest = amountOf (flagged groups s.best)
  reached : target ≤ s.nBest

variable {groups target} {s : Subset R}

variable {s' : Subset R}

/-- One group in one pass. Only its own flag changes. -/
theorem Tallied.round (h : s.Tallied groups target) {firstPass : Bool} {i : Nat}
    (hi : i < groups.length) (hfirst : firstPass → s.included[i]? = some false)
    (hok : s.round groups target maxWeight firstPass i = .ok s') :
    s'.Tallied groups target ∧ ∀ j ≠ i, s'.included[j]? = s.included[j]? := by
  unfold Subset.round at hok
  generalize hdrawn : (if firstPass = true then R.randbool s.rng
    else (!s.included.getD i false, s.rng)) = drawn at hok
  obtain ⟨take, rng⟩ := drawn
  cases take with
  | false =>
    cases hok
    exact ⟨⟨h.length, h.total, h.best, h.reached⟩, fun _ _ => rfl⟩
  | true =>
    -- a group that is taken was not included before
    have hflag : s.included[i]? = some false := by
      cases firstPass with
      | true => exact hfirst rfl
      | false =>
        have hincluded := congrArg Prod.fst hdrawn
        have hlt : i < s.included.length := h.length ▸ hi
        simpa [getElem?_eq_getElem hlt] using hincluded
    have hset := amountOf_flagged_set h.length hflag
    have hback : (s.included.set i true).set i false = s.included := by
      obtain ⟨hlt, hfalse⟩ := List.getElem?_eq_some_iff.mp hflag
      have hself := set_getElem_self hlt
      rwa [hfalse, ← set_set true] at hself
    simp only [Bool.not_true, Bool.false_eq_true, if_false] at hok
    obtain ⟨weight, -, hok⟩ := bind_eq_ok_iff.mp hok
    rw [← h.total] at hset
    split at hok
    next hreached =>
      cases hok
      split <;> simp only [hback, Int.add_sub_cancel, implies_true, and_true]
      · exact ⟨h.length, h.total, hset.symm, hreached.1⟩
      · exact ⟨h.length, h.total, h.best, h.reached⟩
    · cases hok
      exact ⟨⟨by rw [length_set, h.length], hset.symm, h.best, h.reached⟩,
        fun j hj => getElem?_set_ne (symm hj)⟩

/-- A pass over the first `n` groups. In the first pass, those behind are not included yet. -/
theorem Tallied.pass (h : s.Tallied groups target) {firstPass : Bool}
    (hfirst : firstPass → ∀ j < groups.length, s.included[j]? = some false) {n : Nat}
    (hn : n ≤ groups.length)
    (hok : (List.range n).foldlM (Subset.round groups target maxWeight firstPass) s = .ok s') :
    s'.Tallied groups target ∧
    (firstPass → ∀ j < groups.length, n ≤ j → s'.included[j]? = some false) := by
  induction n generalizing s' with
  | zero =>
    cases hok
    exact ⟨h, fun hpass j hj _ => hfirst hpass j hj⟩
  | succ n ih =>
    rw [range_succ, foldlM_append] at hok
    obtain ⟨before, hbefore, hlast⟩ := bind_eq_ok_iff.mp hok
    obtain ⟨htallied, hbehind⟩ := ih (Nat.le_of_succ_le hn) hbefore
    rw [foldlM_cons] at hlast
    obtain ⟨after, hafter, hlast⟩ := bind_eq_ok_iff.mp hlast
    cases hlast
    obtain ⟨hround, hothers⟩ :=
      htallied.round hn (fun hpass => hbehind hpass n hn (le_refl n)) hafter
    refine ⟨hround, fun hpass j hj hnj => ?_⟩
    rw [hothers j (ne_of_gt hnj)]
    exact hbehind hpass j hj (Nat.le_of_succ_le hnj)

theorem Tallied.repetition (hbest : s.nBest = amountOf (flagged groups s.best))
    (hreached : target ≤ s.nBest) (hok : s.repetition groups target maxWeight = .ok s') :
    s'.Tallied groups target := by
  have hstart : Tallied groups target { s with
      included := replicate groups.length false, total := 0, selectedCoinsWeight :=
        0, reachedTarget := false } :=
    ⟨length_replicate, (amountOf_flagged_replicate groups).symm, hbest, hreached⟩
  obtain ⟨first, hfirst, hok⟩ := bind_eq_ok_iff.mp hok
  have hpass := (hstart.pass (fun _ j hj => by simp [hj]) (le_refl _) hfirst).1
  split at hok
  · cases hok
    exact hpass
  · exact (hpass.pass (fun h => absurd h Bool.false_ne_true) (le_refl _) hok).1

private theorem repetitions_best (n : Nat) (hbest : s.nBest = amountOf (flagged groups s.best))
    (hreached : target ≤ s.nBest) (hok : s.repetitions groups target maxWeight n = .ok s') :
    target ≤ amountOf (flagged groups s'.best) := by
  induction n generalizing s with
  | zero =>
    cases hok
    rwa [← hbest]
  | succ n ih =>
    rw [repetitions] at hok
    split at hok
    · cases hok
      rwa [← hbest]
    · obtain ⟨next, hnext, hok⟩ := bind_eq_ok_iff.mp hok
      have h := Tallied.repetition hbest hreached hnext
      exact ih h.best h.reached hok

end Subset

variable {R : RandomSource} {rng : R.State}

/-- The groups that are chosen reach the target if all of them together do. -/
theorem approximateBestSubset_reaches {chosen : List Bool × Int × R.State}
    (h : target ≤ amountOf groups)
    (hok : approximateBestSubset R groups (amountOf groups) target maxWeight rng = .ok chosen) :
    target ≤ amountOf (flagged groups chosen.1) := by
  obtain ⟨s, hs, hok⟩ := bind_eq_ok_iff.mp hok
  cases hok
  exact Subset.repetitions_best 1000 (congrArg amountOf (flagged_replicate groups).symm) h hs

private theorem approximateTwice_reaches {chosen : List Bool × Int × R.State}
    (h : target ≤ amountOf groups) (hchange : 0 ≤ changeTarget)
    (hok : approximateTwice R groups (amountOf groups) target changeTarget maxWeight
      rng = .ok chosen) :
    target ≤ amountOf (flagged groups chosen.1) := by
  obtain ⟨first, hfirst, hok⟩ := bind_eq_ok_iff.mp hok
  split at hok
  next hsecond => exact le_trans (by omega) (approximateBestSubset_reaches hsecond.2 hok)
  · cases hok
    exact approximateBestSubset_reaches h hfirst

/-- What the first loop keeps: smaller groups with their total, and a larger one that is worth the
target with change. -/
structure Sifted.Tallied (pool : List OutputGroup) (target changeTarget maxWeight : Int)
    (rest : List OutputGroup) (sifted : Sifted) : Prop where
  applicable : (sifted.applicable ++ rest).Subperm pool
  total : sifted.nTotalLower = amountOf sifted.applicable
  lowestLarger : ∀ group, sifted.lowestLarger = some group →
    group ∈ pool ∧ group.weight ≤ maxWeight ∧ target + changeTarget ≤ group.getSelectionAmount

private theorem siftGroups_tallied (h : sifted.Tallied pool target changeTarget maxWeight rest) :
    (∀ group, siftGroups target changeTarget maxWeight rest sifted = .error group →
      group ∈ pool ∧ group.weight ≤ maxWeight ∧ group.getSelectionAmount = target) ∧
    ∀ sifted', siftGroups target changeTarget maxWeight rest sifted = .ok sifted' →
      sifted'.Tallied pool target changeTarget maxWeight [] := by
  induction rest generalizing sifted with
  | nil =>
    refine ⟨fun group hok => (by cases hok), fun sifted' hok => ?_⟩
    cases hok
    exact h
  | cons group rest ih =>
    have hgroup : group ∈ pool := h.applicable.subset (by simp)
    have hskip := ((sublist_cons_self group rest).append_left _).subperm.trans h.applicable
    rw [siftGroups]
    split
    · exact ih ⟨hskip, h.total, h.lowestLarger⟩
    next hweight =>
      split
      next hexact =>
        refine ⟨fun other hok => ?_, fun sifted' hok => (by cases hok)⟩
        cases hok
        exact ⟨hgroup, not_lt.mp hweight, hexact⟩
      · split
        · refine ih ⟨?_, ?_, h.lowestLarger⟩
          · simpa using h.applicable
          · simp [h.total, amountOf]
        next hlarge =>
          -- the group is the lowest of the larger ones so far, or it is left out
          have hlower : ∀ lower : Bool, Sifted.Tallied pool target changeTarget maxWeight rest
              (if lower then { sifted with lowestLarger := some group } else sifted) := by
            rintro (_ | _)
            · exact ⟨hskip, h.total, h.lowestLarger⟩
            · refine ⟨hskip, h.total, fun other hother => ?_⟩
              cases hother
              exact ⟨hgroup, not_lt.mp hweight, not_lt.mp hlarge⟩
          exact ih (hlower _)

/-- What the solver returns is within the maximum weight, and reaches the target unless the change
target is negative. -/
def Solved (pool : List OutputGroup) (target changeTarget maxWeight : Int)
    (result : SelectionResult) : Prop :=
  ∃ groups, MadeOf pool target result groups ∧ weightOf groups ≤ maxWeight ∧
    (0 ≤ changeTarget → target ≤ amountOf groups)

theorem Blank.solved (hstart : Blank target start) {group : OutputGroup}
    (hok : start.addInput group = .ok result) (hgroup : group ∈ pool)
    (hweight : group.weight ≤ maxWeight)
    (hamount : 0 ≤ changeTarget → target ≤ group.getSelectionAmount) :
    Solved pool target changeTarget maxWeight result :=
  ⟨[group], hstart.addInput hgroup hok, by simpa using hweight, by simpa using hamount⟩

theorem Sifted.Tallied.solved
    {larger : OutputGroup} (h : sifted.Tallied pool target changeTarget maxWeight rest)
    (hstart : Blank target start) (hlarger : sifted.lowestLarger = some larger)
    (hok : start.addInput larger = .ok result) : Solved pool target changeTarget
      maxWeight result := by
  obtain ⟨hmem, hweight, hamount⟩ := h.lowestLarger larger hlarger
  exact hstart.solved hok hmem hweight fun _ => by omega

private theorem solved_selectSubset {subset : List OutputGroup} {nBest : Int}
    (hsifted : sifted.Tallied pool target changeTarget maxWeight []) (hstart : Blank target start)
    (hsub : subset.Subperm pool) (hbest : 0 ≤ changeTarget → target ≤ amountOf subset)
    (hok : selectSubset target changeTarget maxWeight sifted start subset nBest = .ok result) :
    Solved pool target changeTarget maxWeight result := by
  rw [selectSubset] at hok
  split at hok
  next larger hfound => exact hsifted.solved hstart (Option.filter_eq_some_iff.mp hfound).1 hok
  · obtain ⟨selected, hselected, hok⟩ := bind_eq_ok_iff.mp hok
    have hmade := hstart.addGroups hselected hsub
    split at hok
    · split at hok
      · cases hok
      next larger hfound => exact hsifted.solved hmade.clear hfound hok
    next hweight =>
      cases hok
      exact ⟨_, hmade, by rw [← hmade.weight]; exact not_lt.mp hweight, hbest⟩

private theorem solved_solveSubset (sort : StdSort descending)
    (hsifted : sifted.Tallied pool target changeTarget maxWeight [])
    (hreached : target ≤ sifted.nTotalLower) (hstart : Blank target start)
    (hok : (solveSubset R sort target changeTarget maxWeight sifted start rng).1 = .ok result) :
    Solved pool target changeTarget maxWeight result := by
  have hperm := sort.perm sifted.applicable
  have htotal : sifted.nTotalLower = amountOf (sort.sort sifted.applicable) := by
    rw [hsifted.total, amountOf_perm hperm]
  rw [solveSubset, htotal] at hok
  rw [htotal] at hreached
  split at hok
  · cases hok
  next best nBest rng' happrox =>
    have hsub : (flagged (sort.sort sifted.applicable) best).Subperm pool :=
      ((flagged_sublist _ _).subperm.trans hperm.subperm).trans (by simpa using hsifted.applicable)
    exact solved_selectSubset hsifted hstart hsub
      (fun hchange => approximateTwice_reaches hreached hchange happrox) hok

/-- `KnapsackSolver` returns groups within the maximum weight, which reach the target unless the
change target is negative. -/
theorem solved_knapsackSolver (R : RandomSource) (sort : StdSort descending) {rng : R.State}
    (hok : (knapsackSolver R sort pool target changeTarget rng maxWeight).1 = .ok result) :
    Solved pool target changeTarget maxWeight result := by
  have hempty := blank_empty target .knapsack
  have hnone : Sifted.Tallied pool target changeTarget maxWeight (R.shuffle rng pool).1
      ⟨none, [], 0, false⟩ :=
    ⟨(R.shuffle_perm rng pool).subperm, rfl, fun _ h => by cases h⟩
  have hsift := siftGroups_tallied hnone
  rw [knapsackSolver] at hok
  dsimp only at hok
  split at hok
  next group hgroup =>
    obtain ⟨hmem, hweight, hamount⟩ := hsift.1 group hgroup
    exact hempty.solved hok hmem hweight fun _ => le_of_eq hamount.symm
  next sifted hsifted =>
    have htallied := hsift.2 sifted hsifted
    split at hok
    · cases hok
    next selected hselected =>
      split at hselected
      next hexact =>
        have hmade := hempty.addGroups (Option.some.inj hselected)
          (by simpa using htallied.applicable)
        split at hok
        next hweight =>
          cases hok
          exact ⟨_, hmade, by rwa [← hmade.weight], fun _ => by rw [← htallied.total, hexact]⟩
        · have hheavy : Sifted.Tallied pool target changeTarget maxWeight []
              { sifted with maxWeightExceeded := true } :=
              ⟨htallied.applicable, htallied.total, htallied.lowestLarger⟩
          exact solved_solveSubset sort hheavy (le_of_eq hexact.symm) hmade.clear hok
      · cases hselected
    · split at hok
      · split at hok
        · cases hok
        next larger hlarger => exact htallied.solved hempty hlarger hok
      next hreached => exact solved_solveSubset sort htallied (not_lt.mp hreached) hempty hok

end Knapsack

/-! ### What all algorithms deliver -/

/-- A result made of groups that have a property. They reach the target under a condition on the
arguments. -/
def Delivered (G : OutputGroup → Prop) (bounded : Prop) (target : Int)
    (result : SelectionResult) : Prop :=
  ∃ groups, (∀ group ∈ groups, G group) ∧ MadeOf groups target result groups ∧
    (bounded → target ≤ amountOf groups)

theorem MadeOf.delivered (h : MadeOf pool target result groups) {G : OutputGroup → Prop}
    (hpool : ∀ group ∈ pool, G group) {bounded : Prop}
    (hamount : bounded → target ≤ amountOf groups) :
    Delivered G bounded target result :=
  ⟨groups, fun group hgroup => hpool group (h.subperm.subset hgroup),
    { h with subperm := .refl _ }, hamount⟩

end Tessera.Wallet
