import Tessera.Wallet.SelectCoins
import Tessera.Wallet.WholeGroups

/-!
# Where selected coins come from

Whatever holds of every coin in a pool holds of every coin that is selected from it: each algorithm
returns groups of its pool, and each layer of `SelectCoins` passes on what it is given. Nothing is
assumed of the randomness, or of how ties are sorted.
-/

namespace Tessera.Wallet

open Lib SelectionResult List

variable {returned : Except String SelectionResult} {bounded : Prop}
  {Q : COutput → Prop} {sffo : Bool}
  {target : Int} {result result' : SelectionResult} {params : CoinSelectionParams}
  {chain : ChainInterface}
  {coins : List COutput} {R : RandomSource} {sorts : Sorts} {S : SelectionResult → Prop}
  {G : OutputGroup → Prop} {groups : Groups}

/-- A group all of whose coins have a property, and that counts fees as asked for. -/
structure FromPool (Q : COutput → Prop) (subtractFeeOutputs : Bool)
    (group : OutputGroup) : Prop where
  coin : ∀ coin ∈ group.outputs, Q coin
  fees : group.subtractFeeOutputs = subtractFeeOutputs

/-- A result for a target, all of whose coins have a property. -/
structure Selects (Q : COutput → Prop) (subtractFeeOutputs : Bool) (target : Int)
    (result : SelectionResult) : Prop where
  coin : ∀ coin ∈ result.selectedInputs, Q coin
  target : result.target = target
  useEffective : result.selectedInputs = [] ∨ result.useEffective = !subtractFeeOutputs

/-- A result as the algorithms return it, before overlapping ancestries are taken into account. -/
structure Picks (Q : COutput → Prop) (subtractFeeOutputs : Bool) (target : Int)
    (result : SelectionResult) : Prop extends Selects Q subtractFeeOutputs target result where
  undiscounted : result.bumpFeeGroupDiscount = 0

section Results

private theorem SelectionResult.insertInputs_eq_ok_iff {inputs : List COutput} :
      result.insertInputs inputs = .ok result' ↔
      ∃ h : ((result.selectedInputs ++ inputs).map COutput.outpoint).Nodup,
        result' = { result with
          selectedInputs := result.selectedInputs ++ inputs, distinct := h } := by
  rw [insertInputs]
  split
  next h =>
    refine ⟨fun heq => ⟨h, (Except.ok.inj heq).symm⟩, ?_⟩
    rintro ⟨-, rfl⟩
    rfl
  next h =>
    constructor
    · intro heq
      cases heq
    · rintro ⟨h', -⟩
      exact absurd h' h

private theorem Delivered.picks (h : Delivered (FromPool Q sffo) bounded target result) :
    Picks Q sffo target result := by
  obtain ⟨groups, hgroups, hmade, -⟩ := h
  refine ⟨⟨fun coin hcoin => ?_, hmade.target, ?_⟩, hmade.undiscounted⟩
  · rw [hmade.inputs] at hcoin
    obtain ⟨group, hgroup, hmem⟩ := mem_flatMap.mp hcoin
    exact (hgroups group hgroup).coin coin hmem
  · rw [hmade.inputs]
    rcases hmade.useEffective with rfl | ⟨group, hgroup, heffective⟩
    · exact .inl rfl
    · rw [heffective, (hgroups group hgroup).fees]
      exact .inr rfl

end Results

/-! ### Results with their waste -/

/-- A selection that pays for its target, with or without change. -/
structure Funds (Q : COutput → Prop) (subtractFeeOutputs : Bool)
    (minViableChange changeFee target : Int) (result : SelectionResult) : Prop where
  coin : ∀ coin ∈ result.selectedInputs, Q coin
  target : result.target = target
  nonempty : result.selectedInputs ≠ []
  useEffective : result.useEffective = !subtractFeeOutputs
  covered : result.getChange minViableChange changeFee ≠ 0 ∨
    result.target ≤ if subtractFeeOutputs then result.getSelectedValue
      else result.getSelectedEffectiveValue

section Funds

variable
  {minViableChange changeCost changeFee : Int}

/-- Recomputing the waste of a result changes nothing else. -/
theorem recalculateWaste_eq_ok
    (hok : result.recalculateWaste minViableChange changeCost changeFee = .ok result') :
    result' = { result with waste := result'.waste } := by
  rw [recalculateWaste] at hok
  split at hok
  · cases hok
  dsimp only at hok
  split at hok
  · cases hok
    rfl
  generalize (if result.useEffective = true then _ else _ : Int) = selected at hok
  split at hok
  · cases hok
    rfl
  · cases hok

theorem Delivered.recalculate
    (h : Delivered G bounded target result) (hok : recalculate params result = .ok result') :
    Delivered G bounded target result' := by
  obtain ⟨groups, hgroups, ⟨hsub, hinputs, hweight, htarget, hdiscount, heffective⟩, hamount⟩ := h
  rw [recalculateWaste_eq_ok hok]
  exact ⟨groups, hgroups, ⟨hsub, hinputs, hweight, htarget, hdiscount, heffective⟩, hamount⟩

/-- The waste of a result is computed only if the result pays for its target. -/
theorem Selects.funds (h : Selects Q sffo target result)
    (hok : result.recalculateWaste minViableChange changeCost changeFee = .ok result') :
    Funds Q sffo minViableChange changeFee target result' := by
  rw [recalculateWaste] at hok
  split at hok
  · cases hok
  next hne =>
    have heff := h.useEffective.resolve_left hne
    split at hok
    next hchange =>
      cases hok
      exact ⟨h.coin, h.target, hne, heff, .inl hchange⟩
    · have hselected : (if result.useEffective then result.getSelectedEffectiveValue
          else result.getSelectedValue) =
            if sffo then result.getSelectedValue else result.getSelectedEffectiveValue := by
        rw [heff]
        cases sffo <;> rfl
      rw [hselected] at hok
      by_cases hcovers : result.target ≤ if sffo then result.getSelectedValue
        else result.getSelectedEffectiveValue
      · rw [if_pos hcovers] at hok
        cases hok
        exact ⟨h.coin, h.target, hne, heff, .inr hcovers⟩
      · rw [if_neg hcovers] at hok
        cases hok

private theorem funds_discountBumpFees
    (h : Picks Q params.subtractFeeOutputs target result)
    (hok : discountBumpFees chain params result = .ok result') :
    Funds Q params.subtractFeeOutputs params.minViableChange params.changeFee target result' := by
  rw [discountBumpFees] at hok
  split at hok
  · cases hok
  obtain ⟨discounted, hdiscount, hwaste⟩ := bind_eq_ok_iff.mp hok
  have hkept : Selects Q params.subtractFeeOutputs target discounted := by
    rw [applyDiscount] at hdiscount
    split at hdiscount
    · cases hdiscount
      exact h.toSelects
    rw [setBumpFeeDiscount] at hdiscount
    split at hdiscount
    · cases hdiscount
      exact ⟨h.coin, h.target, h.useEffective⟩
    · cases hdiscount
  exact hkept.funds hwaste

/-- The fees that bump the ancestors of several coins together are not negative. -/
def ChainInterface.BumpFeesNonneg (chain : ChainInterface) : Prop :=
  ∀ outpoints feerate fee, chain.calculateCombinedBumpFee outpoints feerate = some fee → 0 ≤ fee

private theorem sum_bumpFees_nonneg (h : ∀ coin ∈ coins, 0 ≤ coin.ancestorBumpFees) :
    0 ≤ (coins.map COutput.ancestorBumpFees).sum :=
  sum_nonneg (forall_mem_map.mpr h)

private theorem bumpFees_discountBumpFees
    (hchain : chain.BumpFeesNonneg)
    (hbump : ∀ coin ∈ result.selectedInputs, 0 ≤ coin.ancestorBumpFees)
    (hnone : result.bumpFeeGroupDiscount = 0)
    (hok : discountBumpFees chain params result = .ok result') : 0 ≤ result'.getTotalBumpFees := by
  have hpart := ((filter_sublist (p := fun coin => decide (coin.depth ≤ 0))).map _).sum_le_sum
    (forall_mem_map.mpr hbump)
  rw [discountBumpFees] at hok
  split at hok
  · cases hok
  next combined hcombined =>
    have hfee := hchain _ _ _ hcombined
    obtain ⟨discounted, hdiscount, hwaste⟩ := bind_eq_ok_iff.mp hok
    rw [recalculateWaste_eq_ok hwaste, getTotalBumpFees]
    dsimp only
    rw [applyDiscount] at hdiscount
    split at hdiscount
    · cases hdiscount
      omega
    rw [setBumpFeeDiscount] at hdiscount
    split at hdiscount
    · cases hdiscount
      dsimp only
      omega
    · cases hdiscount

theorem forall_mapM_ok {α β ε : Type} {f : α → Except ε β} {P : α → Prop} {S : β → Prop}
    (hf : ∀ a b, P a → f a = .ok b → S b) {l : List α} {l' : List β} (hl : ∀ a ∈ l, P a)
    (hok : l.mapM f = .ok l') : ∀ b ∈ l', S b := by
  induction l generalizing l' with
  | nil =>
    cases hok
    exact forall_mem_nil S
  | cons a rest ih =>
    rw [mapM_cons] at hok
    obtain ⟨b, hb, hok⟩ := bind_eq_ok_iff.mp hok
    obtain ⟨bs, hbs, hok⟩ := bind_eq_ok_iff.mp hok
    cases hok
    intro c hc
    rcases mem_cons.mp hc with rfl | hc
    · exact hf a _ (hl a mem_cons_self) hb
    · exact ih (fun a h => hl a (mem_cons_of_mem _ h)) hbs c hc

end Funds

/-! ### The layers -/

section Layers

open Comp

variable {α : Type}

private theorem yields_attempt {P : α → Prop} {x : SelectM R α} (h : Yields P x) :
    Yields (fun returned => ∀ a, returned = .ok a → P a) (attempt x) := by
  rintro rng returned rng' hret a rfl
  obtain ⟨hresult, hrng⟩ := Prod.mk.inj hret
  refine h rng a rng' (Prod.ext ?_ hrng)
  change (x rng).1 = _
  generalize (x rng).1 = outcome at hresult ⊢
  rcases outcome with (_ | _) | b <;> cases hresult
  rfl

private theorem forall_note {attempts : Attempts} (h : ∀ result ∈ attempts.results, S result)
    (hnew : ∀ result, returned = .ok result → S result) :
    ∀ result ∈ (attempts.note returned).results, S result := by
  intro result hresult
  cases returned with
  | ok new =>
    rcases mem_append.mp hresult with hold | hmem
    · exact h result hold
    · rw [mem_singleton.mp hmem]
      exact hnew new rfl
  | error message =>
    rw [Attempts.note] at hresult
    split at hresult <;> exact h result hresult

structure Groups.FromPool (Q : COutput → Prop) (sffo : Bool) (groups : Groups) : Prop where
  positive : ∀ group ∈ groups.positiveGroup, Wallet.FromPool Q sffo group
  mixed : ∀ group ∈ groups.mixedGroup, Wallet.FromPool Q sffo group

/-- The parameters for which every selection reaches its target. -/
def CoinSelectionParams.Bounded (params : CoinSelectionParams) : Prop :=
  0 ≤ params.minChangeTarget ∧ 0 ≤ changeLower + params.changeFee

/-- What holds after each algorithm, for groups with a property. -/
structure Round.Delivered (G : OutputGroup → Prop) (bounded : Prop) (target : Int)
    (round : Round) : Prop where
  results : ∀ result ∈ round.1.results, Wallet.Delivered G bounded target result
  pool : ∀ group ∈ round.2, G group

section Delivered

variable {maxSelectionWeight : Int} {round : Round}
  {pool : List OutputGroup}

private theorem forall_sort {lt : OutputGroup → OutputGroup → Bool} (sort : StdSort lt)
    (hpool : ∀ group ∈ pool, G group) : ∀ group ∈ sort.sort pool, G group :=
  fun group hgroup => hpool group ((sort.perm pool).mem_iff.mp hgroup)

private theorem yields_tryBnB (hpositive : ∀ group ∈ groups.positiveGroup, G group) :
    Yields (Round.Delivered G params.Bounded target)
      (tryBnB R sorts target groups params maxSelectionWeight) := by
  have hnone : ∀ result ∈ (⟨[], []⟩ : Attempts).results, Delivered G params.Bounded target result :=
    forall_mem_nil _
  refine yields_ite (fun _ => yields_pure ⟨hnone, hpositive⟩) fun _ => ?_
  refine yields_bind (yields_attempt (yields_ofExcept fun result hok => ?_))
    fun returned hreturned =>
    yields_pure ⟨forall_note hnone hreturned, forall_sort sorts.byWaste hpositive⟩
  obtain ⟨chosen, hchosen⟩ := wholeGroups_selectCoinsBnB sorts.byWaste hok
  exact hchosen.toMadeOf.delivered hpositive fun _ => hchosen.amount

private theorem yields_draw {P : α → Prop} {f : R.State → Except SelectionError α × R.State}
    (h : ∀ rng a, (f rng).1 = .ok a → P a) : Yields P (f : SelectM R α) := by
  rintro rng a rng' hret
  exact h rng a (congrArg Prod.fst hret)

private theorem yields_tryKnapsack (hmixed : ∀ group ∈ groups.mixedGroup, G group)
    (hround : round.Delivered G params.Bounded target) :
    Yields (Round.Delivered G params.Bounded target)
      (tryKnapsack R sorts target groups params maxSelectionWeight round) := by
  refine yields_bind (yields_attempt (yields_draw fun rng result hok => ?_))
    fun returned hreturned =>
    yields_pure ⟨forall_note hround.results hreturned, hround.pool⟩
  obtain ⟨chosen, hchosen, -, hamount⟩ := solved_knapsackSolver R sorts.byWaste hok
  exact hchosen.delivered hmixed fun hbounded => hamount hbounded.1

private theorem yields_recalculateAttempt
    (h : ∀ result, returned = .ok result → Wallet.Delivered G bounded target result) :
    Yields (fun returned => ∀ result, returned = .ok result →
      Wallet.Delivered G bounded target result) (recalculateAttempt R params returned) := by
  cases returned with
  | error message => exact yields_pure fun _ h => (by cases h)
  | ok result =>
    refine yields_ofExcept fun returned hok new hnew => ?_
    subst hnew
    obtain ⟨recalculated, hwaste, heq⟩ := except_map_eq_ok_iff.mp hok
    cases heq
    exact (h result rfl).recalculate hwaste

theorem delivered_coinGrinder {sort : StdSort descendingEffvalWeight}
    (hpool : ∀ group ∈ pool, G group)
    (hok : coinGrinder sort pool target params.minChangeTarget maxSelectionWeight = .ok result) :
    Wallet.Delivered G params.Bounded target result := by
  obtain ⟨chosen, hchosen⟩ := wholeGroups_coinGrinder sort hok
  refine hchosen.toMadeOf.delivered hpool fun hbounded => le_trans ?_ hchosen.amount
  exact le_add_of_nonneg_right hbounded.1

private theorem yields_tryCoinGrinder (hround : round.Delivered G params.Bounded target) :
    Yields (Round.Delivered G params.Bounded target)
      (tryCoinGrinder R sorts target params maxSelectionWeight round) := by
  refine yields_ite (fun _ => ?_) fun _ => yields_pure hround
  refine yields_bind (yields_attempt
    (yields_ofExcept fun result hok => delivered_coinGrinder hround.pool hok))
    fun returned hreturned => ?_
  refine yields_bind (yields_recalculateAttempt hreturned) fun recalculated hrecalculated => ?_
  exact yields_pure ⟨forall_note hround.results hrecalculated,
    forall_sort sorts.byWeight hround.pool⟩

private theorem yields_trySRD (hround : round.Delivered G params.Bounded target) :
    Yields (fun attempts => ∀ result ∈ attempts.results, Wallet.Delivered G params.Bounded
      target result) (trySRD R sorts target params maxSelectionWeight round) := by
  refine yields_bind (yields_attempt (yields_draw fun rng result hok => ?_))
    fun returned hreturned =>
    yields_pure (forall_note hround.results hreturned)
  obtain ⟨chosen, hchosen, hamount, -⟩ := madeOf_selectCoinsSRD R sorts.byWeight hok
  refine hchosen.delivered hround.pool fun hbounded => le_trans ?_ hamount
  exact le_add_of_nonneg_right hbounded.2

/-- What the algorithms return is made of groups that were offered to them. -/
theorem yields_runAlgorithms (hpositive : ∀ group ∈ groups.positiveGroup, G group)
    (hmixed : ∀ group ∈ groups.mixedGroup, G group) :
    Yields (fun attempts => ∀ result ∈ attempts.results, Wallet.Delivered G params.Bounded
      target result) (runAlgorithms R sorts target groups params maxSelectionWeight) := by
  refine yields_bind (yields_tryBnB hpositive) fun round hround => ?_
  refine yields_bind (yields_true _) fun _ _ => ?_
  refine yields_bind (yields_tryKnapsack hmixed hround) fun round hround => ?_
  exact yields_bind (yields_tryCoinGrinder hround) fun round hround => yields_trySRD hround

end Delivered

private theorem mem_of_minElement {lt : α → α → Bool} {l : List α} {a : α}
    (h : minElement lt l = some a) : a ∈ l := by
  cases l with
  | nil => cases h
  | cons first rest =>
    cases h
    -- the best one so far is among the elements that were seen
    induction rest generalizing first with
    | nil => exact mem_singleton_self first
    | cons next rest ih =>
      rw [foldl_cons]
      have hbest := ih (if lt next first then next else first)
      rcases mem_cons.mp hbest with heq | hmem
      · rw [heq]
        split
        · exact mem_cons_of_mem _ mem_cons_self
        · exact mem_cons_self
      · exact mem_cons_of_mem _ (mem_cons_of_mem _ hmem)

private theorem yields_leastWaste {results : List SelectionResult}
    {otherwise : SelectM R SelectionResult} (h : ∀ result ∈ results, S result)
    (hotherwise : Yields S otherwise) : Yields S (leastWaste R results otherwise) := by
  rw [leastWaste]
  split
  next result hmin => exact yields_pure (h result (mem_of_minElement hmin))
  · exact hotherwise

/-- What every selection for the parameters is. -/
abbrev CoinSelectionParams.Funds (params : CoinSelectionParams) (Q : COutput → Prop)
    (target : Int) : SelectionResult → Prop :=
  Wallet.Funds Q params.subtractFeeOutputs params.minViableChange params.changeFee target

/-- `ChooseSelectionResult` yields what an algorithm has picked, with the discount. -/
theorem yields_chooseSelectionResult (hgroups : groups.FromPool Q params.subtractFeeOutputs)
    (h : ∀ result result', Picks Q params.subtractFeeOutputs target result →
      discountBumpFees chain params result = .ok result' → S result') :
    Yields S (chooseSelectionResult R sorts chain target groups params) := by
  refine yields_bind (yields_true _) fun _ _ => ?_
  refine yields_bind (yields_runAlgorithms hgroups.positive hgroups.mixed)
    fun attempts hattempts => ?_
  refine yields_bind (yields_ofExcept fun results hok => forall_mapM_ok
    (fun result result' hdelivered => h result result' hdelivered.picks) hattempts hok)
      fun results hresults => ?_
  exact yields_leastWaste hresults (yields_throw _)

/-! What `ChooseSelectionResult` yields is what the layers above it yield. -/

private theorem yields_attemptByType {byType : List (OutputType × Groups)}
    (h : ∀ entry ∈ byType, Yields S (chooseSelectionResult R sorts chain target entry.2 params)) :
    Yields (fun results => ∀ result ∈ results, S result)
      (attemptByType R sorts chain target params byType) := by
  induction byType with
  | nil => exact yields_pure (forall_mem_nil _)
  | cons entry rest ih =>
    have hrest := ih fun entry hentry => h entry (mem_cons_of_mem _ hentry)
    refine yields_bind (yields_attempt (h entry mem_cons_self)) fun returned hreturned => ?_
    cases returned with
    | ok result =>
      refine yields_bind hrest fun results hresults => yields_pure fun other hother => ?_
      rcases mem_cons.mp hother with rfl | hother
      · exact hreturned _ rfl
      · exact hresults other hother
    | error message => exact yields_ite (fun _ => hrest) fun _ => yields_throw _

structure OutputGroupTypeMap.FromPool (Q : COutput → Prop) (sffo : Bool)
    (groups : OutputGroupTypeMap) : Prop where
  byType : ∀ entry ∈ groups.groupsByType, entry.2.FromPool Q sffo
  all : groups.allGroups.FromPool Q sffo

end Layers

/-! ### Grouping -/

section Grouping

private theorem forall_upsert {κ ν : Type} [DecidableEq κ] {lt : κ → κ → Bool} {key : κ} {new : ν}
    {f : ν → ν} {S : ν → Prop} (hf : ∀ v, S v → S (f v)) (hnew : S new) {entries : List (κ × ν)}
    (h : ∀ entry ∈ entries, S entry.2) : ∀ entry ∈ upsert lt key new f entries, S entry.2 := by
  induction entries with
  | nil =>
    intro entry hentry
    rw [mem_singleton.mp hentry]
    exact hf new hnew
  | cons first rest ih =>
    have hfirst := h first mem_cons_self
    have hrest : ∀ entry ∈ rest, S entry.2 := fun entry h' => h entry (mem_cons_of_mem _ h')
    rw [upsert]
    split
    · exact forall_mem_cons.mpr ⟨hf _ hfirst, hrest⟩
    · split
      · exact forall_mem_cons.mpr ⟨hf new hnew, h⟩
      · exact forall_mem_cons.mpr ⟨hfirst, ih hrest⟩

/-- A coin keeps its property in a group, which sets its long-term fee. -/
abbrev KeepsInGroup (Q : COutput → Prop) (coin : COutput) : Prop :=
  ∀ fee, Q { coin with longTermFee := fee }

private theorem fromPool_newGroup : FromPool Q params.subtractFeeOutputs (newGroup params) :=
  ⟨forall_mem_nil _, rfl⟩

variable {group : OutputGroup} {output : COutput}

theorem FromPool.insertCoin (h : FromPool Q sffo group)
    (houtput : KeepsInGroup Q output) : FromPool Q sffo (insertCoin chain group output) := by
  refine ⟨fun coin hcoin => ?_, h.fees⟩
  rcases mem_append.mp hcoin with hold | hnew
  · exact h.coin coin hold
  · rw [mem_singleton.mp hnew]
    exact houtput _

theorem Groups.FromPool.push (h : groups.FromPool Q sffo)
    (hgroup : Wallet.FromPool Q sffo group) (insertPositive insertMixed : Bool) :
    (groups.push group insertPositive insertMixed).FromPool Q sffo := by
  have happend : ∀ (l : List OutputGroup) (c : Prop) [Decidable c],
      (∀ other ∈ l, Wallet.FromPool Q sffo other) →
      ∀ other ∈ if c then l ++ [group] else l, Wallet.FromPool Q sffo other := by
    intro l c _ hl
    split
    · exact forall_mem_append.mpr ⟨hl, forall_mem_singleton.mpr hgroup⟩
    · exact hl
  exact ⟨happend _ _ h.positive, happend _ _ h.mixed⟩

private theorem groups_fromPool_nil : (⟨[], []⟩ : Groups).FromPool Q sffo :=
  ⟨forall_mem_nil _, forall_mem_nil _⟩

theorem OutputGroupTypeMap.FromPool.push {groups : OutputGroupTypeMap} (h : groups.FromPool Q sffo)
    (hgroup : Wallet.FromPool Q sffo group) (type : OutputType)
    (insertPositive insertMixed : Bool) :
    (groups.push group type insertPositive insertMixed).FromPool Q sffo := by
  rw [OutputGroupTypeMap.push]
  split
  · exact h
  · refine ⟨forall_upsert (fun v hv => ?_) groups_fromPool_nil h.byType, h.all.push hgroup _ _⟩
    exact Groups.FromPool.push hv hgroup insertPositive insertMixed

abbrev FilteredGroups.FromPool (Q : COutput → Prop) (sffo : Bool)
    (filtered : FilteredGroups) : Prop :=
  ∀ entry ∈ filtered.groups, entry.2.FromPool Q sffo

theorem forall_foldl {α β : Type} {S : β → Prop} {P : α → Prop} {f : β → α → β}
    (hf : ∀ b a, S b → P a → S (f b a)) {l : List α} {b : β} (hl : ∀ a ∈ l, P a) (hb : S b) :
    S (l.foldl f b) :=
  foldlRecOn l f hb fun b hb a ha => hf b a hb (hl a ha)

variable {filtered : FilteredGroups}

theorem FilteredGroups.FromPool.offer (h : filtered.FromPool Q sffo)
    (hgroup : Wallet.FromPool Q sffo group) (filters : List SelectionFilter)
    (accepts : CoinEligibilityFilter → Bool) (type : OutputType)
    (insertPositive insertMixed : Bool) :
    (filtered.offer filters accepts group type insertPositive insertMixed).FromPool Q sffo := by
  -- each filter that accepts the group adds it to its own entry
  refine forall_foldl (P := fun _ => True)
    (S := fun groups : List (CoinEligibilityFilter × OutputGroupTypeMap) => ∀ entry ∈ groups,
      entry.2.FromPool Q sffo)
    (fun groups filter hgroups _ => ?_) (fun _ _ => trivial) h
  refine forall_upsert (fun v hv => ?_) ⟨forall_mem_nil _, groups_fromPool_nil⟩ hgroups
  exact OutputGroupTypeMap.FromPool.push hv hgroup type insertPositive insertMixed

private theorem fromPool_insertOutput {groups : List OutputGroup}
    (h : ∀ group ∈ groups, FromPool Q params.subtractFeeOutputs group)
    (houtput : KeepsInGroup Q output) :
    ∀ group ∈ insertOutput chain params groups output,
    FromPool Q params.subtractFeeOutputs group := by
  have hnew : FromPool Q params.subtractFeeOutputs (insertCoin chain (newGroup params) output) :=
    fromPool_newGroup.insertCoin houtput
  rw [insertOutput]
  split
  · exact forall_mem_singleton.mpr hnew
  next last hlast =>
    split
    · exact forall_mem_append.mpr ⟨h, forall_mem_singleton.mpr hnew⟩
    have hinserted : FromPool Q params.subtractFeeOutputs (insertCoin chain last output) :=
      (h last (mem_of_getLast? hlast)).insertCoin houtput
    exact forall_mem_append.mpr
      ⟨fun group hgroup => h group (mem_of_mem_dropLast hgroup), forall_mem_singleton.mpr hinserted⟩

private theorem fromPool_pushOutputGroups {filters : List SelectionFilter} {positiveOnly : Bool}
    {byScript : GroupsByScript}
    (hgroups : ∀ entry ∈ byScript, ∀ group ∈ entry.2, FromPool Q sffo group)
    (h : filtered.FromPool Q sffo) :
    (pushOutputGroups filters positiveOnly byScript filtered).FromPool Q sffo := by
  refine forall_foldl (fun filtered entry hfiltered hentry => ?_) hgroups h
  refine forall_foldl (P := fun indexed : OutputGroup × Nat => FromPool Q sffo indexed.1)
    (fun filtered indexed hfiltered hindexed => hfiltered.offer hindexed _ _ _ _ _) ?_ hfiltered
  intro indexed hindexed
  exact hentry indexed.1 (mem_reverse.mp (fst_mem_of_mem_zipIdx hindexed))

private theorem fromPool_groupOutputs {coins : CoinsResult}
    (hcoins : ∀ coin ∈ coins.all, KeepsInGroup Q coin) (filters : List SelectionFilter) :
    (groupOutputs chain params coins filters).FromPool Q params.subtractFeeOutputs := by
  have hnone : FilteredGroups.FromPool Q params.subtractFeeOutputs ⟨[], []⟩ := forall_mem_nil _
  have houtputs : ∀ entry ∈
      coins.coins.flatMap (fun entry => entry.2.map fun output => (entry.1, output)),
      KeepsInGroup Q entry.2 := by
    intro entry hentry
    obtain ⟨typed, htyped, hmem⟩ := mem_flatMap.mp hentry
    obtain ⟨output, houtput, rfl⟩ := mem_map.mp hmem
    exact hcoins output (mem_flatMap.mpr ⟨typed, htyped, houtput⟩)
  rw [groupOutputs]
  split
  · exact forall_foldl (fun filtered entry hfiltered hentry =>
      hfiltered.offer (fromPool_newGroup.insertCoin hentry) _ _ _ _ _) houtputs hnone
  -- the groups by script, of all coins and of those with a positive value
  have hbyScript : ∀ outputs : List (OutputType × COutput),
      (∀ entry ∈ outputs, KeepsInGroup Q entry.2) →
      ∀ entry ∈ outputs.foldl (fun byScript entry => upsert scriptTypeLt
        (entry.2.txout.scriptPubKey, entry.1) []
        (insertOutput chain params · entry.2) byScript) ([] : GroupsByScript),
        ∀ group ∈ entry.2, FromPool Q params.subtractFeeOutputs group := by
    intro outputs houtputs
    refine forall_foldl (S := fun byScript : GroupsByScript => ∀ entry ∈ byScript,
      ∀ group ∈ entry.2,
      FromPool Q params.subtractFeeOutputs group) (fun byScript entry hscript hentry => ?_) houtputs
      (forall_mem_nil _)
    exact forall_upsert (S := fun groups => ∀ group ∈ groups,
      FromPool Q params.subtractFeeOutputs group)
      (fun groups hgroups => fromPool_insertOutput hgroups hentry)
        (fun _ h => absurd h not_mem_nil) hscript
  refine fromPool_pushOutputGroups (hbyScript _ fun entry hentry => ?_)
    (fromPool_pushOutputGroups (hbyScript _ houtputs) hnone)
  exact houtputs entry (mem_filter.mp hentry).1

end Grouping

/-! ### Automatic selection, and the inputs chosen by hand -/

section Selection

open Comp

theorem mem_of_lookup {κ ν : Type} [BEq κ] [LawfulBEq κ] {entries : List (κ × ν)} {key : κ} {v : ν}
    (h : entries.lookup key = some v) : (key, v) ∈ entries := by
  obtain ⟨before, after, rfl, -⟩ := lookup_eq_some_iff.mp h
  exact mem_append_right _ mem_cons_self

/-- Parameters with the same fees, which may differ in the limit on the weight. -/
structure SameFees (params params' : CoinSelectionParams) : Prop where
  subtractFeeOutputs : params'.subtractFeeOutputs = params.subtractFeeOutputs
  minViableChange : params'.minViableChange = params.minViableChange
  changeFee : params'.changeFee = params.changeFee

/-- The filters only differ in which groups are offered, and in the limit on the weight. -/
theorem yields_tryFilters {groups : List (CoinEligibilityFilter × OutputGroupTypeMap)}
    (hgroups : ∀ entry ∈ groups, entry.2.FromPool Q params.subtractFeeOutputs)
    (hchoose : ∀ params', SameFees params params' → ∀ groups : Groups,
      groups.FromPool Q params'.subtractFeeOutputs →
      Yields S (chooseSelectionResult R sorts chain target groups params'))
    (filters : List SelectionFilter) (errors : List String) {params' : CoinSelectionParams}
    (hsame : SameFees params params') : Yields S
      (tryFilters R sorts chain target groups filters params' errors) := by
  induction filters generalizing params' errors with
  | nil => exact yields_throw _
  | cons select rest ih =>
    rw [tryFilters]
    split
    · exact ih errors hsame
    next typeMap hlookup =>
      dsimp only
      generalize hparams : (if (decide (params'.version = trucVersion) &&
        (decide (select.filter.confMine = 0) ||
          decide (select.filter.confTheirs = 0)) && params'.maxTxWeight.any fun weight =>
          decide (trucChildMaxWeight < weight)) then
        { params' with maxTxWeight := some trucChildMaxWeight } else params') = limited
      have hlimited : SameFees params limited := by
        rw [← hparams]
        split
        · exact ⟨hsame.subtractFeeOutputs, hsame.minViableChange, hsame.changeFee⟩
        · exact hsame
      have hfrom := hlimited.subtractFeeOutputs ▸ hgroups _ (mem_of_lookup hlookup)
      have hselects : Yields S
          (attemptSelection R sorts chain target typeMap limited select.allowMixedOutputTypes) := by
        have hbyType := yields_attemptByType fun entry hentry =>
          hchoose limited hlimited entry.2 (hfrom.byType entry hentry)
        refine yields_bind hbyType fun results hresults => yields_leastWaste hresults ?_
        exact yields_ite (fun _ => hchoose limited hlimited _ hfrom.all) fun _ => yields_throw _
      refine yields_bind (yields_attempt hselects) fun returned hreturned => ?_
      cases returned with
      | ok result => exact yields_pure (hreturned result rfl)
      | error message => exact ih _ hlimited

variable {coin : COutput} {availableCoins presetInputs : CoinsResult} {spendZeroConfChange : Bool}
  {merged : SelectionResult}

private theorem mem_shuffleCoins {coins : List (OutputType × List COutput)} {rng : R.State}
    (h : coin ∈ (CoinsResult.shuffleCoins R coins rng).1.flatMap Prod.snd) : coin ∈
      coins.flatMap Prod.snd := by
  induction coins generalizing rng with
  | nil => exact h
  | cons entry rest ih =>
    rw [flatMap_cons, mem_append]
    rcases mem_append.mp h with h | h
    · exact .inl ((R.shuffle_perm rng entry.2).mem_iff.mp h)
    · exact .inr (ih h)

private theorem yields_shuffleIfMany {S : COutput → Prop}
    (h : ∀ coin ∈ availableCoins.all, S coin) :
    Yields (fun coins => ∀ coin ∈ coins.all, S coin) (shuffleIfMany R availableCoins params) := by
  refine yields_ite (fun _ => ?_) fun _ => yields_pure h
  rintro rng coins rng' hret
  obtain ⟨shuffled, rng'', hact, hpure⟩ := returns_bind_iff.mp hret
  obtain ⟨rfl, -⟩ := returns_act_iff.mp hact
  obtain ⟨rfl, -⟩ := returns_pure_iff.mp hpure
  exact fun coin hcoin => h coin (mem_shuffleCoins hcoin)

private theorem yields_automaticCoinSelection
    (hcoins : ∀ coin ∈ availableCoins.all, KeepsInGroup Q coin)
    (hchoose : ∀ params', SameFees params params' → ∀ groups : Groups,
      groups.FromPool Q params'.subtractFeeOutputs →
      Yields S (chooseSelectionResult R sorts chain target groups params')) :
    Yields S (automaticCoinSelection R sorts chain spendZeroConfChange availableCoins
      target params) := by
  refine yields_bind (yields_shuffleIfMany hcoins) fun coins hshuffled => ?_
  dsimp only
  split
  · exact yields_throw _
  · exact yields_tryFilters (fromPool_groupOutputs hshuffled _) hchoose _ [] ⟨rfl, rfl, rfl⟩

private theorem outputSet_subset (h : coin ∈ outputSet coins) : coin ∈ coins := by
  induction coins with
  | nil => exact h
  | cons first rest ih =>
    rcases mem_cons.mp h with rfl | h
    · exact mem_cons_self
    · exact mem_cons_of_mem _ (ih (mem_filter.mp h).1)

private theorem exists_mem_outputSet (h : coin ∈ coins) : ∃ other ∈ outputSet coins,
    other.outpoint = coin.outpoint := by
  induction coins with
  | nil => cases h
  | cons first rest ih =>
    by_cases heq : coin.outpoint = first.outpoint
    · exact ⟨first, mem_cons_self, heq.symm⟩
    rcases mem_cons.mp h with rfl | h
    · exact absurd rfl heq
    obtain ⟨other, hother, hsame⟩ := ih h
    refine ⟨other, mem_cons_of_mem _ (mem_filter.mpr ⟨hother, ?_⟩), hsame⟩
    rw [decide_eq_true_eq, hsame]
    exact heq

/-- The inputs chosen by hand, as a result: all of them, and no others. -/
theorem presetResult_eq_ok (hok : presetResult presetInputs target params = .ok result) :
    result.selectedInputs = outputSet presetInputs.all ∧ result.target = target ∧
      result.useEffective = (!params.subtractFeeOutputs) ∧ result.bumpFeeGroupDiscount = 0 := by
  simp only [presetResult, addInputs, bind_eq_ok_iff] at hok
  obtain ⟨inserted, hinsert, _, -, _, -, heq⟩ := hok
  obtain ⟨hdistinct, rfl⟩ := insertInputs_eq_ok_iff.mp hinsert
  cases heq
  exact ⟨rfl, rfl, rfl, rfl⟩

/-- A selection that has every input chosen by hand. -/
structure FundsWith (Q : COutput → Prop) (params : CoinSelectionParams) (presetInputs : CoinsResult)
    (target : Int) (result : SelectionResult) : Prop where
  funds : params.Funds Q target result
  preset : ∀ coin ∈ presetInputs.all, ∃ other ∈ result.selectedInputs,
    other.outpoint = coin.outpoint

private theorem fundsWith_preset (hpreset : ∀ coin ∈ presetInputs.all, Q coin)
    (hok : (presetResult presetInputs target params >>= recalculate params) = .ok result) :
    FundsWith Q params presetInputs target result := by
  obtain ⟨preset, hresult, hwaste⟩ := bind_eq_ok_iff.mp hok
  obtain ⟨hinputs, htarget, heff, -⟩ := presetResult_eq_ok hresult
  have hselects : Selects Q params.subtractFeeOutputs target preset := by
    refine ⟨fun coin hcoin => ?_, htarget, .inr heff⟩
    rw [hinputs] at hcoin
    exact hpreset coin (outputSet_subset hcoin)
  refine ⟨hselects.funds hwaste, fun coin hcoin => ?_⟩
  rw [recalculateWaste_eq_ok hwaste, hinputs]
  exact exists_mem_outputSet hcoin

/-- A selection that the inputs chosen by hand are merged into. -/
theorem mergePreset_eq_ok (hok : mergePreset presetInputs params result = .ok merged) :
    ∃ joined, recalculate params joined = .ok merged ∧
      joined.selectedInputs = result.selectedInputs ++ outputSet presetInputs.all ∧
      joined.target = result.target +
        (presetInputs.getAppropriateTotal params.subtractFeeOutputs).getD 0 ∧
      joined.useEffective = (result.useEffective || !params.subtractFeeOutputs) ∧
      joined.bumpFeeGroupDiscount = result.bumpFeeGroupDiscount := by
  rw [mergePreset] at hok
  split at hok
  · cases hok
  next presetTotal htotal =>
    simp only [bind_eq_ok_iff, SelectionResult.merge] at hok
    obtain ⟨preset, hresult, joined, ⟨inserted, hinsert, weight, -, heq⟩, recalculated,
      hwaste, hok⟩ := hok
    obtain ⟨hinputs, htarget, heff, -⟩ := presetResult_eq_ok hresult
    obtain ⟨hdistinct, rfl⟩ := insertInputs_eq_ok_iff.mp hinsert
    cases heq
    split at hok <;> cases hok
    rw [← hinputs, ← heff, htotal, ← htarget]
    exact ⟨_, hwaste, rfl, rfl, rfl, rfl⟩

private theorem fundsWith_mergePreset (hpreset : ∀ coin ∈ presetInputs.all, Q coin)
    (h : params.Funds Q (target -
      (presetInputs.getAppropriateTotal params.subtractFeeOutputs).getD 0) result)
    (hok : mergePreset presetInputs params result = .ok merged) : FundsWith Q params presetInputs
      target merged := by
  obtain ⟨joined, hwaste, hboth, hsum, hor, -⟩ := mergePreset_eq_ok hok
  have hselects : Selects Q params.subtractFeeOutputs target joined := by
    refine ⟨fun coin hcoin => ?_, ?_, .inr ?_⟩
    · rw [hboth] at hcoin
      rcases mem_append.mp hcoin with hcoin | hcoin
      · exact h.coin coin hcoin
      · exact hpreset coin (outputSet_subset hcoin)
    · rw [hsum, h.target, sub_add_cancel]
    · rw [hor, h.useEffective, Bool.or_self]
  refine ⟨hselects.funds hwaste, fun coin hcoin => ?_⟩
  obtain ⟨other, hother, hsame⟩ := exists_mem_outputSet hcoin
  rw [recalculateWaste_eq_ok hwaste, hboth]
  exact ⟨other, mem_append_right _ hother, hsame⟩

variable {allowOtherInputs : Bool}

/-- `SelectCoins` selects the inputs chosen by hand and otherwise available coins, and they pay for
the target. -/
theorem yields_selectCoins
    (hpreset : ∀ coin ∈ presetInputs.all, Q coin)
    (havailable : ∀ coin ∈ availableCoins.all, KeepsInGroup Q coin)
    (hempty : presetInputs.coins = [] → presetInputs = .empty) :
    Yields (FundsWith Q params presetInputs target)
      (selectCoins R sorts chain spendZeroConfChange availableCoins presetInputs target
        allowOtherInputs params) := by
  refine yields_ite (fun _ => yields_throw _) fun _ => ?_
  refine yields_ite (fun _ => yields_ofExcept fun result hok => fundsWith_preset hpreset hok)
    fun _ => ?_
  refine yields_ite (fun _ => yields_throw _) fun _ => ?_
  -- a limit on the weight does not change what a selection is
  have hchoose : ∀ (target : Int) (params' : CoinSelectionParams), SameFees params params' →
      ∀ groups : Groups, groups.FromPool Q params'.subtractFeeOutputs →
        Yields (params.Funds Q target)
          (chooseSelectionResult R sorts chain target groups params') := by
    intro target params' hsame groups hgroups
    have hyields : Yields (params'.Funds Q target)
        (chooseSelectionResult R sorts chain target groups params') :=
      yields_chooseSelectionResult hgroups fun _ _ => funds_discountBumpFees
    rwa [CoinSelectionParams.Funds, hsame.subtractFeeOutputs, hsame.minViableChange,
      hsame.changeFee] at hyields
  refine yields_bind (yields_automaticCoinSelection havailable (hchoose _)) fun result hresult => ?_
  refine yields_ite (fun hnone => yields_pure ?_) fun _ =>
    yields_ofExcept fun merged hok => fundsWith_mergePreset hpreset hresult hok
  -- without inputs chosen by hand, the whole target was searched for
  rw [hempty hnone] at hresult ⊢
  have htotal : (CoinsResult.empty.getAppropriateTotal params.subtractFeeOutputs).getD 0 = 0 := by
    rw [CoinsResult.getAppropriateTotal]
    split <;> rfl
  rw [htotal, sub_zero] at hresult
  exact ⟨hresult, forall_mem_nil _⟩

private theorem bumpFees_mergePreset
    (hpreset : ∀ coin ∈ presetInputs.all, 0 ≤ coin.ancestorBumpFees)
    (h : 0 ≤ result.getTotalBumpFees) (hok : mergePreset presetInputs params result = .ok merged) :
    0 ≤ merged.getTotalBumpFees := by
  obtain ⟨joined, hwaste, hboth, -, -, hdiscount⟩ := mergePreset_eq_ok hok
  have hsum := sum_bumpFees_nonneg fun coin hcoin => hpreset coin (outputSet_subset hcoin)
  rw [recalculateWaste_eq_ok hwaste, getTotalBumpFees]
  rw [getTotalBumpFees] at h
  dsimp only
  rw [hboth, map_append, sum_append]
  omega

/-- The bump fees of what `SelectCoins` selects are not negative. -/
theorem yields_selectCoins_bumpFees (hchain : chain.BumpFeesNonneg)
    (hpreset : ∀ coin ∈ presetInputs.all, 0 ≤ coin.ancestorBumpFees)
    (havailable : ∀ coin ∈ availableCoins.all, 0 ≤ coin.ancestorBumpFees) :
    Yields (fun result => 0 ≤ result.getTotalBumpFees)
      (selectCoins R sorts chain spendZeroConfChange availableCoins presetInputs target
        allowOtherInputs params) := by
  refine yields_ite (fun _ => yields_throw _) fun _ => ?_
  refine yields_ite (fun _ => yields_ofExcept fun result hok => ?_) fun _ => ?_
  · obtain ⟨preset, hresult, hwaste⟩ := bind_eq_ok_iff.mp hok
    obtain ⟨hinputs, -, -, hdiscount⟩ := presetResult_eq_ok hresult
    rw [recalculateWaste_eq_ok hwaste, getTotalBumpFees]
    dsimp only
    rw [hinputs, hdiscount, sub_zero]
    exact sum_bumpFees_nonneg fun coin hcoin => hpreset coin (outputSet_subset hcoin)
  refine yields_ite (fun _ => yields_throw _) fun _ => ?_
  refine yields_bind (yields_automaticCoinSelection (Q := fun coin => 0 ≤ coin.ancestorBumpFees)
    (fun coin hcoin fee => havailable coin hcoin) fun params' _ groups hgroups =>
      yields_chooseSelectionResult hgroups fun _ _ hpicks =>
        bumpFees_discountBumpFees hchain hpicks.coin hpicks.undiscounted) fun result hresult => ?_
  exact yields_ite (fun _ => yields_pure hresult) fun _ =>
    yields_ofExcept fun merged hok => bumpFees_mergePreset hpreset hresult hok

end Selection

end Tessera.Wallet
