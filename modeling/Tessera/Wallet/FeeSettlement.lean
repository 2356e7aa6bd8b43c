import Tessera.Wallet.CreateTransaction

/-!
# Settling the fee

What `CreateTransactionInternal` does to the outputs once the fee is known. The change takes what is
paid beyond the fee that is needed; the recipients that pay for the fee make up for what is missing.
Their loop skips the change output, so that it does what it would do without change.
-/

namespace Tessera.Wallet

open Policy Tx List CRecipient

variable {vout : List CTxOut}

/-! ### What recipients get -/

/-- What the recipients get if those that pay for the fee share a shortfall. The first of them pays
the remainder. -/
def payShares (shortfall : Int) (count : Nat) : Bool → List CRecipient → List CTxOut
  | _, [] => []
  | first, recipient :: rest =>
    if recipient.subtractFeeFromAmount then
      { recipient.txout with nValue := recipient.nAmount - shareOf shortfall count first } ::
        payShares shortfall count false rest
    else recipient.txout :: payShares shortfall count first rest

/-- What the recipients get if all that pay for the fee share a shortfall. -/
def payRecipients (shortfall : Int) (vecSend : List CRecipient) : List CTxOut :=
  payShares shortfall (vecSend.countP CRecipient.subtractFeeFromAmount) true vecSend

def recipientsTotal (vecSend : List CRecipient) : Int := (vecSend.map CRecipient.nAmount).sum

@[simp] theorem calculateOutputValue_nil : calculateOutputValue [] = 0 := rfl

@[simp] theorem calculateOutputValue_cons (txout : CTxOut) (vout : List CTxOut) :
    calculateOutputValue (txout :: vout) = txout.nValue + calculateOutputValue vout := by
  rw [calculateOutputValue, map_cons, sum_cons, calculateOutputValue]

private theorem calculateOutputValue_recipients (vecSend : List CRecipient) :
    calculateOutputValue (vecSend.map CRecipient.txout) = recipientsTotal vecSend := by
  rw [calculateOutputValue, map_map]
  rfl

private theorem payShares_of_none {shortfall : Int} {count : Nat} {first : Bool}
    {vecSend : List CRecipient} (h : vecSend.any CRecipient.subtractFeeFromAmount = false) :
    payShares shortfall count first vecSend = vecSend.map CRecipient.txout := by
  induction vecSend with
  | nil => rfl
  | cons recipient rest ih =>
    rw [any_cons, Bool.or_eq_false_iff] at h
    rw [payShares, h.1, if_neg Bool.false_ne_true, map_cons, ih h.2]

/-- Each recipient that pays for the fee pays the quotient, and the first one the remainder as well.
-/
theorem value_payShares (shortfall : Int) (count : Nat) (first : Bool) (vecSend : List CRecipient) :
    calculateOutputValue (payShares shortfall count first vecSend) =
      recipientsTotal vecSend -
      (vecSend.countP CRecipient.subtractFeeFromAmount * shortfall.tdiv count +
        if first && vecSend.any CRecipient.subtractFeeFromAmount then shortfall.tmod
          count else 0) := by
  induction vecSend generalizing first with
  | nil => simp [payShares, recipientsTotal]
  | cons recipient rest ih =>
    have htotal : recipientsTotal (recipient :: rest) = recipient.nAmount +
        recipientsTotal rest := by
      rw [recipientsTotal, map_cons, sum_cons, recipientsTotal]
    rw [payShares]
    cases hpays : recipient.subtractFeeFromAmount with
    | false =>
      rw [if_neg Bool.false_ne_true, calculateOutputValue_cons, ih,
        countP_cons_of_neg (by rw [hpays]; exact Bool.false_ne_true), any_cons, hpays,
        Bool.false_or]
      change (recipient.nAmount : Int) + _ = _
      omega
    | true =>
      rw [if_pos rfl, calculateOutputValue_cons, ih, countP_cons_of_pos hpays, any_cons, hpays,
        Bool.true_or, Bool.false_and, Bool.and_true, if_neg Bool.false_ne_true, shareOf,
        Int.natCast_add, add_mul, Int.natCast_one, one_mul]
      change (recipient.nAmount - _ : Int) + _ = _
      omega

private theorem value_payRecipients {shortfall : Int} {vecSend : List CRecipient}
    (h : vecSend.any CRecipient.subtractFeeFromAmount) :
    calculateOutputValue (payRecipients shortfall vecSend) = recipientsTotal vecSend -
    shortfall := by
  rw [payRecipients, value_payShares, h, Bool.and_self, if_pos rfl, Int.mul_tdiv_add_tmod]

/-! ### The loop over the recipients -/

private theorem length_addValue (vout : List CTxOut) (i : Nat) (amount : Int) :
    (addValue vout i amount).length = vout.length :=
  length_modify _ _ _

/-- Where an element is once another one is inserted. -/
def indexAround (pos k : Nat) : Nat := if pos ≤ k then k + 1 else k

private theorem getElem?_insertIdx_around {α : Type} (l : List α) (pos : Nat) (a : α) (k : Nat) :
    (l.insertIdx pos a)[indexAround pos k]? = l[k]? := by
  rw [indexAround]
  split
  next hle =>
    rw [getElem?_insertIdx_of_gt (Nat.lt_succ_of_le hle)]
    rfl
  next hlt =>
    rw [getElem?_insertIdx_of_lt (not_le.mp hlt)]

private theorem modify_insertIdx_around {α : Type} {l : List α} {pos : Nat} (hpos : pos ≤ l.length)
    (a : α) (k : Nat) (f : α → α) : (l.insertIdx pos a).modify (indexAround pos k) f =
      (l.modify k f).insertIdx pos a := by
  induction pos generalizing l k with
  | zero =>
    rw [indexAround, if_pos (Nat.zero_le k), insertIdx_zero, insertIdx_zero, modify_succ_cons]
  | succ pos ih =>
    cases l with
    | nil => cases hpos
    | cons first rest =>
      rw [insertIdx_succ_cons]
      cases k with
      | zero => rfl
      | succ k =>
        have haround : indexAround (pos + 1) (k + 1) = indexAround pos k + 1 := by
          rw [indexAround, indexAround]
          split <;> split <;> omega
        rw [haround, modify_succ_cons, modify_succ_cons, insertIdx_succ_cons,
          ih (Nat.le_of_succ_le_succ hpos)]

section Loop

variable {dustRelayFee : CFeeRate} {toReduce : Int} {count : Nat}

/-- The index of the loop before it comes to a recipient: one more once the change is behind it. -/
theorem skip_eq_indexAround {pos i k : Nat} (hi : i = if pos < k then k + 1 else k) :
    (if some pos = some i then i + 1 else i) = indexAround pos k := by
  simp only [indexAround, Option.some_inj]
  split_ifs at hi ⊢ <;> omega

/-- The loop over outputs with change in between does what it does without. -/
theorem subtractFee_insertIdx {pos : Nat} (change : CTxOut) {recipients : List CRecipient}
    {k i : Nat} {first : Bool} (hpos : pos ≤ vout.length) (hi : i = if pos < k then k + 1 else k) :
    subtractFee dustRelayFee toReduce count (some pos) recipients i first
      (vout.insertIdx pos change) =
      (subtractFee dustRelayFee toReduce count none recipients k first vout).map
        (·.insertIdx pos change) := by
  induction recipients generalizing k i first vout with
  | nil => rfl
  | cons recipient rest ih =>
    have hnext : indexAround pos k + 1 = if pos < k + 1 then k + 1 + 1 else k + 1 := by
      rw [indexAround]
      split <;> split <;> omega
    rw [subtractFee, subtractFee]
    simp only [skip_eq_indexAround hi, reduceCtorEq, if_false]
    cases recipient.subtractFeeFromAmount with
    | false => exact ih hpos hnext
    | true =>
      have hadd : ∀ amount, addValue (vout.insertIdx pos change) (indexAround pos k) amount =
          (addValue vout k amount).insertIdx pos change := fun amount =>
            modify_insertIdx_around hpos change k _
      simp only [hadd, if_true]
      generalize hreduced : addValue vout k _ = reduced
      have hlength : pos ≤ reduced.length := by
        rw [← hreduced, length_addValue]
        exact hpos
      rw [getElem?_insertIdx_around]
      cases reduced[k]? with
      | none => rfl
      | some txout =>
        dsimp only
        split
        · split <;> rfl
        · exact ih hlength hnext

private theorem addValue_append (paid : List CTxOut) (txout : CTxOut) (rest : List CTxOut)
    (amount : Int) : addValue (paid ++ txout :: rest) paid.length amount =
      paid ++ { txout with nValue := (txout.nValue : Int) + amount } :: rest := by
  rw [addValue]
  induction paid with
  | nil => rfl
  | cons first paid ih => rw [cons_append, length_cons, modify_succ_cons, ih, cons_append]

/-- A result, or the error that a recipient is left with dust. -/
def OrDust {α : Type} (outcome : Except CreateError α) (a : α) : Prop :=
  outcome = .ok a ∨ ∃ message, outcome = .error (.error message)

/-- Without change, the loop leaves what `payShares` says, or a recipient is left with dust. -/
theorem subtractFee_none_eq (recipients : List CRecipient) (paid : List CTxOut) (first : Bool) :
    OrDust (subtractFee dustRelayFee toReduce count none recipients paid.length first
      (paid ++ recipients.map CRecipient.txout))
        (paid ++ payShares toReduce count first recipients) := by
  induction recipients generalizing paid first with
  | nil => exact .inl rfl
  | cons recipient rest ih =>
    rw [subtractFee, payShares]
    simp only [reduceCtorEq, if_false]
    cases recipient.subtractFeeFromAmount with
    | false =>
      have hrest := ih (paid ++ [recipient.txout]) first
      rw [length_append, append_assoc, append_assoc] at hrest
      exact hrest
    | true =>
      rw [map_cons, addValue_append]
      have hget : ∀ txout : CTxOut, (paid ++ txout :: rest.map CRecipient.txout)[paid.length]? =
          some txout := by
        intro txout
        rw [getElem?_append_right (le_refl _), Nat.sub_self, getElem?_cons_zero]
      generalize hshare : shareOf toReduce count first = share
      have hvalue : ((recipient.txout.nValue : Int) + -share) = recipient.nAmount - share :=
        Int.sub_eq_add_neg.symm
      rw [if_pos rfl, hget, hvalue]
      generalize ({ recipient.txout with nValue := recipient.nAmount - share } : CTxOut) = reduced
      dsimp only
      split
      next hdust =>
        refine .inr ?_
        split <;> exact ⟨_, rfl⟩
      next hdust =>
        have hrest := ih (paid ++ [reduced]) false
        rw [length_append, append_assoc, append_assoc] at hrest
        exact hrest

end Loop

/-! ### The outputs -/

/-- The change: where it is, and the output. -/
abbrev Change := Option (Nat × CTxOut)

def changeValue (change : Change) : Int := (change.map fun placed => (placed.2.nValue : Int)).getD 0

def placeChangeIn (change : Change) (vout : List CTxOut) : List CTxOut :=
  match change with
  | none => vout
  | some (pos, txout) => vout.insertIdx pos txout

private theorem value_placeChangeIn {change : Change}
    (hpos : ∀ placed, change = some placed → placed.1 ≤ vout.length) :
    calculateOutputValue (placeChangeIn change vout) = calculateOutputValue vout +
    changeValue change := by
  rcases change with _ | ⟨pos, txout⟩
  · exact (add_zero _).symm
  have hperm : (vout.insertIdx pos txout).Perm (txout :: vout) := perm_insertIdx _ _ (hpos _ rfl)
  have hsum := (hperm.map fun txout => (txout.nValue : Int)).sum_eq
  rw [placeChangeIn, calculateOutputValue, hsum, add_comm]
  rfl

/-- A draft that pays the recipients, with a change. -/
structure Drafted (vecSend : List CRecipient) (change : Change) (draft : Draft) : Prop where
  vout : draft.tx.vout = placeChangeIn change (vecSend.map CRecipient.txout)
  changePos : draft.changePos = change.map Prod.fst
  inRange : ∀ placed, change = some placed → placed.1 ≤ vecSend.length

/-- The change after it has taken what is paid beyond the fee that is needed. -/
def enlargeChange (change : Change) (amount : Int) : Change :=
  change.map fun placed => (placed.1, { placed.2 with nValue := (placed.2.nValue : Int) + amount })

@[simp] theorem map_fst_enlargeChange (change : Change) (amount : Int) :
    (enlargeChange change amount).map Prod.fst = change.map Prod.fst := by
  cases change <;> rfl

private theorem changeValue_enlargeChange {change : Change} (h : change ≠ none) (amount : Int) :
    changeValue (enlargeChange change amount) = changeValue change + amount := by
  cases change with
  | none => exact absurd rfl h
  | some placed => rfl

/-- What is paid beyond the fee that is needed, if there is change to take it. -/
def surplus (change : Change) (needed fee : Int) : Int :=
  if change.isSome ∧ needed < fee then fee - needed else 0

section Settle

variable {wallet : SpendWallet} {vecSend : List CRecipient} {change : Change} {draft : Draft}
  {selected needed fee : Int}

/-- What would be paid as a fee if nothing were settled. -/
def unsettledFee (selected : Int) (vecSend : List CRecipient) (change : Change) : Int :=
  selected - recipientsTotal vecSend - changeValue change

private theorem Drafted.fee_eq (h : Drafted vecSend change draft) :
    selected - calculateOutputValue draft.tx.vout = unsettledFee selected vecSend change := by
  have hvalue : calculateOutputValue draft.tx.vout = recipientsTotal vecSend +
      changeValue change := by
    rw [h.vout, value_placeChangeIn (by simpa using h.inRange), calculateOutputValue_recipients]
  rw [unsettledFee]
  omega

private theorem addValue_placeChangeIn {pos : Nat} {txout : CTxOut} (hpos : pos ≤ vout.length)
    (amount : Int) : addValue (placeChangeIn (some (pos, txout)) vout) pos amount =
      placeChangeIn (enlargeChange (some (pos, txout)) amount) vout := by
  change (vout.insertIdx pos txout).modify pos _ = vout.insertIdx pos _
  induction pos generalizing vout with
  | zero => rfl
  | succ pos ih =>
    cases vout with
    | nil => cases hpos
    | cons first rest =>
      rw [insertIdx_succ_cons, modify_succ_cons, ih (Nat.le_of_succ_le_succ hpos)]
      rfl

/-- The change takes the surplus, and this is never an internal bug. -/
theorem adjustChange_eq (h : Drafted vecSend change draft)
    (hfee : unsettledFee selected vecSend change = fee) : adjustChange selected needed draft fee =
      .ok (placeChangeIn (enlargeChange change (surplus change needed fee))
        (vecSend.map CRecipient.txout), fee - surplus change needed fee) := by
  rw [adjustChange, h.changePos, h.vout]
  rcases change with _ | ⟨pos, txout⟩
  · rw [surplus, if_neg fun h => Bool.false_ne_true h.1, sub_zero]
    rfl
  dsimp only [Option.map_some]
  have hpos : pos ≤ (vecSend.map CRecipient.txout).length := by simpa using h.inRange _ rfl
  by_cases hover : needed < fee
  · have hsurplus : surplus (some (pos, txout)) needed fee = fee - needed := if_pos ⟨rfl, hover⟩
    rw [if_pos hover, hsurplus, addValue_placeChangeIn hpos]
    have hleft : selected - calculateOutputValue
        (placeChangeIn (enlargeChange (some (pos, txout)) (fee - needed))
        (vecSend.map CRecipient.txout)) = needed := by
      rw [value_placeChangeIn, calculateOutputValue_recipients,
        changeValue_enlargeChange (Option.some_ne_none _)]
      · rw [unsettledFee] at hfee
        omega
      · rintro placed ⟨⟩
        exact hpos
    rw [hleft, if_neg fun hne => hne rfl, sub_sub_self]
  · have hsame : enlargeChange (some (pos, txout)) 0 = some (pos, txout) := by
      rw [enlargeChange, Option.map_some]
      rw [add_zero]
    rw [if_neg hover, surplus, if_neg fun h => hover h.2, hsame, sub_zero]

theorem length_payShares (shortfall : Int) (count : Nat) (first : Bool)
    (vecSend : List CRecipient) :
    (payShares shortfall count first vecSend).length = vecSend.length := by
  induction vecSend generalizing first with
  | nil => rfl
  | cons recipient rest ih =>
    rw [payShares]
    split <;> rw [length_cons, length_cons, ih]

@[simp] theorem length_payRecipients (shortfall : Int) (vecSend : List CRecipient) :
    (payRecipients shortfall vecSend).length = vecSend.length :=
  length_payShares _ _ _ _

/-- The recipients make up for what is missing of the fee, and this is never an internal bug. -/
theorem chargeRecipients_of_any (hany : vecSend.any CRecipient.subtractFeeFromAmount)
    (hpos : ∀ placed, change = some placed → placed.1 ≤ vecSend.length)
    (hfee : unsettledFee selected vecSend change = fee) :
    OrDust (chargeRecipients wallet vecSend selected needed (change.map Prod.fst)
      (placeChangeIn change (vecSend.map CRecipient.txout)) fee)
      (placeChangeIn change (payRecipients (needed - fee) vecSend), needed) := by
  rw [chargeRecipients, if_pos hany]
  -- the loop does around the change what it does without
  have hplaced : OrDust (subtractFee wallet.chain.relayDustFee (needed - fee)
      (vecSend.countP subtractFeeFromAmount)
      (change.map Prod.fst) vecSend 0 true (placeChangeIn change (vecSend.map txout)))
      (placeChangeIn change (payRecipients (needed - fee) vecSend)) := by
    have hplain := @subtractFee_none_eq wallet.chain.relayDustFee (needed - fee)
      (vecSend.countP subtractFeeFromAmount) vecSend [] true
    rw [length_nil, nil_append] at hplain
    rcases change with _ | ⟨pos, txout⟩
    · exact hplain
    have hlength : pos ≤ (vecSend.map CRecipient.txout).length := by simpa using hpos _ rfl
    rw [Option.map_some, placeChangeIn, subtractFee_insertIdx txout hlength
      (if_neg (Nat.not_lt_zero pos)).symm]
    rcases hplain with hok | ⟨message, herror⟩
    · rw [hok]
      exact .inl rfl
    · rw [herror]
      exact .inr ⟨message, rfl⟩
  rcases hplaced with hok | ⟨message, herror⟩
  · have hpaid : selected - calculateOutputValue (placeChangeIn change
        (payRecipients (needed - fee) vecSend)) = needed := by
      rw [value_placeChangeIn (by simpa using hpos), value_payRecipients hany, ← hfee, unsettledFee]
      omega
    refine .inl ?_
    rw [hok]
    change checkCharged selected needed _ = _
    rw [checkCharged, hpaid]
    exact if_neg fun hne => hne rfl
  · refine .inr ⟨message, ?_⟩
    rw [herror]
    rfl

theorem inRange_enlargeChange (h : Drafted vecSend change draft) (amount : Int) :
    ∀ placed, enlargeChange change amount = some placed → placed.1 ≤ vecSend.length := by
  intro placed hplaced
  obtain ⟨before, hbefore, rfl⟩ := Option.map_eq_some_iff.mp hplaced
  exact h.inRange before hbefore

private theorem unsettledFee_enlargeChange (selected needed fee : Int) (vecSend : List CRecipient)
    (change : Change) :
    unsettledFee selected vecSend (enlargeChange change (surplus change needed fee)) =
      unsettledFee selected vecSend change - surplus change needed fee := by
  rcases change with _ | placed
  · rw [surplus, if_neg fun h => Bool.false_ne_true h.1, sub_zero]
    rfl
  · rw [unsettledFee, unsettledFee, changeValue_enlargeChange (Option.some_ne_none _)]
    omega

variable (vecSend change selected needed) in
/-- All that settling the fee can do: report an internal bug, leave a recipient with dust, or settle
it. -/
inductive Settlement : Except CreateError (List CTxOut × Int) → Prop
  | negative (h : unsettledFee selected vecSend change < 0) :
    Settlement (.error (.internalBug "Fee paid < 0"))
  | short (hpaid : 0 ≤ unsettledFee selected vecSend change)
    (hnone : vecSend.any CRecipient.subtractFeeFromAmount = false)
    (hshort : unsettledFee selected vecSend change < needed) :
    Settlement (.error (.internalBug "Fee needed > fee paid"))
  | dust (hpaid : 0 ≤ unsettledFee selected vecSend change)
    (hany : vecSend.any CRecipient.subtractFeeFromAmount = true) (message : String) :
    Settlement (.error (.error message))
  | settled (hpaid : 0 ≤ unsettledFee selected vecSend change)
    (hpays : vecSend.any CRecipient.subtractFeeFromAmount = true ∨
      needed ≤ unsettledFee selected vecSend change)
    {final : Change} {fee : Int}
    (hfinal : final = enlargeChange
      change (surplus change needed (unsettledFee selected vecSend change)))
    (hneeded : needed ≤ fee)
    (hfee : selected = calculateOutputValue (placeChangeIn final
      (payRecipients (fee - unsettledFee selected vecSend final) vecSend)) + fee) :
    Settlement (.ok (placeChangeIn final
      (payRecipients (fee - unsettledFee selected vecSend final) vecSend), fee))

theorem surplus_nonneg (change : Change) (needed fee : Int) : 0 ≤ surplus change needed fee := by
  rw [surplus]
  split <;> omega

/-- Taking the surplus leaves the fee that is needed, or all that was paid. -/
theorem needed_le_sub_surplus_iff (change : Change) (needed fee : Int) :
    needed ≤ fee - surplus change needed fee ↔ needed ≤ fee := by
  rw [surplus]
  split <;> omega

theorem settleFees_cases (h : Drafted vecSend change draft) :
    Settlement vecSend change selected needed
      (settleFees wallet vecSend selected needed draft) := by
  rw [settleFees, h.fee_eq]
  by_cases hneg : unsettledFee selected vecSend change < 0
  · rw [if_pos hneg]
    exact .negative hneg
  have hpaid := not_lt.mp hneg
  rw [if_neg hneg, adjustChange_eq h rfl]
  -- the change is settled, and the recipients come next
  obtain ⟨final, hfinal⟩ : ∃ final, final =
      enlargeChange change (surplus change needed (unsettledFee selected vecSend change)) :=
      ⟨_, rfl⟩
  have hrange : ∀ placed, final = some placed → placed.1 ≤ vecSend.length := by
    rw [hfinal]
    exact inRange_enlargeChange h _
  have hpos : draft.changePos = final.map Prod.fst := by
    rw [hfinal, map_fst_enlargeChange]
    exact h.changePos
  have hleft := unsettledFee_enlargeChange selected needed (unsettledFee selected vecSend change)
    vecSend change
  rw [← hfinal] at hleft ⊢
  rw [← hleft, hpos]
  change Settlement vecSend change selected needed
    (chargeRecipients wallet vecSend selected needed (final.map Prod.fst)
      (placeChangeIn final (vecSend.map txout)) (unsettledFee selected vecSend final) >>=
      checkFee needed)
  cases hany : vecSend.any subtractFeeFromAmount with
  | true =>
    rcases @chargeRecipients_of_any wallet vecSend final selected needed _ hany hrange rfl with
      hok | ⟨message, herror⟩
    · rw [hok]
      change Settlement _ _ _ _ (checkFee needed _)
      rw [checkFee, if_neg (lt_irrefl needed)]
      refine .settled hpaid (.inl hany) hfinal (le_refl _) ?_
      rw [value_placeChangeIn (by simpa using hrange), value_payRecipients hany, unsettledFee]
      omega
    · rw [herror]
      exact .dust hpaid hany message
  | false =>
    rw [chargeRecipients, hany]
    change Settlement _ _ _ _ (checkFee needed _)
    rw [checkFee]
    by_cases hshort : unsettledFee selected vecSend final < needed
    · rw [if_pos hshort]
      refine .short hpaid hany ?_
      rw [hleft] at hshort
      exact not_le.mp fun hle => absurd hshort
        (not_lt.mpr ((needed_le_sub_surplus_iff _ _ _).mpr hle))
    · have hneeded := not_lt.mp hshort
      have hpay : vecSend.map txout =
          payRecipients (unsettledFee selected vecSend final - unsettledFee selected vecSend final)
            vecSend :=
        (payShares_of_none hany).symm
      have hvalue : selected = calculateOutputValue (placeChangeIn final (vecSend.map txout)) +
          unsettledFee selected vecSend final := by
        rw [value_placeChangeIn (by simpa using hrange),
          calculateOutputValue_recipients, unsettledFee]
        omega
      rw [if_neg hshort]
      rw [hpay] at hvalue ⊢
      refine .settled hpaid (.inr ?_) hfinal hneeded hvalue
      rw [hleft] at hneeded
      exact (needed_le_sub_surplus_iff _ _ _).mp hneeded

/-- An internal bug is reported exactly if the fee would be negative, or if it is short and no
recipient pays for it. -/
theorem settleFees_internalBug_iff (h : Drafted vecSend change draft) :
    (∃ message, settleFees wallet vecSend selected needed draft = .error (.internalBug message)) ↔
      unsettledFee selected vecSend change < 0 ∨
        vecSend.any CRecipient.subtractFeeFromAmount = false ∧
        unsettledFee selected vecSend change < needed := by
  have hcases := @settleFees_cases wallet vecSend change draft selected needed h
  constructor
  · rintro ⟨message, hbug⟩
    rw [hbug] at hcases
    cases hcases with
    | negative hneg => exact .inl hneg
    | short _ hnone hshort => exact .inr ⟨hnone, hshort⟩
  · intro hbad
    cases hsettle : settleFees wallet vecSend selected needed draft with
    | error e =>
      rw [hsettle] at hcases
      cases hcases with
      | negative => exact ⟨_, rfl⟩
      | short => exact ⟨_, rfl⟩
      | dust hpaid hany message =>
        rcases hbad with hneg | ⟨hnone, -⟩
        · exact absurd hneg (not_lt.mpr hpaid)
        · rw [hnone] at hany
          cases hany
    | ok settled =>
      rw [hsettle] at hcases
      cases hcases with
      | settled hpaid hpays =>
        rcases hbad with hneg | ⟨hnone, hshort⟩
        · exact absurd hneg (not_lt.mpr hpaid)
        · rw [hnone] at hpays
          exact absurd (hpays.resolve_left Bool.false_ne_true) (not_le.mpr hshort)

end Settle

end Tessera.Wallet
