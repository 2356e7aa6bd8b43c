import Tessera.Validation.CacheSound

/-!
# Interleaved calls of `CheckInputScripts`

What a call of `CheckInputScripts` can do is said once (`CallRun`). The rest is about executions:
whatever a thread finds in a cache was put there by some thread of the execution, and each of them
only puts there what is valid. The two rounds of the argument are `Execution.storesValid` and
`Execution.insertsValid`.
-/

namespace Tessera.Validation

open Coins Lib Script Tx Comp List

variable {txdata : PrecomputedTransactionData} {P : Primitives} {s : Local} {S : Set Bytes}
  {r : Except (Failure InputScriptsResult) (List CScriptCheck × PrecomputedTransactionData) × Local}
  {trace : List (ThreadId × Access)}

/-! ### What a call can do -/

section Calls

variable (P) (nonces : Nonces) (call : Call)

/-- The data of a call that is not answered by the cache, or the assertion that fails. -/
def checkedData : Except (Failure InputScriptsResult) PrecomputedTransactionData := do
  let txdata ← readyData call
  assertThat (txdata.spentOutputs.length == call.tx.vin.length)
    "txdata.m_spent_outputs.size() == tx.vin.size()"
  return txdata

/-- The key of a call in the script execution cache. -/
def Call.key : Bytes := scriptKey P nonces call.tx call.flags

/-- The state of a call after it has looked into the script execution cache. -/
def Call.looked (s : Local) : Bool × Local :=
  s.access P (.scriptContains (call.key P nonces) (!call.cacheFullScriptStore))

/-- The ways in which a call can end. -/
inductive CallRun (call : Call) (s : Local) :
    Except (Failure InputScriptsResult) (List CScriptCheck × PrecomputedTransactionData)
      × Local → Prop
  | coinbase (h : call.tx.isCoinBase = true) : CallRun call s (.ok ([], call.txdata), s)
  | hit (h : call.tx.isCoinBase = false) (found : (call.looked P nonces s).1 = true) :
    CallRun call s (.ok ([], call.txdata), (call.looked P nonces s).2)
  | fault (e : Failure InputScriptsResult) (h : call.tx.isCoinBase = false)
      (data : checkedData call = .error e) : CallRun call s (.error e, (call.looked P nonces s).2)
  | deferred (txdata : PrecomputedTransactionData) (h : call.tx.isCoinBase = false)
      (data : checkedData call = .ok txdata) :
    CallRun call s (.ok (checksOf call txdata.spentOutputs, txdata), (call.looked P nonces s).2)
  | failed (txdata : PrecomputedTransactionData) (e : Failure InputScriptsResult) (s' : Local)
      (h : call.tx.isCoinBase = false) (data : checkedData call = .ok txdata)
      (checks : (runChecks P nonces (checksOf call txdata.spentOutputs)).exec
        (call.looked P nonces s).2 = (.error e, s')) :
    CallRun call s (.error e, s')
  | passed (txdata : PrecomputedTransactionData) (s' : Local)
      (h : call.tx.isCoinBase = false) (data : checkedData call = .ok txdata)
      (checks : (runChecks P nonces (checksOf call txdata.spentOutputs)).exec
        (call.looked P nonces s).2 = (.ok (), s')) :
    CallRun call s (.ok ([], txdata), s')
  | stored (txdata : PrecomputedTransactionData) (s' : Local)
      (h : call.tx.isCoinBase = false) (data : checkedData call = .ok txdata)
      (checks : (runChecks P nonces (checksOf call txdata.spentOutputs)).exec
        (call.looked P nonces s).2 = (.ok (), s')) :
    CallRun call s (.ok ([], txdata), (s'.access P (.scriptInsert (call.key P nonces))).2)

private theorem checkMissed_eq (call : Call) :
    checkMissed P nonces call = ofExcept (checkedData call) >>= makeChecks P nonces call := by
  unfold checkMissed checkedData
  cases readyData call with
  | error e => rfl
  | ok txdata =>
    change ofExcept (assertThat _ _) >>= _ = ofExcept (assertThat _ _ >>= _) >>= _
    rw [ofExcept_bind, bind_assoc]
    rfl

variable {P nonces} in
private theorem checkInputScripts_exec {call : Call} (hcoinbase : call.tx.isCoinBase = false) :
    (checkInputScripts P nonces call).exec s =
    exec (if (call.looked P nonces s).1 then pure ([], call.txdata)
      else checkMissed P nonces call) (call.looked P nonces s).2 := by
  rw [checkInputScripts, hcoinbase, if_neg Bool.false_ne_true, exec_bind, exec_act]
  rfl

/-- Every call ends in one of these ways. -/
theorem checkInputScripts_run (call : Call) (s : Local) :
    CallRun P nonces call s ((checkInputScripts P nonces call).exec s) := by
  cases hcoinbase : call.tx.isCoinBase with
  | true =>
    rw [checkInputScripts, if_pos hcoinbase]
    exact .coinbase hcoinbase
  | false =>
    rw [checkInputScripts_exec hcoinbase]
    split
    next hfound => exact .hit hcoinbase hfound
    rw [checkMissed_eq, exec_bind, exec_ofExcept]
    cases hdata : checkedData call with
    | error e => exact .fault e hcoinbase hdata
    | ok txdata =>
      dsimp only
      unfold makeChecks
      split
      · exact .deferred txdata hcoinbase hdata
      rw [exec_bind]
      rcases hchecks : (runChecks P nonces (checksOf call txdata.spentOutputs)).exec
        (call.looked P nonces s).2 with ⟨e | _, s'⟩
      · exact .failed txdata e s' hcoinbase hdata hchecks
      unfold storeResult
      dsimp only
      split
      · exact .stored txdata s' hcoinbase hdata hchecks
      · exact .passed txdata s' hcoinbase hdata hchecks

end Calls

section CallLemmas

variable {nonces : Nonces} {call : Call}

/-- What every access of a call keeps is kept by the call. It remembers its result only if all
checks have passed. -/
theorem CallRun.keeps {I : Local → Prop} (h : CallRun P nonces call s r) (hI : SigKeeps P nonces I)
    (hcontains : ∀ erase s, I s → I (s.access P (.scriptContains (call.key P nonces) erase)).2)
    (hinsert : ∀ txdata s', call.tx.isCoinBase = false → checkedData call = .ok txdata →
      (runChecks P nonces (checksOf call txdata.spentOutputs)).exec (call.looked P nonces s).2 =
        (.ok (), s') →
      I s' → I (s'.access P (.scriptInsert (call.key P nonces))).2) (hs : I s) : I r.2 := by
  have hlooked : I (call.looked P nonces s).2 := hcontains _ s hs
  have hchecks : ∀ checks r, (runChecks P nonces checks).exec (call.looked P nonces s).2 =
      r → I r.2 := by
    rintro checks r rfl
    exact runChecks_keeps hI checks _ hlooked
  cases h with
  | coinbase => exact hs
  | hit => exact hlooked
  | fault => exact hlooked
  | deferred => exact hlooked
  | failed _ _ _ _ _ hrun => exact hchecks _ _ hrun
  | passed _ _ _ _ hrun => exact hchecks _ _ hrun
  | stored txdata s' hcoinbase hdata hrun =>
    exact hinsert txdata s' hcoinbase hdata hrun (hchecks _ _ hrun)

end CallLemmas

/-! ### The outputs that are checked -/

section Data

variable {outOf : COutPoint → CTxOut} {call : Call}

def outputsOf (outOf : COutPoint → CTxOut) (tx : CTransaction) : List CTxOut :=
  tx.vin.map fun txin => outOf txin.prevout

/-- The coins that a call sees are those of its outpoints, and so are the outputs that an earlier
call has looked up for it. -/
structure Call.Determined (outOf : COutPoint → CTxOut) (call : Call) : Prop where
  coins : ∀ txin ∈ call.tx.vin, ∀ coin, call.inputs.coins txin.prevout = some coin →
    coin.out = outOf txin.prevout
  txdata : call.txdata.spentOutputsReady = true → call.txdata.spentOutputs = outputsOf outOf call.tx

private theorem spentOutputs_eq_ok_iff {inputs : CCoinsView} {vin : List CTxIn}
    {outs : List CTxOut} :
    spentOutputs inputs vin = .ok outs ↔ (∀ txin ∈ vin, haveCoin inputs txin.prevout) ∧
        outs = vin.map fun txin => (accessCoin inputs txin.prevout).out := by
  induction vin generalizing outs with
  | nil => exact ⟨fun h => ⟨nofun, (Except.ok.inj h).symm⟩, fun h => congrArg Except.ok h.2.symm⟩
  | cons txin rest ih =>
    cases hcoin : haveCoin inputs txin.prevout with
    | false =>
      have hfault : spentOutputs inputs (txin :: rest) = .error (.fault "!coin.IsSpent()") := by
        rw [spentOutputs, hcoin]
        rfl
      simp [hfault, hcoin]
    | true =>
      have hrest : spentOutputs inputs (txin :: rest) = (spentOutputs inputs rest >>= fun outs =>
          .ok ((accessCoin inputs txin.prevout).out :: outs)) := by
        rw [spentOutputs, hcoin]
        rfl
      rw [hrest, bind_eq_ok_iff]
      constructor
      · rintro ⟨outs', hok, hcons⟩
        obtain ⟨hall, rfl⟩ := ih.mp hok
        exact ⟨forall_mem_cons.mpr ⟨hcoin, hall⟩, (Except.ok.inj hcons).symm⟩
      · rintro ⟨hall, rfl⟩
        exact ⟨_, ih.mpr ⟨(forall_mem_cons.mp hall).2, rfl⟩, rfl⟩

section

variable (h : call.Determined outOf)

include h

private theorem Call.Determined.accessCoin_out {txin : CTxIn} (htxin : txin ∈ call.tx.vin)
    (hcoin : haveCoin call.inputs txin.prevout) :
    (accessCoin call.inputs txin.prevout).out = outOf txin.prevout := by
  obtain ⟨coin, hsome⟩ := Option.isSome_iff_exists.mp hcoin
  rw [accessCoin, hsome]
  exact h.coins txin htxin coin hsome

private theorem readyData_spentOutputs (hdata : readyData call = .ok txdata) :
    txdata.spentOutputs = outputsOf outOf call.tx := by
  unfold readyData at hdata
  split at hdata
  next hready =>
    rw [← Except.ok.inj hdata]
    exact h.txdata hready
  · obtain ⟨outs, houts, hpure⟩ := bind_eq_ok_iff.mp hdata
    obtain ⟨hcoins, rfl⟩ := spentOutputs_eq_ok_iff.mp houts
    rw [← Except.ok.inj hpure]
    exact map_congr_left fun txin htxin => h.accessCoin_out htxin (hcoins txin htxin)

private theorem checkedData_spentOutputs (hdata : checkedData call = .ok txdata) :
    txdata.spentOutputs = outputsOf outOf call.tx := by
  simp only [checkedData, bind_eq_ok_iff] at hdata
  obtain ⟨txdata', hready, _, -, hpure⟩ := hdata
  rw [← Except.ok.inj hpure]
  exact readyData_spentOutputs h hready

private theorem exists_checkedData
    (hcoins : ∀ txin ∈ call.tx.vin, haveCoin call.inputs txin.prevout) :
    ∃ txdata, checkedData call = .ok txdata := by
  have hready : ∃ txdata, readyData call = .ok txdata := by
    unfold readyData
    split
    · exact ⟨_, rfl⟩
    · exact ⟨_, bind_eq_ok_iff.mpr ⟨_, spentOutputs_eq_ok_iff.mpr ⟨hcoins, rfl⟩, rfl⟩⟩
  obtain ⟨txdata, hready⟩ := hready
  have hlength : (txdata.spentOutputs.length == call.tx.vin.length) := by
    rw [readyData_spentOutputs h hready, outputsOf, length_map, beq_self_eq_true]
  refine ⟨txdata, bind_eq_ok_iff.mpr ⟨txdata, hready, bind_eq_ok_iff.mpr ⟨(), ?_, rfl⟩⟩⟩
  rw [assertThat, if_pos hlength]

end

variable (P outOf) in
/-- All scripts of a transaction succeed without a cache. -/
def Verified (tx : CTransaction) (flags : UInt64) : Prop :=
  ∀ i : Fin tx.vin.length, scriptCheck P (flagsOfInt flags) tx i
    (outOf (tx.vin.get i).prevout) = none

private theorem checksOf_verified :
      (∀ check ∈ checksOf call (outputsOf outOf call.tx), check.uncached P = none) ↔
      Verified P outOf call.tx call.flags := by
  simp [checksOf, CScriptCheck.uncached, Verified, outputsOf]

end Data

/-! ### What a call puts into the caches, and what it finds there -/

section Rounds

variable {nonces : Nonces} {outOf : COutPoint → CTxOut} {T : Set CTransaction}
  {W : Bytes → Prop} {call : Call}

variable (P T) in
/-- Transactions with inputs, which what is hashed for them determines. -/
structure GoodTxs : Prop where
  representable : ∀ tx ∈ T, tx.Representable
  vin : ∀ tx ∈ T, tx.vin ≠ []
  inj : Set.InjOn (hash P) ((fun tx => tx.serialize true) '' T)

/-- A key in the script execution cache determines the transaction and the flags. -/
theorem GoodTxs.scriptKey_inj (hT : GoodTxs P T) {tx tx' : CTransaction} (htx : tx ∈ T)
    (htx' : tx' ∈ T) {flags flags' : UInt64}
    (h : scriptKey P nonces tx flags = scriptKey P nonces tx' flags') :
    tx = tx' ∧ flags = flags' := by
  simp only [scriptKey, append_assoc, append_cancel_left_eq] at h
  obtain ⟨hhash, hflags⟩ := append_inj h (by rw [Blob.size_eq, Blob.size_eq])
  have hbytes : tx.serialize true = tx'.serialize true := by
    refine hT.inj (Set.mem_image_of_mem _ htx) (Set.mem_image_of_mem _ htx') ?_
    rw [← getWitnessHash_eq, ← getWitnessHash_eq]
    exact Blob.ext hhash
  refine ⟨CTransaction.eq_of_serialize_eq (hT.representable tx htx) (hT.representable tx' htx')
    (hT.vin tx htx) (hT.vin tx' htx') hbytes, UInt64.toNat.inj ?_⟩
  rw [← readLE_writeLE (k := 8) flags.toNat_lt, hflags, readLE_writeLE flags'.toNat_lt]

variable (P nonces outOf T) in
/-- The key of a transaction whose scripts succeed. -/
def ScriptValid (key : Bytes) : Prop :=
  ∃ tx ∈ T, ∃ flags, key = scriptKey P nonces tx flags ∧ Verified P outOf tx flags

variable (P nonces) in
/-- The signature is valid if the access stores one. -/
def StoresValid (a : Access) : Prop := ∀ key, a = .sigSet key → SigValid P nonces key

variable (P nonces outOf T) in
/-- The scripts succeed if the access remembers that they do. -/
def InsertsValid (a : Access) : Prop := ∀ key, a = .scriptInsert key →
    ScriptValid P nonces outOf T key

private theorem sigKeeps_storesValid : SigKeeps P nonces (LogAll (StoresValid P nonces)) :=
  sigKeeps_of_access (fun _ _ _ h => h.access P nofun)
    fun _ _ hkey h => h.access P fun _ heq => Access.sigSet.inj heq ▸ hkey

/-- Looking at a signature does not touch the script execution cache. -/
theorem sigKeeps_insertsValid : SigKeeps P nonces (LogAll (InsertsValid P nonces outOf T)) :=
  sigKeeps_of_access (fun _ _ _ h => h.access P nofun) fun _ _ _ h => h.access P nofun

/-- A call stores only valid signatures, whatever it finds. -/
theorem CallRun.storesValid (h : CallRun P nonces call s r)
    (hlog : LogAll (StoresValid P nonces) s) : LogAll (StoresValid P nonces) r.2 :=
  h.keeps sigKeeps_storesValid (fun _ _ hs => hs.access P nofun)
    (fun _ _ _ _ _ hs => hs.access P nofun) hlog

private theorem Call.looked_until (h : Fine P (SigValid P nonces) W S s) :
      Bad S (call.looked P nonces s).2 ∨
      (call.key P nonces ∈ S ∧ Fine P (SigValid P nonces) W S (call.looked P nonces s).2) := by
  by_cases hkey : call.key P nonces ∈ S
  · exact .inr ⟨hkey, h.access (allowed_scriptContains _ hkey)⟩
  · exact .inl (bad_access P hkey)

/-- The inline checks of a call that has not used a key outside of `S`. -/
theorem Call.runChecks_fst (hS : GoodKeys P S) (h : Fine P (SigValid P nonces) W S s)
    (hdet : call.Determined outOf) (hdata : checkedData call = .ok txdata)
    {result : Except (Failure InputScriptsResult) Unit} {s' : Local}
    (hrun : (runChecks P nonces (checksOf call txdata.spentOutputs)).exec
      (call.looked P nonces s).2 = (result, s')) :
    Bad S s' ∨ (call.key P nonces ∈ S ∧
      (result = .ok () ↔ Verified P outOf call.tx call.flags)) := by
  rw [checkedData_spentOutputs hdet hdata] at hrun
  have huntil : RelatedUntil (Bad S) (fun s (_ : Unit) => Fine P (SigValid P nonces) W S s)
      (runChecks P nonces (checksOf call (outputsOf outOf call.tx))) _ :=
    runChecks_until hS (checksOf call (outputsOf outOf call.tx))
  rcases call.looked_until h with hbad | ⟨hkey, hfine⟩
  · have := huntil.keeps _ hbad
    rw [hrun] at this
    exact .inl this
  · rcases huntil.related _ () hfine with hbad | ⟨hvalue, -⟩
    · rw [hrun] at hbad
      exact .inl hbad
    rw [hrun] at hvalue
    have hresult : result = uncachedChecks P (checksOf call (outputsOf outOf call.tx)) := hvalue
    refine .inr ⟨hkey, ?_⟩
    rw [← checksOf_verified, ← uncachedChecks_eq_ok_iff, hresult]

/-- A call remembers only scripts that succeed, provided that the signature cache holds valid
signatures. -/
theorem CallRun.insertsValid (h : CallRun P nonces call s r) (hS : GoodKeys P S)
    (hfine : Fine P (SigValid P nonces) W S s) (hdet : call.Determined outOf)
    (hmem : call.tx.isCoinBase = false → call.tx ∈ T)
    (hlog : LogAll (InsertsValid P nonces outOf T) s) :
    Bad S r.2 ∨ LogAll (InsertsValid P nonces outOf T) r.2 := by
  refine h.keeps (I := fun s => Bad S s ∨ LogAll (InsertsValid P nonces outOf T) s)
    (fun _ _ _ _ _ hvalid => .imp (sigKeeps_bad _ _ _ _ _ hvalid)
      (sigKeeps_insertsValid _ _ _ _ _ hvalid))
    (fun _ _ => .imp (·.access P _) (·.access P nofun))
      (fun txdata s' hcoinbase hdata hrun => ?_) (.inr hlog)
  -- the entry is made only after all scripts have succeeded
  rcases call.runChecks_fst hS hfine hdet hdata hrun with hbad | ⟨-, hverified⟩
  · exact fun _ => .inl (hbad.access P _)
  refine .imp (·.access P _) (·.access P fun key hkey => ?_)
  exact ⟨call.tx, hmem hcoinbase, call.flags, (Access.scriptInsert.inj hkey).symm, hverified.mp rfl⟩

/-- How a call ends that has not used a key outside of `S`. -/
theorem CallRun.outcome (h : CallRun P nonces call s r) (hS : GoodKeys P S) (hT : GoodTxs P T)
    (hfine : Fine P (SigValid P nonces) (ScriptValid P nonces outOf T) S s) (hgood : ¬Bad S r.2)
    (hdet : call.Determined outOf)
    (hcoins : ∀ txin ∈ call.tx.vin, haveCoin call.inputs txin.prevout)
    (hcoinbase : call.tx.isCoinBase = false) (hmem : call.tx ∈ T) :
    (∃ txdata, r.1 = .ok ([], txdata) ∧ Verified P outOf call.tx call.flags) ∨
      (∃ e, r.1 = .error e ∧ ¬Verified P outOf call.tx call.flags) ∨
      ∃ txdata, r.1 = .ok (checksOf call (outputsOf outOf call.tx), txdata) := by
  cases h with
  | coinbase h => exact absurd (h.symm.trans hcoinbase) (by decide)
  | hit _ hfound =>
    -- the entry was made for this very transaction, with these flags
    obtain ⟨hkey, -⟩ := (call.looked_until hfine).resolve_left hgood
    obtain ⟨tx, htx, flags, heq, hverified⟩ := hfine.next.script.of_contains hS hkey hfound
    obtain ⟨rfl, rfl⟩ := hT.scriptKey_inj hmem htx heq
    exact .inl ⟨call.txdata, rfl, hverified⟩
  | fault e _ hdata =>
    obtain ⟨txdata, hok⟩ := exists_checkedData hdet hcoins
    rw [hdata] at hok
    cases hok
  | deferred txdata _ hdata =>
    exact .inr (.inr ⟨txdata, by rw [checkedData_spentOutputs hdet hdata]⟩)
  | failed txdata e s' _ hdata hrun =>
    obtain ⟨-, hverified⟩ := (call.runChecks_fst hS hfine hdet hdata hrun).resolve_left hgood
    exact .inr (.inl ⟨e, rfl, fun h => nomatch hverified.mpr h⟩)
  | passed txdata s' _ hdata hrun =>
    obtain ⟨-, hverified⟩ := (call.runChecks_fst hS hfine hdet hdata hrun).resolve_left hgood
    exact .inl ⟨txdata, rfl, hverified.mp rfl⟩
  | stored txdata s' _ hdata hrun =>
    obtain ⟨-, hverified⟩ := (call.runChecks_fst hS hfine hdet hdata hrun).resolve_left
      fun hbad => hgood (hbad.access P _)
    exact .inl ⟨txdata, rfl, hverified.mp rfl⟩

end Rounds

/-! ### Executions -/

section Executions

/-- Both caches as they are set up, whatever their sizes. -/
def emptyCaches (sigSize sigDepth scriptSize scriptDepth : Nat) : ValidationCache :=
  ⟨Cuckoo.setup (.null 32) sigSize sigDepth, Cuckoo.setup (.null 32) scriptSize scriptDepth⟩

variable {V W : Bytes → Prop} {id : ThreadId} {a : Access}

private theorem exists_mem_of_mem_othersOf {block : List Access}
    (hblock : block ∈ othersOf id trace) (ha : a ∈ block) : ∃ j, (j, a) ∈ trace := by
  induction trace generalizing block with
  | nil =>
    rw [mem_singleton.mp hblock] at ha
    cases ha
  | cons p rest ih =>
    obtain ⟨j, b⟩ := p
    -- what is found in the rest of the sequence is found in the whole
    have hrest : ∀ {block}, block ∈ othersOf id rest → a ∈ block → ∃ j', (j', a) ∈
        (j, b) :: rest := by
      intro block hblock ha
      obtain ⟨j', hj'⟩ := ih hblock ha
      exact ⟨j', mem_cons_of_mem _ hj'⟩
    rw [othersOf] at hblock
    split at hblock
    · rcases mem_cons.mp hblock with rfl | hblock
      · cases ha
      · exact hrest hblock ha
    · rcases mem_cons.mp hblock with rfl | hblock
      · rcases mem_cons.mp ha with rfl | ha
        · exact ⟨j, mem_cons_self⟩
        cases hothers : othersOf id rest with
        | nil =>
          rw [hothers] at ha
          cases ha
        | cons first others =>
          exact hrest (by rw [hothers]; exact mem_cons_self) ha
      · exact hrest (mem_of_mem_tail hblock) ha

variable {nonces : Nonces} {calls : List Call} {start : ValidationCache}

private theorem Execution.mem_accessesOf (e : Execution P nonces calls start)
    (h : (id, a) ∈ e.trace) : a ∈ accessesOf P nonces calls start e.trace id := by
  refine (e.consistent id).subset (mem_map.mpr ⟨(id, a), mem_filter.mpr ⟨h, ?_⟩, rfl⟩)
  exact decide_eq_true rfl

/-- If all threads keep the caches sound then each of them finds them so. -/
theorem Execution.fine (e : Execution P nonces calls start) (hstart : Sound P V W S start)
    (h : ∀ id, ∀ a ∈ accessesOf P nonces calls start e.trace id, Allowed V W S a) (id : ThreadId) :
    Fine P V W S (startLocal start e.trace id) := by
  refine ⟨hstart, fun block hblock a ha => ?_⟩
  obtain ⟨j, hj⟩ := exists_mem_of_mem_othersOf hblock ha
  exact h j a (e.mem_accessesOf hj)

variable {Q : Access → Prop}

/-- What holds for the accesses of all calls and of all deferred checks. -/
theorem forall_accessesOf
    (hcall : ∀ k, ∀ call ∈ calls[k]?, LogAll Q (runCall P nonces start trace k call).2)
    (hcheck : ∀ k j check, LogAll Q (runDeferred P nonces start trace k j check).2)
    (id : ThreadId) : ∀ a ∈ accessesOf P nonces calls start trace id, Q a := by
  intro a ha
  obtain ⟨k, _ | j⟩ := id
  · rw [accessesOf] at ha
    split at ha
    next call hk => exact hcall k call hk a ha
    · cases ha
  · rw [accessesOf] at ha
    split at ha
    · exact hcheck k j _ a ha
    · cases ha

private theorem logAll_startLocal : LogAll Q (startLocal start trace id) := nofun

/-- The first round: no thread stores an invalid signature. -/
theorem Execution.storesValid (e : Execution P nonces calls start) (id : ThreadId) :
    ∀ a ∈ accessesOf P nonces calls start e.trace id, StoresValid P nonces a :=
  forall_accessesOf
    (fun _ call _ => (checkInputScripts_run P nonces call _).storesValid logAll_startLocal)
    (fun _ _ check => check.run_keeps sigKeeps_storesValid logAll_startLocal) id

variable (P nonces calls start) in
/-- The strings whose hashes the threads look up or store. -/
def keysUsed (trace : List (ThreadId × Access)) : Set Bytes :=
  {key | ∃ id, ∃ a ∈ accessesOf P nonces calls start trace id, a.key = key}

variable (calls) in
/-- The transactions whose scripts are checked. -/
def checkedTxs : Set CTransaction := {tx | tx.isCoinBase = false ∧ ∃ call ∈ calls, call.tx = tx}

/-- What is assumed of an execution: coins are determined by their outpoints, transactions have
inputs (and sizes and amounts of 64 bits), and the strings that are really hashed have different
hashes, none of them zero. -/
structure Execution.Sane (e : Execution P nonces calls start)
    (outOf : COutPoint → CTxOut) : Prop where
  determined : ∀ call ∈ calls, call.Determined outOf
  representable : ∀ tx ∈ checkedTxs calls, tx.Representable
  vin : ∀ tx ∈ checkedTxs calls, tx.vin ≠ []
  inj : Set.InjOn (hash P)
    (keysUsed P nonces calls start e.trace ∪ (fun tx => tx.serialize true) '' checkedTxs calls)
  ne_null : ∀ key ∈ keysUsed P nonces calls start e.trace, hash P key ≠ .null 32

variable {e : Execution P nonces calls start} {outOf : COutPoint → CTxOut} {k j : Nat} {call : Call}
  {check : CScriptCheck}

private theorem Execution.Sane.goodKeys (h : e.Sane outOf) : GoodKeys P
    (keysUsed P nonces calls start e.trace) :=
  ⟨h.inj.mono Set.subset_union_left, h.ne_null⟩

private theorem Execution.Sane.goodTxs (h : e.Sane outOf) : GoodTxs P (checkedTxs calls) :=
  ⟨h.representable, h.vin, h.inj.mono Set.subset_union_right⟩

private theorem not_bad_of_log (id : ThreadId)
    (h : accessesOf P nonces calls start trace id = s.log) :
    ¬Bad (keysUsed P nonces calls start trace) s := by
  rintro ⟨a, ha, hkey⟩
  exact hkey ⟨id, a, by rwa [h], rfl⟩

private theorem not_bad_runCall (hk : calls[k]? = some call) :
    ¬Bad (keysUsed P nonces calls start trace) (runCall P nonces start trace k call).2 := by
  refine not_bad_of_log (k, none) ?_
  rw [accessesOf, hk]

private theorem mem_checkedTxs (hk : calls[k]? = some call)
    (hcoinbase : call.tx.isCoinBase = false) : call.tx ∈ checkedTxs calls :=
  ⟨hcoinbase, call, mem_of_getElem? hk, rfl⟩

/-- The second round: no thread remembers a transaction whose scripts fail. -/
theorem Execution.Sane.insertsValid (h : e.Sane outOf)
    (hstart : Sound P (SigValid P nonces) (fun _ => True)
      (keysUsed P nonces calls start e.trace) start)
    (id : ThreadId) : ∀ a ∈ accessesOf P nonces calls start e.trace id,
      InsertsValid P nonces outOf (checkedTxs calls) a := by
  -- by the first round, every thread finds only valid signatures
  have hallowed : ∀ id, ∀ a ∈ accessesOf P nonces calls start e.trace id,
      Allowed (SigValid P nonces) (fun _ => True) (keysUsed P nonces calls start e.trace) a :=
    fun id a ha => ⟨⟨id, a, ha, rfl⟩, e.storesValid id a ha, fun _ _ => trivial⟩
  have hfine := e.fine hstart hallowed
  refine forall_accessesOf (fun k call hk => ?_)
    (fun _ _ check => check.run_keeps sigKeeps_insertsValid logAll_startLocal) id
  exact ((checkInputScripts_run P nonces call _).insertsValid h.goodKeys (hfine (k, none))
    (h.determined call (mem_of_getElem? hk)) (mem_checkedTxs hk) logAll_startLocal).resolve_left
    (not_bad_runCall hk)

/-- Every thread finds only what is valid, in both caches. -/
theorem Execution.Sane.fine (h : e.Sane outOf) (hstart : ∀ V W S, Sound P V W S start)
    (id : ThreadId) : Fine P (SigValid P nonces) (ScriptValid P nonces outOf (checkedTxs calls))
      (keysUsed P nonces calls start e.trace) (startLocal start e.trace id) := by
  refine e.fine (hstart _ _ _) (fun id a ha => ?_) id
  exact ⟨⟨id, a, ha, rfl⟩, e.storesValid id a ha, h.insertsValid (hstart _ _ _) id a ha⟩

variable (P nonces start) in
/-- A call succeeds, and so do the checks that it has deferred. -/
def Succeeds (trace : List (ThreadId × Access)) (k : Nat) (call : Call) : Prop :=
  ∃ checks txdata, (runCall P nonces start trace k call).1 = .ok (checks, txdata) ∧
    ∀ j check, checks[j]? = some check → (runDeferred P nonces start trace k j check).1 = none

private theorem Execution.Sane.runDeferred_fst (h : e.Sane outOf)
    (hstart : ∀ V W S, Sound P V W S start) (hk : calls[k]? = some call)
    {checks : List CScriptCheck}
    (hrun : (runCall P nonces start e.trace k call).1 = .ok (checks, txdata))
    (hj : checks[j]? = some check) :
    (runDeferred P nonces start e.trace k j check).1 = check.uncached P := by
  have hcheck : deferredCheck P nonces start e.trace k j call = some check := by
    rw [deferredCheck, hrun]
    exact hj
  refine ((check.run_until h.goodKeys (h.fine hstart (k, some j))).resolve_left
    (not_bad_of_log (k, some j) ?_)).1
  rw [accessesOf, hk, Option.bind_some, hcheck]
  rfl

private theorem Execution.Sane.succeeds_iff (h : e.Sane outOf)
    (hstart : ∀ V W S, Sound P V W S start) (hk : calls[k]? = some call)
    (hcoins : ∀ txin ∈ call.tx.vin, haveCoin call.inputs txin.prevout)
    (hcoinbase : call.tx.isCoinBase = false) :
    Succeeds P nonces start e.trace k call ↔ Verified P outOf call.tx call.flags := by
  rcases (checkInputScripts_run P nonces call _).outcome h.goodKeys h.goodTxs
    (h.fine hstart (k, none))
    (not_bad_runCall hk) (h.determined call (mem_of_getElem? hk)) hcoins hcoinbase
    (mem_checkedTxs hk hcoinbase) with ⟨txdata, hok, hverified⟩ |
      ⟨_, herror, hfailed⟩ | ⟨txdata, hok⟩
  · exact ⟨fun _ => hverified, fun _ => ⟨[], txdata, hok, nofun⟩⟩
  · refine ⟨?_, fun hverified => absurd hverified hfailed⟩
    rintro ⟨checks, txdata, hok, -⟩
    exact nomatch herror.symm.trans hok
  · -- all checks are deferred, and each of them says what it says without a cache
    rw [← checksOf_verified]
    constructor
    · rintro ⟨checks, txdata', hok', hall⟩ check hmem
      cases hok.symm.trans hok'
      obtain ⟨j, hj⟩ := mem_iff_getElem?.mp hmem
      rw [← h.runDeferred_fst hstart hk hok hj]
      exact hall j check hj
    · intro hall
      refine ⟨_, txdata, hok, fun j check hj => ?_⟩
      rw [h.runDeferred_fst hstart hk hok hj]
      exact hall check (mem_of_getElem? hj)

end Executions

/-! ### Executions that are given -/

section Given

variable {nonces : Nonces} {calls : List Call} {start : ValidationCache}

/-- A sequence of accesses is an execution if it is one for the threads that occur in it. -/
theorem consistent_of_mem
    (h : ∀ p ∈ trace, own p.1 trace <+: accessesOf P nonces calls start trace p.1) (id : ThreadId) :
    own id trace <+: accessesOf P nonces calls start trace id := by
  by_cases hid : ∃ p ∈ trace, p.1 = id
  · obtain ⟨p, hp, rfl⟩ := hid
    exact h p hp
  have hown : own id trace = [] := by
    rw [own, map_eq_nil_iff, filter_eq_nil_iff]
    exact fun p hp hpid => hid ⟨p, hp, of_decide_eq_true hpid⟩
  rw [hown]
  exact nil_prefix

/-- A call defers no more checks than the transaction has inputs. -/
theorem lt_of_deferredCheck {k j : Nat} {call : Call} {check : CScriptCheck}
    (h : deferredCheck P nonces start trace k j call = some check) : j < call.tx.vin.length := by
  unfold deferredCheck runCall at h
  have hrun := checkInputScripts_run P nonces call (startLocal start trace (k, none))
  generalize (checkInputScripts P nonces call).exec (startLocal start trace (k, none)) = r at h hrun
  cases hrun with
  | deferred txdata _ _ =>
    have hlt := (List.getElem?_eq_some_iff.mp h).1
    rwa [checksOf, length_map, length_finRange] at hlt
  | _ => cases h

def threadsOf (calls : List Call) : List ThreadId :=
  (List.finRange calls.length).flatMap fun k =>
    (k.val, none) :: (List.range (calls.get k).tx.vin.length).map fun j => (k.val, some j)

private theorem mem_threadsOf {id : ThreadId} {a : Access}
    (h : a ∈ accessesOf P nonces calls start trace id) : id ∈ threadsOf calls := by
  obtain ⟨k, j⟩ := id
  by_cases hk : k < calls.length
  · refine mem_flatMap.mpr ⟨⟨k, hk⟩, mem_finRange _, ?_⟩
    cases j with
    | none => exact mem_cons_self
    | some j =>
      refine mem_cons_of_mem _ (mem_map.mpr ⟨j, mem_range.mpr ?_, rfl⟩)
      rw [accessesOf, getElem?_eq_getElem hk] at h
      split at h
      next check hcheck => exact lt_of_deferredCheck hcheck
      · cases h
  · have hnone := getElem?_eq_none (not_lt.mp hk)
    cases j <;> simp [accessesOf, hnone] at h

variable {keys : List Bytes}

/-- To know the keys that are used, it is enough to look at the threads there are. -/
theorem keysUsed_subset
    (h : ∀ id ∈ threadsOf calls, ∀ a ∈ accessesOf P nonces calls start trace id, a.key ∈ keys) :
    ∀ key ∈ keysUsed P nonces calls start trace, key ∈ keys := by
  rintro _ ⟨id, a, ha, rfl⟩
  exact h id (mem_threadsOf ha) a ha

private theorem injOn_of_list (hkeys : ∀ key ∈ keysUsed P nonces calls start trace, key ∈ keys)
    (hinj : ∀ x ∈ keys ++ calls.map fun call => call.tx.serialize true,
      ∀ y ∈ keys ++ calls.map fun call => call.tx.serialize true, hash P x = hash P y → x = y) :
        Set.InjOn (hash P)
      (keysUsed P nonces calls start trace ∪ (fun tx => tx.serialize true) ''
        checkedTxs calls) := by
  have hmem : ∀ x ∈ keysUsed P nonces calls start trace ∪ (fun tx => tx.serialize true) ''
      checkedTxs calls, x ∈ keys ++ calls.map fun call => call.tx.serialize true := by
    rintro x (hx | ⟨_, ⟨-, call, hcall, rfl⟩, rfl⟩)
    · exact mem_append_left _ (hkeys x hx)
    · exact mem_append_right _ (mem_map_of_mem hcall)
  exact fun x hx y hy => hinj x (hmem x hx) y (hmem y hy)

end Given

/-! ### The caches cannot be observed -/

/-- With the caches, `CheckInputScripts` comes to what `ConnectBlock` finds without them. -/
theorem succeeds_iff_failingInput {P : Primitives} {nonces : Nonces} {calls : List Call}
    {sigSize sigDepth scriptSize scriptDepth : Nat}
    {e : Execution P nonces calls (emptyCaches sigSize sigDepth scriptSize scriptDepth)}
    {outOf : COutPoint → CTxOut} (h : e.Sane outOf) {k : Nat} {call : Call}
    (hk : calls[k]? = some call) (hcoins : haveInputs call.inputs call.tx = true) :
    Succeeds P nonces (emptyCaches sigSize sigDepth scriptSize scriptDepth) e.trace k call ↔
      failingInput P (flagsOfInt call.flags) call.tx call.inputs = none := by
  rw [failingInput_eq_none]
  cases hcoinbase : call.tx.isCoinBase with
  | true =>
    refine ⟨fun _ => .inl rfl, fun _ => ⟨[], call.txdata, ?_, nofun⟩⟩
    rw [runCall, checkInputScripts, if_pos hcoinbase, exec_pure]
  | false =>
    have hall : ∀ txin ∈ call.tx.vin, haveCoin call.inputs txin.prevout := by
      simpa [haveInputs, hcoinbase] using hcoins
    rw [h.succeeds_iff (fun _ _ _ => ⟨fun _ he => .inl (Cuckoo.eq_of_mem_setup he),
      fun _ he => .inl (Cuckoo.eq_of_mem_setup he)⟩) hk hall hcoinbase]
    have hout : ∀ i : Fin call.tx.vin.length,
        (accessCoin call.inputs (call.tx.vin.get i).prevout).out =
          outOf (call.tx.vin.get i).prevout :=
      fun i => (h.determined call (mem_of_getElem? hk)).accessCoin_out (get_mem _ i)
        (hall _ (get_mem _ i))
    simp only [hout, Verified, Bool.false_eq_true, false_or]

/-- In every execution from empty caches of any size, a call whose coins are there succeeds, with
the checks that it defers, exactly if the transaction is a coinbase or the scripts of every input
succeed with a checker that has no cache. -/
theorem checkInputScripts_uncached {P : Primitives} {nonces : Nonces} {calls : List Call}
    {sigSize sigDepth scriptSize scriptDepth : Nat}
    (e : Execution P nonces calls (emptyCaches sigSize sigDepth scriptSize scriptDepth))
    (outOf : COutPoint → CTxOut) (h : e.Sane outOf) {k : Nat} {call : Call}
    (hk : calls[k]? = some call) (hcoins : haveInputs call.inputs call.tx = true) :
    Succeeds P nonces (emptyCaches sigSize sigDepth scriptSize scriptDepth) e.trace k call ↔
      call.tx.isCoinBase = true ∨ ∀ i : Fin call.tx.vin.length, scriptCheck P
        (flagsOfInt call.flags) call.tx i
          (accessCoin call.inputs (call.tx.vin.get i).prevout).out = none := by
  rw [← failingInput_eq_none]
  exact succeeds_iff_failingInput h hk hcoins

namespace TwoTxs

/-- A hash that reads a string as a number. -/
def primitives : Primitives :=
  { Primitives.repeating with
    sha3_256 := fun bs => ⟨writeLE 32 (bs.foldl (fun acc b => acc * 257 + b.toNat + 1) 1), by simp⟩
      }

def nonces : Nonces := ⟨.fill 32 1, .fill 32 2⟩

def start : ValidationCache := emptyCaches 2 1 2 1

/-- An outpoint with 45 as the eighth byte of its hash. -/
def prevout : COutPoint := ⟨⟨List.replicate 7 0 ++ [45] ++ List.replicate 24 0, by decide⟩, 0⟩

/-- A transaction with a witness. -/
def spending : CTransaction := ⟨[⟨prevout, [], 0xffffffff, [[]]⟩], [⟨0, []⟩], 1, 0⟩

/-- A transaction without inputs whose output has a script of 45 bytes. Its value and its script are
what `spending` has after the marker and the flag that announce a witness. -/
def noInputs : CTransaction :=
  ⟨[], [⟨1, List.replicate 29 0 ++ [0xff, 0xff, 0xff, 0xff, 1] ++ List.replicate 9 0 ++ [1, 0]⟩], 1,
    0⟩

/-- Every outpoint has an output with one script. -/
def outOf (script : CScript) : COutPoint → CTxOut := fun _ => ⟨0, script⟩

def call (script : CScript) (tx : CTransaction) (flags : UInt64) (store deferred : Bool) : Call :=
  ⟨tx, ⟨fun o => some ⟨outOf script o, false, 0⟩, .null 32⟩, flags, false, store,
    ⟨[], false⟩, deferred⟩

private theorem call_determined {script : CScript} (tx : CTransaction) (flags : UInt64)
    (store deferred : Bool) : (call script tx flags store deferred).Determined (outOf script) :=
  ⟨fun _ _ _ hcoin => (Option.some.inj hcoin).symm ▸ rfl, nofun⟩

private theorem spending_representable : spending.Representable where
  vin_length := by decide
  vout_length := by decide
  vin := by
    intro txin hmem
    obtain rfl := List.mem_singleton.mp hmem
    exact ⟨by decide, by decide, by decide⟩
  vout := by
    intro txout hmem
    obtain rfl := List.mem_singleton.mp hmem
    exact ⟨by decide, by decide⟩

/-- Three calls for one transaction, the last one with other flags. -/
def threeCalls : List Call :=
  [call [0x51] spending 0 true false, call [0x51] spending 0 false false,
    call [0x51] spending 1 false true]

/-- The first call remembers its result while the third one runs, and the second one finds it. -/
def threeTrace : List (ThreadId × Access) :=
  [((0, none), .scriptContains (scriptKey primitives nonces spending 0) false),
    ((2, none), .scriptContains (scriptKey primitives nonces spending 1) true),
    ((0, none), .scriptInsert (scriptKey primitives nonces spending 0)),
    ((1, none), .scriptContains (scriptKey primitives nonces spending 0) true)]

def threeExecution : Execution primitives nonces threeCalls start :=
  ⟨threeTrace, consistent_of_mem (by decide +kernel)⟩

private theorem threeExecution_sane : threeExecution.Sane (outOf [0x51]) := by
  have hkeys : ∀ key ∈ keysUsed primitives nonces threeCalls start threeTrace,
      key ∈ [scriptKey primitives nonces spending 0, scriptKey primitives nonces spending 1] :=
    keysUsed_subset (by decide +kernel)
  have htxs : ∀ tx ∈ checkedTxs threeCalls, tx = spending := by
    rintro tx ⟨-, call, hcall, rfl⟩
    simp only [threeCalls, mem_cons, not_mem_nil, or_false] at hcall
    rcases hcall with rfl | rfl | rfl <;> rfl
  refine ⟨?_, fun tx htx => ?_, fun tx htx => ?_, injOn_of_list hkeys (by decide +kernel), ?_⟩
  · intro call hcall
    simp only [threeCalls, mem_cons, not_mem_nil, or_false] at hcall
    rcases hcall with rfl | rfl | rfl <;> exact call_determined _ _ _ _
  · rw [htxs tx htx]
    exact spending_representable
  · rw [htxs tx htx]
    decide
  · intro key hkey
    have : ∀ key ∈ [scriptKey primitives nonces spending 0, scriptKey primitives nonces spending 1],
        hash primitives key ≠ .null 32 := by
      decide +kernel
    exact this key (hkeys key hkey)

end TwoTxs

open TwoTxs in
theorem checkInputScripts_uncached_hit :
    Succeeds primitives nonces (emptyCaches 2 1 2 1) threeTrace 1
      (TwoTxs.call [0x51] spending 0 false false) ∧
      Succeeds primitives nonces (emptyCaches 2 1 2 1) threeTrace 2
        (TwoTxs.call [0x51] spending 1 false true) :=
  ⟨(checkInputScripts_uncached threeExecution _ threeExecution_sane (k := 1) rfl
    (by decide +kernel)).mpr (.inr (by decide +kernel)),
    (checkInputScripts_uncached threeExecution _ threeExecution_sane (k := 2) rfl
      (by decide +kernel)).mpr (.inr (by decide +kernel))⟩

namespace TwoTxs

/-- A transaction without inputs, and then one whose script fails. -/
def twoCalls : List Call := [call [0x00] noInputs 0 true false, call [0x00] spending 0 false false]

def twoTrace : List (ThreadId × Access) :=
  [((0, none), .scriptContains (scriptKey primitives nonces noInputs 0) false),
    ((0, none), .scriptInsert (scriptKey primitives nonces noInputs 0)),
    ((1, none), .scriptContains (scriptKey primitives nonces noInputs 0) true)]

def twoExecution : Execution primitives nonces twoCalls start :=
  ⟨twoTrace, consistent_of_mem (by decide +kernel)⟩

end TwoTxs

open TwoTxs in
/-- A transaction without inputs has no script that could fail, so a call remembers it as verified.
It can have the serialization of a transaction with a witness; a later call for that one then
succeeds although its script fails. No strings that are hashed collide. -/
theorem checkInputScripts_no_inputs : (∀ call ∈ twoCalls, call.Determined (TwoTxs.outOf [0x00])) ∧
      Set.InjOn (hash primitives)
        (keysUsed primitives nonces twoCalls TwoTxs.start twoExecution.trace ∪
        (fun tx => tx.serialize true) '' checkedTxs twoCalls) ∧
      (∀ key ∈ keysUsed primitives nonces twoCalls TwoTxs.start twoExecution.trace,
        hash primitives key ≠ .null 32) ∧
      twoCalls[1]? = some (TwoTxs.call [0x00] spending 0 false false) ∧
      spending.isCoinBase = false ∧
      Succeeds primitives nonces TwoTxs.start twoExecution.trace 1
        (TwoTxs.call [0x00] spending 0 false false) ∧
      ∃ i : Fin spending.vin.length, scriptCheck primitives (flagsOfInt 0) spending i
        (TwoTxs.outOf [0x00] (spending.vin.get i).prevout) ≠ none := by
  have hkeys : ∀ key ∈ keysUsed primitives nonces twoCalls TwoTxs.start twoTrace,
      key ∈ [scriptKey primitives nonces noInputs 0] :=
    keysUsed_subset (by decide +kernel)
  have hnull : hash primitives (scriptKey primitives nonces noInputs 0) ≠ .null 32 := by
    decide +kernel
  refine ⟨?_, injOn_of_list hkeys (by decide +kernel), fun key hkey => ?_, rfl, rfl, ?_, ?_⟩
  · intro call hcall
    simp only [twoCalls, mem_cons, not_mem_nil, or_false] at hcall
    rcases hcall with rfl | rfl <;> exact call_determined _ _ _ _
  · rw [mem_singleton.mp (hkeys key hkey)]
    exact hnull
  · -- the second call finds what the first one has stored
    have hfound : ((TwoTxs.call [0x00] spending 0 false false).looked primitives nonces
        (startLocal TwoTxs.start twoExecution.trace (1, none))).1 := by
      decide +kernel
    refine ⟨[], ⟨[], false⟩, ?_, nofun⟩
    rw [runCall, checkInputScripts_exec rfl, if_pos hfound]
    rfl
  · exact ⟨⟨0, by decide⟩, by decide +kernel⟩

end Tessera.Validation
