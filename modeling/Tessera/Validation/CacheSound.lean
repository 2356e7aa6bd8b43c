import Tessera.Tx.Unserialize
import Tessera.Validation.Caches

/-!
# The validation caches cannot be observed

Whatever the other threads do, an entry is found in a cache only if it was put there after a check
of exactly what the entry stands for. So the outcome of `CheckInputScripts` is the one without
caches.

The argument has two rounds, since what a call puts in the script execution cache depends on what it
found in the signature cache. A thread stores a signature only after it has verified it, whatever it
has found before; so what is in the signature cache is always valid. Hence the checks of a call are
right, and what is in the script execution cache is valid as well.

No hash function is injective on all strings. It is assumed that the strings which the threads
really hash do not collide, and a thread behaves as without caches until it hashes another one
(`Bad`).
-/

namespace Tessera.Validation

open Lib Script Tx List CPubKey

variable {P : Primitives}

/-! ### What the tables hold -/

section Tables

variable (P)

/-- The hashes of some keys differ, and none of them is the element that tables are filled with. -/
structure GoodKeys (S : Set Bytes) : Prop where
  inj : Set.InjOn (hash P) S
  ne_null : ∀ key ∈ S, hash P key ≠ .null 32

/-- A table holds only hashes of keys with a property. -/
def HoldsOnly (V : Bytes → Prop) (S : Set Bytes) (table : List Uint256) : Prop :=
  ∀ e ∈ table, e = .null 32 ∨ ∃ key ∈ S, V key ∧ e = hash P key

variable {P} {V W : Bytes → Prop} {S : Set Bytes} {key : Bytes} {c : Cuckoo.Cache Uint256}

theorem HoldsOnly.insert (h : HoldsOnly P V S c.table) (hkey : key ∈ S) (hvalid : V key) :
    HoldsOnly P V S (c.insert signatureCacheHasher (hash P key)).table := by
  intro e he
  rcases Cuckoo.mem_insert he with he | rfl
  · exact h e he
  · exact .inr ⟨key, hkey, hvalid, rfl⟩

/-- A key that is found has the property. -/
theorem HoldsOnly.of_contains (h : HoldsOnly P V S c.table) (hS : GoodKeys P S) (hkey : key ∈ S)
    {erase : Bool} (hfound : (c.contains signatureCacheHasher (hash P key) erase).1) : V key := by
  rcases h _ (Cuckoo.mem_of_contains hfound) with hnull | ⟨key', hkey', hvalid, heq⟩
  · exact absurd hnull (hS.ne_null key hkey)
  · rwa [hS.inj hkey hkey' heq]

variable (P V W S) in
/-- The signature cache holds only keys with the property `V`, the script execution cache those with
`W`. -/
structure Sound (c : ValidationCache) : Prop where
  signature : HoldsOnly P V S c.signatureCache.table
  script : HoldsOnly P W S c.scriptExecutionCache.table

variable (V W S) in
/-- An access that keeps the caches sound. -/
structure Allowed (a : Access) : Prop where
  key : a.key ∈ S
  signature : ∀ key, a = .sigSet key → V key
  script : ∀ key, a = .scriptInsert key → W key

theorem Sound.apply {c : ValidationCache} {a : Access} (h : Sound P V W S c)
    (ha : Allowed V W S a) : Sound P V W S (c.apply P a).2 := by
  cases a with
  | sigGet key erase => exact ⟨by
      rw [ValidationCache.apply, Cuckoo.contains_table]; exact h.signature, h.script⟩
  | sigSet key => exact ⟨h.signature.insert ha.key (ha.signature key rfl), h.script⟩
  | scriptContains key erase =>
    exact ⟨h.signature, by rw [ValidationCache.apply, Cuckoo.contains_table]; exact h.script⟩
  | scriptInsert key => exact ⟨h.signature, h.script.insert ha.key (ha.script key rfl)⟩

theorem Sound.applyAll {c : ValidationCache} {accesses : List Access} (h : Sound P V W S c)
    (ha : ∀ a ∈ accesses, Allowed V W S a) : Sound P V W S (c.applyAll P accesses) := by
  induction accesses generalizing c with
  | nil => exact h
  | cons a rest ih => exact ih (h.apply
      (ha a mem_cons_self)) fun b hb => ha b (mem_cons_of_mem a hb)

end Tables

/-! ### A thread among others -/

section Threads

variable {V W : Bytes → Prop} {S : Set Bytes} {s : Local} {a : Access}

variable (P V W S) in
/-- The caches are sound, and the others keep them so. -/
structure Fine (s : Local) : Prop where
  cache : Sound P V W S s.cache
  others : ∀ block ∈ s.others, ∀ a ∈ block, Allowed V W S a

variable (S) in
/-- The thread has used a key outside of `S`. -/
def Bad (s : Local) : Prop := ∃ a ∈ s.log, a.key ∉ S

/-- All accesses of the thread so far have a property. -/
def LogAll (Q : Access → Prop) (s : Local) : Prop := ∀ a ∈ s.log, Q a

variable (P a) in
theorem Bad.access (h : Bad S s) : Bad S (s.access P a).2 := by
  obtain ⟨b, hb, hkey⟩ := h
  exact ⟨b, mem_append_left _ hb, hkey⟩

variable (P) in
theorem LogAll.access {Q : Access → Prop} (h : LogAll Q s) (ha : Q a) : LogAll Q
    (s.access P a).2 := by
  intro b hb
  rcases mem_append.mp hb with hb | hb
  · exact h b hb
  · rwa [mem_singleton.mp hb]

variable (P) in
theorem bad_access (ha : a.key ∉ S) : Bad S (s.access P a).2 :=
  ⟨a, mem_append_right _ (mem_singleton_self a), ha⟩

/-- What a thread finds when the others have made their accesses. -/
theorem Fine.next (h : Fine P V W S s) : Sound P V W S
    (s.cache.applyAll P (s.others.headD [])) := by
  refine h.cache.applyAll fun a ha => ?_
  cases hothers : s.others with
  | nil =>
    rw [hothers] at ha
    cases ha
  | cons block rest =>
    rw [hothers] at ha
    exact h.others block (by rw [hothers]; exact mem_cons_self) a ha

theorem Fine.access (h : Fine P V W S s) (ha : Allowed V W S a) : Fine P V W S (s.access P a).2 :=
  ⟨h.next.apply ha, fun block hblock => h.others block (mem_of_mem_tail hblock)⟩

variable {key : Bytes} {erase : Bool}

private theorem allowed_sigGet (erase : Bool) (hkey : key ∈ S) : Allowed V W S
    (.sigGet key erase) :=
  ⟨hkey, nofun, nofun⟩

theorem allowed_scriptContains (erase : Bool) (hkey : key ∈ S) : Allowed V W S
    (.scriptContains key erase) :=
  ⟨hkey, nofun, nofun⟩

private theorem allowed_sigSet (hkey : key ∈ S) (hvalid : V key) : Allowed V W S (.sigSet key) :=
  ⟨hkey, fun _ h => Access.sigSet.inj h ▸ hvalid, nofun⟩

end Threads

/-! ### The signature cache -/

section Signatures

variable {nonces : Nonces} {W : Bytes → Prop} {S : Set Bytes} {s : Local}

variable (P nonces) in
def SigValid (key : Bytes) : Prop :=
  ∃ sighash pubkey vchSig, CPubKey.isValid pubkey = true ∧
    key = signatureKey nonces sighash pubkey vchSig ∧ pubkey.verify P sighash vchSig = true

/-- A key determines what it was made of: everything before the signature has a fixed length. -/
theorem signatureKey_inj {sighash sighash' : Uint256} {pubkey pubkey' : CPubKey}
    {vchSig vchSig' : Bytes} (hpubkey : pubkey.isValid) (hpubkey' : pubkey'.isValid)
    (h : signatureKey nonces sighash pubkey vchSig = signatureKey nonces sighash' pubkey' vchSig') :
    sighash = sighash' ∧ pubkey = pubkey' ∧ vchSig = vchSig' := by
  have hlength := validSize_length (isValid_iff.mp hpubkey)
  have hlength' := validSize_length (isValid_iff.mp hpubkey')
  have hsizes : sighash.data.length = sighash'.data.length := by
    rw [sighash.size_eq, sighash'.size_eq]
  simp only [signatureKey, append_assoc, append_cancel_left_eq] at h
  obtain ⟨hsighash, hrest⟩ := append_inj h hsizes
  obtain ⟨hvch, hsig⟩ := append_inj hrest (hlength.trans hlength'.symm)
  refine ⟨Blob.ext hsighash, ?_, hsig⟩
  obtain ⟨vch, wf⟩ := pubkey
  subst hvch
  rfl

variable (store : Bool) (vchSig : Bytes) (pubkey : CPubKey) (sighash : Uint256)

variable (P nonces) in
/-- What `VerifySignature` does to the state: it looks the signature up, and may store it. -/
theorem verifySignature_cases (s : Local) :
    let key := signatureKey nonces sighash pubkey vchSig
    let found := s.access P (.sigGet key (!store))
    (found.1 ∧ verifySignature P nonces store vchSig pubkey sighash s = (true, found.2)) ∨
      (verifySignature P nonces store vchSig pubkey sighash s =
        (pubkey.verify P sighash vchSig, found.2)) ∨
      (pubkey.verify P sighash vchSig ∧ verifySignature P nonces store vchSig pubkey sighash s =
          (true, (found.2.access P (.sigSet key)).2)) := by
  intro key found
  unfold verifySignature
  by_cases hfound : found.1
  · exact .inl ⟨hfound, if_pos hfound⟩
  refine .inr ?_
  rw [if_neg hfound]
  by_cases hverify : pubkey.verify P sighash vchSig
  · cases store with
    | false => exact .inl (by simp [hverify, found, key])
    | true => exact .inr ⟨hverify, by simp [hverify, found, key]⟩
  · exact .inl (by simp [hverify, found, key])

variable (P nonces) in
/-- A property of a thread that every look at a signature keeps. -/
def SigKeeps (I : Local → Prop) : Prop :=
  ∀ store vchSig pubkey sighash s, CPubKey.isValid pubkey = true → I s →
    I (verifySignature P nonces store vchSig pubkey sighash s).2

/-- Whatever it finds, only a valid signature is stored. -/
theorem sigKeeps_of_access {I : Local → Prop}
    (hget : ∀ key erase s, I s → I (s.access P (.sigGet key erase)).2)
    (hset : ∀ key s, SigValid P nonces key → I s → I (s.access P (.sigSet key)).2) :
    SigKeeps P nonces I := by
  intro store vchSig pubkey sighash s hpubkey h
  have hlooked := hget (signatureKey nonces sighash pubkey vchSig) (!store) s h
  rcases verifySignature_cases P nonces store vchSig pubkey sighash s with ⟨-, hrun⟩ | hrun |
    ⟨hverify, hrun⟩
  · exact hrun ▸ hlooked
  · exact hrun ▸ hlooked
  · exact hrun ▸ hset _ _ ⟨sighash, pubkey, vchSig, hpubkey, rfl, hverify⟩ hlooked

theorem sigKeeps_bad : SigKeeps P nonces (Bad S) :=
  sigKeeps_of_access (fun _ _ _ h => h.access P _) fun _ _ _ h => h.access P _

/-- Unless it uses a key outside of `S`, the answer is the one without a cache. -/
theorem verifySignature_until (hS : GoodKeys P S) (hpubkey : pubkey.isValid)
    (h : Fine P (SigValid P nonces) W S s) :
    Bad S (verifySignature P nonces store vchSig pubkey sighash s).2 ∨
      ((verifySignature P nonces store vchSig pubkey sighash s).1 = pubkey.verify P sighash vchSig ∧
        Fine P (SigValid P nonces) W S
          (verifySignature P nonces store vchSig pubkey sighash s).2) := by
  have hcases := verifySignature_cases P nonces store vchSig pubkey sighash s
  by_cases hkey : signatureKey nonces sighash pubkey vchSig ∈ S
  · refine .inr ?_
    have hget := h.access (allowed_sigGet (!store) hkey)
    rcases hcases with ⟨hfound, hrun⟩ | hrun | ⟨hverify, hrun⟩
    · -- a hit: the entry was stored for this very signature
      obtain ⟨sighash', pubkey', vchSig', hpubkey', heq, hverify⟩ :=
        h.next.signature.of_contains hS hkey hfound
      obtain ⟨rfl, rfl, rfl⟩ := signatureKey_inj hpubkey hpubkey' heq
      rw [hrun]
      exact ⟨hverify.symm, hget⟩
    · rw [hrun]
      exact ⟨rfl, hget⟩
    · rw [hrun]
      exact ⟨hverify.symm, hget.access
        (allowed_sigSet hkey ⟨sighash, pubkey, vchSig, hpubkey, rfl, hverify⟩)⟩
  · refine .inl ?_
    rcases hcases with ⟨-, hrun⟩ | hrun | ⟨-, hrun⟩
    · exact hrun ▸ bad_access P hkey
    · exact hrun ▸ bad_access P hkey
    · exact hrun ▸ (bad_access P hkey).access P _

end Signatures

/-! ### Checks of inputs -/

section Checks

variable {nonces : Nonces} {W : Bytes → Prop} {S : Set Bytes} {s : Local}
  {I : Local → Prop}

/-- What every look at a signature keeps is kept by the checker. -/
theorem cachingChecker_keeps (hI : SigKeeps P nonces I) (store : Bool) (t : TxInput)
    (sv : SigVersion) : (cachingChecker P nonces store t).Keeps I sv := by
  intro sig pubkey code s hs
  simp only [cachingChecker]
  split
  · exact hs
  split
  next hvalid => exact hI _ _ _ _ s hvalid hs
  · exact hs

/-- Until it uses a key outside of `S`, the checker with a cache answers as the one without. -/
theorem cachingChecker_agree (hS : GoodKeys P S) (store : Bool) (t : TxInput) (sv : SigVersion) :
    (cachingChecker P nonces store t).AgreeUntil (Bad S)
      (fun s _ => Fine P (SigValid P nonces) W S s) (t.checker P) sv where
  keeps := cachingChecker_keeps sigKeeps_bad store t sv
  checkSig := by
    intro sig pubkey code s u hs
    simp only [cachingChecker, TxInput.checker, TxInput.checkSig]
    cases sig.getLast? with
    | none => exact .inr ⟨rfl, hs⟩
    | some nHashType =>
      by_cases hvalid : (CPubKey.set pubkey).isValid
      · simp only [hvalid]
        exact verifySignature_until store _ _ _ hS hvalid hs
      · simp only [hvalid]
        exact .inr ⟨rfl, hs⟩
  checkLockTime := rfl
  checkSequence := rfl

/-- What a check says without a cache. -/
def CScriptCheck.uncached (P : Primitives) (check : CScriptCheck) : Option (ScriptError × String) :=
  scriptCheck P (flagsOfInt check.flags) check.tx check.nIn check.txOut

variable (check : CScriptCheck)

def CScriptCheck.verify {σ : Type} (P : Primitives) (checker : Checker σ) :
    Comp ScriptError σ Unit :=
  verifyScript P (flagsOfInt check.flags) checker (check.tx.vin.get check.nIn).scriptSig
    check.txOut.scriptPubKey (check.tx.vin.get check.nIn).scriptWitness

/-- What a check says about the outcome of its scripts. -/
def CScriptCheck.report (P : Primitives) : Except ScriptError Unit → Option (ScriptError × String)
  | .ok _ => none
  | .error e =>
    some (e, "input " ++ toString check.nIn.val ++ " of " ++
      toHex (check.tx.getHash P) ++ " (wtxid " ++
      toHex (getWitnessHash P check.tx) ++ "), spending " ++
      toHex (check.tx.vin.get check.nIn).prevout.hash ++ ":" ++
      toString (check.tx.vin.get check.nIn).prevout.n.toNat)

private theorem CScriptCheck.run_eq : check.run P nonces s =
      let result := (check.verify P (cachingChecker P nonces check.cacheStore check.input)).exec s
      (check.report P result.1, result.2) := by
  unfold run verify
  dsimp only
  split
  next h =>
    rw [h, report]
  next h =>
    rw [h, report]

/-- What every look at a signature keeps is kept by a check. -/
theorem CScriptCheck.run_keeps (hI : SigKeeps P nonces I) (h : I s) :
    I (check.run P nonces s).2 := by
  have hkeeps := cachingChecker_keeps hI check.cacheStore check.input
  rw [check.run_eq]
  exact verifyScript_keeps (hkeeps .base) (hkeeps .witnessV0) _ _ _ s h

/-- Until it uses a key outside of `S`, a check says what it says without a cache. -/
theorem CScriptCheck.run_until (hS : GoodKeys P S) (h : Fine P (SigValid P nonces) W S s) :
    Bad S (check.run P nonces s).2 ∨
      ((check.run P nonces s).1 = check.uncached P ∧ Fine P (SigValid P nonces) W S
        (check.run P nonces s).2) := by
  have hagree : ∀ sv, (cachingChecker P nonces check.cacheStore check.input).AgreeUntil (Bad S)
      (fun s _ => Fine P (SigValid P nonces) W S s) (check.input.checker P) sv :=
    cachingChecker_agree hS check.cacheStore check.input
  rw [check.run_eq]
  rcases (verifyScript_relatedUntil (hagree .base) (hagree .witnessV0) _ _ _).related s () h with
    hbad | ⟨hvalue, hfine⟩
  · exact .inl hbad
  · exact .inr ⟨congrArg (check.report P) hvalue, hfine⟩

/-! ### All checks of a call -/

/-- The loop over the checks without a cache. -/
def uncachedChecks (P : Primitives) : List CScriptCheck → Except (Failure InputScriptsResult) Unit
  | [] => .ok ()
  | check :: rest => do
    rejectInput check.flags (check.uncached P)
    uncachedChecks P rest

private theorem rejectInput_eq_ok_iff {flags : UInt64} {result : Option (ScriptError × String)} :
    rejectInput flags result = .ok () ↔ result = none := by
  rcases result with _ | ⟨e, debug⟩
  · exact ⟨fun _ => rfl, fun _ => rfl⟩
  · simp only [rejectInput]
    split <;> simp

theorem uncachedChecks_eq_ok_iff {checks : List CScriptCheck} :
    uncachedChecks P checks = .ok () ↔ ∀ check ∈ checks, check.uncached P = none := by
  induction checks with
  | nil => simp [uncachedChecks]
  | cons check rest ih =>
    rw [uncachedChecks, bind_eq_ok_iff, forall_mem_cons, ← ih]
    constructor
    · rintro ⟨_, hcheck, hrest⟩
      exact ⟨rejectInput_eq_ok_iff.mp hcheck, hrest⟩
    · rintro ⟨hcheck, hrest⟩
      exact ⟨(), rejectInput_eq_ok_iff.mpr hcheck, hrest⟩

/-- What every look at a signature keeps is kept by the loop. -/
theorem runChecks_keeps (hI : SigKeeps P nonces I) (checks : List CScriptCheck) :
    Comp.Keeps I (runChecks P nonces checks) := by
  induction checks with
  | nil => exact fun s h => h
  | cons check rest ih =>
    intro s h
    have hcheck := check.run_keeps hI h
    rw [runChecks, Comp.exec_bind, Comp.exec_act]
    dsimp only
    cases rejectInput check.flags (check.run P nonces s).1 with
    | error e => exact hcheck
    | ok u => exact ih _ hcheck

/-- Until it uses a key outside of `S`, the loop has the outcome that it has without a cache. -/
theorem runChecks_until (hS : GoodKeys P S) (checks : List CScriptCheck) :
    Comp.RelatedUntil (Bad S) (fun s (_ : Unit) => Fine P (SigValid P nonces) W S s)
      (runChecks P nonces checks) (Comp.ofExcept (uncachedChecks P checks)) := by
  induction checks with
  | nil => exact Comp.relatedUntil_pure ()
  | cons check rest ih =>
    -- the loop without a cache, with its steps apart
    have hsteps : (Comp.ofExcept (uncachedChecks P (check :: rest)) : Comp _ Unit Unit) = (do
          let result ← Comp.act fun u => (check.uncached P, u)
          Comp.ofExcept (rejectInput check.flags result)
          Comp.ofExcept (uncachedChecks P rest)) := by
      rw [uncachedChecks, Comp.ofExcept_bind]
      rfl
    rw [hsteps]
    refine Comp.relatedUntil_bind (Comp.relatedUntil_act ?_ ?_) fun result =>
      Comp.relatedUntil_bind (Comp.relatedUntil_ofExcept _) fun _ => ih
    · exact fun s h => check.run_keeps sigKeeps_bad h
    · exact fun s _ h => check.run_until hS h

end Checks

end Tessera.Validation
