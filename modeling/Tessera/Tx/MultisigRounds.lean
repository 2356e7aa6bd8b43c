import Tessera.Tx.MultisigOutput

/-!
# Collecting the signatures of a multisig input

Several signers complete an input that spends the witness script hash of a multisig script: each one
recovers the signatures the input carries with `DataFromTransaction` and adds its own with
`SignSignature`. The input after any number of rounds is described by the signatures collected so
far, as a function of the keys of the script.

Below the required number nothing is lost from one round to the next. The signer who reaches the
number keeps the first signatures in the order of the keys and leaves the others out; from then on
the input does not change.
-/

namespace Tessera.Tx

open Script Option
open List hiding beq_eq_decide

variable {P : Primitives}

/-! ### Signing a multisig script -/

section SignLoop

variable {creator : SignatureCreator} {provider : SigningProvider} {script : CScript}
  {sv : SigVersion}

private theorem createSig_fst (d : SignatureData) (key : CPubKey) :
    (d.createSig P creator provider key script sv).1 =
    ((d.signatures (key.getID P)).map Prod.snd).or
        (creator.createSig P provider (key.getID P) script sv) := by
  rw [SignatureData.createSig]
  cases hd : d.signatures (key.getID P) with
  | some pair => rfl
  | none => cases creator.createSig P provider (key.getID P) script sv <;> rfl

private theorem createSig_signatures (d : SignatureData) (key : CPubKey) :
    (d.createSig P creator provider key script sv).2.signatures =
      Function.update d.signatures (key.getID P) ((d.signatures (key.getID P)).or
        ((creator.createSig P provider (key.getID P) script sv).map (Prod.mk key))) := by
  rw [SignatureData.createSig]
  cases hd : d.signatures (key.getID P) with
  | some pair => simp [hd]
  | none =>
    cases creator.createSig P provider (key.getID P) script sv with
    | none => simp [hd]
    | some sig =>
      funext id
      simp [hd, emplace, Function.update_apply]

private theorem createSig_createSig (d : SignatureData) (key other : CPubKey) :
    ((d.createSig P creator provider key script sv).2.createSig P creator provider other
      script sv).1 = (d.createSig P creator provider other script sv).1 := by
  rw [createSig_fst, createSig_fst, createSig_signatures]
  by_cases hid : other.getID P = key.getID P
  · rw [hid, Function.update_self]
    cases d.signatures (key.getID P) with
    | some pair => rfl
    | none => cases creator.createSig P provider (key.getID P) script sv <;> rfl
  · rw [Function.update_of_ne hid]

private theorem signMultisigLoop_eq {required : Nat} {keys : List CPubKey}
    (hkeys : ∀ key ∈ keys, key.isValid) (ret : List Bytes) (d : SignatureData) :
    (signMultisigLoop P creator provider required script sv (keys.map CPubKey.vch) ret d).1 =
      ret ++ (keys.filterMap fun key =>
        (d.createSig P creator provider key script sv).1).take (required + 1 - ret.length) := by
  induction keys generalizing ret d with
  | nil => simp [signMultisigLoop]
  | cons key keys ih =>
    have hvalid := hkeys key mem_cons_self
    have hrest := fun k hk => hkeys k (mem_cons_of_mem key hk)
    rw [map_cons, signMultisigLoop, CPubKey.set_vch hvalid]
    have hlater : ∀ other : CPubKey, ((d.createSig P creator provider key script sv).2.createSig P
        creator provider other script sv).1 = (d.createSig P creator provider other script sv).1 :=
      createSig_createSig d key
    split
    next hroom =>
      rcases hcreate : d.createSig P creator provider key script sv with ⟨made, d'⟩
      rw [hcreate] at hlater
      cases made with
      | none =>
        rw [ih hrest, filterMap_cons, hcreate]
        simp [hlater]
      | some sig =>
        rw [ih hrest, filterMap_cons, hcreate]
        simp only [hlater]
        obtain ⟨n, hn⟩ : ∃ n, required + 1 - ret.length = n + 1 :=
          Nat.exists_eq_succ_of_ne_zero (by omega)
        have hn' : required + 1 - (ret ++ [sig]).length = n := by
          simp only [length_append, length_singleton]
          omega
        rw [hn, hn', take_succ_cons, append_assoc, singleton_append]
    next hroom =>
      have hzero : required + 1 - ret.length = 0 := by omega
      rw [ih hrest, hzero, take_zero, take_zero]

end SignLoop

namespace MultisigOutput

variable {out : MultisigOutput P} (s : CoSigner out) {g : SigsByKey} {input t : TxInput}
  {d : SignatureData}

private theorem signStep_script (t : TxInput) (hg : ∀ key ∈ out.keys,
      ((d.signatures (key.getID P)).map Prod.snd).or (s.sigs t key) = g key) :
    let r := signStep P (s.creator t) s.provider out.script .witnessV0 d
    r.ok = decide (out.required ≤ (collect g out.keys).length) ∧ r.ret = [] :: out.values g := by
  have hsigs : out.keys.filterMap (fun key =>
      (d.createSig P (s.creator t) s.provider key out.script .witnessV0).1) =
        (collect g out.keys).map Prod.snd := by
    rw [collect_sigs]
    refine filterMap_congr fun key hkey => ?_
    rw [createSig_fst]
    exact hg key hkey
  have hloop : (signMultisigLoop P (s.creator t) s.provider out.required out.script .witnessV0
      (out.keys.map CPubKey.vch) [[]] d).1 =
        [[]] ++ ((collect g out.keys).take out.required).map Prod.snd := by
    rw [signMultisigLoop_eq out.keys_valid, hsigs, length_singleton, Nat.add_sub_cancel, ← map_take]
  have hlen : ([[]] ++ ((collect g out.keys).take out.required).map Prod.snd).length =
      min out.required (collect g out.keys).length + 1 := by
    simp
  simp only [signStep, out.solver_script, hloop, hlen]
  constructor
  · rw [beq_eq_decide]
    congr 1
    rw [eq_iff_iff]
    omega
  · have hpads : out.required + 1 - (min out.required (collect g out.keys).length + 1) =
        out.required - (collect g out.keys).length := by omega
    rw [hpads]
    rfl

private theorem produceSignature_eq (t : TxInput) (hd : d.complete = false) (hg : ∀ key ∈ out.keys,
      ((d.signatures (key.getID P)).map Prod.snd).or (s.sigs t key) = g key) :
    let r := produceSignature P (s.creator t) s.provider out.scriptPubKey d
    r.scriptSig = [] ∧ r.scriptWitness = out.witness g ∧
      r.complete = (decide (out.required ≤ (collect g out.keys).length) &&
        verifies P t [] out.scriptPubKey (out.witness g)) := by
  have hstep : signStep P (s.creator t) s.provider out.scriptPubKey .base d =
      ⟨true, [out.script], d⟩ := by
    simp [signStep, out.solver_scriptPubKey, SignatureData.getCScript, s.knows_script]
  have hredeem : produceRedeem P (s.creator t) s.provider out.scriptPubKey d =
      (⟨true, [out.script], d⟩, out.scriptPubKey, none) := by
    simp [produceRedeem, hstep, out.solver_scriptPubKey]
  have hscript := signStep_script s t (d := { d with witnessScript := out.script }) hg
  have hwitness : ∃ data : SignatureData, produceWitness P (s.creator t) s.provider out.scriptPubKey
      ⟨true, [out.script], d⟩ = ⟨decide (out.required ≤ (collect g out.keys).length), [],
        { data with scriptWitness := out.witness g, witness := true }⟩ := by
    simp only [produceWitness, out.solver_scriptPubKey, out.solver_script]
    rcases hr : signStep P (s.creator t) s.provider out.script .witnessV0
      { d with witnessScript := out.script } with ⟨ok, ret, data⟩
    rw [hr] at hscript
    obtain ⟨rfl, rfl⟩ := hscript
    exact ⟨data, by simp [witness]⟩
  obtain ⟨data, hdata⟩ := hwitness
  rw [produceSignature, if_neg (by simp [hd]), hredeem]
  simp only [hdata]
  exact ⟨rfl, rfl, rfl⟩

/-! ### Rounds -/

/-- One signer's turn: recover what the input carries, then sign it. The result is what the signer
reports, with the input it leaves. -/
def signRound (t : TxInput) : Option (Bool × TxInput) :=
  (dataFromTransaction P t out.scriptPubKey).map
    (signSignature P s.provider out.scriptPubKey t s.nHashType.toNat s.rnd)

/-- An input that is complete: it verifies. -/
structure Complete (out : MultisigOutput P) (t : TxInput) : Prop where
  scriptSig : t.txin.scriptSig = []
  verifies : verifies P t [] out.scriptPubKey t.txin.scriptWitness = true

/-- The signatures of a set together with those a signer adds. -/
def addSigs (input : TxInput) (g : SigsByKey) : SigsByKey :=
  fun key => (g key).or (s.sigs input key)

private theorem addSigs_sound (hamount : moneyRange input.amount)
    (hg : Sound P input out.script out.keys g) : Sound P input out.script out.keys
      (addSigs s input g) := by
  intro key hkey sig hsig
  rcases or_eq_some_iff.mp hsig with hold | ⟨-, hnew⟩
  · exact hg key hkey sig hold
  · exact s.sigs_sound hamount key hkey sig hnew

/-- A round on an incomplete input. -/
theorem Pending.signRound (hamount : moneyRange input.amount) (h : out.Pending input g t) :
    ∃ t', signRound s t = some
      (decide (out.required ≤ (collect (addSigs s input g) out.keys).length), t') ∧
      t'.txin.scriptWitness = out.witness (addSigs s input g) ∧
      (out.required ≤ (collect (addSigs s input g) out.keys).length → out.Complete t') ∧
      ((collect (addSigs s input g) out.keys).length < out.required →
        out.Pending input (addSigs s input g) t') := by
  obtain ⟨d, hdata, hincomplete, hsigs⟩ := h.recover
  have hg : ∀ key ∈ out.keys,
      ((d.signatures (key.getID P)).map Prod.snd).or (s.sigs t key) = addSigs s input g key := by
    intro key hkey
    rw [hsigs, sigMap_getID h.sound hkey, s.sigs_congr h.same]
    cases hgk : g key <;> simp [addSigs, hgk]
  obtain ⟨hscriptSig, hwitness, hcomplete⟩ := produceSignature_eq s t hincomplete hg
  have hsound := addSigs_sound s hamount h.sound
  have hpasses : out.required ≤ (collect (addSigs s input g) out.keys).length → ∀ t',
    out.SameSpend input t' → verifies P t' [] out.scriptPubKey (out.witness (addSigs s input g)) :=
    fun henough t' hsame => out.verifies_witness (hsame.sound hsound) henough
  generalize hd' : produceSignature P (s.creator t) s.provider out.scriptPubKey d = d' at *
  have hscriptSig' : (t.update d').txin.scriptSig = [] := by
    rw [TxInput.update_txin]
    exact hscriptSig
  have hwitness' : (t.update d').txin.scriptWitness = out.witness (addSigs s input g) := by
    rw [TxInput.update_txin]
    exact hwitness
  refine ⟨t.update d', ?_, hwitness', ?_, ?_⟩
  · have hreport : d'.complete =
        decide (out.required ≤ (collect (addSigs s input g) out.keys).length) := by
      by_cases henough : out.required ≤ (collect (addSigs s input g) out.keys).length
      · rw [hcomplete, hpasses henough t h.same, Bool.and_true]
      · rw [hcomplete, decide_eq_false henough, Bool.false_and]
    rw [MultisigOutput.signRound, hdata, ← hreport, ← hd']
    rfl
  · intro henough
    refine ⟨hscriptSig', ?_⟩
    rw [hwitness']
    exact hpasses henough _ (h.same.update d')
  · intro hfew
    exact ⟨h.same.update d', hsound, hscriptSig', .inl hwitness', hfew⟩

/-- A round on a complete input leaves it alone. -/
theorem Complete.signRound (h : out.Complete t) : signRound s t = some (true, t) := by
  obtain ⟨d, hdata, hcomplete, hscriptSig, hwitness⟩ := recover_complete h.scriptSig h.verifies
  have hself : t.update d = t := by
    have htxin : { t.txin with scriptSig := d.scriptSig, scriptWitness := d.scriptWitness } =
        t.txin := by rw [hscriptSig, hwitness]
    have hvin : t.tx.vin.set t.nIn t.txin = t.tx.vin := set_getElem_self t.inRange
    simp [TxInput.update, htxin, hvin]
  rw [MultisigOutput.signRound, hdata]
  simp [signSignature, produceSignature, hcomplete, hself]

/-- The signers take their turns. The result is what the last one reports, with the input it
leaves; nobody has reported anything before the first turn. -/
def signRounds (input : TxInput) (signers : List (CoSigner out)) : Option (Bool × TxInput) :=
  signers.foldlM (fun r s => signRound s r.2) (false, input)

/-- For each key the signature of the first signer who has one. -/
def sigsOf (input : TxInput) (signers : List (CoSigner out)) : SigsByKey := fun key =>
  signers.findSome? fun s => s.sigs input key

private theorem sigsOf_append (input : TxInput) (signers : List (CoSigner out)) :
    sigsOf input (signers ++ [s]) = addSigs s input (sigsOf input signers) := by
  funext key
  rw [sigsOf, addSigs, sigsOf]
  simp

/-- The keys of the script, counted with their repetitions, that some of the signers know. -/
def knownCount (signers : List (CoSigner out)) : Nat :=
  out.keys.countP fun key => signers.any fun s => s.knows key

private theorem collect_sigsOf_length (hamount : moneyRange input.amount)
    (signers : List (CoSigner out)) :
    (collect (sigsOf input signers) out.keys).length = knownCount signers := by
  rw [collect_length]
  refine countP_congr fun key hkey => ?_
  rw [sigsOf]
  simp [CoSigner.sigs_isSome _ hamount hkey]

private theorem knownCount_mono (signers later : List (CoSigner out)) :
    knownCount signers ≤ knownCount (signers ++ later) := by
  refine countP_mono_left fun key _ hknown => ?_
  rw [any_append, hknown, Bool.true_or]

variable {signers : List (CoSigner out)}

private theorem signRounds_snoc {reported : Bool}
    (hrun : signRounds input signers = some (reported, t)) :
    signRounds input (signers ++ [s]) = signRound s t := by
  rw [signRounds, foldlM_append]
  change (signRounds input signers >>= _) = _
  rw [hrun]
  simp

/-- The input after any number of rounds: below the required number it carries the signatures of
all keys that a signer so far knows, and from then on it is complete. -/
theorem signRounds_spec (hamount : moneyRange input.amount)
    (hscriptSig : input.txin.scriptSig = []) (hwitness : input.txin.scriptWitness = [])
    (signers : List (CoSigner out)) :
    ∃ t, signRounds input signers = some (decide (out.required ≤ knownCount signers), t) ∧
      (out.required ≤ knownCount signers → out.Complete t) ∧
      (knownCount signers < out.required → out.Pending input (sigsOf input signers) t) := by
  induction signers using reverseRecOn with
  | nil =>
    have hpos := out.required_pos
    have hzero : knownCount ([] : List (CoSigner out)) = 0 := by simp [knownCount]
    have hnone : collect (sigsOf input ([] : List (CoSigner out))) out.keys = [] := by
      rw [← length_eq_zero_iff, collect_sigsOf_length hamount, hzero]
    refine ⟨input, ?_, fun h => absurd h (by omega), fun _ => ?_⟩
    · rw [decide_eq_false (by omega)]
      rfl
    · exact ⟨⟨fun _ => rfl, rfl⟩, (fun _ _ _ h => by cases h), hscriptSig,
        .inr ⟨hwitness, fun _ _ => rfl⟩, by rw [hnone]; exact hpos⟩
  | append_singleton signers s ih =>
    obtain ⟨t, hrun, hcomplete, hpending⟩ := ih
    have hmono := knownCount_mono signers [s]
    rw [signRounds_snoc s hrun]
    by_cases henough : out.required ≤ knownCount signers
    · -- nothing changes any more
      have hdone := hcomplete henough
      refine ⟨t, ?_, fun _ => hdone, fun h => absurd h (by omega)⟩
      rw [hdone.signRound, decide_eq_true (by omega)]
    · obtain ⟨t', hround, -, hcomplete', hpending'⟩ := (hpending (by omega)).signRound s hamount
      have hlen : (collect (addSigs s input (sigsOf input signers)) out.keys).length =
          knownCount (signers ++ [s]) := by
        rw [← sigsOf_append, collect_sigsOf_length hamount]
      rw [hlen] at hround hcomplete' hpending'
      rw [← sigsOf_append] at hpending'
      exact ⟨t', hround, hcomplete', hpending'⟩

private theorem Pending.signRound_completes (hamount : moneyRange input.amount)
    (h : out.Pending input (sigsOf input signers) t)
    (henough : out.required ≤ knownCount (signers ++ [s])) :
    ∃ t', MultisigOutput.signRound s t = some (true, t') ∧ t'.txin.scriptWitness =
      [] :: (out.keys.filterMap (sigsOf input (signers ++ [s]))).take out.required ++
      [out.script] := by
  obtain ⟨t', hround, hwitness, -, -⟩ := h.signRound s hamount
  rw [← sigsOf_append, collect_sigsOf_length hamount, decide_eq_true henough] at hround
  refine ⟨t', hround, ?_⟩
  have hpads : out.required - (collect (sigsOf input (signers ++ [s])) out.keys).length = 0 := by
    rw [collect_sigsOf_length hamount]
    omega
  rw [hwitness, ← sigsOf_append, MultisigOutput.witness, values, hpads, map_take, collect_sigs,
    replicate_zero, append_nil, cons_append]

private theorem signRounds_append_complete (hrun : signRounds input signers = some (true, t))
    (h : out.Complete t) (later : List (CoSigner out)) :
    signRounds input (signers ++ later) = some (true, t) := by
  have hfold : later.foldlM (fun r s => signRound s r.2) (true, t) = some (true, t) := by
    induction later with
    | nil => rfl
    | cons s later ih =>
      rw [foldlM_cons, h.signRound]
      exact ih
  rw [signRounds, foldlM_append]
  change (signRounds input signers >>= _) = _
  rw [hrun]
  exact hfold

/-- The signatures that `DataFromTransaction` finds in an input. -/
def collected (out : MultisigOutput P) (t : TxInput) (id : CKeyID) : Option SigPair :=
  (dataFromTransaction P t out.scriptPubKey).bind fun d => d.signatures id

private theorem Pending.collected (h : out.Pending input g t) : out.collected t =
    sigMap P g out.keys := by
  obtain ⟨d, hdata, -, hsigs⟩ := h.recover
  funext id
  rw [MultisigOutput.collected, hdata, bind_some, hsigs]

end MultisigOutput

open MultisigOutput in
/-- Signers who take turns on an unsigned input. A turn ends with a report of completeness exactly
when the signers so far know enough of the keys; the input then passes verification and does not
change any more. Until then the input keeps every signature it ever carried, and carries one for
each key that a signer so far knows; the turn that completes it keeps as many as are required, the
first in the order of the keys. -/
theorem signRounds_keep_signatures (P : Primitives) (out : MultisigOutput P) (input : TxInput)
    (hamount : moneyRange input.amount = true) (hscriptSig : input.txin.scriptSig = [])
    (hwitness : input.txin.scriptWitness = []) (signers later : List (CoSigner out)) :
    ∃ r r', signRounds input signers = some r ∧ signRounds input (signers ++ later) = some r' ∧
      (r.1 = true ↔ out.required ≤ knownCount signers) ∧
      (r.1 = true → verifies P r.2 r.2.txin.scriptSig out.scriptPubKey r.2.txin.scriptWitness =
        true ∧ r' = r) ∧
      (r'.1 = false → (∀ id pair, out.collected r.2 id = some pair →
        out.collected r'.2 id = some pair) ∧
        ∀ key ∈ out.keys, (out.collected r'.2 (key.getID P)).isSome =
          (signers ++ later).any fun s => s.knows key) ∧
      (r.1 = false → ∀ s, out.required ≤ knownCount (signers ++ [s]) →
        ∃ t, signRounds input (signers ++ [s]) = some (true, t) ∧ t.txin.scriptWitness =
          [] :: (out.keys.filterMap (sigsOf input (signers ++ [s]))).take out.required ++
            [out.script]) := by
  obtain ⟨t, hrun, hcomplete, hpending⟩ := signRounds_spec hamount hscriptSig hwitness signers
  obtain ⟨t', hrun', -, hpending'⟩ :=
    signRounds_spec hamount hscriptSig hwitness (signers ++ later)
  refine ⟨_, _, hrun, hrun', decide_eq_true_iff, ?_, ?_, ?_⟩
  · intro hreport
    have henough := of_decide_eq_true hreport
    have hdone := hcomplete henough
    have hlater := signRounds_append_complete (by rw [hrun, decide_eq_true henough]) hdone later
    refine ⟨?_, ?_⟩
    · rw [hdone.scriptSig]
      exact hdone.verifies
    · rw [hrun'] at hlater
      rw [some.inj hlater, decide_eq_true henough]
  · intro hfew
    have hfew' := of_decide_eq_false hfew
    have hmono := knownCount_mono signers later
    have hpend := hpending (by omega)
    have hpend' := hpending' (by omega)
    constructor
    · intro id pair
      rw [hpend.collected, hpend'.collected, sigMap_eq_some_iff hpend.sound,
        sigMap_eq_some_iff hpend'.sound]
      rintro ⟨hkey, hsig, hid⟩
      refine ⟨hkey, ?_, hid⟩
      rw [sigsOf, findSome?_append]
      exact or_eq_some_iff.mpr (.inl hsig)
    · intro key hkey
      rw [hpend'.collected, sigMap_getID hpend'.sound hkey, isSome_map, Bool.eq_iff_iff, sigsOf,
        findSome?_isSome_iff, List.any_eq_true]
      simp only [CoSigner.sigs_isSome _ hamount hkey]
  · intro hfew s henough
    have hpend := hpending (by simpa using hfew)
    rw [signRounds_snoc s hrun]
    exact hpend.signRound_completes s hamount henough

/-! ### Two of three -/

namespace TwoOfThree

open Primitives.repeating MultisigOutput

/-- The public keys of three bytes. -/
def keys : List CPubKey := [(key 1).pubkey, (key 2).pubkey, (key 3).pubkey]

private theorem mem_keys {pubkey : CPubKey} (h : pubkey ∈ keys) : ∃ b, pubkey = (key b).pubkey := by
  simp only [keys, mem_cons, not_mem_nil, or_false] at h
  rcases h with h | h | h <;> exact ⟨_, h⟩

private theorem pushData_key (b : UInt8) :
    pushData (key b).pubkey.vch = [0x4d, 0x21, 0x05] ++ (key b).pubkey.vch := by
  rw [pushData, key_vch, length_cons, Blob.size_eq]
  rfl

private theorem script_eq : getScriptForMultisig 2 keys = 0x52 :: 0x4d ::
      ([0x21, 0x05] ++ (key 1).pubkey.vch ++
      (pushData (key 2).pubkey.vch ++ pushData (key 3).pubkey.vch) ++ [0x53, 0xae]) := by
  rw [getScriptForMultisig, keys, flatMap_cons, pushData_key 1]
  simp only [flatMap_cons, append_assoc]
  rfl

private theorem script_size : (getScriptForMultisig 2 keys).length = 3951 := by
  have hvch : ∀ b, (key b).pubkey.vch.length = 1313 := fun b => vch_length (key_isValid b)
  rw [script_eq]
  simp [pushData_key, hvch]

private theorem two_le_keys : 2 ≤ keys.length := Nat.le_succ 2

private theorem keys_valid : ∀ pubkey ∈ keys, pubkey.isValid := by
  intro pubkey hpubkey
  obtain ⟨b, rfl⟩ := mem_keys hpubkey
  exact key_isValid b

private theorem script_size_le : (getScriptForMultisig 2 keys).length ≤ maxScriptSize := by
  rw [script_size, maxScriptSize]
  omega

private theorem script_true : castToBool (hash .repeating (getScriptForMultisig 2 keys)).data := by
  rw [script_eq]
  rfl

/-- An output that asks for two of the three signatures. -/
def out : MultisigOutput .repeating where
  required := 2
  keys := keys
  required_pos := Nat.zero_lt_two
  required_le := two_le_keys
  keys_valid := keys_valid
  size_le := script_size_le
  program_true := script_true

private theorem find_verifies (bytes : List UInt8) : ∀ pubkey ∈ keys, ∀ k,
    (bytes.find? fun b => (key b).pubkey.getID .repeating == pubkey.getID .repeating).map
      key = some k →
    ∀ rnd msg, ∃ sig, k.sign .repeating rnd msg = some sig ∧
      ∀ other ∈ keys, other.verify .repeating msg sig ↔ other = pubkey := by
  intro pubkey hpubkey k hk rnd msg
  obtain ⟨b, hb, rfl⟩ := map_eq_some_iff.mp hk
  obtain ⟨c, rfl⟩ := mem_keys hpubkey
  have hid := find?_some hb
  obtain rfl := key_inj (by simpa using hid)
  refine ⟨_, key_sign b rnd msg, ?_⟩
  intro other hother
  obtain ⟨a, rfl⟩ := mem_keys hother
  rw [key_verify]
  constructor
  · rintro rfl
    rfl
  · intro h
    exact (key_inj (by rw [h])).symm

/-- The keys of the given bytes, and the script of the output. -/
def provider (bytes : List UInt8) : SigningProvider where
  getCScript := fun _ => some out.script
  getPubKey := fun _ => none
  getKey := fun id => (bytes.find? fun b => (key b).pubkey.getID .repeating == id).map key

private theorem provider_script (bytes : List UInt8) :
    (provider bytes).getCScript ((hash .repeating out.script).first 20 Blob.size160_le) =
    some out.script := rfl

/-- A signer who knows the keys of the given bytes. -/
def signer (bytes : List UInt8) : CoSigner out where
  provider := provider bytes
  nHashType := 1
  rnd := fun _ => .null 32
  knows_script := provider_script bytes
  sign_verifies := find_verifies bytes

def input : TxInput := ⟨⟨[⟨⟨.null 32, 0⟩, [], 0, []⟩], [], 2, 0⟩, 0, 0, by decide⟩

/-- The signature of a byte. -/
def sig (b : UInt8) : Bytes := (Blob.fill 2420 b).data ++ [1]

private theorem sig_inj {b c : UInt8} (h : sig b = sig c) : b = c := by
  have hfill := Blob.ext (append_cancel_right h)
  rw [← Blob.head_fill (n := 2420) (by decide) b, hfill, Blob.head_fill (by decide)]

private theorem signer_sigs (bytes : List UInt8) (b : UInt8) :
    (signer bytes).sigs input (key b).pubkey = if b ∈ bytes then some (sig b) else none := by
  have hfind : bytes.find? (fun c => (key c).pubkey.getID .repeating ==
      (key b).pubkey.getID .repeating) = if b ∈ bytes then some b else none := by
    induction bytes with
    | nil => rfl
    | cons c bytes ih =>
      by_cases hc : c = b
      · simp [hc]
      · have hid : (key c).pubkey.getID .repeating ≠ (key b).pubkey.getID .repeating :=
          fun h => hc (key_inj h)
        simp [hid, ih, Ne.symm hc]
  rw [CoSigner.sigs_eq _ rfl]
  simp only [signer, provider, hfind]
  split
  · simp only [map_some, bind_some, key_sign]
    rfl
  · rfl

private theorem sigsOf_signers (known : List (List UInt8)) (b : UInt8) :
    sigsOf input (known.map signer) (key b).pubkey =
      if b ∈ known.flatten then some (sig b) else none := by
  induction known with
  | nil => rfl
  | cons bytes known ih =>
    rw [sigsOf, map_cons, findSome?_cons, signer_sigs]
    by_cases hb : b ∈ bytes
    · simp [hb]
    · rw [sigsOf] at ih
      simp [hb, ih]

private theorem collect_signers (known : List (List UInt8)) :
      collect (sigsOf input (known.map signer)) keys =
        ([1, 2, 3].filter (· ∈ known.flatten)).map fun b => ((key b).pubkey, sig b) := by
  have hkeys : keys = [1, 2, 3].map fun b => (key b).pubkey := rfl
  rw [hkeys, collect, filterMap_map, ← filterMap_eq_filter, map_filterMap]
  refine filterMap_congr fun b _ => ?_
  simp only [Function.comp, sigsOf_signers]
  by_cases hb : b ∈ known.flatten <;> simp [hb, Option.guard]

end TwoOfThree

open MultisigOutput TwoOfThree in
/-- The second signer completes the input. -/
theorem signRounds_keep_signatures_twoOfThree :
    moneyRange input.amount = true ∧ input.txin.scriptSig = [] ∧ input.txin.scriptWitness = [] ∧
      ∃ r, signRounds input [signer [3], signer [1, 2]] = some r ∧
        verifies .repeating r.2 r.2.txin.scriptSig out.scriptPubKey
          r.2.txin.scriptWitness = true := by
  obtain ⟨r, _, hrun, -, hreport, hcomplete, -⟩ := signRounds_keep_signatures .repeating out input
    rfl rfl rfl [signer [3], signer [1, 2]] []
  have hknown : out.required ≤ knownCount [signer [3], signer [1, 2]] := by
    have hcollect := collect_signers [[3], [1, 2]]
    rw [← collect_sigsOf_length (show moneyRange input.amount from rfl)]
    change 2 ≤ (collect (sigsOf input ([[3], [1, 2]].map signer)) keys).length
    rw [hcollect, length_map]
    decide
  exact ⟨rfl, rfl, rfl, r, hrun, (hcomplete (hreport.mpr hknown)).1⟩

open MultisigOutput TwoOfThree Primitives.repeating in
/-- The signature of the first signer is in the input after the first turn and gone after the
second: the other two signatures come first in the order of the keys. -/
theorem signRounds_drop_signature : ∃ r r', signRounds input [signer [3]] = some r ∧
      signRounds input [signer [3], signer [1, 2]] = some r' ∧
      out.collected r.2 ((key 3).pubkey.getID .repeating) = some ((key 3).pubkey, sig 3) ∧
      sig 3 ∈ r.2.txin.scriptWitness ∧ sig 3 ∉ r'.2.txin.scriptWitness := by
  have hone : collect (sigsOf input [signer [3]]) out.keys = [((key 3).pubkey, sig 3)] :=
    collect_signers [[3]]
  have hall : collect (sigsOf input ([signer [3]] ++ [signer [1, 2]])) out.keys =
      [((key 1).pubkey, sig 1), ((key 2).pubkey, sig 2), ((key 3).pubkey, sig 3)] :=
    collect_signers [[3], [1, 2]]
  have hthird : sigsOf input [signer [3]] (key 3).pubkey = some (sig 3) := sigsOf_signers [[3]] 3
  have hkey : (key 3).pubkey ∈ out.keys := mem_cons_of_mem _ (mem_cons_of_mem _ mem_cons_self)
  have hamount : moneyRange input.amount := rfl
  obtain ⟨r, hrun, -, hpending⟩ := signRounds_spec hamount rfl rfl [signer [3]]
  have hpend : out.Pending input (sigsOf input [signer [3]]) r := by
    apply hpending
    rw [← collect_sigsOf_length hamount, hone]
    exact Nat.lt_succ_self 1
  obtain ⟨r', hround, hwitness', -, -⟩ := hpend.signRound (signer [1, 2]) hamount
  rw [← sigsOf_append] at hround hwitness'
  refine ⟨_, _, hrun, (signRounds_snoc (signer [1, 2]) hrun).trans hround, ?_, ?_, ?_⟩
  · rw [hpend.collected]
    exact (sigMap_eq_some_iff hpend.sound).mpr ⟨hkey, hthird, rfl⟩
  · rcases hpend.witness with hwitness | ⟨-, hnone⟩
    · rw [hwitness, MultisigOutput.witness, MultisigOutput.values, hone]
      change sig 3 ∈ [] :: [sig 3, [], out.script]
      simp
    · rw [hnone _ hkey] at hthird
      cases hthird
  · rw [hwitness', MultisigOutput.witness, MultisigOutput.values, hall]
    change sig 3 ∉ [] :: [sig 1, sig 2, out.script]
    have hlen : (sig 3).length = 2421 := by
      rw [sig, length_append, Blob.size_eq]
      rfl
    have hscript : sig 3 ≠ out.script := by
      intro h
      rw [h] at hlen
      exact absurd (hlen.symm.trans script_size) (by omega)
    have hnil : sig 3 ≠ [] := by
      intro h
      rw [h] at hlen
      cases hlen
    simp only [mem_cons, not_mem_nil, or_false, not_or]
    exact ⟨hnil, fun h => absurd (sig_inj h) (by decide), fun h => absurd (sig_inj h) (by decide),
      hscript⟩

end Tessera.Tx
