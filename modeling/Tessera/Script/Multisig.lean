import Mathlib.Data.List.NodupEquivFin
import Tessera.Script.WitnessSpend

/-!
# The multisig script

`GetScriptForMultisig` builds `<m> <key> ... <key> <n> OP_CHECKMULTISIG`. This module parses and
solves it, and runs it: what remains of a run is the loop that matches signatures with keys.
-/

namespace Tessera.Script

open Lib ScriptNum List CPubKey

def getScriptForMultisig (nRequired : Nat) (keys : List CPubKey) : CScript :=
  pushInt64 nRequired ++ keys.flatMap (fun key => pushData key.vch) ++
    pushInt64 keys.length ++ [0xae]

/-! ### Parsing -/

/-- The instructions that push the given keys in front of a rest. -/
def keyInstrs (rest : Bytes) : List CPubKey → List Instr
  | [] => []
  | key :: keys =>
    ⟨.pushData2, key.vch, keys.flatMap (fun key => pushData key.vch) ++ rest⟩ :: keyInstrs rest keys

theorem vch_length {key : CPubKey} (h : key.isValid) : key.vch.length = 1313 := by
  obtain ⟨raw, hraw⟩ := validSize_iff.mp (isValid_iff.mp h)
  rw [hraw, length_cons, raw.size_eq]

variable {keys : List CPubKey} {n m : Nat} {stack sigs : List Bytes} {dummy : Bytes}

private theorem parse_keys (h : ∀ key ∈ keys, key.isValid) (rest : Bytes) :
    parse (keys.flatMap (fun key => pushData key.vch) ++ rest) =
      (keyInstrs rest keys ++ (parse rest).1, (parse rest).2) := by
  induction keys with
  | nil => rfl
  | cons key keys ih =>
    have hlen := vch_length (h key mem_cons_self)
    have hkeys := ih fun k hk => h k (mem_cons_of_mem key hk)
    rw [flatMap_cons, append_assoc, parse_of_some (getScriptOp_pushData (by omega) _), hkeys, hlen]
    rfl

private theorem parse_opInt (k : Fin 16) (rest : Bytes) : parse ((Opcode.opInt k).toByte :: rest) =
      (⟨.opInt k, [], rest⟩ :: (parse rest).1, (parse rest).2) :=
  parse_of_some (getScriptOp_op (hasOperand_opInt k) rest)

/-- The part of a multisig script after its keys. -/
def multisigTail (n : Nat) : Bytes := pushInt64 n ++ [0xae]

private theorem parse_getScriptForMultisig (hm : 1 ≤ m)
    (hmn : m ≤ keys.length) (hn : keys.length ≤ 16) (hkeys : ∀ key ∈ keys, key.isValid) :
    parse (getScriptForMultisig m keys) = (⟨.opInt ⟨m - 1, by omega⟩, [],
          keys.flatMap (fun key => pushData key.vch) ++ multisigTail keys.length⟩ ::
        (keyInstrs (multisigTail keys.length) keys ++
          [⟨.opInt ⟨keys.length - 1, by omega⟩, [], [0xae]⟩, ⟨.checkMultiSig, [], []⟩]), none) := by
  have hlast : parse [0xae] = ([⟨.checkMultiSig, [], []⟩], none) := by decide
  have htail : parse (multisigTail keys.length) =
      ([⟨.opInt ⟨keys.length - 1, by omega⟩, [], [0xae]⟩, ⟨.checkMultiSig, [], []⟩], none) := by
    rw [multisigTail, pushInt64_small (by omega) hn]
    change parse ((Opcode.opInt _).toByte :: [0xae]) = _
    rw [parse_opInt, hlast]
  rw [getScriptForMultisig, pushInt64_small hm (by omega), append_assoc, append_assoc,
    singleton_append, ← multisigTail, parse_opInt, parse_keys hkeys, htail]

/-! ### Solving -/

/-- The keys alone make a multisig script longer than every template with a hash. -/
theorem getScriptForMultisig_length (hkeys : ∀ key ∈ keys, key.isValid) :
    1313 * keys.length ≤ (getScriptForMultisig m keys).length := by
  have hflat : 1313 * keys.length ≤ (keys.flatMap fun key => pushData key.vch).length := by
    induction keys with
    | nil => simp
    | cons key keys ih =>
      have hlen := vch_length (hkeys key mem_cons_self)
      have hrest := ih fun k hk => hkeys k (mem_cons_of_mem key hk)
      simp only [flatMap_cons, pushData, length_append, length_cons] at hrest ⊢
      omega
  simp only [getScriptForMultisig, length_append]
  omega

private theorem pushesKeys_flatMap (h : ∀ key ∈ keys, key.isValid) :
    PushesKeys (keys.map vch) (keys.flatMap fun key => pushData key.vch) := by
  induction keys with
  | nil => exact .nil
  | cons key keys ih =>
    have hvalid := h key mem_cons_self
    have hpush : pushData key.vch = Opcode.pushData2.toByte ::
        (writeLE 2 key.vch.length ++ key.vch) := by
      rw [pushData, vch_length hvalid]
      rfl
    rw [flatMap_cons, hpush]
    exact .cons .pushData2 (.inl rfl) (isValid_iff.mp hvalid)
      (ih fun k hk => h k (mem_cons_of_mem key hk))

/-- The solver finds the keys and the number of signatures of a multisig script. -/
theorem solver_getScriptForMultisig (hm : 1 ≤ m)
    (hmn : m ≤ keys.length) (hn : keys.length ≤ 16) (hkeys : ∀ key ∈ keys, key.isValid) :
    solver (getScriptForMultisig m keys) = .multisig m (keys.map CPubKey.vch) := by
  refine solver_eq_multisig_iff.mpr ⟨hm, by rwa [length_map], ?_, _, pushesKeys_flatMap hkeys, ?_⟩
  · rw [length_map]
    exact hn.trans (by decide)
  · simp [getScriptForMultisig]

/-! ### Running -/

variable {σ : Type} {P : Primitives} {flags : ScriptFlags} {checker : Checker σ}

private theorem evalLoop_keyInstrs {rest : Bytes} {more : List Instr}
    {code : CScript} (hkeys : ∀ key ∈ keys, key.isValid)
    (hroom : stack.length + keys.length ≤ maxStackSize) :
    evalLoop P flags checker .witnessV0 (keyInstrs rest keys ++ more) (.running stack n code) =
      evalLoop P flags checker .witnessV0 more
        (.running ((keys.map CPubKey.vch).reverse ++ stack) n code) := by
  induction keys generalizing stack with
  | nil => rfl
  | cons key keys ih =>
    have hlen := vch_length (hkeys key mem_cons_self)
    have hmin := checkMinimalPush_pushOpcode (show 2 ≤ key.vch.length by omega)
    rw [hlen] at hmin
    have hsize : key.vch.length ≤ maxElementSize .witnessV0 := by rw [hlen]; decide
    have hroom' : stack.length + 1 + keys.length ≤ maxStackSize := by
      simp only [length_cons] at hroom
      omega
    rw [keyInstrs, cons_append, evalLoop,
      evalInstr_running_push_eq (show Opcode.pushData2.hasOperand from rfl) hsize hmin
        (by omega), pure_bind,
      ih (fun k hk => hkeys k (mem_cons_of_mem key hk)) (by simpa using hroom')]
    simp

private theorem evalInstr_opInt {k : Fin 16} {pc code : Bytes}
    (hops : n ≤ maxOpsPerScript) (hroom : stack.length + 1 ≤ maxStackSize) :
    evalInstr P flags checker .witnessV0 ⟨.opInt k, [], pc⟩ (.running stack n code) =
      pure (.running (serialize (k.val + 1) :: stack) n code) := by
  have hcount : ∀ k : Fin 16, (Opcode.opInt k).isCounted = false := by decide
  rw [evalInstr_running_switch (hasOperand_opInt k) rfl (by rintro ⟨⟩) (by rw [hcount]; rfl) hops]
  change (Comp.require (decide (stack.length + 1 ≤ maxStackSize)) _ >>= _) = _
  rw [Comp.require_eq_pure (decide_eq_true hroom)]
  rfl

private theorem popArguments_append (flags : ScriptFlags) (success : Bool) (i j : Nat)
    (xs st : List Bytes) : popArguments flags success (xs.length + i) (xs.length + j) (xs ++ st) =
      popArguments flags success i j st := by
  induction xs with
  | nil => simp
  | cons x xs ih =>
    have hi : (x :: xs).length + i = xs.length + i + 1 := by simp only [length_cons]; omega
    have hj : (x :: xs).length + j = xs.length + j + 1 := by simp only [length_cons]; omega
    rw [hi, hj, cons_append, popArguments, if_neg (by omega)]
    exact ih

/-- The outcome of a multisig script after its signatures have been checked. -/
def multisigEnd (flags : ScriptFlags) (sigs : List Bytes) (dummy : Bytes) (success : Bool) :
    Except ScriptError (List Bytes) :=
  if success = false ∧ .nullFail ∈ flags ∧ ∃ sig ∈ sigs, sig ≠ [] then .error .sigNullFail
  else if .nullDummy ∈ flags ∧ dummy ≠ [] then .error .sigNullDummy
  else .ok [boolVch success]

private theorem popArguments_sigs (flags : ScriptFlags) (success : Bool) (sigs st : List Bytes) :
    popArguments flags success sigs.length 0 (sigs ++ st) =
      if success = false ∧ .nullFail ∈ flags ∧ ∃ sig ∈ sigs, sig ≠ [] then .error .sigNullFail
      else .ok st := by
  induction sigs with
  | nil => simp [popArguments]
  | cons sig sigs ih =>
    rw [length_cons, cons_append, popArguments, ih]
    by_cases hfail : success = false ∧ ScriptFlag.nullFail ∈ flags
    · by_cases hsig : sig = []
      · simp [hsig]
      · simp [hfail, hsig]
    · rw [if_neg (by tauto), if_neg (by tauto), if_neg (by tauto)]

section

variable {kc sc : Bytes} {keys st : List Bytes}
  (hn : readOperandNum flags kc = .ok (keys.length : Int))
  (hm : readOperandNum flags sc = .ok (sigs.length : Int)) (hmn : sigs.length ≤ keys.length)
  (hmax : keys.length ≤ maxPubkeysPerMultisig)

include hn hm hmn hmax

/-- The arguments of the multisig opcode, on a stack that has them and the extra element. -/
theorem multisigArgs_eq {nOpCount : Nat} (hops : nOpCount + keys.length ≤ maxOpsPerScript) :
    multisigArgs flags nOpCount (kc :: (keys ++ sc :: (sigs ++ dummy :: st))) =
      .ok ⟨keys, sigs⟩ := by
  have hint : ∀ k : Nat, k ≤ maxPubkeysPerMultisig → getint (k : Int) = k := by
    intro k hk
    rw [maxPubkeysPerMultisig] at hk
    unfold getint
    omega
  unfold multisigArgs
  dsimp only
  rw [hn]
  change (if _ then _ else _) = _
  rw [hint _ hmax, if_neg (by omega), if_neg (by simp only [Int.toNat_natCast]; omega)]
  simp only [Int.toNat_natCast, drop_left, take_left]
  rw [hm]
  change (if _ then _ else _) = _
  rw [hint _ (by omega), if_neg (by omega), Int.toNat_natCast, if_neg (by simp), take_left]

private theorem evalCheckMultisigOp_eq {sv : SigVersion} {s : EvalState}
    (hstack : s.stack = kc :: (keys ++ sc :: (sigs ++ dummy :: st)))
    (hops : s.nOpCount + keys.length ≤ maxOpsPerScript) : evalCheckMultisigOp flags checker
      sv false s = (do
        let code ← Comp.ofExcept (dropSignatures flags sv sigs s.codehash)
        let success ← checkMultisigLoop checker sv code sigs keys
        let result ← Comp.ofExcept (multisigEnd flags sigs dummy success)
        pure { s with stack := result ++ st, nOpCount := s.nOpCount + keys.length }) := by
  have hpop : ∀ success, popArguments flags success (keys.length + sigs.length + 2)
      (keys.length + 2) (kc :: (keys ++ sc :: (sigs ++ dummy :: st))) =
      if success = false ∧ .nullFail ∈ flags ∧ ∃ sig ∈ sigs, sig ≠ [] then .error .sigNullFail
      else .ok (dummy :: st) := by
    intro success
    rw [← popArguments_sigs flags success sigs (dummy :: st)]
    have h := popArguments_append flags success sigs.length 0 (kc :: (keys ++ [sc]))
      (sigs ++ dummy :: st)
    simpa [add_comm, add_left_comm, add_assoc] using h
  unfold evalCheckMultisigOp
  rw [hstack, multisigArgs_eq hn hm hmn hmax hops, Comp.ofExcept_ok, pure_bind]
  refine bind_congr fun code => bind_congr fun success => ?_
  rw [hpop]
  unfold multisigEnd
  split
  · rfl
  rw [Comp.ofExcept_ok, pure_bind]
  dsimp only
  by_cases hdummy : ScriptFlag.nullDummy ∈ flags ∧ dummy ≠ []
  · have hbad : (decide (ScriptFlag.nullDummy ∉ flags) || dummy.isEmpty) = false := by
      simp [hdummy]
    rw [if_pos hdummy, hbad]
    rfl
  · rw [if_neg hdummy, Comp.require_eq_pure]
    · rfl
    · simp only [not_and_or] at hdummy
      simpa using hdummy

end

/-- Running a multisig script in a witness: the signatures are checked, topmost first, and the
outcome follows from whether all of them found their key. -/
theorem evalScript_getScriptForMultisig (hm : 1 ≤ m) (hmn : m ≤ keys.length)
    (hsize : (getScriptForMultisig m keys).length ≤ maxScriptSize) (hn : keys.length ≤ 16)
    (hkeys : ∀ key ∈ keys, key.isValid) (hsigs : sigs.length = m) :
    evalScript P flags checker .witnessV0 (sigs ++ [dummy]) (getScriptForMultisig m keys) = (do
        let success ← checkMultisigLoop checker .witnessV0 (getScriptForMultisig m keys) sigs
          (keys.map CPubKey.vch).reverse
        Comp.ofExcept (multisigEnd flags sigs dummy success)) := by
  have hmax : maxStackSize = 1000 := rfl
  have hops : maxOpsPerScript = 201 := rfl
  have hcast : ∀ k : Nat, 1 ≤ k → (((k - 1 : Nat) : Int) + 1) = (k : Int) := by omega
  have hread : ∀ k : Nat, 1 ≤ k → k ≤ 16 → readOperandNum flags (serialize (k : Nat)) =
      .ok (k : Int) := by
    intro k hk hk16
    simpa [hcast k hk] using readOperandNum_serialize flags ⟨k - 1, by omega⟩
  have hdrop : ∀ (sigs : List Bytes) code, dropSignatures flags .witnessV0 sigs code =
      .ok code := by
    intro sigs code
    induction sigs with
    | nil => rfl
    | cons sig sigs ih => exact ih
  rw [evalScript, Comp.require_eq_pure (decide_eq_true hsize), pure_bind,
    parse_getScriptForMultisig hm hmn hn hkeys]
  change (evalLoop P flags checker .witnessV0 _ (.running (sigs ++ [dummy]) 0 _) >>= _) = _
  rw [evalLoop, evalInstr_opInt (by omega) (by simp; omega), pure_bind, hcast m hm,
    evalLoop_keyInstrs hkeys (by simp; omega), evalLoop, evalInstr_opInt (by omega)
      (by simp; omega),
    pure_bind, hcast _ (by omega), evalLoop,
    evalInstr_running_switch rfl rfl (by rintro ⟨⟩) (k := 1) rfl (by omega)]
  change ((((evalCheckMultisigOp flags checker .witnessV0 false _) >>= _) >>= _) >>= _) = _
  rw [evalCheckMultisigOp_eq (s := .running (_ :: (_ ++ _ :: (sigs ++ dummy :: []))) 1 _)
    (by simpa using hread keys.length (by omega) hn) (hsigs ▸ hread m hm (by omega))
      (by simp; omega)
    (by simp [maxPubkeysPerMultisig]; omega) rfl (by simp [EvalState.running]; omega)]
  rw [hdrop, Comp.ofExcept_ok]
  simp only [bind_assoc, pure_bind]
  refine bind_congr fun success => ?_
  -- at most one value is left, so the limit on the stack holds and the conditionals are closed
  unfold multisigEnd
  split
  · rfl
  · split
    · rfl
    · rfl

/-! ## What `OP_CHECKMULTISIG` decides

The loop of the opcode is greedy: a signature takes the first key it passes with. Whether all
signatures find their key that way is whether they can be matched with keys in order at all.
-/

/-! ### Matchings in order -/

section Matching

variable {α β : Type} {R : α → β → Prop} {x : α} {y : β} {xs : List α} {ys : List β}

theorem SublistForall₂.length_le (h : SublistForall₂ R xs ys) : xs.length ≤ ys.length := by
  obtain ⟨zs, hzs, hsub⟩ := sublistForall₂_iff.mp h
  exact hzs.length_eq ▸ hsub.length_le

/-- What can be matched can be matched without its first element. -/
theorem SublistForall₂.of_cons (h : SublistForall₂ R (x :: xs) ys) : SublistForall₂ R xs ys := by
  induction ys with
  | nil => cases h
  | cons y ys ih =>
    cases h with
    | cons _ hrest => exact .cons_right hrest
    | cons_right hrest => exact .cons_right (ih hrest)

/-- The first element may take the first partner that it goes with. -/
theorem sublistForall₂_cons_cons_iff [Decidable (R x y)] :
    SublistForall₂ R (x :: xs) (y :: ys) ↔ SublistForall₂ R (if R x y then xs else x :: xs) ys := by
  split
  next hxy =>
    refine ⟨fun h => ?_, fun h => .cons hxy h⟩
    cases h with
    | cons _ hrest => exact hrest
    | cons_right hrest => exact SublistForall₂.of_cons hrest
  next hxy =>
    refine ⟨fun h => ?_, fun h => .cons_right h⟩
    cases h with
    | cons hxy' _ => exact absurd hxy' hxy
    | cons_right hrest => exact hrest

private theorem sublistForall₂_iff_strictMono : SublistForall₂ R xs ys ↔
    ∃ f : Fin xs.length → Fin ys.length, StrictMono f ∧ ∀ i, R (xs.get i) (ys.get (f i)) := by
  rw [sublistForall₂_iff]
  constructor
  · rintro ⟨zs, hzs, hsub⟩
    obtain ⟨f, hf⟩ := sublist_iff_exists_fin_orderEmbedding_get_eq.mp hsub
    obtain ⟨hlength, hget⟩ := forall₂_iff_get.mp hzs
    refine ⟨fun i => f (i.cast hlength), fun i j hij => f.strictMono hij, fun i => ?_⟩
    rw [← hf]
    exact hget i i.2 (hlength ▸ i.2)
  · rintro ⟨f, hmono, hf⟩
    refine ⟨ofFn fun i => ys.get (f i), forall₂_iff_get.mpr ⟨by simp, fun i h₁ h₂ => ?_⟩, ?_⟩
    · simpa using hf ⟨i, h₁⟩
    · rw [sublist_iff_exists_fin_orderEmbedding_get_eq]
      refine ⟨OrderEmbedding.ofStrictMono (fun i => f (i.cast (by simp))) fun i j hij =>
        hmono hij, fun i => ?_⟩
      exact get_ofFn _ i

end Matching

/-! ### The opcode -/

variable {σ : Type} {P : Primitives} {flags : ScriptFlags} {checker : Checker σ} {sv : SigVersion}
  {code : CScript} {ok : Bytes → Bytes → Bool}

/-- The loop finds out whether the signatures can be matched with the keys. -/
theorem checkMultisigLoop_returns
    (hok : ∀ sig key t, (checker.checkSig sig key code sv t).1 = ok sig key)
    (sigs keys : List Bytes) (c : σ) : ∃ b c',
    (checkMultisigLoop checker sv code sigs keys).Returns c b c' ∧
      (b ↔ SublistForall₂ (fun sig key => ok sig key) sigs keys) := by
  -- by induction over the keys: each round uses up one of them
  induction keys generalizing sigs c with
  | nil =>
    cases sigs with
    | nil => exact ⟨true, c, rfl, iff_of_true rfl .nil⟩
    | cons sig sigs => exact ⟨false, c, rfl, iff_of_false Bool.false_ne_true nofun⟩
  | cons key keys ih =>
    cases sigs with
    | nil => exact ⟨true, c, rfl, iff_of_true rfl .nil⟩
    | cons sig sigs =>
      rw [sublistForall₂_cons_cons_iff]
      generalize hleft : (if ok sig key then sigs else sig :: sigs) = left
      obtain ⟨b, c', hrun, hb⟩ := ih left (checker.checkSig sig key code sv c).2
      by_cases hshort : keys.length < left.length
      · refine ⟨false, (checker.checkSig sig key code sv c).2, ?_,
          iff_of_false Bool.false_ne_true fun h => ?_⟩
        · rw [checkMultisigLoop, Comp.returns_bind_iff]
          refine ⟨_, _, rfl, ?_⟩
          rw [hok, hleft, if_pos hshort]
          rfl
        · exact absurd (SublistForall₂.length_le h) (not_le.mpr hshort)
      · refine ⟨b, c', ?_, hb⟩
        rw [checkMultisigLoop, Comp.returns_bind_iff]
        refine ⟨_, _, rfl, ?_⟩
        rwa [hok, hleft, if_neg hshort]

/-- `OP_CHECKMULTISIG` replaces its arguments by whether there is a strictly increasing map from the
signatures to the keys under which every signature passes, unless a flag objects to the arguments.
-/
theorem evalSwitch_checkMultiSig {i : Instr} (hop : i.opcode = .checkMultiSig) {s : EvalState}
    {kc sc dummy : Bytes} {keys sigs st : List Bytes}
    (hstack : s.stack = kc :: (keys ++ sc :: (sigs ++ dummy :: st)))
    (hn : readOperandNum flags kc = .ok (keys.length : Int))
    (hm : readOperandNum flags sc = .ok (sigs.length : Int)) (hmn : sigs.length ≤ keys.length)
    (hmax : keys.length ≤ 20) (hops : s.nOpCount + keys.length ≤ maxOpsPerScript)
    (hcode : dropSignatures flags sv sigs s.codehash = .ok code)
    (hok : ∀ sig key t, (checker.checkSig sig key code sv t).1 = ok sig key)
    (hdummy : .nullDummy ∈ flags → dummy = [])
    (hfail : .nullFail ∈ flags → (∃ f : Fin sigs.length → Fin keys.length, StrictMono f ∧
      ∀ i, ok (sigs.get i) (keys.get (f i)) = true) ∨ ∀ sig ∈ sigs, sig = [])
    (c : σ) :
    ∃ b c', (evalSwitch P flags checker sv i s).Returns c
        { s with stack := boolVch b :: st, nOpCount := s.nOpCount + keys.length } c' ∧
      (b = true ↔ ∃ f : Fin sigs.length → Fin keys.length, StrictMono f ∧
        ∀ i, ok (sigs.get i) (keys.get (f i)) = true) := by
  obtain ⟨b, c', hrun, hb⟩ := checkMultisigLoop_returns hok sigs keys c
  rw [sublistForall₂_iff_strictMono] at hb
  have hend : multisigEnd flags sigs dummy b = .ok [boolVch b] := by
    rw [multisigEnd, if_neg, if_neg]
    · exact fun ⟨hflag, hne⟩ => hne (hdummy hflag)
    rintro ⟨rfl, hflag, sig, hsig, hne⟩
    rcases hfail hflag with hmatch | hempty
    · exact Bool.false_ne_true (hb.mpr hmatch)
    · exact hne (hempty sig hsig)
  refine ⟨b, c', ?_, hb⟩
  rw [evalSwitch, hop]
  rw [evalCheckMultisigOp_eq hn hm hmn hmax hstack hops, hcode, Comp.ofExcept_ok, pure_bind,
    Comp.returns_bind_iff]
  refine ⟨b, c', hrun, ?_⟩
  rw [hend]
  rfl

/-- A checker that passes a signature only with the key that is the same string. -/
def sameChecker : Checker Unit :=
  ⟨fun sig key _ _ c => (sig == key, c), fun _ => false, fun _ => false⟩

/-- Two signatures that are given in the order of their keys, with a third key between them. -/
theorem evalSwitch_checkMultiSig_two : ∃ b c',
    (evalSwitch .repeating ∅ sameChecker .witnessV0 ⟨.checkMultiSig, [], []⟩
    (.running [[3], [7], [8], [9], [2], [7], [9], []] 1 [])).Returns ()
      (.running [boolVch b] 4 []) c' ∧ (b = true ↔ ∃ f : Fin 2 → Fin 3, StrictMono f ∧
        ∀ i, ([[7], [9]].get i == ([[7], [8], [9]] : List Bytes).get (f i)) = true) :=
  evalSwitch_checkMultiSig rfl
    (show _ = [3] :: ([[7], [8], [9]] ++ [2] :: ([[7], [9]] ++ [] :: [])) from rfl)
    (by decide) (by decide) (by decide) (by decide) (by decide) (by rfl) (fun _ _ _ => rfl)
    (fun _ => rfl) (by simp) ()

/-- A signature that passes, but whose push is in a legacy script: with `CONST_SCRIPTCODE` nothing
is pushed. -/
theorem evalSwitch_checkMultiSig_constScriptCode :
    ((evalSwitch .repeating {.constScriptCode} sameChecker .base ⟨.checkMultiSig, [], []⟩
      (.running [[1], [7], [1], [7], []] 1 [1, 7])).exec ()).1 = .error .sigFindAndDelete := by
  decide

end Tessera.Script
