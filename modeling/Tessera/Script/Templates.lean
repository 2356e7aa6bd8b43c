import Tessera.Script.Verify

/-!
# Running script templates

How an instruction runs outside conditionals, and what a run does of the key hash script
`OP_DUP OP_HASH160 <h> OP_EQUALVERIFY OP_CHECKSIG`, which legacy outputs and witness key hash
programs share, of the script hash script `OP_HASH160 <h> OP_EQUAL`, and of scripts that only push.
-/

namespace Tessera.Script

open Lib Comp List

variable {σ : Type} {P : Primitives} {flags : ScriptFlags} {checker : Checker σ} {sv : SigVersion}

/-! ### Instructions outside conditionals -/

/-- A state outside conditionals with an empty alt stack, which is where the templates stay. -/
def EvalState.running (stack : List Bytes) (n : Nat) (code : CScript) : EvalState :=
  ⟨stack, [], .init, n, code⟩

variable {op : Opcode} {data pc code h : Bytes} {stack st : List Bytes} {n : Nat}
  {s' : EvalState} {c c' : σ}

theorem Opcode.hasOperand_pushOpcode (n : Nat) : (pushOpcode n).hasOperand := by
  have hbytes : ∀ k : Fin 76, (pushBytes k).hasOperand := by decide
  unfold pushOpcode
  split
  · exact hbytes _
  · split
    · rfl
    · split <;> rfl

/-- An opcode with an operand is neither counted nor refused. -/
theorem Opcode.of_hasOperand (h : op.hasOperand) :
    op.isCounted = false ∧ op.isDisabled = false ∧ op ≠ .codeSeparator := by
  have hle : op.toByte ≤ 0x4e := by simpa [hasOperand] using h
  refine ⟨decide_eq_false (UInt8.not_lt.mpr (UInt8.le_trans hle (by decide))), ?_, ?_⟩
  · revert hle
    cases op <;> first | exact fun _ => rfl | decide
  · rintro rfl
    exact absurd h (by decide)

/-- A push of two bytes or more is minimal with the opcode for its length. -/
theorem checkMinimalPush_pushOpcode (h2 : 2 ≤ data.length) :
    checkMinimalPush data (pushOpcode data.length) := by
  have hbytes : ∀ k : Fin 76, (Opcode.pushBytes k).toByte.toNat = k.val := by decide
  unfold checkMinimalPush pushOpcode
  split
  · simp at h2
  · simp at h2
  split
  next h75 => rw [dif_pos (Nat.lt_succ_of_le h75), hbytes, beq_self_eq_true]
  next h75 =>
    rw [dif_neg (by omega)]
    split
    · rfl
    · split <;> rfl

private theorem evalInstr_running_push (hop : op.hasOperand)
    (hdata : data.length ≤ maxElementSize sv) (hmin : checkMinimalPush data op) :
    evalInstr P flags checker sv ⟨op, data, pc⟩ (.running stack n code) = (do
        require (stack.length + 1 ≤ maxStackSize) .stackSize
        pure (.running (data :: stack) n code)) := by
  obtain ⟨hcount, hdis, hsep⟩ := Opcode.of_hasOperand hop
  have hpre : preCheck flags sv ⟨op, data, pc⟩ (.running stack n code) =
      .ok (.running stack n code) := by
    simp [preCheck, hcount, hdis, hsep, not_lt.mpr hdata]
  have hdisp : dispatch P flags checker sv ⟨op, data, pc⟩ (.running stack n code) =
      pure (.running (data :: stack) n code) := by
    rw [dispatch, if_pos ⟨rfl, hop⟩, hmin, Bool.or_true]
    rfl
  rw [evalInstr, hpre, ofExcept_ok, pure_bind, hdisp]
  rfl

theorem evalInstr_running_push_eq (hop : op.hasOperand) (hdata : data.length ≤ maxElementSize sv)
    (hmin : checkMinimalPush data op) (hroom : stack.length + 1 ≤ maxStackSize) :
    evalInstr P flags checker sv ⟨op, data, pc⟩ (.running stack n code) =
      pure (.running (data :: stack) n code) := by
  rw [evalInstr_running_push hop hdata hmin, require_eq_pure (decide_eq_true hroom), pure_bind]

/-- An opcode that takes its operands from the stack runs its case of the `switch`. -/
theorem evalInstr_running_switch {k : Nat} (hop : op.hasOperand = false)
    (hdis : op.isDisabled = false) (hsep : op ≠ .codeSeparator)
    (hk : k = if op.isCounted then n + 1 else n) (hops : k ≤ maxOpsPerScript) :
    evalInstr P flags checker sv ⟨op, [], pc⟩ (.running stack n code) = (do
        let s ← evalSwitch P flags checker sv ⟨op, [], pc⟩ (.running stack k code)
        require (s.stack.length + s.altstack.length ≤ maxStackSize) .stackSize
        pure s) := by
  have hpre : preCheck flags sv ⟨op, [], pc⟩ (.running stack n code) =
      .ok (.running stack k code) := by
    have hops' : ¬ maxOpsPerScript < k := by omega
    simp [preCheck, hdis, hsep, EvalState.running, ← hk, hops']
  have hdisp : dispatch P flags checker sv ⟨op, [], pc⟩ (.running stack k code) =
      evalSwitch P flags checker sv ⟨op, [], pc⟩ (.running stack k code) := by
    rw [dispatch, if_neg (by simp [hop]), if_pos (.inl rfl)]
  rw [evalInstr, hpre, ofExcept_ok, pure_bind, hdisp]

/-- An instruction whose case of the `switch` is a function of the stack. -/
theorem evalInstr_running_stack {f : List Bytes → Except ScriptError (List Bytes)}
    (hops : n + 1 ≤ maxOpsPerScript) (hop : op.hasOperand = false) (hcount : op.isCounted)
    (hdis : op.isDisabled = false) (hsep : op ≠ .codeSeparator)
    (hswitch : ∀ s : EvalState, evalSwitch P flags checker sv ⟨op, [], pc⟩ s =
      ofExcept (s.withStack <$> f s.stack)) :
    (evalInstr P flags checker sv ⟨op, [], pc⟩ (.running stack n code)).Returns c s' c' ↔
      ∃ st, f stack = .ok st ∧ st.length ≤ maxStackSize ∧ s' = .running st
        (n + 1) code ∧ c' = c := by
  rw [evalInstr_running_switch hop hdis hsep (if_pos hcount).symm hops, hswitch]
  simp only [returns_bind_iff, returns_ofExcept_iff, except_map_eq_ok_iff, returns_require_iff,
    returns_pure_iff, decide_eq_true_eq]
  constructor
  · rintro ⟨_, _, ⟨⟨st, hst, rfl⟩, rfl⟩, _, _, ⟨hlen, rfl⟩, rfl, rfl⟩
    exact ⟨st, hst, hlen, rfl, rfl⟩
  · rintro ⟨st, hst, hlen, rfl, rfl⟩
    exact ⟨_, _, ⟨⟨st, hst, rfl⟩, rfl⟩, (), _, ⟨hlen, rfl⟩, rfl, rfl⟩

/-! ### The key hash script -/

/-- The instructions of a key hash script. -/
theorem parse_payToPubkeyHashScript (hlen : h.length = witnessV0KeyHashSize) :
      parse (payToPubkeyHashScript h) = ([⟨.dup, [], 0xa9 :: (pushData h ++ [0x88, 0xac])⟩,
        ⟨.hash160, [], pushData h ++ [0x88, 0xac]⟩,
        ⟨.pushBytes 20, h, [0x88, 0xac]⟩, ⟨.equalVerify, [], [0xac]⟩, ⟨.checkSig, [], []⟩],
        none) := by
  have hsize : h.length < 2 ^ 32 := by rw [hlen]; decide
  have hdup := getScriptOp_op (show Opcode.dup.hasOperand = false by decide)
    (0xa9 :: (pushData h ++ [0x88, 0xac]))
  have hhash := getScriptOp_op (show Opcode.hash160.hasOperand = false by decide)
    (pushData h ++ [0x88, 0xac])
  have hpush := getScriptOp_pushData hsize [0x88, 0xac]
  rw [hlen] at hpush
  change parse (Opcode.dup.toByte :: 0xa9 :: (pushData h ++ [0x88, 0xac])) = _
  rw [parse_of_some hdup]
  rw [show (0xa9 : UInt8) = Opcode.hash160.toByte from rfl, parse_of_some hhash,
    parse_of_some hpush]
  rfl

section

variable (hops : n + 1 ≤ maxOpsPerScript)

include hops

private theorem evalInstr_dup :
    (evalInstr P flags checker sv ⟨.dup, [], pc⟩ (.running stack n code)).Returns c s' c' ↔
      ∃ x st, stack = x :: st ∧ st.length + 2 ≤ maxStackSize ∧
        s' = .running (x :: x :: st) (n + 1) code ∧ c' = c := by
  rw [evalInstr_running_stack (f := fun stack => match stack with
    | x :: st => .ok (x :: x :: st)
    | [] => .error .invalidStackOperation) hops rfl rfl rfl (by rintro ⟨⟩) ?_]
  · cases stack with
    | nil => simp
    | cons x st =>
      simp only [Except.ok.injEq, exists_eq_left', length_cons, List.cons.injEq,
        ↓existsAndEq, and_true]
  · intro s
    cases hstack : s.stack <;> simp [evalSwitch, evalOp, shuffle, hstack]

private theorem evalInstr_hash160 :
    (evalInstr P flags checker sv ⟨.hash160, [], pc⟩ (.running stack n code)).Returns c s' c' ↔
      ∃ x st, stack = x :: st ∧ st.length + 1 ≤ maxStackSize ∧
        s' = .running ((hash160 P x).data :: st) (n + 1) code ∧ c' = c := by
  rw [evalInstr_running_stack (f := evalHash P .hash160) hops rfl rfl rfl
    (by rintro ⟨⟩) fun s => rfl]
  cases stack with
  | nil => simp [evalHash]
  | cons x st => simp [evalHash]

private theorem evalInstr_equalVerify :
    (evalInstr P flags checker sv ⟨.equalVerify, [], pc⟩ (.running stack n code)).Returns c s' c' ↔
      ∃ x st, stack = x :: x :: st ∧ st.length ≤ maxStackSize ∧ s' = .running st
        (n + 1) code ∧ c' = c := by
  rw [evalInstr_running_stack (f := evalEqual true) hops rfl rfl rfl (by rintro ⟨⟩) fun s => rfl]
  match stack with
  | [] | [_] => simp [evalEqual]
  | y :: x :: st =>
    by_cases hxy : x = y
    · subst hxy
      simp [evalEqual, pushResult]
    · simp [evalEqual, pushResult, hxy]

private theorem evalInstr_checkSig :
    (evalInstr P flags checker sv ⟨.checkSig, [], pc⟩ (.running stack n code)).Returns c s' c' ↔
      ∃ pubkey sig st success, stack = pubkey :: sig :: st ∧ st.length + 1 ≤ maxStackSize ∧
        (evalChecksig flags checker sv sig pubkey code).Returns c success c' ∧
        s' = .running (boolVch success :: st) (n + 1) code := by
  rw [evalInstr_running_switch (k := n + 1) rfl rfl (by rintro ⟨⟩) rfl hops]
  match stack with
  | [] | [_] => simp [evalSwitch, evalCheckSigOp, EvalState.running]
  | pubkey :: sig :: st =>
    simp only [evalSwitch, evalCheckSigOp, EvalState.running, pushResult, returns_bind_iff,
      returns_require_iff, returns_ofExcept_iff, returns_pure_iff, decide_eq_true_eq]
    constructor
    · rintro ⟨_, _, ⟨success, _, hsig, _, _, ⟨hst, rfl⟩, rfl, rfl⟩, _, _, ⟨hlen, rfl⟩, rfl, rfl⟩
      cases hst
      exact ⟨pubkey, sig, st, success, rfl, hlen, hsig, rfl⟩
    · rintro ⟨_, _, _, success, hcons, hlen, hsig, rfl⟩
      cases hcons
      exact ⟨_, _, ⟨success, c', hsig, _, c', ⟨rfl, rfl⟩, rfl, rfl⟩, (), _, ⟨hlen, rfl⟩, rfl, rfl⟩

end

private theorem evalInstr_twenty (hlen : h.length = 20) :
    (evalInstr P flags checker sv ⟨.pushBytes 20, h, pc⟩ (.running stack n code)).Returns c s' c' ↔
      stack.length + 1 ≤ maxStackSize ∧ s' = .running (h :: stack) n code ∧ c' = c := by
  have hmin := checkMinimalPush_pushOpcode (show 2 ≤ h.length by omega)
  have hdata : h.length ≤ maxElementSize sv := by
    rw [hlen]
    cases sv <;> decide
  rw [hlen] at hmin
  rw [evalInstr_running_push (show (Opcode.pushBytes 20).hasOperand from rfl) hdata hmin]
  simp only [returns_bind_iff, returns_require_iff, returns_pure_iff]
  grind

/-- A run of a key hash script compares the hash of the key on top of the stack and then checks the
signature below it. -/
theorem evalScript_payToPubkeyHashScript (hlen : h.length = witnessV0KeyHashSize) :
    (evalScript P flags checker sv stack (payToPubkeyHashScript h)).Returns c st c' ↔
      ∃ pubkey sig rest success, stack = pubkey :: sig :: rest ∧ stack.length + 2 ≤ maxStackSize ∧
        (hash160 P pubkey).data = h ∧
        (evalChecksig flags checker sv sig pubkey (payToPubkeyHashScript h)).Returns c success c' ∧
        st = boolVch success :: rest := by
  have hsize : (payToPubkeyHashScript h).length ≤ maxScriptSize := by
    simp [payToPubkeyHashScript, pushData, appendDataSize, hlen, witnessV0KeyHashSize,
      maxScriptSize]
  unfold evalScript
  rw [parse_payToPubkeyHashScript hlen]
  simp only [evalLoop, returns_bind_iff, returns_require_iff, returns_pure_iff, decide_eq_true_eq]
  constructor
  · rintro ⟨_, _, ⟨-, rfl⟩, s, _, ⟨s₁, c₁, h₁, s₂, c₂, h₂, s₃, c₃, h₃, s₄, c₄, h₄, s₅, c₅, h₅, rfl,
      rfl⟩, _, _, ⟨-, rfl⟩, _, _, ⟨-, rfl⟩, rfl, rfl⟩
    -- run the five instructions one after another
    obtain ⟨pubkey, rest₁, rfl, -, rfl, rfl⟩ := (evalInstr_dup (by decide)).mp h₁
    obtain ⟨_, _, hcons, -, rfl, rfl⟩ := (evalInstr_hash160 (by decide)).mp h₂
    cases hcons
    obtain ⟨hroom, rfl, rfl⟩ := (evalInstr_twenty hlen).mp h₃
    obtain ⟨_, _, hcons, -, rfl, rfl⟩ := (evalInstr_equalVerify (by decide)).mp h₄
    simp only [cons.injEq] at hcons
    obtain ⟨rfl, hhash, rfl⟩ := hcons
    obtain ⟨_, sig, rest, success, hcons, -, hsig, rfl⟩ := (evalInstr_checkSig (by decide)).mp h₅
    cases hcons
    refine ⟨pubkey, sig, rest, success, rfl, ?_, hhash, hsig, rfl⟩
    omega
  · rintro ⟨pubkey, sig, rest, success, rfl, hroom, rfl, hsig, rfl⟩
    refine ⟨(), c, ⟨hsize, rfl⟩, .running (boolVch success :: rest) 4 _, c', ⟨_, c,
      (evalInstr_dup (by decide)).mpr ⟨pubkey, sig :: rest, rfl, ?_, rfl, rfl⟩, _, c,
      (evalInstr_hash160 (by decide)).mpr ⟨pubkey, pubkey :: sig :: rest, rfl, ?_, rfl, rfl⟩, _, c,
      (evalInstr_twenty hlen).mpr ⟨?_, rfl, rfl⟩, _, c,
      (evalInstr_equalVerify (by decide)).mpr ⟨_, pubkey :: sig :: rest, rfl, ?_, rfl, rfl⟩, _, c',
      (evalInstr_checkSig (by decide)).mpr ⟨pubkey, sig, rest, success, rfl, ?_, hsig, rfl⟩,
      rfl, rfl⟩, (), c', ⟨rfl, rfl⟩, (), c', ⟨rfl, rfl⟩, rfl, rfl⟩
    all_goals grind

/-! ### The script hash script -/

/-- `OP_HASH160 <h> OP_EQUAL`. -/
def payToScriptHashScript (h : Bytes) : CScript := [0xa9] ++ pushData h ++ [0x87]

private theorem parse_payToScriptHashScript (hlen : h.length = 20) :
      parse (payToScriptHashScript h) =
        ([⟨.hash160, [], pushData h ++ [0x87]⟩, ⟨.pushBytes 20, h, [0x87]⟩, ⟨.equal, [], []⟩],
        none) := by
  have hsize : h.length < 2 ^ 32 := by rw [hlen]; decide
  have hhash := getScriptOp_op (show Opcode.hash160.hasOperand = false by decide)
    (pushData h ++ [0x87])
  have hpush := getScriptOp_pushData hsize [0x87]
  rw [hlen] at hpush
  change parse (Opcode.hash160.toByte :: (pushData h ++ [0x87])) = _
  rw [parse_of_some hhash, parse_of_some hpush]
  rfl

theorem pushData_short (hlen : h.length ≤ 75) : pushData h = UInt8.ofNat h.length :: h := by
  simp [pushData, appendDataSize, show h.length < 76 by omega]

theorem pushData_twenty (hlen : h.length = 20) : pushData h = 20 :: h := by
  rw [pushData_short (by omega), hlen]
  rfl

theorem isPayToScriptHash_payToScriptHashScript (hlen : h.length = 20) :
    isPayToScriptHash (payToScriptHashScript h) := by
  simp [payToScriptHashScript, isPayToScriptHash, pushData_twenty hlen, hlen]

private theorem evalInstr_equal {x y : Bytes} (hops : n + 1 ≤ maxOpsPerScript) :
    (evalInstr P flags checker sv ⟨.equal, [], pc⟩ (.running (y :: x :: st) n code)).Returns
        c s' c' ↔
      st.length + 1 ≤ maxStackSize ∧ s' = .running (boolVch (x == y) :: st)
        (n + 1) code ∧ c' = c := by
  rw [evalInstr_running_stack (f := evalEqual false) hops rfl rfl rfl (by rintro ⟨⟩) fun s => rfl]
  simp [evalEqual, pushResult]

/-- A run of a script hash script compares the hash of the top of the stack. -/
theorem evalScript_payToScriptHashScript (hlen : h.length = 20) :
    (evalScript P flags checker sv stack (payToScriptHashScript h)).Returns c st c' ↔
      ∃ x rest, stack = x :: rest ∧ stack.length + 1 ≤ maxStackSize ∧
        st = boolVch ((hash160 P x).data == h) :: rest ∧ c' = c := by
  have hsize : (payToScriptHashScript h).length ≤ maxScriptSize := by
    simp [payToScriptHashScript, pushData, appendDataSize, hlen, maxScriptSize]
  unfold evalScript
  rw [parse_payToScriptHashScript hlen]
  simp only [evalLoop, returns_bind_iff, returns_require_iff, returns_pure_iff, decide_eq_true_eq]
  constructor
  · rintro ⟨_, _, ⟨-, rfl⟩, s, _, ⟨s₁, c₁, h₁, s₂, c₂, h₂, s₃, c₃, h₃, rfl, rfl⟩, _, _,
      ⟨-, rfl⟩, _, _, ⟨-, rfl⟩, rfl, rfl⟩
    obtain ⟨x, rest, rfl, -, rfl, rfl⟩ := (evalInstr_hash160 (by decide)).mp h₁
    obtain ⟨hroom, rfl, rfl⟩ := (evalInstr_twenty hlen).mp h₂
    obtain ⟨-, rfl, rfl⟩ := (evalInstr_equal (by decide)).mp h₃
    exact ⟨x, rest, rfl, hroom, rfl, rfl⟩
  · rintro ⟨x, rest, rfl, hroom, rfl, rfl⟩
    refine ⟨(), c', ⟨hsize, rfl⟩, .running (boolVch ((hash160 P x).data == h) :: rest) 2
      _, c', ⟨_, c', (evalInstr_hash160 (by decide)).mpr ⟨x, rest, rfl, ?_, rfl, rfl⟩, _, c',
      (evalInstr_twenty hlen).mpr ⟨?_, rfl, rfl⟩, _, c',
      (evalInstr_equal (by decide)).mpr ⟨?_, rfl, rfl⟩, rfl, rfl⟩, (), c', ⟨rfl, rfl⟩, (), c',
      ⟨rfl, rfl⟩, rfl, rfl⟩
    all_goals grind

/-! ### Scripts that only push -/

/-- A script that pushes data a number of times. -/
def pushes (data : Bytes) : Nat → CScript
  | 0 => []
  | k + 1 => pushData data ++ pushes data k

section Pushes

variable (hlen : data.length = 520)

include hlen

theorem length_pushes (k : Nat) : (pushes data k).length = 523 * k := by
  induction k with
  | zero => rfl
  | succ k ih =>
    have hpush : (pushData data).length = 523 := by
      rw [pushData, length_append, hlen]
      rfl
    rw [pushes, length_append, ih]
    omega

theorem head?_pushes (k : Nat) : (pushes data (k + 1)).head? = some 0x4d := by
  rw [pushes, pushData, hlen]
  rfl

private theorem parse_pushes (k : Nat) : parse (pushes data (k + 1)) =
    (⟨.pushData2, data, pushes data k⟩ :: (parse (pushes data k)).1,
      (parse (pushes data k)).2) := by
  have hop := getScriptOp_pushData (by rw [hlen]; decide) (pushes data k)
  rw [hlen] at hop
  exact parse_of_some hop

private theorem parse_pushes_snd (k : Nat) : (parse (pushes data k)).2 = none := by
  induction k with
  | zero => rfl
  | succ k ih => rw [parse_pushes hlen, ih]

variable {k : Nat}

private theorem evalLoop_pushes {stack : List Bytes} {code : CScript}
    (h : stack.length + k ≤ maxStackSize) :
    evalLoop P flags checker .base (parse (pushes data k)).1 (.running stack 0 code) =
      pure (.running (replicate k data ++ stack) 0 code) := by
  induction k generalizing stack with
  | zero => rfl
  | succ k ih =>
    have hmin := checkMinimalPush_pushOpcode (show 2 ≤ data.length by omega)
    rw [hlen] at hmin
    rw [parse_pushes hlen, evalLoop,
      evalInstr_running_push_eq (show Opcode.pushData2.hasOperand from rfl)
      (by rw [hlen]; decide) hmin (by omega), pure_bind, ih (by rw [length_cons]; omega),
      replicate_succ', append_assoc, singleton_append]

private theorem evalScript_pushes (h : k ≤ 19) :
    evalScript P flags checker .base [] (pushes data k) = pure (replicate k data) := by
  have hsize : (pushes data k).length ≤ maxScriptSize := by
    rw [length_pushes hlen]
    exact (Nat.mul_le_mul_left 523 h).trans (by decide)
  have hstack : ([] : List Bytes).length + k ≤ maxStackSize := by
    rw [length_nil, zero_add]
    exact h.trans (by decide)
  have hinit : EvalState.init [] (pushes data k) = .running [] 0 (pushes data k) := rfl
  rw [evalScript, decide_eq_true hsize, hinit, evalLoop_pushes hlen hstack,
    parse_pushes_snd hlen, append_nil]
  rfl

/-- An empty script spends the pushes, under any rules that the blocks of a chain are checked with.
-/
theorem verifyScript_pushes (htrue : castToBool data) (hpush : .sigPushOnly ∉ flags)
    (hclean : .cleanStack ∉ flags) (hp2sh : .p2sh ∈ flags) (h : k ≤ 18) :
    verifyScript P flags checker [] (pushes data (k + 1)) [] = pure () := by
  have hlong : 523 ≤ (pushes data (k + 1)).length := by
    rw [length_pushes hlen]
    omega
  have hempty : evalScript P flags checker .base [] [] = pure [] := rfl
  have hstage : verifyWitnessStage P flags checker (pushes data (k + 1)) false
      .witnessMalleated [] false
      (data :: replicate k data) = pure (false, data :: replicate k data) := by
    rw [verifyWitnessStage, isWitnessProgram_of_length (by omega)]
    exact ite_self _
  have hrequire : requireTrue (data :: replicate k data) = (pure () : Comp ScriptError σ Unit) := by
    rw [requireTrue, htrue]
    rfl
  have hscriptHash : isPayToScriptHash (pushes data (k + 1)) = false :=
    isPayToScriptHash_of_length (by omega)
  rw [verifyScript, hempty]
  simp only [pure_bind, evalScript_pushes hlen (Nat.succ_le_succ h), replicate_succ, hrequire,
    isEmpty_nil, Bool.not_true, hstage, verifyScriptHashStage, hscriptHash, verifyEnd,
    hpush, hclean, hp2sh]
  simp
  rfl

end Pushes

end Tessera.Script
