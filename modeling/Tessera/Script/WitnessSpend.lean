import Tessera.Script.Solver

/-!
# Spending witness outputs

Verifying an input that spends a version 0 witness program with an empty `scriptSig`, or one wrapped
in a pay-to-script-hash output, comes down to `VerifyWitnessProgram`.
-/

namespace Tessera.Script

open Lib

variable {stack : List Bytes} {program : Bytes}

/-- `OP_0 <program>`. -/
def witnessProgramScript (program : Bytes) : CScript := [0x00] ++ pushData program

variable {σ : Type} {P : Primitives} {flags : ScriptFlags} {checker : Checker σ} {sv : SigVersion}

/-! ### Short pushes -/

variable {data : Bytes}

private theorem evalInstr_short {pc code : Bytes} {n : Nat}
    (h2 : 2 ≤ data.length) (h75 : data.length ≤ 75) (hroom : stack.length + 1 ≤ maxStackSize) :
    evalInstr P flags checker sv ⟨pushOpcode data.length, data, pc⟩ (.running stack n code) =
      pure (.running (data :: stack) n code) := by
  have hdata : data.length ≤ maxElementSize sv := by
    have hbase : 75 ≤ maxElementSize sv := by cases sv <;> decide
    omega
  exact evalInstr_running_push_eq (Opcode.hasOperand_pushOpcode _) hdata
    (checkMinimalPush_pushOpcode h2) hroom

private theorem parse_pushData (h : data.length ≤ 75) :
    parse (pushData data) = ([⟨pushOpcode data.length, data, []⟩], none) := by
  have hpush := getScriptOp_pushData (show data.length < 2 ^ 32 by omega) []
  rw [List.append_nil] at hpush
  rw [parse_of_some hpush]
  rfl

private theorem evalScript_nil (stack : List Bytes) : evalScript P flags checker sv stack [] =
    pure stack := rfl

private theorem evalScript_pushData (h2 : 2 ≤ data.length)
    (h75 : data.length ≤ 75) (hroom : stack.length + 1 ≤ maxStackSize) :
    evalScript P flags checker sv stack (pushData data) = pure (data :: stack) := by
  have hsize : (pushData data).length ≤ maxScriptSize := by
    rw [pushData_short h75]
    exact le_trans (Nat.succ_le_succ h75) (by decide)
  rw [evalScript, Comp.require_eq_pure (decide_eq_true hsize), pure_bind, parse_pushData h75]
  change (evalLoop P flags checker sv _ (.running stack 0 _) >>= _) = _
  rw [evalLoop, evalInstr_short h2 h75 hroom]
  rfl

/-! ### Witness programs as scripts -/

/-- The size of a version 0 program: a key hash or a script hash. -/
def ProgramSize (program : Bytes) : Prop := program.length = 20 ∨ program.length = 32

section Program

private theorem isWitnessProgram_witnessProgramScript (h : ProgramSize program) :
    isWitnessProgram (witnessProgramScript program) = some (0, program) := by
  refine isWitnessProgram_eq_some_iff.mpr ⟨⟨Nat.zero_le _, ?_⟩, rfl⟩
  rcases h with h | h <;> omega

theorem isPayToScriptHash_witnessProgramScript (program : Bytes) :
    isPayToScriptHash (witnessProgramScript program) = false := by
  simp [isPayToScriptHash, witnessProgramScript]

theorem solver_scriptHashProgram (hash : Uint256) :
    solver (witnessProgramScript hash.data) = .witnessV0Scripthash hash := by
  rw [solver_of_isWitnessProgram (isWitnessProgram_witnessProgramScript (.inr hash.size_eq))]
  simp [solveWitnessProgram, hash.size_eq, witnessV0KeyHashSize, witnessV0ScriptHashSize]

theorem solver_keyHashProgram (hash : Uint160) :
    solver (witnessProgramScript hash.data) = .witnessV0Keyhash hash := by
  rw [solver_of_isWitnessProgram (isWitnessProgram_witnessProgramScript (.inl hash.size_eq))]
  simp [solveWitnessProgram, hash.size_eq, witnessV0KeyHashSize]

/-- Running a witness program as a script pushes its two parts. -/
theorem evalScript_witnessProgramScript (h : ProgramSize program)
    (hroom : stack.length + 2 ≤ maxStackSize) :
    evalScript P flags checker sv stack (witnessProgramScript program) =
      pure (program :: [] :: stack) := by
  have h2 : 2 ≤ program.length := by rcases h with h | h <;> omega
  have h75 : program.length ≤ 75 := by rcases h with h | h <;> omega
  have hsize : (witnessProgramScript program).length ≤ maxScriptSize := by
    rw [witnessProgramScript, pushData_short h75]
    rcases h with h | h <;> simp [h, maxScriptSize]
  have hparse : parse (witnessProgramScript program) =
      ([⟨.pushBytes 0, [], pushData program⟩, ⟨pushOpcode program.length, program, []⟩], none) := by
    have hzero : getScriptOp (0x00 :: pushData program) =
      (some (.pushBytes 0, []), pushData program) := rfl
    change parse (0x00 :: pushData program) = _
    rw [parse_of_some hzero, parse_pushData h75]
  rw [evalScript, Comp.require_eq_pure (decide_eq_true hsize), pure_bind, hparse]
  change (evalLoop P flags checker sv _ (.running stack 0 _) >>= _) = _
  rw [evalLoop, evalInstr_running_push_eq rfl (Nat.zero_le _) rfl (by omega),
    pure_bind, evalLoop, evalInstr_short h2 h75 (by rw [List.length_cons]; omega)]
  rfl

end Program

/-! ### Verification -/

theorem requireTrue_eq_pure {x : Bytes} {st : List Bytes} (h : castToBool x) :
    (requireTrue (x :: st) : Comp ScriptError σ Unit) = pure () := by
  exact Comp.require_eq_pure h _

private theorem verifyWitnessStage_program (h : ProgramSize program)
    (e : ScriptError) (witness : CScriptWitness) (stack : List Bytes) :
    verifyWitnessStage P standardScriptVerifyFlags checker (witnessProgramScript program) false e
        witness false stack = (do
        verifyWitnessProgram P standardScriptVerifyFlags checker witness 0 program
        pure (true, keepBottom stack)) := by
  rw [verifyWitnessStage, isWitnessProgram_witnessProgramScript h]
  rfl

/-- Spending a witness program with an empty `scriptSig`: the program has to be true as a value of
the stack, and the witness has to satisfy it. -/
theorem verifyScript_witnessProgram_eq (h : ProgramSize program) (witness : CScriptWitness) :
    verifyScript P standardScriptVerifyFlags checker [] (witnessProgramScript program) witness = (do
        requireTrue [program, []]
        verifyWitnessProgram P standardScriptVerifyFlags checker witness 0 program) := by
  have hsh : ¬ (ScriptFlag.p2sh ∈ standardScriptVerifyFlags ∧
      isPayToScriptHash (witnessProgramScript program)) := by
    simp [isPayToScriptHash_witnessProgramScript]
  rw [verifyScript, Comp.require_eq_pure (by decide), pure_bind, evalScript_nil, pure_bind,
    evalScript_witnessProgramScript h (by decide), pure_bind]
  refine bind_congr fun _ => ?_
  change (verifyWitnessStage _ _ _ _ false _ _ _ _ >>= _) = _
  rw [verifyWitnessStage_program h, bind_assoc]
  simp only [pure_bind, verifyScriptHashStage, if_neg hsh]
  -- the stack is cut to the empty value that `OP_0` left, which is all that is checked of it
  exact bind_pure_unit

/-- The same for a witness program wrapped in a script hash output. -/
theorem verifyScript_wrappedProgram_eq (h : ProgramSize program) (witness : CScriptWitness) :
    verifyScript P standardScriptVerifyFlags checker (pushData (witnessProgramScript program))
        (payToScriptHashScript (hash160 P (witnessProgramScript program)).data) witness = (do
        requireTrue [program, []]
        verifyWitnessProgram P standardScriptVerifyFlags checker witness 0 program) := by
  have hlen : (witnessProgramScript program).length ≤ 75 ∧
      2 ≤ (witnessProgramScript program).length := by
    have h75 : program.length ≤ 75 := by rcases h with h | h <;> omega
    rw [witnessProgramScript, pushData_short h75]
    rcases h with h | h <;> simp [h]
  have hredeem : ∀ {stack : List Bytes}, stack.length + 1 ≤ maxStackSize →
      evalScript P standardScriptVerifyFlags checker .base stack
        (pushData (witnessProgramScript program)) = pure (witnessProgramScript program :: stack) :=
    fun hroom => evalScript_pushData hlen.2 hlen.1 hroom
  generalize hscript : witnessProgramScript program = redeem at hlen hredeem ⊢
  have hhash := (hash160 P redeem).size_eq
  have hpush : isPushOnly (pushData redeem) := by
    simp [isPushOnly, parse_pushData hlen.1,
      (Opcode.of_hasOperand (Opcode.hasOperand_pushOpcode _)).1]
  have hp2sh : evalScript P standardScriptVerifyFlags checker .base [redeem]
      (payToScriptHashScript (hash160 P redeem).data) = pure [[1]] := by
    refine Comp.eq_pure_of_returns fun c => (evalScript_payToScriptHashScript hhash).mpr ?_
    exact ⟨redeem, [], rfl, by simp [maxStackSize], by simp [boolVch], rfl⟩
  have hnot : isWitnessProgram (payToScriptHashScript (hash160 P redeem).data) = none := by
    have h20 := pushData_short (show (hash160 P redeem).data.length ≤ 75 by omega)
    rw [payToScriptHashScript, h20]
    simp [isWitnessProgram]
  rw [verifyScript, Comp.require_eq_pure (by simp [hpush]), pure_bind,
    hredeem (by decide), pure_bind,
    hp2sh, pure_bind, requireTrue_eq_pure rfl, pure_bind, verifyWitnessStage,
      if_pos (by decide), hnot]
  rw [pure_bind, verifyScriptHashStage,
    if_pos ⟨by decide, isPayToScriptHash_payToScriptHashScript hhash⟩, verifyScriptHash,
    Comp.require_eq_pure hpush, pure_bind]
  rw [← hscript, evalScript_witnessProgramScript h (by decide), pure_bind, bne_self_eq_false,
    verifyWitnessStage_program h, bind_assoc]
  refine bind_congr fun _ => ?_
  rw [bind_assoc]
  exact bind_pure_unit

theorem verifyScript_witnessProgram (h : ProgramSize program) (htrue : castToBool program)
    (witness : CScriptWitness) :
    verifyScript P standardScriptVerifyFlags checker [] (witnessProgramScript program) witness =
      verifyWitnessProgram P standardScriptVerifyFlags checker witness 0 program := by
  rw [verifyScript_witnessProgram_eq h, requireTrue_eq_pure htrue, pure_bind]

end Tessera.Script
