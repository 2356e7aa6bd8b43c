import Tessera.Script.Interpreter

/-!
# Script verification

`VerifyScript` of `script/interpreter.cpp` with its witness and pay-to-script-hash stages, and the
static count of witness signature operations.
-/

namespace Tessera.Script

open Lib

/-- `CScriptWitness`: the witness stack, bottom element first. -/
abbrev CScriptWitness := List Bytes

def witnessV0ScriptHashSize : Nat := 32

def witnessV0KeyHashSize : Nat := 20

/-- `OP_DUP OP_HASH160 <h> OP_EQUALVERIFY OP_CHECKSIG`. -/
def payToPubkeyHashScript (h : Bytes) : CScript := [0x76, 0xa9] ++ pushData h ++ [0x88, 0xac]

/-- `std::vector::resize(1)` on a nonempty stack keeps its bottom element. -/
def keepBottom (stack : List Bytes) : List Bytes := stack.drop (stack.length - 1)

variable {σ : Type} (P : Primitives) (flags : ScriptFlags) (checker : Checker σ)

/-- The stack must be nonempty with a true element on top. -/
def requireTrue (stack : List Bytes) : Comp ScriptError σ Unit :=
  match stack with
  | [] => throw .evalFalse
  | x :: _ => Comp.require (castToBool x) .evalFalse

def executeWitnessScript (stack : CScriptWitness) (script : CScript) : Comp ScriptError σ Unit := do
  Comp.require (stack.all fun elem => elem.length ≤ maxWitnessItem) .pushSize
  let st ← evalScript P flags checker .witnessV0 stack.reverse script
  -- scripts inside a witness implicitly require a clean stack
  Comp.require (st.length == 1) .cleanStack
  requireTrue st

def verifyWitnessProgram (witness : CScriptWitness) (version : Nat) (program : Bytes) :
    Comp ScriptError σ Unit :=
  if version = 0 then
    if program.length = witnessV0ScriptHashSize then
      match witness.getLast? with
      | none => throw .witnessProgramWitnessEmpty
      | some script => do
        Comp.require ((hash P script).data == program) .witnessProgramMismatch
        executeWitnessScript P flags checker witness.dropLast script
    else if program.length = witnessV0KeyHashSize then do
      Comp.require (witness.length == 2) .witnessProgramMismatch
      executeWitnessScript P flags checker witness (payToPubkeyHashScript program)
    else throw .witnessProgramWrongLength
  else
    Comp.require (.discourageUpgradableWitnessProgram ∉ flags) .discourageUpgradableWitnessProgram

/-- The witness stage of `VerifyScript` for one of the two scripts that may be a witness program:
the `scriptSig` has to be exactly what that script allows. The result tells whether there was a
witness program, with the stack as the later checks see it. -/
def verifyWitnessStage (script : CScript) (malleated : Bool) (e : ScriptError)
    (witness : CScriptWitness) (hadWitness : Bool) (stack : List Bytes) :
    Comp ScriptError σ (Bool × List Bytes) :=
  if .witness ∈ flags then
    match isWitnessProgram script with
    | some (version, program) => do
      Comp.require (!malleated) e
      verifyWitnessProgram P flags checker witness version program
      pure (true, keepBottom stack)
    | none => pure (hadWitness, stack)
  else pure (hadWitness, stack)

/-- The pay-to-script-hash rules of `VerifyScript`, on the stack that `scriptSig` left. -/
def verifyScriptHash (scriptSig : CScript) (witness : CScriptWitness) (hadWitness : Bool)
    (stackCopy : List Bytes) : Comp ScriptError σ (Bool × List Bytes) := do
  Comp.require (isPushOnly scriptSig) .sigPushOnly
  match stackCopy with
  | [] => throw .assertion
  | redeem :: st => do
    let st ← evalScript P flags checker .base st redeem
    requireTrue st
    verifyWitnessStage P flags checker redeem (scriptSig != pushData redeem) .witnessMalleatedP2SH
      witness hadWitness st

def verifyScriptHashStage (scriptSig scriptPubKey : CScript) (witness : CScriptWitness)
    (stackCopy : List Bytes) (had : Bool × List Bytes) : Comp ScriptError σ (Bool × List Bytes) :=
  if .p2sh ∈ flags ∧ isPayToScriptHash scriptPubKey then
    verifyScriptHash P flags checker scriptSig witness had.1 stackCopy
  else pure had

/-- The last checks of `VerifyScript`: the stack under `CLEANSTACK`, and a witness that nothing
asked for. -/
def verifyEnd (witness : CScriptWitness) (hadWitness : Bool) (stack : List Bytes) :
    Comp ScriptError σ Unit := do
  Comp.require (.cleanStack ∉ flags || (.p2sh ∈ flags && .witness ∈ flags)) .assertion
  Comp.require (.cleanStack ∉ flags || stack.length == 1) .cleanStack
  Comp.require (.witness ∉ flags || .p2sh ∈ flags) .assertion
  Comp.require (.witness ∉ flags || hadWitness || witness.isEmpty) .witnessUnexpected

def verifyScript (scriptSig scriptPubKey : CScript) (witness : CScriptWitness) :
    Comp ScriptError σ Unit := do
  Comp.require (.sigPushOnly ∉ flags || isPushOnly scriptSig) .sigPushOnly
  let stackCopy ← evalScript P flags checker .base [] scriptSig
  let stack ← evalScript P flags checker .base stackCopy scriptPubKey
  requireTrue stack
  let had ←
    verifyWitnessStage P flags checker scriptPubKey (!scriptSig.isEmpty) .witnessMalleated witness
      false stack
  let had ← verifyScriptHashStage P flags checker scriptSig scriptPubKey witness stackCopy had
  verifyEnd flags witness had.1 had.2

/-! ### Counting signature operations -/

def witnessSigOps (version : Nat) (program : Bytes) (witness : CScriptWitness) : Nat :=
  if version = 0 then
    if program.length = witnessV0KeyHashSize then 1
    else if program.length = witnessV0ScriptHashSize then
      match witness.getLast? with
      | some script => getSigOpCount true script
      | none => 0
    else 0
  else 0

/-- The operand of the last instruction of a script, empty if there is none. -/
def lastOperand (s : CScript) : Bytes :=
  match (parse s).1.getLast? with
  | some i => i.data
  | none => []

def countWitnessSigOps (scriptSig scriptPubKey : CScript) (witness : CScriptWitness) : Nat :=
  if .witness ∈ flags then
    match isWitnessProgram scriptPubKey with
    | some (version, program) => witnessSigOps version program witness
    | none =>
      if isPayToScriptHash scriptPubKey && isPushOnly scriptSig then
        match isWitnessProgram (lastOperand scriptSig) with
        | some (version, program) => witnessSigOps version program witness
        | none => 0
      else 0
  else 0

/-! ## Verification flags in use

The flags of `policy/policy.h`, and those under which `GetBlockScriptFlags` of `validation.cpp`
checks a block.
-/

def mandatoryScriptVerifyFlags : ScriptFlags :=
  {.p2sh, .nullDummy, .checkLockTimeVerify, .checkSequenceVerify, .witness}

def standardScriptVerifyFlags : ScriptFlags :=
  mandatoryScriptVerifyFlags ∪ {.minimalData, .discourageUpgradableNops, .cleanStack, .minimalIf,
    .nullFail, .discourageUpgradableWitnessProgram, .constScriptCode}

/-- `GetBlockScriptFlags`, by which deployments are active at the block. The table of exceptions is
empty on every network. -/
def getBlockScriptFlags (cltv csv segwit : Bool) : ScriptFlags :=
  {.p2sh, .witness} ∪ (if cltv then {.checkLockTimeVerify} else ∅) ∪
    (if csv then {.checkSequenceVerify} else ∅) ∪ (if segwit then {.nullDummy} else ∅)

theorem p2sh_mem_getBlockScriptFlags (cltv csv segwit : Bool) : .p2sh ∈ getBlockScriptFlags cltv
    csv segwit := by
  simp [getBlockScriptFlags]

end Tessera.Script
