import Tessera.Lib.Comp
import Tessera.Lib.Run
import Tessera.Script.Script

/-!
# The script interpreter

`EvalScript` of `script/interpreter.cpp`, opcode by opcode. Stacks are lists with the top first, so
`stacktop(-1)` is the head. Signature checks go through a checker that the interpreter is handed by
reference and that may keep a state of its own, as the signature extractor of the signing code does;
everything else an instruction does is a function of the evaluation state.
-/

namespace Tessera.Script

open Lib ScriptNum

/-- `ScriptError`, without the codes that no rule of the interpreter reports. `assertion` is not a
code of the source: it marks a run that a failed `assert` aborts. -/
inductive ScriptError where
  | unknownError | evalFalse | opReturn | scriptNum
  | scriptSize | pushSize | opCount | stackSize | sigCount | pubkeyCount
  | verify | equalVerify | checkMultiSigVerify | checkSigVerify | numEqualVerify
  | badOpcode | disabledOpcode | invalidStackOperation | invalidAltstackOperation
  | unbalancedConditional
  | negativeLocktime | unsatisfiedLocktime
  | minimalData | sigPushOnly | sigNullDummy | cleanStack | minimalIf | sigNullFail
  | discourageUpgradableNops | discourageUpgradableWitnessProgram
  | witnessProgramWrongLength | witnessProgramWitnessEmpty | witnessProgramMismatch
  | witnessMalleated | witnessMalleatedP2SH | witnessUnexpected
  | opCodeSeparator | sigFindAndDelete
  | assertion
  deriving DecidableEq

/-- `script_verify_flag_name`. -/
inductive ScriptFlag where
  | p2sh
  | sigPushOnly
  | minimalData
  | nullDummy
  | discourageUpgradableNops
  | cleanStack
  | checkLockTimeVerify
  | checkSequenceVerify
  | witness
  | discourageUpgradableWitnessProgram
  | minimalIf
  | nullFail
  | constScriptCode
  deriving DecidableEq

/-- `script_verify_flags`: a set of flags. -/
abbrev ScriptFlags := Finset ScriptFlag

inductive SigVersion where
  | base
  | witnessV0
  deriving DecidableEq

/-- `BaseSignatureChecker`. A call of `checkSig` on a signature, a public key, the script code and
the signature version may change the checker's own state; the lock-time checks do not. -/
structure Checker (σ : Type) where
  checkSig : Bytes → Bytes → CScript → SigVersion → σ → Bool × σ
  checkLockTime : Int → Bool
  checkSequence : Int → Bool

def maxOpsPerScript : Nat := 201

def maxStackSize : Nat := 1000

def maxWitnessItem : Nat := 3600

/-- The push limit of a script, `max_element_size` in `EvalScript`. -/
def maxElementSize : SigVersion → Nat
  | .base => maxScriptElementSize
  | .witnessV0 => maxWitnessItem

/-- `CastToBool`: some byte is nonzero, apart from the sign bit of the last one. -/
def castToBool : Bytes → Bool
  | [] => false
  | [b] => b != 0 && b != 0x80
  | b :: rest => b != 0 || castToBool rest

/-- `vchTrue` and `vchFalse`. -/
def boolVch (b : Bool) : Bytes := if b then [1] else []

/-! ### Deleting signatures from the script code -/

/-- Skip the copies of `b` at the head of `pc`, counting them. -/
def skipMatches (b : Bytes) : Nat → Bytes → Nat × Bytes
  | 0, pc => (0, pc)
  | fuel + 1, pc =>
    if b.isPrefixOf pc then
      ((skipMatches b fuel (pc.drop b.length)).1 + 1, (skipMatches b fuel (pc.drop b.length)).2)
    else (0, pc)

/-- The loop of `FindAndDelete` from an instruction boundary on. -/
def findAndDeleteFrom (b : Bytes) : Nat → Bytes → Nat × Bytes
  | 0, pc => (0, pc)
  | fuel + 1, pc =>
    let (k, pc) := skipMatches b pc.length pc
    match getScriptOp pc with
    | (none, _) => (k, pc)
    | (some _, rest) =>
      let (k', result) := findAndDeleteFrom b fuel rest
      (k + k', pc.take (pc.length - rest.length) ++ result)

/-- `FindAndDelete`: remove the occurrences of `b` that start at an instruction boundary. -/
def findAndDelete (script b : CScript) : Nat × CScript :=
  if b.isEmpty then (0, script)
  else
    let (found, result) := findAndDeleteFrom b (script.length + 1) script
    (found, if 0 < found then result else script)

/-! ### The condition stack -/

/-- `ConditionStack`: the number of open conditionals and the position of the first one whose branch
is not taken. -/
structure ConditionStack where
  stackSize : Nat
  firstFalsePos : Option Nat
  deriving DecidableEq

namespace ConditionStack

/-- The stack without open conditionals. -/
def init : ConditionStack := ⟨0, none⟩

variable (c : ConditionStack)

def empty : Bool := c.stackSize == 0

def allTrue : Bool := c.firstFalsePos.isNone

def pushBack (f : Bool) : ConditionStack :=
  { stackSize := c.stackSize + 1
    firstFalsePos :=
      match c.firstFalsePos with
      | none => if f then none else some c.stackSize
      | some p => some p }

/-- `ConditionStack::pop_back` of a nonempty stack. -/
def popBack : ConditionStack :=
  { stackSize := c.stackSize - 1
    firstFalsePos := if c.firstFalsePos = some (c.stackSize - 1) then none else c.firstFalsePos }

/-- `ConditionStack::toggle_top` of a nonempty stack. -/
def toggleTop : ConditionStack :=
  { c with
    firstFalsePos :=
      match c.firstFalsePos with
      | none => some (c.stackSize - 1)
      | some p => if p = c.stackSize - 1 then none else some p }

end ConditionStack

/-- What an evaluation carries from one instruction to the next. `codehash` is the script after the
last executed `OP_CODESEPARATOR`. -/
structure EvalState where
  stack : List Bytes
  altstack : List Bytes
  vfExec : ConditionStack
  nOpCount : Nat
  codehash : CScript
  deriving DecidableEq

namespace EvalState

/-- The state in which a script starts on a given stack. -/
def init (stack : List Bytes) (script : CScript) : EvalState := ⟨stack, [], .init, 0, script⟩

def withStack (s : EvalState) (stack : List Bytes) : EvalState := { s with stack := stack }

end EvalState

/-! ### Opcodes that do not check signatures -/

variable (op : Opcode)

/-- The opcodes that rearrange the stack, or push its depth or the size of its top; none if there
are too few elements. -/
def shuffle (stack : List Bytes) : Option (List Bytes) :=
  match op with
  | .drop2 => match stack with | _ :: _ :: st => some st | _ => none
  | .dup2 => match stack with | x2 :: x1 :: st => some (x2 :: x1 :: x2 :: x1 :: st) | _ => none
  | .dup3 =>
    match stack with
    | x3 :: x2 :: x1 :: st => some (x3 :: x2 :: x1 :: x3 :: x2 :: x1 :: st)
    | _ => none
  | .over2 =>
    match stack with
    | x4 :: x3 :: x2 :: x1 :: st => some (x2 :: x1 :: x4 :: x3 :: x2 :: x1 :: st)
    | _ => none
  | .rot2 =>
    match stack with
    | x6 :: x5 :: x4 :: x3 :: x2 :: x1 :: st => some (x2 :: x1 :: x6 :: x5 :: x4 :: x3 :: st)
    | _ => none
  | .swap2 =>
    match stack with
    | x4 :: x3 :: x2 :: x1 :: st => some (x2 :: x1 :: x4 :: x3 :: st)
    | _ => none
  | .ifDup =>
    match stack with
    | x :: st => some (if castToBool x then x :: x :: st else x :: st)
    | _ => none
  | .depth => some (serialize (ofSize stack.length) :: stack)
  | .drop => match stack with | _ :: st => some st | _ => none
  | .dup => match stack with | x :: st => some (x :: x :: st) | _ => none
  | .nip => match stack with | x2 :: _ :: st => some (x2 :: st) | _ => none
  | .«over» => match stack with | x2 :: x1 :: st => some (x1 :: x2 :: x1 :: st) | _ => none
  | .rot => match stack with | x3 :: x2 :: x1 :: st => some (x1 :: x3 :: x2 :: st) | _ => none
  | .swap => match stack with | x2 :: x1 :: st => some (x1 :: x2 :: st) | _ => none
  | .tuck => match stack with | x2 :: x1 :: st => some (x2 :: x1 :: x2 :: st) | _ => none
  | .size =>
    match stack with
    | x :: st => some (serialize (ofSize x.length) :: x :: st)
    | _ => none
  | _ => none

/-- The numeric opcodes with one operand. -/
def unaryNum (n : Int) : Int :=
  match op with
  | .add1 => n + 1
  | .sub1 => n - 1
  | .negate => -n
  | .abs => if n < 0 then -n else n
  | .not => if n = 0 then 1 else 0
  | .notEqual0 => if n ≠ 0 then 1 else 0
  | _ => n

/-- The numeric opcodes with two operands. -/
def binaryNum (a b : Int) : Int :=
  let ofBool (c : Bool) : Int := if c then 1 else 0
  match op with
  | .add => a + b
  | .sub => a - b
  | .boolAnd => ofBool (a ≠ 0 ∧ b ≠ 0)
  | .boolOr => ofBool (a ≠ 0 ∨ b ≠ 0)
  | .numEqual | .numEqualVerify => ofBool (a = b)
  | .numNotEqual => ofBool (a ≠ b)
  | .lessThan => ofBool (a < b)
  | .greaterThan => ofBool (b < a)
  | .lessThanOrEqual => ofBool (a ≤ b)
  | .greaterThanOrEqual => ofBool (b ≤ a)
  | .min => if a < b then a else b
  | .max => if b < a then a else b
  | _ => 0

variable {σ : Type} (P : Primitives) (flags : ScriptFlags) (checker : Checker σ) (sv : SigVersion)

/-- Read a stack element as a number; a `scriptnum_error` becomes `SCRIPT_ERR_SCRIPTNUM`. -/
def readNum (vch : Bytes) (maxNumSize : Nat) : Except ScriptError Int :=
  match ofVch vch (decide (.minimalData ∈ flags)) maxNumSize with
  | some n => .ok n
  | none => .error .scriptNum

/-- Read a stack element as an operand of the default size. -/
def readOperandNum (vch : Bytes) : Except ScriptError Int :=
  readNum flags vch defaultMaxNumSize

/-- Small integers are read back whatever the flags, since they are minimally encoded. -/
theorem readOperandNum_serialize (n : Fin 16) :
    readOperandNum flags (serialize (n.val + 1)) = .ok (n.val + 1) := by
  have h : ∀ (b : Bool) (n : Fin 16), ofVch (serialize (n.val + 1)) b defaultMaxNumSize =
        some ((n.val : Int) + 1) := by decide
  unfold readOperandNum readNum
  rw [h]

theorem getint_small (n : Fin 16) : (getint (n.val + 1)).toNat = n.val + 1 := by
  revert n
  decide

/-- `OP_CHECKLOCKTIMEVERIFY` and `OP_CHECKSEQUENCEVERIFY`: the top of the stack, read as a number of
up to five bytes, must not be negative and must pass the given test. -/
def checkLock (test : Int → Bool) (stack : List Bytes) : Except ScriptError Unit :=
  match stack with
  | [] => .error .invalidStackOperation
  | x :: _ => do
    let n ← readNum flags x 5
    if n < 0 then .error .negativeLocktime
    else if test n then .ok ()
    else .error .unsatisfiedLocktime

/-- The test of `OP_CHECKSEQUENCEVERIFY`: an operand with `SEQUENCE_LOCKTIME_DISABLE_FLAG` set
passes without looking at the input. -/
def sequenceTest (n : Int) : Bool := n.toNat.testBit 31 || checker.checkSequence n

/-- The branch that `OP_IF` or `OP_NOTIF` takes, with the stack it leaves. -/
def evalIf (fExec notIf : Bool) (stack : List Bytes) : Except ScriptError (Bool × List Bytes) :=
  if fExec then
    match stack with
    | [] => .error .invalidStackOperation
    | vch :: st =>
      -- only a policy rule under witness v0
      if sv = .witnessV0 ∧ .minimalIf ∈ flags ∧ (1 < vch.length ∨ vch.length = 1 ∧ vch ≠ [1]) then
        .error .minimalIf
      else .ok (castToBool vch != notIf, st)
  else .ok (false, stack)

/-- `OP_PICK` and `OP_ROLL`. -/
def pickRoll (roll : Bool) (stack : List Bytes) : Except ScriptError (List Bytes) :=
  match stack with
  | x :: y :: st => do
    let n := getint (← readOperandNum flags x)
    if n < 0 then .error .invalidStackOperation
    else
      match (y :: st)[n.toNat]? with
      | none => .error .invalidStackOperation
      | some vch => .ok (vch :: if roll then (y :: st).eraseIdx n.toNat else y :: st)
  | _ => .error .invalidStackOperation

/-- An instruction that leaves a result on the stack and, in its `VERIFY` form, demands that the
result is true and takes it off again. -/
def pushResult (verify : Bool) (e : ScriptError) (b : Bool) (st : List Bytes) :
    Except ScriptError (List Bytes) :=
  if verify then if b then .ok st else .error e else .ok (boolVch b :: st)

/-- `OP_EQUAL` and `OP_EQUALVERIFY`. -/
def evalEqual (verify : Bool) (stack : List Bytes) : Except ScriptError (List Bytes) :=
  match stack with
  | x2 :: x1 :: st => pushResult verify .equalVerify (x1 == x2) st
  | _ => .error .invalidStackOperation

/-- The numeric opcodes with one operand. -/
def evalUnary (op : Opcode) (stack : List Bytes) : Except ScriptError (List Bytes) :=
  match stack with
  | x :: st => do
    let n ← readOperandNum flags x
    .ok (serialize (unaryNum op n) :: st)
  | _ => .error .invalidStackOperation

/-- The numeric opcodes with two operands; `OP_NUMEQUALVERIFY` takes its result off again. -/
def evalBinary (op : Opcode) (stack : List Bytes) : Except ScriptError (List Bytes) :=
  match stack with
  | x2 :: x1 :: st => do
    let a ← readOperandNum flags x1
    let b ← readOperandNum flags x2
    let vch := serialize (binaryNum op a b)
    if op = .numEqualVerify then if castToBool vch then .ok st else .error .numEqualVerify
    else .ok (vch :: st)
  | _ => .error .invalidStackOperation

/-- `OP_WITHIN`. -/
def evalWithin (stack : List Bytes) : Except ScriptError (List Bytes) :=
  match stack with
  | x3 :: x2 :: x1 :: st => do
    let a ← readOperandNum flags x1
    let lo ← readOperandNum flags x2
    let hi ← readOperandNum flags x3
    .ok (boolVch (decide (lo ≤ a ∧ a < hi)) :: st)
  | _ => .error .invalidStackOperation

/-- The hash opcodes. Only `OP_HASH160` and `OP_HASH256` are enabled; a disabled one fails after the
check that there is an operand. -/
def evalHash (op : Opcode) (stack : List Bytes) : Except ScriptError (List Bytes) :=
  match stack with
  | vch :: st =>
    match op with
    | .hash160 => .ok ((hash160 P vch).data :: st)
    | .hash256 => .ok ((hash P vch).data :: st)
    | _ => .error .disabledOpcode
  | _ => .error .invalidStackOperation

/-- The opcodes other than pushes and signature checks, as the `switch` of `EvalScript` runs them.
-/
def evalOp (i : Instr) (s : EvalState) : Except ScriptError EvalState :=
  match i.opcode with
  | .oneNegate => .ok (s.withStack (serialize (-1) :: s.stack))
  | .opInt n => .ok (s.withStack (serialize (n.val + 1) :: s.stack))
  | .nop => .ok s
  | .checkLockTimeVerify =>
    if .checkLockTimeVerify ∈ flags then do
      checkLock flags checker.checkLockTime s.stack
      .ok s
    else .ok s
  | .checkSequenceVerify =>
    if .checkSequenceVerify ∈ flags then do
      checkLock flags (sequenceTest checker) s.stack
      .ok s
    else .ok s
  | .nop1 | .nop4 | .nop5 | .nop6 | .nop7 | .nop8 | .nop9 | .nop10 =>
    if .discourageUpgradableNops ∈ flags then .error .discourageUpgradableNops else .ok s
  | .opIf => do
    let (fValue, st) ← evalIf flags sv s.vfExec.allTrue false s.stack
    .ok { s with stack := st, vfExec := s.vfExec.pushBack fValue }
  | .opNotIf => do
    let (fValue, st) ← evalIf flags sv s.vfExec.allTrue true s.stack
    .ok { s with stack := st, vfExec := s.vfExec.pushBack fValue }
  | .opElse =>
    if s.vfExec.empty then .error .unbalancedConditional
    else .ok { s with vfExec := s.vfExec.toggleTop }
  | .endIf =>
    if s.vfExec.empty then .error .unbalancedConditional
    else .ok { s with vfExec := s.vfExec.popBack }
  | .verify =>
    match s.stack with
    | [] => .error .invalidStackOperation
    | x :: st => if castToBool x then .ok (s.withStack st) else .error .verify
  | .opReturn => .error .opReturn
  | .toAltStack =>
    match s.stack with
    | [] => .error .invalidStackOperation
    | x :: st => .ok { s with stack := st, altstack := x :: s.altstack }
  | .fromAltStack =>
    match s.altstack with
    | [] => .error .invalidAltstackOperation
    | x :: alt => .ok { s with stack := x :: s.stack, altstack := alt }
  | .drop2 | .dup2 | .dup3 | .over2 | .rot2 | .swap2 | .ifDup | .depth | .drop | .dup |
    .nip | .«over»
  | .rot | .swap | .tuck | .size =>
    match shuffle i.opcode s.stack with
    | some st => .ok (s.withStack st)
    | none => .error .invalidStackOperation
  | .pick => s.withStack <$> pickRoll flags false s.stack
  | .roll => s.withStack <$> pickRoll flags true s.stack
  | .equal => s.withStack <$> evalEqual false s.stack
  | .equalVerify => s.withStack <$> evalEqual true s.stack
  | .add1 | .sub1 | .negate | .abs | .not | .notEqual0 =>
    s.withStack <$> evalUnary flags i.opcode s.stack
  | .add | .sub | .boolAnd | .boolOr | .numEqual | .numEqualVerify | .numNotEqual | .lessThan
  | .greaterThan | .lessThanOrEqual | .greaterThanOrEqual | .min | .max =>
    s.withStack <$> evalBinary flags i.opcode s.stack
  | .within => s.withStack <$> evalWithin flags s.stack
  | .ripemd160 | .sha1 | .sha256 | .hash160 | .hash256 =>
    s.withStack <$> evalHash P i.opcode s.stack
  | .codeSeparator => .ok { s with codehash := i.pc }
  | _ => .error .badOpcode

/-! ### Signature checks -/

/-- The script code a signature commits to: legacy scripts drop the signatures being checked. -/
def dropSignatures : List Bytes → CScript → Except ScriptError CScript
  | [], code => .ok code
  | sig :: sigs, code =>
    match sv with
    | .base =>
      let (found, code) := findAndDelete code (pushData sig)
      if 0 < found ∧ .constScriptCode ∈ flags then .error .sigFindAndDelete
      else dropSignatures sigs code
    | .witnessV0 => dropSignatures sigs code

/-- `EvalChecksig` (and `EvalChecksigPreTapscript`). -/
def evalChecksig (sig pubkey : Bytes) (codehash : CScript) : Comp ScriptError σ Bool := do
  let code ← Comp.ofExcept (dropSignatures flags sv [sig] codehash)
  let success ← Comp.act (checker.checkSig sig pubkey code sv)
  Comp.require (success || .nullFail ∉ flags || sig.isEmpty) .sigNullFail
  pure success

/-- `OP_CHECKSIG` and `OP_CHECKSIGVERIFY`. -/
def evalCheckSigOp (verify : Bool) (s : EvalState) : Comp ScriptError σ EvalState :=
  match s.stack with
  | pubkey :: sig :: st => do
    let success ← evalChecksig flags checker sv sig pubkey s.codehash
    let st ← Comp.ofExcept (pushResult verify .checkSigVerify success st)
    pure (s.withStack st)
  | _ => throw .invalidStackOperation

/-- The loop of `OP_CHECKMULTISIG` over the signatures and keys that are left, the topmost first. It
gives up once fewer keys than signatures are left. -/
def checkMultisigLoop (code : CScript) : List Bytes → List Bytes → Comp ScriptError σ Bool
  | [], _ => pure true
  | _ :: _, [] => pure false
  | sig :: sigs, key :: keys => do
    let ok ← Comp.act (checker.checkSig sig key code sv)
    let left := if ok then sigs else sig :: sigs
    if keys.length < left.length then pure false else checkMultisigLoop code left keys

/-- The clean-up of `OP_CHECKMULTISIG`: pop the arguments. Under `NULLFAIL` a failed operation must
not have had a nonempty signature; the first `ikey2` pops are not signatures. -/
def popArguments (success : Bool) : Nat → Nat → List Bytes → Except ScriptError (List Bytes)
  | 0, _, st => .ok st
  | _ + 1, _, [] => .error .unknownError
  | i + 1, ikey2, x :: st =>
    if success = false ∧ .nullFail ∈ flags ∧ ikey2 = 0 ∧ x ≠ [] then .error .sigNullFail
    else popArguments success i (ikey2 - 1) st

/-- The arguments of `OP_CHECKMULTISIG` taken off the stack, with the operation count they add. -/
structure MultisigArgs where
  keys : List Bytes
  sigs : List Bytes
  deriving DecidableEq

/-- The argument checks of `OP_CHECKMULTISIG`. -/
def multisigArgs (nOpCount : Nat) (stack : List Bytes) : Except ScriptError MultisigArgs :=
  match stack with
  | [] => .error .invalidStackOperation
  | kc :: st => do
    let nKeys := getint (← readOperandNum flags kc)
    if nKeys < 0 ∨ (maxPubkeysPerMultisig : Int) < nKeys then .error .pubkeyCount
    else if maxOpsPerScript < nOpCount + nKeys.toNat then .error .opCount
    else
      match st.drop nKeys.toNat with
      | [] => .error .invalidStackOperation
      | sc :: st' => do
        let nSigs := getint (← readOperandNum flags sc)
        if nSigs < 0 ∨ nKeys < nSigs then .error .sigCount
        -- the extra argument that the operation consumes has to be there as well
        else if st'.length < nSigs.toNat + 1 then .error .invalidStackOperation
        else .ok ⟨st.take nKeys.toNat, st'.take nSigs.toNat⟩

variable {flags} in
/-- The keys are as many as the top of the stack says, and at most twenty; the signatures are
elements of the stack. -/
theorem multisigArgs_eq_ok {nOpCount : Nat} {stack : List Bytes} {args : MultisigArgs}
    (h : multisigArgs flags nOpCount stack = .ok args) :
    ∃ kc st n, stack = kc :: st ∧ readOperandNum flags kc = .ok n ∧ args.keys.length ≤
      (getint n).toNat ∧ args.keys.length ≤ maxPubkeysPerMultisig ∧ args.sigs ⊆ stack := by
  unfold multisigArgs at h
  split at h
  · cases h
  next kc st =>
    rw [bind_eq_ok_iff] at h
    obtain ⟨n, hn, h⟩ := h
    refine ⟨kc, st, n, rfl, hn, ?_⟩
    dsimp only at h
    split at h
    · cases h
    next hrange =>
      split at h
      · cases h
      split at h
      · cases h
      next sc st' hdrop =>
        rw [bind_eq_ok_iff] at h
        obtain ⟨m, -, h⟩ := h
        split at h
        · cases h
        split at h
        · cases h
        cases h
        have hkeys := List.length_take_le (getint n).toNat st
        refine ⟨hkeys, by dsimp only; omega, fun x hx => ?_⟩
        have hmem : x ∈ sc :: st' := List.mem_cons_of_mem sc (List.mem_of_mem_take hx)
        rw [← hdrop] at hmem
        exact List.mem_cons_of_mem kc (List.mem_of_mem_drop hmem)

/-- `OP_CHECKMULTISIG` and `OP_CHECKMULTISIGVERIFY`. -/
def evalCheckMultisigOp (verify : Bool) (s : EvalState) : Comp ScriptError σ EvalState := do
  let args ← Comp.ofExcept (multisigArgs flags s.nOpCount s.stack)
  let nKeys := args.keys.length
  let nSigs := args.sigs.length
  let code ← Comp.ofExcept (dropSignatures flags sv args.sigs s.codehash)
  let success ← checkMultisigLoop checker sv code args.sigs args.keys
  let st ← Comp.ofExcept (popArguments flags success (nKeys + nSigs + 2) (nKeys + 2) s.stack)
  match st with
  | [] => throw .invalidStackOperation
  | dummy :: st => do
    Comp.require (.nullDummy ∉ flags || dummy.isEmpty) .sigNullDummy
    let st ← Comp.ofExcept (pushResult verify .checkMultiSigVerify success st)
    pure { s with stack := st, nOpCount := s.nOpCount + nKeys }

/-! ### Evaluation -/

/-- What `EvalScript` checks of an instruction before it looks at whether to execute it. -/
def preCheck (i : Instr) (s : EvalState) : Except ScriptError EvalState :=
  let nOpCount := if i.opcode.isCounted then s.nOpCount + 1 else s.nOpCount
  if maxElementSize sv < i.data.length then .error .pushSize
  else if i.opcode.isCounted ∧ maxOpsPerScript < nOpCount then .error .opCount
  else if i.opcode.isDisabled then .error .disabledOpcode
  else if i.opcode = .codeSeparator ∧ sv = .base ∧ .constScriptCode ∈ flags then
    .error .opCodeSeparator
  else .ok { s with nOpCount := nOpCount }

/-- An instruction that passes has an operand within the limit, and is only counted. -/
theorem preCheck_eq_ok {i : Instr} {s s' : EvalState} (h : preCheck flags sv i s = .ok s') :
    i.data.length ≤ maxElementSize sv ∧
      s' = { s with nOpCount := if i.opcode.isCounted then s.nOpCount + 1 else s.nOpCount } := by
  unfold preCheck at h
  dsimp only at h
  generalize (if i.opcode.isCounted then s.nOpCount + 1 else s.nOpCount) = k at h ⊢
  split at h
  · cases h
  next hsize =>
    refine ⟨Nat.le_of_not_lt hsize, ?_⟩
    split at h
    · cases h
    split at h
    · cases h
    · split at h
      · cases h
      · exact (Except.ok.inj h).symm

variable (i : Instr) (s : EvalState)

/-- The `switch` of `EvalScript`. -/
def evalSwitch : Comp ScriptError σ EvalState :=
  match i.opcode with
  | .checkSig => evalCheckSigOp flags checker sv false s
  | .checkSigVerify => evalCheckSigOp flags checker sv true s
  | .checkMultiSig => evalCheckMultisigOp flags checker sv false s
  | .checkMultiSigVerify => evalCheckMultisigOp flags checker sv true s
  | _ => Comp.ofExcept (evalOp P flags checker sv i s)

/-- Execute an instruction, or skip it in a branch that is not taken. -/
def dispatch : Comp ScriptError σ EvalState :=
  if s.vfExec.allTrue ∧ i.opcode.hasOperand then do
    Comp.require (.minimalData ∉ flags || checkMinimalPush i.data i.opcode) .minimalData
    pure (s.withStack (i.data :: s.stack))
  else if s.vfExec.allTrue ∨ i.opcode.isConditional then evalSwitch P flags checker sv i s
  else pure s

/-- One round of the loop of `EvalScript`. -/
def evalInstr : Comp ScriptError σ EvalState := do
  let s ← Comp.ofExcept (preCheck flags sv i s)
  let s ← dispatch P flags checker sv i s
  Comp.require (s.stack.length + s.altstack.length ≤ maxStackSize) .stackSize
  pure s

variable {P flags checker sv} in
/-- A round that returns has an operand within the limit, and counts its instruction before it runs
it. -/
theorem dispatch_of_evalInstr {i : Instr} {s s' : EvalState} {c c' : σ}
    (h : (evalInstr P flags checker sv i s).Returns c s' c') : i.data.length ≤ maxElementSize sv ∧
      (dispatch P flags checker sv i
        { s with nOpCount := if i.opcode.isCounted then s.nOpCount + 1 else s.nOpCount }).Returns c
          s' c' := by
  unfold evalInstr at h
  simp only [Comp.returns_bind_iff, Comp.returns_ofExcept_iff, Comp.returns_require_iff,
    Comp.returns_pure_iff] at h
  obtain ⟨s₁, _, ⟨hpre, rfl⟩, s₂, _, hdispatch, _, _, ⟨-, rfl⟩, rfl, rfl⟩ := h
  obtain ⟨hdata, rfl⟩ := preCheck_eq_ok flags sv hpre
  exact ⟨hdata, hdispatch⟩

/-- An opcode without operand that is counted and executed goes to the `switch`. -/
theorem evalSwitch_of_evalInstr {P flags checker sv} {i : Instr} {s s' : EvalState} {c c' : σ}
    (h : (evalInstr P flags checker sv i s).Returns c s' c') (hexec : s.vfExec.allTrue)
    (hoperand : i.opcode.hasOperand = false) (hcount : i.opcode.isCounted) :
    (evalSwitch P flags checker sv i { s with nOpCount := s.nOpCount + 1 }).Returns c s' c' := by
  have hdispatch := (dispatch_of_evalInstr h).2
  rw [hcount] at hdispatch
  rwa [dispatch, if_neg (by simp [hoperand]), if_pos (.inl hexec)] at hdispatch

/-- The loop of `EvalScript`. -/
def evalLoop : List Instr → EvalState → Comp ScriptError σ EvalState
  | [], s => pure s
  | i :: rest, s => do
    let s ← evalInstr P flags checker sv i s
    evalLoop rest s

/-- `EvalScript`: run a script on a stack. An instruction that is cut short is noticed when the loop
gets there, after the instructions before it have run. -/
def evalScript (stack : List Bytes) (script : CScript) : Comp ScriptError σ (List Bytes) := do
  Comp.require (script.length ≤ maxScriptSize) .scriptSize
  let s ← evalLoop P flags checker sv (parse script).1 (.init stack script)
  Comp.require (parse script).2.isNone .badOpcode
  Comp.require s.vfExec.empty .unbalancedConditional
  pure s.stack

/-! ## Nested conditionals

The interpreter keeps of the conditions that it is in only their number and the position of the
first false one. What it asks of them, it would learn as well from the list of all conditions. Both
numbers are `uint32_t`, and the absence of a position is the largest one: as long as the depth is
below that, none is ever reached.
-/

/-- What is done to the conditions. -/
inductive ConditionOp
  | pushBack (f : Bool)
  | toggleTop
  | popBack

/-- The list of conditions, the innermost first. -/
def conditionsStep : List Bool → ConditionOp → List Bool
  | conditions, .pushBack f => f :: conditions
  | f :: conditions, .toggleTop => (!f) :: conditions
  | _ :: conditions, .popBack => conditions
  | [], _ => []

/-- The depth stays below `2 ^ 32 - 1`, and only a condition that is there is toggled or popped. -/
def ConditionOp.Allowed (conditions : List Bool) : ConditionOp → Prop
  | .pushBack _ => conditions.length + 1 < 2 ^ 32 - 1
  | _ => conditions ≠ []

namespace ConditionStack

def step (c : ConditionStack) : ConditionOp → ConditionStack
  | .pushBack f => c.pushBack f
  | .toggleTop => c.toggleTop
  | .popBack => c.popBack

section

variable {c : ConditionStack} (hlt : ∀ p ∈ c.firstFalsePos, p < c.stackSize) (f : Bool)
include hlt

private theorem firstFalsePos_pushBack_lt : ∀ p ∈ (c.pushBack f).firstFalsePos,
    p < (c.pushBack f).stackSize := by
  obtain ⟨n, _ | q⟩ := c
  · cases f <;> simp [pushBack]
  · exact fun p hp => Nat.lt_succ_of_lt (hlt p hp)

private theorem toggleTop_pushBack : (c.pushBack f).toggleTop = c.pushBack !f := by
  obtain ⟨n, _ | q⟩ := c
  · cases f <;> simp [pushBack, toggleTop]
  · have := hlt q rfl
    simp [pushBack, toggleTop, this.ne]

private theorem popBack_pushBack : (c.pushBack f).popBack = c := by
  obtain ⟨n, _ | q⟩ := c
  · cases f <;> simp [pushBack, popBack]
  · have := hlt q rfl
    simp [pushBack, popBack, this.ne]

end

/-- The stack that stands for the conditions. -/
def ofList : List Bool → ConditionStack
  | [] => init
  | f :: conditions => (ofList conditions).pushBack f

variable {conditions : List Bool} {op : ConditionOp}

private theorem stackSize_ofList : (ofList conditions).stackSize = conditions.length := by
  induction conditions with
  | nil => rfl
  | cons f conditions ih => exact congrArg (· + 1) ih

private theorem firstFalsePos_ofList_lt : ∀ p ∈ (ofList conditions).firstFalsePos,
    p < (ofList conditions).stackSize := by
  induction conditions with
  | nil => exact nofun
  | cons f conditions ih => exact firstFalsePos_pushBack_lt ih f

private theorem allTrue_ofList : (ofList conditions).allTrue = conditions.all id := by
  induction conditions with
  | nil => rfl
  | cons f conditions ih =>
    rw [List.all_cons, ← ih, ofList]
    obtain ⟨n, _ | q⟩ := ofList conditions <;> cases f <;> rfl

/-- An operation on the conditions is the same operation on their stack. -/
theorem step_ofList (h : op.Allowed conditions) :
    (ofList conditions).step op = ofList (conditionsStep conditions op) := by
  cases op with
  | pushBack f => rfl
  | toggleTop =>
    cases conditions with
    | nil => exact absurd rfl h
    | cons f conditions => exact toggleTop_pushBack firstFalsePos_ofList_lt f
  | popBack =>
    cases conditions with
    | nil => exact absurd rfl h
    | cons f conditions => exact popBack_pushBack firstFalsePos_ofList_lt f

private theorem run_ofList {ops : List ConditionOp}
    (h : Meets conditionsStep ConditionOp.Allowed conditions ops) :
    run step (ofList conditions) ops = ofList (run conditionsStep conditions ops) := by
  induction ops generalizing conditions with
  | nil => rfl
  | cons op ops ih =>
    rw [run_cons, step_ofList h.1]
    exact ih h.2

end ConditionStack

theorem ConditionOp.Allowed.length_lt {conditions : List Bool} {op : ConditionOp}
    (h : op.Allowed conditions) (hlt : conditions.length < 2 ^ 32 - 1) :
    (conditionsStep conditions op).length < 2 ^ 32 - 1 := by
  cases op with
  | pushBack f => exact h
  | toggleTop => cases conditions <;> exact hlt
  | popBack =>
    cases conditions with
    | nil => exact hlt
    | cons f conditions => exact Nat.lt_of_succ_lt hlt

/-- Along every run that keeps the depth below `2 ^ 32 - 1`, the stack answers as the list of
conditions does, and neither its size nor its position is the largest word. -/
theorem conditionStack_refines {ops : List ConditionOp}
    (h : Meets conditionsStep ConditionOp.Allowed [] ops) :
    let conditions := run conditionsStep [] ops
    let c := run ConditionStack.step .init ops
    c.empty = conditions.isEmpty ∧ c.allTrue = conditions.all id ∧ c.stackSize < 2 ^ 32 - 1 ∧
      ∀ p ∈ c.firstFalsePos, p < 2 ^ 32 - 1 := by
  intro conditions c
  have hc : c = .ofList conditions := ConditionStack.run_ofList h
  have hlt : conditions.length < 2 ^ 32 - 1 :=
    run_invariant (J := fun conditions => conditions.length < 2 ^ 32 - 1)
      (fun _ _ hlt h => h.length_lt hlt) (by decide) h
  have hsize : c.stackSize = conditions.length := hc ▸ ConditionStack.stackSize_ofList
  refine ⟨?_, hc ▸ ConditionStack.allTrue_ofList, hsize ▸ hlt, fun p hp => ?_⟩
  · rw [ConditionStack.empty, hsize]
    cases conditions <;> rfl
  · rw [hc] at hp
    exact (ConditionStack.firstFalsePos_ofList_lt p hp).trans
      (ConditionStack.stackSize_ofList ▸ hlt)

/-- A condition inside another one is toggled. -/
theorem conditionStack_refines_nested :
    (run ConditionStack.step .init [.pushBack true, .pushBack false, .toggleTop]).allTrue = true :=
  (conditionStack_refines (by simp [Meets, ConditionOp.Allowed, conditionsStep])).2.1

end Tessera.Script
