import Mathlib.Algebra.BigOperators.Group.List.Basic
import Tessera.Script.SoftFork
import Tessera.Script.Templates

/-!
# The signature operation budget

`CountWitnessSigOps` scans the witness script without running it. A run executes some of the
instructions only, but `OP_CHECKMULTISIG` takes its number of keys from the stack, where the scan
looks at the opcode before it. The two agree because an executed `OP_1` to `OP_16` leaves its number
on top of the stack, and nothing comes between it and the next instruction.

The calls of the checker are counted by a checker that wraps the given one.
-/

namespace Tessera.Script

open Lib Comp List

variable {σ : Type}

/-- The checker with a counter of its calls under witness v0. -/
def Checker.counting (c : Checker σ) : Checker (σ × Nat) where
  checkSig sig pubkey code sv t :=
    ((c.checkSig sig pubkey code sv t.1).1,
      (c.checkSig sig pubkey code sv t.1).2, if sv = .witnessV0 then t.2 + 1 else t.2)
  checkLockTime := c.checkLockTime
  checkSequence := c.checkSequence

private theorem Checker.counting_agree (c : Checker σ) (sv : SigVersion) :
    c.counting.Agree (fun t s => t.1 = s) c sv where
  checkSig := by
    rintro sig pubkey code t s rfl
    exact ⟨rfl, rfl⟩
  checkLockTime := rfl
  checkSequence := rfl

private theorem Checker.counting_keeps_base (c : Checker σ) (k : Nat) :
    c.counting.Keeps (fun t => t.2 = k) .base := by
  intro sig pubkey code t ht
  exact ht

variable {P : Primitives} {flags : ScriptFlags} {checker : Checker σ}

/-! ### One instruction -/

/-- What the accurate count of `GetSigOpCount` adds for a multisig operation after an opcode. -/
def multisigCost : Opcode → Nat
  | .opInt n => n.val + 1
  | _ => maxPubkeysPerMultisig

/-- What the accurate count of `GetSigOpCount` adds for an opcode after a given one. -/
def sigOpCost (last op : Opcode) : Nat :=
  match op with
  | .checkSig | .checkSigVerify => 1
  | .checkMultiSig | .checkMultiSigVerify => multisigCost last
  | _ => 0

/-- The opcode before, if it is a small integer and was executed, left its number on the stack. -/
def TopIs (last : Opcode) (s : EvalState) : Prop :=
  ∀ n, last = .opInt n → s.vfExec.allTrue = true → ∃ st,
    s.stack = ScriptNum.serialize (n.val + 1) :: st

variable {s s' : EvalState} {t t' : σ × Nat} {stack : List Bytes} {last : Opcode} {i : Instr}
  {script scriptSig scriptPubKey : CScript} {witness : CScriptWitness} {verify : Bool}
  {st : List Bytes} {program : Bytes} {c c' : σ}

private theorem evalCheckSigOp_calls
    (h : (evalCheckSigOp flags checker.counting .witnessV0 verify s).Returns t s' t') :
    t'.2 = t.2 + 1 := by
  unfold evalCheckSigOp at h
  split at h
  · simp only [evalChecksig, returns_bind_iff, returns_ofExcept_iff, returns_require_iff] at h
    obtain ⟨_, _, ⟨_, _, ⟨-, rfl⟩, _, _, ⟨-, rfl⟩, _, _, ⟨-, rfl⟩, -, rfl⟩, _, _,
      ⟨-, rfl⟩, -, rfl⟩ :=
      h
    rfl
  · simp at h

private theorem checkMultisigLoop_calls {code : CScript} {sigs keys : List Bytes} {ok : Bool}
    (h : (checkMultisigLoop checker.counting .witnessV0 code sigs keys).Returns t ok t') :
    t'.2 ≤ t.2 + keys.length := by
  induction keys generalizing sigs t with
  | nil =>
    cases sigs <;>
    · simp only [checkMultisigLoop, returns_pure_iff] at h
      simp [h.2]
  | cons key keys ih =>
    cases sigs with
    | nil =>
      simp only [checkMultisigLoop, returns_pure_iff] at h
      simp [h.2]
    | cons sig sigs =>
      unfold checkMultisigLoop at h
      simp only [returns_bind_iff, returns_act_iff] at h
      obtain ⟨b, u, ⟨-, hu⟩, h⟩ := h
      have hcall : u.2 = t.2 + 1 := by rw [← hu]; rfl
      generalize (if b then sigs else sig :: sigs) = left at h
      rw [length_cons]
      split at h
      · simp only [returns_pure_iff] at h
        rw [← h.2]
        omega
      · have := ih h
        omega

private theorem evalCheckMultisigOp_calls {op : Opcode}
    (hop : op = .checkMultiSig ∨ op = .checkMultiSigVerify) (hexec : s.vfExec.allTrue)
    (htop : TopIs last s)
    (h : (evalCheckMultisigOp flags checker.counting .witnessV0 verify s).Returns t s' t') :
    t'.2 ≤ t.2 + sigOpCost last op := by
  unfold evalCheckMultisigOp at h
  simp only [returns_bind_iff, returns_ofExcept_iff] at h
  obtain ⟨args, _, ⟨hargs, rfl⟩, code, _, ⟨-, rfl⟩, success, u, hloop, st, _, ⟨-, rfl⟩, h⟩ := h
  -- nothing after the loop calls the checker
  have hend : t' = u := by
    cases st with
    | nil => simp at h
    | cons dummy st =>
      simp only [returns_bind_iff, returns_require_iff, returns_ofExcept_iff] at h
      obtain ⟨_, _, ⟨-, rfl⟩, _, _, ⟨-, rfl⟩, -, rfl⟩ := h
      rfl
  have hcalls := checkMultisigLoop_calls hloop
  obtain ⟨kc, st', n, hstack, hread, hkeys, hmax, -⟩ := multisigArgs_eq_ok hargs
  have hop' : sigOpCost last op = multisigCost last := by
    rcases hop with rfl | rfl <;> rfl
  have hcost : args.keys.length ≤ multisigCost last := by
    unfold multisigCost
    split
    next k =>
      -- the number of keys on the stack is the one the scan read off the opcode
      obtain ⟨st'', htop⟩ := htop k rfl hexec
      rw [hstack] at htop
      cases htop
      rw [readOperandNum_serialize] at hread
      cases hread
      rwa [getint_small] at hkeys
    · exact hmax
  rw [hend]
  omega

private theorem evalSwitch_calls (hexec : s.vfExec.allTrue ∨ i.opcode.isConditional)
    (htop : TopIs last s)
    (h : (evalSwitch P flags checker.counting .witnessV0 i s).Returns t s' t') :
    t'.2 ≤ t.2 + sigOpCost last i.opcode := by
  have hexec' : i.opcode.isConditional = false → s.vfExec.allTrue := by
    intro hc
    simpa [hc] using hexec
  unfold evalSwitch at h
  split at h
  next hop =>
    rw [evalCheckSigOp_calls h, hop]
    rfl
  next hop =>
    rw [evalCheckSigOp_calls h, hop]
    rfl
  next hop => exact evalCheckMultisigOp_calls (.inl hop) (hexec' (by rw [hop]; rfl)) htop h
  next hop => exact evalCheckMultisigOp_calls (.inr hop) (hexec' (by rw [hop]; rfl)) htop h
  · simp only [returns_ofExcept_iff] at h
    rw [h.2]
    omega

private theorem dispatch_calls (htop : TopIs last s)
    (h : (dispatch P flags checker.counting .witnessV0 i s).Returns t s' t') :
    t'.2 ≤ t.2 + sigOpCost last i.opcode := by
  unfold dispatch at h
  split at h
  · simp only [returns_bind_iff, returns_require_iff] at h
    obtain ⟨_, _, ⟨-, rfl⟩, -, rfl⟩ := h
    omega
  · split at h
    next hexec => exact evalSwitch_calls hexec htop h
    · simp only [returns_pure_iff] at h
      rw [h.2]
      omega

private theorem dispatch_topIs
    (h : (dispatch P flags checker.counting .witnessV0 i s).Returns t s' t') :
    TopIs i.opcode s' := by
  intro n hop htrue
  have hoperand : ∀ n : Fin 16, (Opcode.opInt n).hasOperand = false := by decide
  have hcond : ∀ n : Fin 16, (Opcode.opInt n).isConditional = false := by decide
  simp only [dispatch, hop, hoperand, hcond, Bool.false_eq_true, and_false, or_false, if_false] at h
  split at h
  · simp only [evalSwitch, evalOp, hop, returns_ofExcept_iff, Except.ok.injEq] at h
    exact ⟨s.stack, by rw [← h.1]; rfl⟩
  -- a skipped integer changes nothing, and the branch is still not taken
  rename_i hskip
  simp only [returns_pure_iff] at h
  rw [h.1] at hskip
  exact absurd htrue hskip

private theorem evalInstr_calls (htop : TopIs last s)
    (h : (evalInstr P flags checker.counting .witnessV0 i s).Returns t s' t') :
    t'.2 ≤ t.2 + sigOpCost last i.opcode ∧ TopIs i.opcode s' := by
  -- the checks before an instruction only count it
  have hdisp := (dispatch_of_evalInstr h).2
  exact ⟨dispatch_calls (by exact htop) hdisp, dispatch_topIs hdisp⟩

/-! ### Whole scripts -/

private theorem evalLoop_calls {instrs : List Instr} (htop : TopIs last s)
    (h : (evalLoop P flags checker.counting .witnessV0 instrs s).Returns t s' t') :
    t'.2 ≤ t.2 + sigOpCountFrom true last instrs := by
  -- the previous opcode is the accumulator of both the scan and the invariant
  induction instrs generalizing last s t with
  | nil =>
    simp only [evalLoop, returns_pure_iff] at h
    rw [h.2]
    omega
  | cons i rest ih =>
    simp only [evalLoop, returns_bind_iff] at h
    obtain ⟨s₁, t₁, hi, hrest⟩ := h
    obtain ⟨hcalls, htop₁⟩ := evalInstr_calls htop hi
    have := ih htop₁ hrest
    change _ ≤ _ + (sigOpCost last i.opcode + sigOpCountFrom true i.opcode rest)
    omega

private theorem evalScript_calls
    (h : (evalScript P flags checker.counting .witnessV0 stack script).Returns t st t') :
    t'.2 ≤ t.2 + getSigOpCount true script := by
  unfold evalScript at h
  simp only [returns_bind_iff, returns_require_iff] at h
  obtain ⟨_, _, ⟨-, rfl⟩, s, u, hloop, _, _, ⟨-, rfl⟩, _, _, ⟨-, rfl⟩, -, rfl⟩ := h
  exact evalLoop_calls (fun n hn => by cases hn) hloop

private theorem requireTrue_state {t t' : σ}
    (h : (requireTrue stack : Comp ScriptError σ Unit).Returns t () t') : t' = t := by
  cases stack with
  | nil => simp [requireTrue] at h
  | cons x st =>
    simp only [requireTrue, returns_require_iff] at h
    exact h.2.symm

private theorem executeWitnessScript_calls {stack : CScriptWitness}
    (h : (executeWitnessScript P flags checker.counting stack script).Returns t () t') :
    t'.2 ≤ t.2 + getSigOpCount true script := by
  unfold executeWitnessScript at h
  simp only [returns_bind_iff, returns_require_iff] at h
  obtain ⟨_, _, ⟨-, rfl⟩, st, u, heval, _, _, ⟨-, rfl⟩, htrue⟩ := h
  rw [requireTrue_state htrue]
  exact evalScript_calls heval

private theorem verifyWitnessProgram_calls {version : Nat}
    (h : (verifyWitnessProgram P flags checker.counting witness version program).Returns t () t') :
    t'.2 ≤ t.2 + witnessSigOps version program witness := by
  unfold verifyWitnessProgram at h
  unfold witnessSigOps
  split at h
  next hversion =>
    rw [if_pos hversion]
    split at h
    next hsize =>
      have hne : program.length ≠ witnessV0KeyHashSize := by rw [hsize]; decide
      rw [if_neg hne, if_pos hsize]
      split at h
      · simp at h
      next script hlast =>
        simp only [returns_bind_iff, returns_require_iff] at h
        obtain ⟨_, _, ⟨-, rfl⟩, h⟩ := h
        rw [hlast]
        exact executeWitnessScript_calls h
    · split at h
      next hsize =>
        simp only [returns_bind_iff, returns_require_iff] at h
        obtain ⟨_, _, ⟨-, rfl⟩, h⟩ := h
        have hcalls := executeWitnessScript_calls h
        -- the script that the program stands for has one signature operation
        rw [getSigOpCount, parse_payToPubkeyHashScript hsize] at hcalls
        rw [if_pos hsize]
        exact hcalls
      · simp at h
  · simp only [returns_require_iff] at h
    rw [h.2]
    omega

/-! ### Verification -/

private theorem verifyWitnessStage_calls {malleated : Bool} {e : ScriptError}
    {had : Bool} {r : Bool × List Bytes} (hw : .witness ∈ flags)
    (h : (verifyWitnessStage P flags checker.counting script malleated e witness had stack).Returns
      t r t') : match isWitnessProgram script with
    | some (version, program) =>
      malleated = false ∧ t'.2 ≤ t.2 + witnessSigOps version program witness
    | none => t' = t := by
  unfold verifyWitnessStage at h
  rw [if_pos hw] at h
  cases hprog : isWitnessProgram script with
  | some p =>
    rw [hprog] at h
    simp only [returns_bind_iff, returns_require_iff] at h
    obtain ⟨_, _, ⟨hmal, rfl⟩, _, u, hverify, -, rfl⟩ := h
    exact ⟨by simpa using hmal, verifyWitnessProgram_calls hverify⟩
  | none =>
    rw [hprog] at h
    simp only [returns_pure_iff] at h
    exact h.2.symm

private theorem evalScript_base_calls
    (h : (evalScript P flags checker.counting .base stack script).Returns t st t') : t'.2 = t.2 :=
  (evalScript_keeps (checker.counting_keeps_base t.2) stack script).returns rfl h

private theorem lastOperand_pushData {data : Bytes} (h : data.length < 2 ^ 32) :
    lastOperand (pushData data) = data := by
  have hop := getScriptOp_pushData h []
  rw [append_nil] at hop
  unfold lastOperand
  rw [parse_of_some hop]
  rfl

private theorem isWitnessProgram_length {s : CScript} {w : Nat × Bytes}
    (h : isWitnessProgram s = some w) : s.length ≤ 42 := by
  unfold isWitnessProgram at h
  split at h
  · dsimp only at h
    split at h
    · cases h
    next hsize =>
      simp only [length_cons]
      omega
  · cases h

private theorem verifyScriptHashStage_calls {stackCopy : List Bytes} {had r : Bool × List Bytes}
    (hw : .witness ∈ flags) (hnone : isWitnessProgram scriptPubKey = none)
    (h : (verifyScriptHashStage P flags checker.counting scriptSig scriptPubKey witness stackCopy
      had).Returns t r t') : t'.2 ≤ t.2 + countWitnessSigOps flags scriptSig
        scriptPubKey witness := by
  unfold verifyScriptHashStage at h
  split at h
  next hsh =>
    unfold verifyScriptHash at h
    cases stackCopy with
    | nil => simp at h
    | cons redeem st =>
      simp only [returns_bind_iff, returns_require_iff] at h
      obtain ⟨_, _, ⟨hpush, rfl⟩, st', u, heval, _, v, htrue, hstage⟩ := h
      rw [← evalScript_base_calls heval]
      rw [requireTrue_state htrue] at hstage
      have hcalls := verifyWitnessStage_calls hw hstage
      cases hprog : isWitnessProgram redeem with
      | none =>
        rw [hprog] at hcalls
        rw [show t' = u from hcalls]
        omega
      | some w =>
        -- the malleability rule makes the push in the input exactly what the count reads
        rw [hprog] at hcalls
        have hsig : scriptSig = pushData redeem := by simpa using hcalls.1
        have hlen := isWitnessProgram_length hprog
        have hcount : countWitnessSigOps flags scriptSig scriptPubKey witness =
            witnessSigOps w.1 w.2 witness := by
          unfold countWitnessSigOps
          rw [if_pos hw, hnone]
          rw [if_pos (by rw [hsh.2, hpush]; rfl), hsig, lastOperand_pushData (by omega), hprog]
        rw [hcount]
        exact hcalls.2
  · simp only [returns_pure_iff] at h
    rw [h.2]
    omega

private theorem verifyScript_counting_calls (hw : .witness ∈ flags)
    (h : (verifyScript P flags checker.counting scriptSig scriptPubKey witness).Returns t () t') :
    t'.2 ≤ t.2 + countWitnessSigOps flags scriptSig scriptPubKey witness := by
  unfold verifyScript at h
  simp only [returns_bind_iff, returns_require_iff] at h
  obtain ⟨_, _, ⟨-, rfl⟩, stackCopy, t₁, hsig, stack, t₂, hpk, _, t₃, htrue, had, t₄, hwit,
    had', t₅, hsh, hend⟩ := h
  have hbase : t₃.2 = t.2 := by
    rw [requireTrue_state htrue, evalScript_base_calls hpk, evalScript_base_calls hsig]
  have hlast : t' = t₅ := by
    simp only [verifyEnd, returns_bind_iff, returns_require_iff] at hend
    obtain ⟨_, _, ⟨-, rfl⟩, _, _, ⟨-, rfl⟩, _, _, ⟨-, rfl⟩, -, rfl⟩ := hend
    rfl
  rw [hlast, ← hbase]
  have hcalls := verifyWitnessStage_calls hw hwit
  cases hprog : isWitnessProgram scriptPubKey with
  | none =>
    rw [hprog] at hcalls
    rw [show t₄ = t₃ from hcalls] at hsh
    exact verifyScriptHashStage_calls hw hprog hsh
  | some w =>
    -- a witness program is not a script hash, so the second stage does nothing
    rw [hprog] at hcalls
    have hnot : isPayToScriptHash scriptPubKey ≠ true := by
      intro hsh'
      rw [isWitnessProgram_of_isPayToScriptHash hsh'] at hprog
      cases hprog
    rw [verifyScriptHashStage, if_neg fun hc => hnot hc.2] at hsh
    simp only [returns_pure_iff] at hsh
    have hcount : countWitnessSigOps flags scriptSig scriptPubKey witness =
        witnessSigOps w.1 w.2 witness := by
      unfold countWitnessSigOps
      rw [if_pos hw, hprog]
    rw [← hsh.2, hcount]
    exact hcalls.2

/-! ### All inputs of a block -/

/-- `CScriptCheck`: the scripts of one input, with the checker for its transaction. -/
structure ScriptCheck (σ : Type) where
  checker : Checker σ
  scriptSig : CScript
  scriptPubKey : CScript
  witness : CScriptWitness

/-- The same check with its calls counted. -/
def ScriptCheck.counting (k : ScriptCheck σ) : ScriptCheck (σ × Nat) :=
  ⟨k.checker.counting, k.scriptSig, k.scriptPubKey, k.witness⟩

/-- `CScriptCheck::operator()`. -/
def ScriptCheck.run (P : Primitives) (flags : ScriptFlags) (k : ScriptCheck σ) :
    Comp ScriptError σ Unit :=
  verifyScript P flags k.checker k.scriptSig k.scriptPubKey k.witness

/-- The loop of `CheckInputScripts` over the inputs, and of `ConnectBlock` over the transactions,
when no result is taken from the script cache. -/
def checkInputScripts (P : Primitives) (flags : ScriptFlags) : List (ScriptCheck σ) →
    Comp ScriptError σ Unit
  | [] => pure ()
  | k :: rest => do
    k.run P flags
    checkInputScripts P flags rest

/-- What `GetTransactionSigOpCost` adds for the witnesses of the inputs. -/
def witnessSigOpCost (flags : ScriptFlags) (checks : List (ScriptCheck σ)) : Nat :=
  (checks.map fun k => countWitnessSigOps flags k.scriptSig k.scriptPubKey k.witness).sum

theorem verifyScript_counting (hw : .witness ∈ flags) (n : Nat)
    (h : (verifyScript P flags checker scriptSig scriptPubKey witness).Returns c () c') :
    ∃ m, (verifyScript P flags checker.counting scriptSig scriptPubKey witness).Returns
        (c, n) () (c', m) ∧
      m ≤ n + countWitnessSigOps flags scriptSig scriptPubKey witness := by
  have hrel : Related (fun t s => t.1 = s)
      (verifyScript P flags checker.counting scriptSig scriptPubKey witness)
      (verifyScript P flags checker scriptSig scriptPubKey witness) :=
    verifyScript_related (checker.counting_agree .base) (checker.counting_agree .witnessV0) _ _ _
  obtain ⟨⟨_, m⟩, hrun, rfl⟩ := hrel.returns_symm (t := (c, n)) rfl h
  exact ⟨m, hrun, verifyScript_counting_calls hw hrun⟩

/-- Checks that all succeed call their checkers at most as often as is counted for them. -/
theorem checkInputScripts_counting {checks : List (ScriptCheck σ)}
    (hw : .witness ∈ flags) (n : Nat) (h : (checkInputScripts P flags checks).Returns c () c') :
    ∃ m, (checkInputScripts P flags (checks.map ScriptCheck.counting)).Returns (c, n) () (c', m) ∧
      m ≤ n + witnessSigOpCost flags checks := by
  induction checks generalizing c n with
  | nil =>
    simp only [checkInputScripts, returns_pure_iff] at h
    simp [checkInputScripts, h.2]
  | cons k rest ih =>
    simp only [checkInputScripts, returns_bind_iff] at h
    obtain ⟨_, c₁, hk, hrest⟩ := h
    obtain ⟨m₁, hk', hm₁⟩ := verifyScript_counting hw n hk
    obtain ⟨m, hrest', hm⟩ := ih m₁ hrest
    refine ⟨m, ?_, ?_⟩
    · simp only [map_cons, checkInputScripts, returns_bind_iff]
      exact ⟨(), (c₁, m₁), hk', hrest'⟩
    · simp only [witnessSigOpCost, map_cons, sum_cons] at hm ⊢
      omega

end Tessera.Script
