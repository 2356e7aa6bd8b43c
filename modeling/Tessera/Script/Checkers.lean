import Tessera.Script.Verify

/-!
# Evaluation under two checkers and two sets of flags

The interpreter uses its checker only through calls, and its flags only to fail where it would go on
without them. So a relation of computations that holds part by part holds of whole evaluations if it
holds of the calls and of what reads the flags (`Follows`).

If the calls of two checkers agree whenever their states are related, evaluations do; and if the
calls agree until one of them does something, evaluations agree until one of their calls does.
Taking both checkers the same shows that a property of the checker's state which every call keeps
survives an evaluation, whether it succeeds or not.
-/

namespace Tessera.Script

open Lib Comp

variable {σ τ : Type} {P : Primitives} {A B : ScriptFlags} {sv : SigVersion}

/-! ### What reads the flags -/

section

variable {checker : Checker σ} (h : A ⊆ B)

include h

private theorem readNum_weaker (vch : Bytes) (size : Nat) : Weaker (readNum A vch size)
    (readNum B vch size) := by
  intro n hn
  unfold readNum at hn ⊢
  cases hB : ScriptNum.ofVch vch (decide (.minimalData ∈ B)) size with
  | none => simp [hB] at hn
  | some m =>
    have hA : ScriptNum.ofVch vch (decide (.minimalData ∈ A)) size = some m :=
      ScriptNum.ofVch_of_requireMinimal (by simpa using fun hmem => h hmem) hB
    simpa [hA, hB] using hn

private theorem readOperandNum_weaker (vch : Bytes) : Weaker (readOperandNum A vch)
    (readOperandNum B vch) :=
  readNum_weaker h vch _

private theorem checkLock_weaker (test : Int → Bool) (stack : List Bytes) :
    Weaker (checkLock A test stack) (checkLock B test stack) := by
  cases stack with
  | nil => exact .refl _
  | cons x st => exact weaker_bind (readNum_weaker h x 5) fun n => .refl _

private theorem checkLockOp_weaker (flag : ScriptFlag) (test : Int → Bool) (s : EvalState) : Weaker
      (if flag ∈ A then do checkLock A test s.stack; .ok s else .ok s)
      (if flag ∈ B then do checkLock B test s.stack; .ok s else .ok s) := by
  split
  next hA =>
    rw [if_pos (h hA)]
    exact weaker_bind (checkLock_weaker h test s.stack) fun _ => .refl _
  next hA =>
    intro s' hB
    split at hB
    · obtain ⟨_, -, hs⟩ := bind_eq_ok_iff.mp hB
      exact hs
    · exact hB

private theorem evalIf_weaker (fExec notIf : Bool) (stack : List Bytes) :
    Weaker (evalIf A sv fExec notIf stack) (evalIf B sv fExec notIf stack) := by
  cases fExec with
  | false => exact .refl _
  | true =>
    cases stack with
    | nil => exact .refl _
    | cons vch st => exact weaker_guard (fun ⟨hsv, hmem, hlen⟩ => ⟨hsv, h hmem, hlen⟩) (.refl _)

private theorem pickRoll_weaker (roll : Bool) (stack : List Bytes) :
    Weaker (pickRoll A roll stack) (pickRoll B roll stack) := by
  match stack with
  | x :: y :: st => exact weaker_bind (readOperandNum_weaker h x) fun _ => .refl _
  | [x] => exact .refl _
  | [] => exact .refl _

private theorem evalUnary_weaker (op : Opcode) (stack : List Bytes) :
    Weaker (evalUnary A op stack) (evalUnary B op stack) := by
  match stack with
  | x :: st => exact weaker_bind (readOperandNum_weaker h x) fun _ => .refl _
  | [] => exact .refl _

private theorem evalBinary_weaker (op : Opcode) (stack : List Bytes) :
    Weaker (evalBinary A op stack) (evalBinary B op stack) := by
  match stack with
  | x2 :: x1 :: st =>
    exact weaker_bind (readOperandNum_weaker h x1) fun _ =>
      weaker_bind (readOperandNum_weaker h x2) fun _ => .refl _
  | [x] => exact .refl _
  | [] => exact .refl _

private theorem evalWithin_weaker (stack : List Bytes) : Weaker (evalWithin A stack)
    (evalWithin B stack) := by
  match stack with
  | x3 :: x2 :: x1 :: st =>
    exact weaker_bind (readOperandNum_weaker h x1) fun _ =>
      weaker_bind (readOperandNum_weaker h x2) fun _ =>
        weaker_bind (readOperandNum_weaker h x3) fun _ => .refl _
  | [x, y] => exact .refl _
  | [x] => exact .refl _
  | [] => exact .refl _

private theorem evalOp_weaker (i : Instr) (s : EvalState) :
    Weaker (evalOp P A checker sv i s) (evalOp P B checker sv i s) := by
  unfold evalOp
  cases i.opcode with
  | checkLockTimeVerify => exact checkLockOp_weaker h _ _ s
  | checkSequenceVerify => exact checkLockOp_weaker h _ _ s
  | nop1 | nop4 | nop5 | nop6 | nop7 | nop8 | nop9 | nop10 =>
    exact weaker_guard (fun hmem => h hmem) (.refl _)
  | opIf | opNotIf => exact weaker_bind (evalIf_weaker h _ _ s.stack) fun _ => .refl _
  | pick | roll => exact weaker_map _ (pickRoll_weaker h _ s.stack)
  | add1 | sub1 | negate | abs | not | notEqual0 =>
    exact weaker_map _ (evalUnary_weaker h _ s.stack)
  | add | sub | boolAnd | boolOr | numEqual | numEqualVerify | numNotEqual | lessThan | greaterThan
  | lessThanOrEqual | greaterThanOrEqual | min | max =>
    exact weaker_map _ (evalBinary_weaker h _ s.stack)
  | within => exact weaker_map _ (evalWithin_weaker h s.stack)
  | _ => exact .refl _

private theorem dropSignatures_weaker (sigs : List Bytes) (code : CScript) :
    Weaker (dropSignatures A sv sigs code) (dropSignatures B sv sigs code) := by
  induction sigs generalizing code with
  | nil => exact .refl _
  | cons sig sigs ih =>
    cases sv with
    | base => exact weaker_guard (fun ⟨hfound, hmem⟩ => ⟨hfound, h hmem⟩) (ih _)
    | witnessV0 => exact ih code

private theorem popArguments_weaker (success : Bool) (i ikey2 : Nat) (st : List Bytes) :
    Weaker (popArguments A success i ikey2 st) (popArguments B success i ikey2 st) := by
  induction i generalizing ikey2 st with
  | zero => exact .refl _
  | succ i ih =>
    cases st with
    | nil => exact .refl _
    | cons x st => exact weaker_guard (fun ⟨hs, hmem, hx⟩ => ⟨hs, h hmem, hx⟩) (ih _ _)

private theorem multisigArgs_weaker (nOpCount : Nat) (stack : List Bytes) :
    Weaker (multisigArgs A nOpCount stack) (multisigArgs B nOpCount stack) := by
  cases stack with
  | nil => exact .refl _
  | cons kc st =>
    refine weaker_bind (readOperandNum_weaker h kc) fun n => ?_
    refine weaker_guard id (weaker_guard id ?_)
    split
    · exact .refl _
    · exact weaker_bind (readOperandNum_weaker h _) fun _ => .refl _

private theorem preCheck_weaker (i : Instr) (s : EvalState) : Weaker (preCheck A sv i s)
    (preCheck B sv i s) := by
  refine weaker_guard id (weaker_guard id (weaker_guard id (weaker_guard ?_ (.refl _))))
  exact fun ⟨hop, hsv, hmem⟩ => ⟨hop, hsv, h hmem⟩

end

/-! ### Parts of an evaluation -/

/-- A relation between computations under the flags `A` with the checker `c` and those under `B`
with `d` that holds part by part, for one signature version. -/
structure Follows (Rel : ∀ {α : Type}, Comp ScriptError τ α → Comp ScriptError σ α → Prop)
    (A B : ScriptFlags) (c : Checker τ) (d : Checker σ) (sv : SigVersion) : Prop where
  bind : ∀ {α β : Type} {x : Comp ScriptError τ α} {y : Comp ScriptError σ α}
    {f : α → Comp ScriptError τ β}
    {g : α → Comp ScriptError σ β}, Rel x y → (∀ a, Rel (f a) (g a)) → Rel (x >>= f) (y >>= g)
  ofExcept : ∀ {α : Type} (r : ScriptFlags → Except ScriptError α),
    (∀ {A B}, A ⊆ B → Weaker (r A) (r B)) → Rel (Comp.ofExcept (r A)) (Comp.ofExcept (r B))
  checkSig : ∀ sig pubkey code, Rel (act (c.checkSig sig pubkey code sv))
    (act (d.checkSig sig pubkey code sv))
  checkLockTime : c.checkLockTime = d.checkLockTime
  checkSequence : c.checkSequence = d.checkSequence

section

variable {Rel : ∀ {α : Type}, Comp ScriptError τ α → Comp ScriptError σ α → Prop} {c : Checker τ}
  {d : Checker σ} (h : Follows Rel A B c d sv)

include h

private theorem Follows.const {α : Type} (r : Except ScriptError α) : Rel (Comp.ofExcept r)
    (Comp.ofExcept r) :=
  h.ofExcept (fun _ => r) fun _ => .refl r

theorem Follows.pure {α : Type} (a : α) : Rel (Pure.pure a) (Pure.pure a) := h.const (.ok a)

theorem Follows.throw {α : Type} (e : ScriptError) :
    Rel (throw e : Comp ScriptError τ α) (throw e) :=
  h.const (.error e)

/-- A check that more flags only make stricter. -/
theorem Follows.require (r : ScriptFlags → Bool) (hr : ∀ {A B}, A ⊆ B → r B → r A)
    (e : ScriptError) : Rel (Comp.require (r A) e) (Comp.require (r B) e) := by
  have hexcept : ∀ {σ : Type} (b : Bool),
      (Comp.require b e : Comp ScriptError σ Unit) =
        Comp.ofExcept (if b = false then .error e else .ok ()) := by
    intro σ b
    cases b <;> rfl
  rw [hexcept, hexcept]
  refine h.ofExcept (fun flags => if r flags = false then .error e else .ok ()) fun hAB =>
    weaker_guard ?_ (.refl _)
  exact fun hA => Bool.eq_false_iff.mpr fun hB => Bool.false_ne_true (hA.symm.trans (hr hAB hB))

theorem Follows.check (b : Bool) (e : ScriptError) : Rel (Comp.require b e) (Comp.require b e) :=
  h.require (fun _ => b) (fun _ => id) e

/-- A check that a flag switches on. -/
theorem Follows.flagged (flag : ScriptFlag) (b : Bool) (e : ScriptError) :
    Rel (Comp.require (flag ∉ A || b) e) (Comp.require (flag ∉ B || b) e) := by
  refine h.require (fun flags => flag ∉ flags || b) (fun hAB hB => ?_) e
  simp only [Bool.or_eq_true, decide_eq_true_eq] at hB ⊢
  exact hB.imp_left fun hmem hA => hmem (hAB hA)

private theorem evalChecksig_follows (sig pubkey : Bytes) (codehash : CScript) :
    Rel (evalChecksig A c sv sig pubkey codehash) (evalChecksig B d sv sig pubkey codehash) := by
  refine h.bind (h.ofExcept (dropSignatures · sv [sig] codehash) fun hAB =>
    dropSignatures_weaker hAB _ _) fun code => ?_
  refine h.bind (h.checkSig _ _ _) fun success => h.bind ?_ fun _ => h.pure _
  refine h.require (fun flags => success || .nullFail ∉ flags || sig.isEmpty) (fun hAB hB => ?_) _
  simp only [Bool.or_eq_true, decide_eq_true_eq] at hB ⊢
  exact hB.imp_left fun hB => hB.imp_right fun hmem hA => hmem (hAB hA)

private theorem evalCheckSigOp_follows (verify : Bool) (s : EvalState) :
    Rel (evalCheckSigOp A c sv verify s) (evalCheckSigOp B d sv verify s) := by
  unfold evalCheckSigOp
  split
  · exact h.bind (evalChecksig_follows h _ _ _) fun _ => h.bind (h.const _) fun _ => h.pure _
  · exact h.throw _

private theorem checkMultisigLoop_follows (code : CScript) (sigs keys : List Bytes) :
    Rel (checkMultisigLoop c sv code sigs keys) (checkMultisigLoop d sv code sigs keys) := by
  induction keys generalizing sigs with
  | nil => cases sigs <;> exact h.pure _
  | cons key keys ih =>
    cases sigs with
    | nil => exact h.pure _
    | cons sig sigs =>
      refine h.bind (h.checkSig _ _ _) fun ok => ?_
      generalize (if ok then sigs else sig :: sigs) = left
      dsimp only
      split
      · exact h.pure _
      · exact ih left

private theorem evalCheckMultisigOp_follows (verify : Bool) (s : EvalState) :
    Rel (evalCheckMultisigOp A c sv verify s) (evalCheckMultisigOp B d sv verify s) := by
  refine h.bind (h.ofExcept (multisigArgs · _ _) fun hAB => multisigArgs_weaker hAB _ _)
    fun args => ?_
  refine h.bind (h.ofExcept (dropSignatures · sv _ _) fun hAB => dropSignatures_weaker hAB _ _)
    fun code => ?_
  refine h.bind (checkMultisigLoop_follows h _ _ _) fun success => ?_
  refine h.bind (h.ofExcept (popArguments · _ _ _ _) fun hAB => popArguments_weaker hAB _ _ _ _)
    fun st => ?_
  cases st with
  | nil => exact h.throw _
  | cons dummy st => exact h.bind (h.flagged _ _ _) fun _ => h.bind (h.const _) fun _ => h.pure _

private theorem evalSwitch_follows (i : Instr) (s : EvalState) :
    Rel (evalSwitch P A c sv i s) (evalSwitch P B d sv i s) := by
  unfold evalSwitch
  split
  · exact evalCheckSigOp_follows h _ s
  · exact evalCheckSigOp_follows h _ s
  · exact evalCheckMultisigOp_follows h _ s
  · exact evalCheckMultisigOp_follows h _ s
  · have hseq : sequenceTest c = sequenceTest d := by
      funext n
      simp [sequenceTest, h.checkSequence]
    have hop : evalOp P A c sv i s = evalOp P A d sv i s := by
      simp only [evalOp, h.checkLockTime, hseq]
    rw [hop]
    exact h.ofExcept (evalOp P · d sv i s) fun hAB => evalOp_weaker hAB i s

/-! ### Scripts -/

private theorem evalInstr_follows (i : Instr) (s : EvalState) : Rel (evalInstr P A c sv i s)
    (evalInstr P B d sv i s) := by
  refine h.bind (h.ofExcept (preCheck · sv i s) fun hAB => preCheck_weaker hAB i s) fun s => ?_
  refine h.bind ?_ fun s => h.bind (h.check _ _) fun _ => h.pure _
  unfold dispatch
  split
  · exact h.bind (h.flagged _ _ _) fun _ => h.pure _
  · split
    · exact evalSwitch_follows h i s
    · exact h.pure _

private theorem evalLoop_follows (instrs : List Instr) (s : EvalState) :
    Rel (evalLoop P A c sv instrs s) (evalLoop P B d sv instrs s) := by
  induction instrs generalizing s with
  | nil => exact h.pure _
  | cons i rest ih => exact h.bind (evalInstr_follows h i s) fun s => ih s

theorem evalScript_follows (stack : List Bytes) (script : CScript) :
    Rel (evalScript P A c sv stack script) (evalScript P B d sv stack script) := by
  refine h.bind (h.check _ _) fun _ => h.bind (evalLoop_follows h _ _) fun s => ?_
  exact h.bind (h.check _ _) fun _ => h.bind (h.check _ _) fun _ => h.pure _

private theorem requireTrue_follows (stack : List Bytes) : Rel (requireTrue stack)
    (requireTrue stack) := by
  cases stack with
  | nil => exact h.throw _
  | cons x st => exact h.check _ _

end

section

variable {Rel : ∀ {α : Type}, Comp ScriptError τ α → Comp ScriptError σ α → Prop} {c : Checker τ}
  {d : Checker σ} (hw : Follows Rel A B c d .witnessV0)

include hw

private theorem verifyWitnessProgram_follows (witness : CScriptWitness) (version : Nat)
    (program : Bytes) : Rel (verifyWitnessProgram P A c witness version program)
      (verifyWitnessProgram P B d witness version program) := by
  have hexec : ∀ stack script,
      Rel (executeWitnessScript P A c stack script) (executeWitnessScript P B d stack script) := by
    intro stack script
    refine hw.bind (hw.check _ _) fun _ => hw.bind (evalScript_follows hw _ _) fun st => ?_
    exact hw.bind (hw.check _ _) fun _ => requireTrue_follows hw st
  unfold verifyWitnessProgram
  split
  · split
    · split
      · exact hw.throw _
      · exact hw.bind (hw.check _ _) fun _ => hexec _ _
    · split
      · exact hw.bind (hw.check _ _) fun _ => hexec _ _
      · exact hw.throw _
  · exact hw.require (fun flags => .discourageUpgradableWitnessProgram ∉ flags)
      (fun hAB => by simpa using fun hmem hA => hmem (hAB hA)) _

variable (hwitness : .witness ∈ A ↔ .witness ∈ B)

include hwitness

private theorem verifyWitnessStage_follows (script : CScript) (malleated : Bool) (e : ScriptError)
    (witness : CScriptWitness) (hadWitness : Bool) (stack : List Bytes) :
    Rel (verifyWitnessStage P A c script malleated e witness hadWitness stack)
      (verifyWitnessStage P B d script malleated e witness hadWitness stack) := by
  simp only [verifyWitnessStage, hwitness]
  split
  · split
    · refine hw.bind (hw.check _ _) fun _ => ?_
      exact hw.bind (verifyWitnessProgram_follows hw _ _ _) fun _ => hw.pure _
    · exact hw.pure _
  · exact hw.pure _

/-- Verification, under flags that have the same stages. -/
theorem verifyScript_follows (hb : Follows Rel A B c d .base) (hp2sh : .p2sh ∈ A ↔ .p2sh ∈ B)
    (hend : ∀ witness had stack, Rel (verifyEnd A witness had stack)
      (verifyEnd B witness had stack))
    (scriptSig scriptPubKey : CScript) (witness : CScriptWitness) :
    Rel (verifyScript P A c scriptSig scriptPubKey witness)
      (verifyScript P B d scriptSig scriptPubKey witness) := by
  refine hb.bind (hb.flagged _ _ _) fun _ => hb.bind (evalScript_follows hb _ _) fun stackCopy => ?_
  refine hb.bind (evalScript_follows hb _ _) fun stack =>
    hb.bind (requireTrue_follows hb stack) fun _ => ?_
  refine hb.bind (verifyWitnessStage_follows hw hwitness _ _ _ _ _ _) fun had => ?_
  refine hb.bind ?_ fun had => hend _ _ _
  simp only [verifyScriptHashStage, hp2sh]
  split
  · unfold verifyScriptHash
    refine hb.bind (hb.check _ _) fun _ => ?_
    cases stackCopy with
    | nil => exact hb.throw _
    | cons redeem st =>
      refine hb.bind (evalScript_follows hb _ _) fun st =>
        hb.bind (requireTrue_follows hb st) fun _ => ?_
      exact verifyWitnessStage_follows hw hwitness _ _ _ _ _ _
  · exact hb.pure _

end

/-! ### Checkers that agree until something happens -/

/-- The two checkers answer alike on related states and stay related, for one signature version. -/
structure Checker.Agree {σ τ : Type} (R : τ → σ → Prop) (c : Checker τ) (d : Checker σ)
    (sv : SigVersion) : Prop where
  checkSig : ∀ sig pubkey code t s, R t s →
    (c.checkSig sig pubkey code sv t).1 = (d.checkSig sig pubkey code sv s).1 ∧
      R (c.checkSig sig pubkey code sv t).2 (d.checkSig sig pubkey code sv s).2
  checkLockTime : c.checkLockTime = d.checkLockTime
  checkSequence : c.checkSequence = d.checkSequence

/-- The two checkers answer alike on related states and stay related, until a call of the first one
reaches a state with the property `B`, which later calls do not leave. -/
structure Checker.AgreeUntil {σ τ : Type} (B : τ → Prop) (R : τ → σ → Prop) (c : Checker τ)
    (d : Checker σ) (sv : SigVersion) : Prop where
  keeps : ∀ sig pubkey code t, B t → B (c.checkSig sig pubkey code sv t).2
  checkSig : ∀ sig pubkey code t s, R t s → B (c.checkSig sig pubkey code sv t).2 ∨
      ((c.checkSig sig pubkey code sv t).1 = (d.checkSig sig pubkey code sv s).1 ∧
        R (c.checkSig sig pubkey code sv t).2 (d.checkSig sig pubkey code sv s).2)
  checkLockTime : c.checkLockTime = d.checkLockTime
  checkSequence : c.checkSequence = d.checkSequence

variable {B : τ → Prop} {R : τ → σ → Prop} {c : Checker τ} {d : Checker σ} {flags : ScriptFlags}

theorem Checker.AgreeUntil.follows (h : c.AgreeUntil B R d sv) : Follows (RelatedUntil B R) flags
    flags c d sv where
  bind := relatedUntil_bind
  ofExcept r _ := relatedUntil_ofExcept (r flags)
  checkSig _ _ _ := relatedUntil_act (h.keeps _ _ _) (h.checkSig _ _ _)
  checkLockTime := h.checkLockTime
  checkSequence := h.checkSequence

/-- Verification under two checkers that agree until something happens has the same outcome, or that
has happened. -/
theorem verifyScript_relatedUntil (hb : c.AgreeUntil B R d .base)
    (hw : c.AgreeUntil B R d .witnessV0) (scriptSig scriptPubKey : CScript)
    (witness : CScriptWitness) :
    RelatedUntil B R (verifyScript P flags c scriptSig scriptPubKey witness)
      (verifyScript P flags d scriptSig scriptPubKey witness) := by
  have h : Follows (RelatedUntil B R) flags flags c d .base := hb.follows
  refine verifyScript_follows hw.follows .rfl h .rfl (fun witness had stack => ?_) scriptSig
    scriptPubKey witness
  refine h.bind (h.check _ _) fun _ => h.bind (h.check _ _) fun _ => ?_
  exact h.bind (h.check _ _) fun _ => h.check _ _

/-! ### Checkers that always agree -/

private theorem Checker.Agree.until (h : c.Agree R d sv) :
    c.AgreeUntil (fun _ => False) R d sv where
  keeps _ _ _ _ hB := hB
  checkSig sig pubkey code t s hR := .inr (h.checkSig sig pubkey code t s hR)
  checkLockTime := h.checkLockTime
  checkSequence := h.checkSequence

/-- Verification under two checkers that agree has the same outcome. -/
theorem verifyScript_related (hb : c.Agree R d .base) (hw : c.Agree R d .witnessV0)
    (scriptSig scriptPubKey : CScript) (witness : CScriptWitness) :
    Related R (verifyScript P flags c scriptSig scriptPubKey witness)
      (verifyScript P flags d scriptSig scriptPubKey witness) :=
  (verifyScript_relatedUntil hb.until hw.until scriptSig scriptPubKey witness).of_false

/-! ### Properties of the checker's state -/

/-- A property of its state that every call of a checker keeps, for one signature version. -/
def Checker.Keeps (I : σ → Prop) (d : Checker σ) (sv : SigVersion) : Prop :=
  ∀ sig pubkey code s, I s → I (d.checkSig sig pubkey code sv s).2

variable {I : σ → Prop}

private theorem agree_of_keeps (h : d.Keeps I sv) : d.Agree (fun t s => t = s ∧ I s) d sv where
  checkSig := by
    rintro sig pubkey code t s ⟨rfl, hI⟩
    exact ⟨rfl, rfl, h sig pubkey code t hI⟩
  checkLockTime := rfl
  checkSequence := rfl

theorem evalScript_keeps (h : d.Keeps I sv) (stack : List Bytes) (script : CScript) :
    Keeps I (evalScript P flags d sv stack script) :=
  keeps_of_related (evalScript_follows (agree_of_keeps h).until.follows stack script).of_false

theorem verifyScript_keeps (hb : d.Keeps I .base) (hw : d.Keeps I .witnessV0)
    (scriptSig scriptPubKey : CScript) (witness : CScriptWitness) :
    Keeps I (verifyScript P flags d scriptSig scriptPubKey witness) :=
  keeps_of_related
    (verifyScript_related (agree_of_keeps hb) (agree_of_keeps hw) scriptSig scriptPubKey witness)

end Tessera.Script
