import Tessera.Script.Verify

/-!
# The size of stack elements

No instruction builds a large element: what it leaves on a stack was on one of the stacks before,
was pushed by the script within the push limit, or is a number, a truth value or a hash. So a run
that starts within the push limit of its signature version stays within it.
-/

namespace Tessera.Script

open Lib Comp List

/-! ### Where elements come from -/

/-- Every element of `new` is one of `old`, or at most as long as a hash. -/
def Drawn (old new : List Bytes) : Prop := ∀ x ∈ new, x ∈ old ∨ x.length ≤ 32

variable {old new stack st : List Bytes} {op : Opcode} {verify : Bool} {i : Instr}
  {script : CScript}

private theorem Drawn.of_subset (h : new ⊆ old) : Drawn old new :=
  fun _ hx => .inl (h hx)

theorem Drawn.cons {x : Bytes} (hx : x ∈ old ∨ x.length ≤ 32) (h : Drawn old new) : Drawn old
    (x :: new) := by
  intro y hy
  rcases mem_cons.mp hy with rfl | hy
  · exact hx
  · exact h y hy

theorem Drawn.mono {old' : List Bytes} (h : Drawn old new) (hsub : old ⊆ old') :
    Drawn old' new := fun x hx => (h x hx).imp_left fun hmem => hsub hmem

private theorem Drawn.append {new' : List Bytes} (h : Drawn old new)
    (h' : Drawn old new') : Drawn old (new ++ new') := by
  intro x hx
  rcases mem_append.mp hx with hx | hx
  · exact h x hx
  · exact h' x hx

private theorem serialize_short (n : Int) : (ScriptNum.serialize n).length ≤ 32 :=
  le_trans (ScriptNum.serialize_length_le n) (by decide)

private theorem boolVch_short (b : Bool) : (boolVch b).length ≤ 32 := by
  cases b <;> decide

variable {σ : Type} {P : Primitives} {flags : ScriptFlags} {checker : Checker σ} {sv : SigVersion}

/-! ### Instructions on the stack -/

private theorem shuffle_drawn (h : shuffle op stack = some st) : Drawn stack st := by
  intro x hx
  have hnum := serialize_short
  -- one case for each opcode, and in it one for each shape of the stack
  unfold shuffle at h
  split at h <;> (try split at h) <;> grind

private theorem pickRoll_drawn {roll : Bool} (h : pickRoll flags roll stack = .ok st) :
    Drawn stack st := by
  unfold pickRoll at h
  split at h
  next x y rest =>
    rw [bind_eq_ok_iff] at h
    obtain ⟨n, -, h⟩ := h
    dsimp only at h
    split at h
    · cases h
    split at h
    · cases h
    next vch hvch =>
      cases h
      have hmem := mem_of_getElem? hvch
      refine .cons (.inl (mem_cons_of_mem x hmem)) (.of_subset ?_)
      split
      · exact fun z hz => mem_cons_of_mem x (eraseIdx_subset hz)
      · exact fun z hz => mem_cons_of_mem x hz
  · cases h

private theorem pushResult_drawn {b : Bool} {e : ScriptError} {st' : List Bytes}
    (h : pushResult verify e b st = .ok st') : Drawn st st' := by
  unfold pushResult at h
  split at h
  · split at h
    · cases h
      exact .of_subset (Subset.refl _)
    · cases h
  · cases h
    exact .cons (.inr (boolVch_short b)) (.of_subset (Subset.refl _))

private theorem evalEqual_drawn (h : evalEqual verify stack = .ok st) : Drawn stack st := by
  unfold evalEqual at h
  split at h
  · exact (pushResult_drawn h).mono fun x hx => by simp [hx]
  · cases h

private theorem evalUnary_drawn (h : evalUnary flags op stack = .ok st) : Drawn stack st := by
  unfold evalUnary at h
  split at h
  · rw [bind_eq_ok_iff] at h
    obtain ⟨n, -, h⟩ := h
    cases h
    exact .cons (.inr (serialize_short _)) (.of_subset fun x hx => by simp [hx])
  · cases h

private theorem evalBinary_drawn (h : evalBinary flags op stack = .ok st) : Drawn stack st := by
  unfold evalBinary at h
  split at h
  · simp only [bind_eq_ok_iff] at h
    obtain ⟨a, -, b, -, h⟩ := h
    split at h
    · split at h
      · cases h
        exact .of_subset fun x hx => by simp [hx]
      · cases h
    · cases h
      exact .cons (.inr (serialize_short _)) (.of_subset fun x hx => by simp [hx])
  · cases h

private theorem evalWithin_drawn (h : evalWithin flags stack = .ok st) : Drawn stack st := by
  unfold evalWithin at h
  split at h
  · simp only [bind_eq_ok_iff] at h
    obtain ⟨a, -, lo, -, hi, -, h⟩ := h
    cases h
    exact .cons (.inr (boolVch_short _)) (.of_subset fun x hx => by simp [hx])
  · cases h

private theorem evalHash_drawn (h : evalHash P op stack = .ok st) : Drawn stack st := by
  unfold evalHash at h
  split at h
  next vch rest =>
    have hrest : Drawn (vch :: rest) rest := .of_subset fun x hx => mem_cons_of_mem vch hx
    split at h
    · cases h
      exact .cons (.inr (by rw [Blob.size_eq]; decide)) hrest
    · cases h
      exact .cons (.inr (by rw [Blob.size_eq])) hrest
    · cases h
  · cases h

private theorem evalIf_drawn {fExec notIf fValue : Bool}
    (h : evalIf flags sv fExec notIf stack = .ok (fValue, st)) : Drawn stack st := by
  unfold evalIf at h
  split at h
  · split at h
    · cases h
    split at h
    · cases h
    · cases h
      exact .of_subset fun x hx => mem_cons_of_mem _ hx
  · cases h
    exact .of_subset (Subset.refl _)

/-! ### Whole instructions -/

def EvalState.elements (s : EvalState) : List Bytes := s.stack ++ s.altstack

variable {s : EvalState}

private theorem drawn_withStack (h : Drawn s.stack st) : Drawn s.elements
    (s.withStack st).elements := by
  have hstack : s.stack ⊆ s.elements := subset_append_left _ _
  have halt : s.altstack ⊆ s.elements := subset_append_right _ _
  exact (h.mono hstack).append (.of_subset halt)

variable {s' : EvalState}

private theorem drawn_of_map {r : Except ScriptError (List Bytes)}
    (hr : ∀ st, r = .ok st → Drawn s.stack st) (h : s.withStack <$> r = .ok s') :
    Drawn s.elements s'.elements := by
  rw [except_map_eq_ok_iff] at h
  obtain ⟨st, hst, rfl⟩ := h
  exact drawn_withStack (hr st hst)

private theorem drawn_same (h : s'.elements = s.elements) :
    Drawn s.elements s'.elements := .of_subset (by rw [h]; exact Subset.refl _)

private theorem evalOp_drawn (h : evalOp P flags checker sv i s = .ok s') :
    Drawn s.elements s'.elements := by
  have hlock : ∀ {c : Prop} [Decidable c] {r : Except ScriptError Unit},
      (if c then (do r; .ok s) else (.ok s : Except ScriptError EvalState)) = .ok s' →
        Drawn s.elements s'.elements := by
    intro c _ r hr
    split at hr
    · rw [bind_eq_ok_iff] at hr
      obtain ⟨-, -, hr⟩ := hr
      cases hr
      exact drawn_same rfl
    · cases hr
      exact drawn_same rfl
  have hif : ∀ {notIf : Bool} {next : Bool × List Bytes → Except ScriptError EvalState},
      (evalIf flags sv s.vfExec.allTrue notIf s.stack >>= next) = .ok s' →
        (∀ fValue st, next (fValue, st) =
          .ok { s with stack := st, vfExec := s.vfExec.pushBack fValue }) →
        Drawn s.elements s'.elements := by
    intro notIf next hr hnext
    rw [bind_eq_ok_iff] at hr
    obtain ⟨⟨fValue, st⟩, hst, hr⟩ := hr
    rw [hnext] at hr
    cases hr
    exact drawn_withStack (evalIf_drawn hst)
  have hguard : ∀ {c : Prop} [Decidable c] {e : ScriptError} {s₁ : EvalState},
      (if c then .error e else (.ok s₁ : Except ScriptError EvalState)) = .ok s' →
        s₁.elements = s.elements → Drawn s.elements s'.elements := by
    intro c _ e s₁ hr hs₁
    split at hr
    · cases hr
    · cases hr
      exact drawn_same hs₁
  have hnum : ∀ {n : Int}, .ok (s.withStack (ScriptNum.serialize n :: s.stack)) =
      (.ok s' : Except ScriptError EvalState) → Drawn s.elements s'.elements := by
    intro n hr
    cases hr
    exact drawn_withStack (.cons (.inr (serialize_short _)) (.of_subset (Subset.refl _)))
  have hshuffle : ∀ {r : Except ScriptError EvalState}, r = .ok s' →
      (∀ st, shuffle i.opcode s.stack = some st → r = .ok (s.withStack st)) →
      (shuffle i.opcode s.stack = none → r = .error .invalidStackOperation) →
      Drawn s.elements s'.elements := by
    intro r hr hsome hnone
    cases hst : shuffle i.opcode s.stack with
    | some st =>
      rw [hsome st hst] at hr
      cases hr
      exact drawn_withStack (shuffle_drawn hst)
    | none =>
      rw [hnone hst] at hr
      cases hr
  unfold evalOp at h
  -- one case for each opcode; the families share the lemma about their common part
  split at h
  all_goals first
    | exact hnum h
    | exact hlock h
    | exact hguard h rfl
    | exact hif h fun _ _ => rfl
    | exact hshuffle h (fun st hst => by rw [hst]) fun hst => by rw [hst]
    | exact drawn_of_map (fun _ => pickRoll_drawn) h
    | exact drawn_of_map (fun _ => evalEqual_drawn) h
    | exact drawn_of_map (fun _ => evalUnary_drawn) h
    | exact drawn_of_map (fun _ => evalBinary_drawn) h
    | exact drawn_of_map (fun _ => evalWithin_drawn) h
    | exact drawn_of_map (fun _ => evalHash_drawn) h
    | exact Except.ok.inj h ▸ drawn_same rfl
    | exact absurd h (by simp)
    | skip
  case h_18 =>
    -- `OP_VERIFY`
    split at h
    · cases h
    next x st hstack =>
      split at h
      · cases h
        exact drawn_withStack (.of_subset fun y hy => by rw [hstack]; exact mem_cons_of_mem x hy)
      · cases h
  case h_20 =>
    -- `OP_TOALTSTACK`
    split at h
    · cases h
    next x st hstack =>
      cases h
      refine .of_subset fun y hy => ?_
      simp only [EvalState.elements, hstack, mem_append, mem_cons] at hy ⊢
      tauto
  case h_21 =>
    -- `OP_FROMALTSTACK`
    split at h
    · cases h
    next x alt halt =>
      cases h
      refine .of_subset fun y hy => ?_
      simp only [EvalState.elements, halt, mem_append, mem_cons] at hy ⊢
      tauto

variable {c c' : σ}

private theorem evalCheckSigOp_drawn
    (h : (evalCheckSigOp flags checker sv verify s).Returns c s' c') :
    Drawn s.elements s'.elements := by
  unfold evalCheckSigOp at h
  split at h
  next pubkey sig st hstack =>
    simp only [returns_bind_iff, returns_ofExcept_iff] at h
    obtain ⟨success, _, -, st', _, ⟨hst', rfl⟩, rfl, rfl⟩ := h
    have hdrawn := (pushResult_drawn hst').mono (show st ⊆ s.stack by
      rw [hstack]
      exact fun x hx => by simp [hx])
    exact drawn_withStack hdrawn
  · simp at h

private theorem popArguments_subset {success : Bool} {i ikey2 : Nat}
    (h : popArguments flags success i ikey2 stack = .ok st) : st ⊆ stack := by
  induction i generalizing ikey2 stack with
  | zero =>
    cases h
    exact Subset.refl _
  | succ i ih =>
    cases stack with
    | nil => cases h
    | cons x rest =>
      unfold popArguments at h
      split at h
      · cases h
      · exact fun y hy => mem_cons_of_mem x (ih h hy)

private theorem evalCheckMultisigOp_drawn
    (h : (evalCheckMultisigOp flags checker sv verify s).Returns c s' c') :
    Drawn s.elements s'.elements := by
  unfold evalCheckMultisigOp at h
  simp only [returns_bind_iff, returns_ofExcept_iff] at h
  obtain ⟨args, _, -, code, _, -, success, _, -, st, _, ⟨hst, rfl⟩, h⟩ := h
  cases st with
  | nil => simp at h
  | cons dummy st =>
    simp only [returns_bind_iff, returns_ofExcept_iff] at h
    obtain ⟨_, _, -, st', _, ⟨hst', rfl⟩, rfl, rfl⟩ := h
    have hdrawn := (pushResult_drawn hst').mono fun x hx =>
      popArguments_subset hst (mem_cons_of_mem dummy hx)
    exact drawn_withStack hdrawn

private theorem dispatch_drawn (h : (dispatch P flags checker sv i s).Returns c s' c') :
    Drawn (i.data :: s.elements) s'.elements := by
  have hsub : s.elements ⊆ i.data :: s.elements := subset_cons_self _ _
  unfold dispatch at h
  split at h
  · simp only [returns_bind_iff] at h
    obtain ⟨_, _, -, rfl, -⟩ := h
    exact .of_subset (Subset.refl _)
  · split at h
    · unfold evalSwitch at h
      split at h
      · exact (evalCheckSigOp_drawn h).mono hsub
      · exact (evalCheckSigOp_drawn h).mono hsub
      · exact (evalCheckMultisigOp_drawn h).mono hsub
      · exact (evalCheckMultisigOp_drawn h).mono hsub
      · simp only [returns_ofExcept_iff] at h
        exact (evalOp_drawn h.1).mono hsub
    · simp only [returns_pure_iff] at h
      rw [← h.1]
      exact .of_subset hsub

/-! ### Runs -/

/-- Every element of the two stacks is within the push limit. -/
def EvalState.Sized (sv : SigVersion) (s : EvalState) : Prop :=
  ∀ x ∈ s.elements, x.length ≤ maxElementSize sv

private theorem evalInstr_sized (hs : s.Sized sv)
    (h : (evalInstr P flags checker sv i s).Returns c s' c') : s'.Sized sv := by
  obtain ⟨hdata, hdisp⟩ := dispatch_of_evalInstr h
  intro x hx
  rcases dispatch_drawn hdisp x hx with hmem | hshort
  · rcases mem_cons.mp hmem with rfl | hmem
    · exact hdata
    · exact hs x hmem
  · have hlimit : 32 ≤ maxElementSize sv := by cases sv <;> decide
    exact le_trans hshort hlimit

/-- A run of the loop keeps the elements within the push limit. -/
theorem evalLoop_sized {instrs : List Instr} (hs : s.Sized sv)
    (h : (evalLoop P flags checker sv instrs s).Returns c s' c') : s'.Sized sv := by
  induction instrs generalizing s c with
  | nil =>
    simp only [evalLoop, returns_pure_iff] at h
    exact h.1 ▸ hs
  | cons i rest ih =>
    simp only [evalLoop, returns_bind_iff] at h
    obtain ⟨s₁, c₁, hi, hrest⟩ := h
    exact ih (evalInstr_sized hs hi) hrest

/-- The evaluation of a script passes through the state `s`, with the checker's state then `c'`. -/
def PassesThrough (P : Primitives) (flags : ScriptFlags) (checker : Checker σ) (sv : SigVersion)
    (stack : List Bytes) (script : CScript) (c : σ) (s : EvalState) (c' : σ) : Prop :=
  ∃ k, (evalLoop P flags checker sv ((parse script).1.take k) (.init stack script)).Returns c s c'

section

variable (hstack : ∀ x ∈ stack, x.length ≤ maxElementSize sv)

include hstack

private theorem init_sized : (EvalState.init stack script).Sized sv := by
  intro x hx
  exact hstack x (by simpa [EvalState.elements, EvalState.init] using hx)

/-- Every state that an evaluation passes through is within the push limit. -/
theorem PassesThrough.sized (h : PassesThrough P flags checker sv stack script c s c') :
    s.Sized sv := by
  obtain ⟨k, hloop⟩ := h
  exact evalLoop_sized (init_sized hstack) hloop

/-- A script that starts within the push limit ends within it. -/
theorem evalScript_sized (h : (evalScript P flags checker sv stack script).Returns c st c') :
    ∀ x ∈ st, x.length ≤ maxElementSize sv := by
  unfold evalScript at h
  simp only [returns_bind_iff] at h
  obtain ⟨_, _, -, s, _, hloop, _, _, -, _, _, -, rfl, -⟩ := h
  exact fun x hx => evalLoop_sized (init_sized hstack) hloop x (mem_append_left _ hx)

end

private theorem not_evalLoop_of_large {instrs : List Instr}
    (hi : i ∈ instrs) (hlarge : maxElementSize sv < i.data.length) :
    ¬ (evalLoop P flags checker sv instrs s).Returns c s' c' := by
  intro h
  induction instrs generalizing s c with
  | nil => cases hi
  | cons j rest ih =>
    simp only [evalLoop, returns_bind_iff] at h
    obtain ⟨s₁, c₁, hj, hrest⟩ := h
    rcases mem_cons.mp hi with rfl | hi
    · -- the limit is checked before anything else about the instruction
      exact absurd (dispatch_of_evalInstr hj).1 (not_le.mpr hlarge)
    · exact ih hi hrest

/-- A script with an operand over the push limit does not run to its end, even where the operand is
in a branch that is not taken. -/
theorem not_evalScript_of_large (hi : i ∈ (parse script).1)
    (hlarge : maxElementSize sv < i.data.length) :
    ¬ (evalScript P flags checker sv stack script).Returns c st c' := by
  intro h
  unfold evalScript at h
  simp only [returns_bind_iff] at h
  obtain ⟨_, _, -, s, _, hloop, -⟩ := h
  exact not_evalLoop_of_large hi hlarge hloop

end Tessera.Script
