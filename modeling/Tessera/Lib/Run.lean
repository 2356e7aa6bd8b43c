import Mathlib.Tactic.Common

/-!
# Runs of a transition function

A system that is driven by inputs from outside: `run` folds its transition function over a list of
inputs. The rules here turn facts about one step into facts about every state of a run.

## Main definitions

* `run`: the state after a list of inputs.
* `Along`: a property holds in every state of a run, the first and the last included.
* `Meets`: every step of a run meets a condition on its state and input.
-/

namespace Tessera.Lib

variable {σ ι : Type*} (step : σ → ι → σ)

/-- The state after a list of inputs. -/
def run (s : σ) (inputs : List ι) : σ := inputs.foldl step s

@[simp] theorem run_nil (s : σ) : run step s [] = s := rfl

@[simp] theorem run_cons (s : σ) (i : ι) (inputs : List ι) :
    run step s (i :: inputs) = run step (step s i) inputs := rfl

theorem run_append (s : σ) (before after : List ι) :
    run step s (before ++ after) = run step (run step s before) after :=
  List.foldl_append

/-- A property holds in every state of a run. -/
def Along (I : σ → Prop) (s : σ) : List ι → Prop
  | [] => I s
  | i :: inputs => I s ∧ Along I (step s i) inputs

/-- Every step of a run meets a condition. -/
def Meets (C : σ → ι → Prop) (s : σ) : List ι → Prop
  | [] => True
  | i :: inputs => C s i ∧ Meets C (step s i) inputs

variable {step} {I J : σ → Prop} {C : σ → ι → Prop} {s : σ} {inputs : List ι} {D : σ → ι → Prop}

theorem meets_append {before after : List ι} : Meets step C s (before ++ after) ↔
      Meets step C s before ∧ Meets step C (run step s before) after := by
  induction before generalizing s with
  | nil => simp [Meets]
  | cons i before ih => simp [Meets, ih, and_assoc]

theorem meets_of_forall (h : ∀ i ∈ inputs, ∀ s, C s i) : Meets step C s inputs := by
  induction inputs generalizing s with
  | nil => trivial
  | cons i inputs ih => exact ⟨h i List.mem_cons_self s, ih fun j hj =>
      h j (List.mem_cons_of_mem i hj)⟩

theorem meets_and : Meets step (fun s i => C s i ∧ D s i) s inputs ↔
      Meets step C s inputs ∧ Meets step D s inputs := by
  induction inputs generalizing s with
  | nil => simp [Meets]
  | cons i inputs ih =>
    simp only [Meets, ih]
    tauto

/-- Two conditions that agree on every step of a run, given what the steps under one of them keep.
-/
theorem meets_congr_of {E : σ → ι → Prop} (h : ∀ s i, J s → E s i → (C s i ↔ D s i))
    (hstep : ∀ s i, J s → E s i → C s i → J (step s i)) (hs : J s)
    (hE : Meets step E s inputs) : Meets step C s inputs ↔ Meets step D s inputs := by
  induction inputs generalizing s with
  | nil => rfl
  | cons i inputs ih =>
    have hi := h s i hs hE.1
    constructor
    · rintro ⟨hC, hrest⟩
      exact ⟨hi.mp hC, (ih (hstep s i hs hE.1 hC) hE.2).mp hrest⟩
    · rintro ⟨hD, hrest⟩
      exact ⟨hi.mpr hD, (ih (hstep s i hs hE.1 (hi.mpr hD)) hE.2).mpr hrest⟩

/-- Two conditions that agree on every step of a run. -/
theorem meets_congr {E : σ → ι → Prop} (h : ∀ s i, E s i → (C s i ↔ D s i))
    (hE : Meets step E s inputs) : Meets step C s inputs ↔ Meets step D s inputs :=
  meets_congr_of (J := fun _ => True) (fun s i _ => h s i) (fun _ _ _ _ _ => trivial) trivial hE

/-- What every step keeps holds in every state of a run. -/
theorem along_of_step (hstep : ∀ s i, I s → I (step s i)) (hs : I s) : Along step I s inputs := by
  induction inputs generalizing s with
  | nil => exact hs
  | cons i inputs ih => exact ⟨hs, ih (hstep s i hs)⟩

theorem along_mono (h : ∀ s, I s → J s) (hI : Along step I s inputs) : Along step J s inputs := by
  induction inputs generalizing s with
  | nil => exact h s hI
  | cons i inputs ih => exact ⟨h s hI.1, ih hI.2⟩

/-- What every step under the condition keeps, a run under the condition keeps. -/
theorem run_invariant (hstep : ∀ s i, J s → C s i → J (step s i))
    (hs : J s) (hmeets : Meets step C s inputs) : J (run step s inputs) := by
  induction inputs generalizing s with
  | nil => exact hs
  | cons i inputs ih => exact ih (hstep s i hs hmeets.1) hmeets.2

/-- A loop that counts its steps is a run. -/
theorem run_mapIdx {α : Type*} {f : Nat → α → ι} {g : Nat → σ → List α → σ}
    (hnil : ∀ k s, g k s [] = s)
    (hcons : ∀ k s x xs, g k s (x :: xs) = g (k + 1) (step s (f k x)) xs) (xs : List α) :
    run step s (xs.mapIdx f) = g 0 s xs := by
  induction xs generalizing f g s with
  | nil => exact (hnil 0 s).symm
  | cons x xs ih =>
    rw [List.mapIdx_cons, hcons]
    exact ih (fun k => hnil (k + 1)) fun k => hcons (k + 1)

/-- If a step leads to a good state exactly under the condition, then a run stays good exactly if
all of its steps meet the condition. The invariant says what is known of the states of such a run,
and the steps may be assumed to meet another condition. -/
theorem along_iff_meets_of {E : σ → ι → Prop} (hgood : ∀ s, J s → I s)
    (hstep : ∀ s i, J s → E s i → C s i → J (step s i))
    (hexact : ∀ s i, J s → E s i → I (step s i) → C s i) (hs : J s) (hE : Meets step E s inputs) :
    Along step I s inputs ↔ Meets step C s inputs := by
  induction inputs generalizing s with
  | nil => simp [Along, Meets, hgood s hs]
  | cons i inputs ih =>
    constructor
    · rintro ⟨-, hrest⟩
      have hnext : I (step s i) := by
        cases inputs with
        | nil => exact hrest
        | cons j inputs => exact hrest.1
      have hC := hexact s i hs hE.1 hnext
      exact ⟨hC, (ih (hstep s i hs hE.1 hC) hE.2).mp hrest⟩
    · rintro ⟨hC, hrest⟩
      exact ⟨hgood s hs, (ih (hstep s i hs hE.1 hC) hE.2).mpr hrest⟩

theorem along_iff_meets (hgood : ∀ s, J s → I s) (hstep : ∀ s i, J s → C s i → J (step s i))
    (hexact : ∀ s i, J s → I (step s i) → C s i) (hs : J s) :
    Along step I s inputs ↔ Meets step C s inputs :=
  along_iff_meets_of (E := fun _ _ => True) hgood (fun s i h _ => hstep s i h)
    (fun s i h _ => hexact s i h) hs (meets_of_forall fun _ _ _ => trivial)

end Tessera.Lib
