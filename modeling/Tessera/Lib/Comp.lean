import Mathlib.Tactic.Common

/-!
# Computations with state and failure

A `Comp ε σ α` updates a state of type `σ` and either returns a value or fails with an error of
type `ε`. The state reached so far survives a failure, which is what a routine that is handed a
stateful collaborator by reference does when it bails out halfway.

## Main definitions

* `Comp.exec`: run a computation from a state.
* `Comp.Returns`: the computation succeeds with a given value and final state.
* `Comp.Related`: two computations over related states behave alike.
* `Comp.RelatedUntil`: the same, until the first one reaches a state of a certain kind.
* `Comp.Yields`: every result of the computation has a property.
* `Comp.Fails`: every error of the computation has a property.
* `Comp.Keeps`: a property of the state survives the computation, whatever its outcome.
* `Comp.Permits`: every successful run of one computation is a run of another; `Weaker` is the
  same for results that do not depend on a state.
-/

namespace Tessera.Lib

/-- A computation over the state `σ` that may fail with an `ε`. -/
abbrev Comp (ε σ α : Type) := ExceptT ε (StateM σ) α

/-! ### Results without state -/

/-- The result `r` succeeds, with the same value, whenever `r'` does. -/
def Weaker {ε α : Type} (r r' : Except ε α) : Prop := ∀ a, r' = .ok a → r = .ok a

section Weaker

variable {ε α β : Type}

theorem Weaker.refl (r : Except ε α) : Weaker r r := fun _ h => h

theorem weaker_error (r : Except ε α) (e : ε) : Weaker r (.error e) := by
  intro a h
  cases h

variable {x : Except ε α} {f : α → Except ε β}

theorem bind_eq_ok_iff {b : β} : (x >>= f) = .ok b ↔ ∃ a, x = .ok a ∧ f a = .ok b := by
  cases x with
  | error e => simp [bind, Except.bind]
  | ok a => simp [bind, Except.bind]

/-- An error of a sequence that its first part cannot have is one of its second part. -/
theorem except_bind_eq_error_iff {E : ε → Prop} {e : ε}
    (hx : ∀ e, x = .error e → E e) (he : ¬ E e) : (x >>= f) = .error e ↔ ∃ a, x = .ok a ∧
    f a = .error e := by
  cases x with
  | error e' =>
    have hne : e' ≠ e := fun heq => he (heq ▸ hx e' rfl)
    simp [bind, Except.bind, hne]
  | ok a => simp [bind, Except.bind]

theorem except_map_eq_ok_iff {f : α → β} {b : β} : (f <$> x) = .ok b ↔ ∃ a,
    x = .ok a ∧ f a = b := by
  cases x with
  | error e => simp
  | ok a => simp

variable {y : Except ε α}

theorem weaker_bind {g : α → Except ε β} (hx : Weaker x y)
    (hf : ∀ a, Weaker (f a) (g a)) : Weaker (x >>= f) (y >>= g) := by
  intro b h
  rw [bind_eq_ok_iff] at h ⊢
  obtain ⟨a, hy, hg⟩ := h
  exact ⟨a, hx a hy, hf a b hg⟩

theorem weaker_map (f : α → β) (hx : Weaker x y) : Weaker (f <$> x) (f <$> y) := by
  intro b h
  rw [except_map_eq_ok_iff] at h ⊢
  obtain ⟨a, hy, hf⟩ := h
  exact ⟨a, hx a hy, hf⟩

/-- Dropping a guard that can only fail. -/
theorem weaker_guard {c d : Prop} [Decidable c] [Decidable d] {e e' : ε} (hcd : c → d)
    (hx : Weaker x y) : Weaker (if c then .error e else x) (if d then .error e' else y) := by
  intro a h
  split at h
  · cases h
  next hd =>
    rw [if_neg fun hc => hd (hcd hc)]
    exact hx a h

end Weaker

namespace Comp

variable {ε σ τ α β : Type}

/-- Run a computation, returning its outcome together with the state it reached. -/
def exec (x : Comp ε σ α) (s : σ) : Except ε α × σ := x s

/-- A computation that does not touch the state. -/
def ofExcept (r : Except ε α) : Comp ε σ α := fun s => (r, s)

/-- A state update that cannot fail. -/
def act (f : σ → α × σ) : Comp ε σ α := fun s => (.ok (f s).1, (f s).2)

/-- Fail with `e` unless `c` holds. -/
def require (c : Bool) (e : ε) : Comp ε σ Unit := if c then pure () else throw e

@[simp] theorem exec_pure (a : α) (s : σ) : (pure a : Comp ε σ α).exec s = (.ok a, s) := rfl

@[simp] theorem exec_throw (e : ε) (s : σ) : (throw e : Comp ε σ α).exec s = (.error e, s) := rfl

@[simp] theorem exec_ofExcept (r : Except ε α) (s : σ) : (ofExcept r).exec s = (r, s) := rfl

@[simp] theorem exec_act (f : σ → α × σ) (s : σ) : (act f : Comp ε σ α).exec s =
    (.ok (f s).1, (f s).2) := rfl

theorem ofExcept_ok (a : α) : (ofExcept (.ok a) : Comp ε σ α) = pure a := rfl

theorem ofExcept_bind (r : Except ε α) (f : α → Except ε β) :
    (ofExcept (r >>= f) : Comp ε σ β) = ofExcept r >>= fun a => ofExcept (f a) := by
  cases r <;> rfl

variable {c : Bool}

theorem require_eq_pure (h : c) (e : ε) : (require c e : Comp ε σ Unit) = pure () := by
  rw [h]
  rfl

theorem exec_bind (x : Comp ε σ α) (f : α → Comp ε σ β) (s : σ) : (x >>= f).exec s =
      match x.exec s with
      | (.ok a, s') => (f a).exec s'
      | (.error e, s') => (.error e, s') := by
  change (ExceptT.bindCont f (x s).1) (x s).2 = _
  unfold exec
  cases x s with
  | mk r s' => cases r <;> rfl

/-! ### Successful runs -/

/-- The computation started in `s` succeeds with `a` and leaves the state `s'`. -/
def Returns (x : Comp ε σ α) (s : σ) (a : α) (s' : σ) : Prop := x.exec s = (.ok a, s')

variable {a : α} {s s' : σ}

@[simp] theorem returns_pure_iff {b : α} : (pure a : Comp ε σ α).Returns s b s' ↔
    a = b ∧ s = s' := by
  simp [Returns]

variable {x : Comp ε σ α}

/-- A computation that always succeeds with one value and leaves the state alone. -/
theorem eq_pure_of_returns (h : ∀ s, x.Returns s a s) : x = pure a :=
  funext h

variable {e : ε}

@[simp] theorem returns_throw_iff : (throw e : Comp ε σ α).Returns s a s' ↔ False := by
  simp [Returns]

@[simp] theorem returns_ofExcept_iff {r : Except ε α} : (ofExcept r).Returns s a s' ↔
    r = .ok a ∧ s = s' := by
  simp [Returns]

@[simp] theorem returns_act_iff {f : σ → α × σ} :
    (act f : Comp ε σ α).Returns s a s' ↔ (f s).1 = a ∧ (f s).2 = s' := by
  simp [Returns]

theorem returns_of_toOption (h : (x.exec s).1.toOption = some a) : x.Returns s a (x.exec s).2 := by
  unfold Returns
  rcases hexec : x.exec s with ⟨_ | b, s'⟩
  · rw [hexec] at h
    cases h
  · rw [hexec] at h
    cases h
    rfl

variable {f : α → Comp ε σ β}

@[simp] theorem returns_bind_iff {b : β} {s'' : σ} :
    (x >>= f).Returns s b s'' ↔ ∃ a s', x.Returns s a s' ∧ (f a).Returns s' b s'' := by
  unfold Returns
  rw [exec_bind]
  rcases hx : x.exec s with ⟨r, s'⟩
  cases r with
  | error e => simp
  | ok a =>
    constructor
    · intro h
      exact ⟨a, s', rfl, h⟩
    · rintro ⟨a', t, h, hf⟩
      cases h
      exact hf

@[simp] theorem returns_require_iff {u : Unit} : (require c e : Comp ε σ Unit).Returns s u s' ↔
    c ∧ s = s' := by
  cases c <;> simp [require]

/-! ### Properties of results -/

/-- Whenever the computation succeeds, its result satisfies `P`. -/
def Yields (P : α → Prop) (x : Comp ε σ α) : Prop := ∀ s a s', x.Returns s a s' → P a

section Yields

variable {P : α → Prop} {Q : β → Prop}

theorem yields_pure (h : P a) : Yields P (pure a : Comp ε σ α) := by
  rintro s b s' hret
  rw [returns_pure_iff] at hret
  exact hret.1 ▸ h

theorem yields_throw (e : ε) : Yields P (throw e : Comp ε σ α) := by
  rintro s b s' hret
  rw [returns_throw_iff] at hret
  exact hret.elim

variable {x : Comp ε σ α}

theorem yields_bind (hx : Yields P x) (hf : ∀ a, P a → Yields Q (f a)) : Yields Q (x >>= f) := by
  rintro s b s' hret
  obtain ⟨a, t, ha, hb⟩ := returns_bind_iff.mp hret
  exact hf a (hx s a t ha) t b s' hb

theorem yields_ofExcept {r : Except ε α} (h : ∀ a, r = .ok a → P a) : Yields P
    (ofExcept r : Comp ε σ α) := by
  rintro s b s' hret
  exact h b (returns_ofExcept_iff.mp hret).1

theorem yields_ite {c : Prop} [Decidable c] {y : Comp ε σ α} (hx : c → Yields P x)
    (hy : ¬ c → Yields P y) : Yields P (if c then x else y) := by
  split
  next hc => exact hx hc
  next hc => exact hy hc

theorem Yields.imp {P' : α → Prop} (hx : Yields P x) (h : ∀ a, P a → P' a) : Yields P' x :=
  fun s a s' hret => h a (hx s a s' hret)

theorem yields_true (x : Comp ε σ α) : Yields (fun _ => True) x := fun _ _ _ _ => trivial

end Yields

/-! ### Properties of errors -/

/-- Whenever the computation fails, its error satisfies `E`. -/
def Fails (E : ε → Prop) (x : Comp ε σ α) : Prop := ∀ s e s', x.exec s = (.error e, s') → E e

section Fails

variable {E : ε → Prop}

theorem fails_pure (a : α) : Fails E (pure a : Comp ε σ α) := by
  rintro s e s' h
  cases h

theorem fails_act (f : σ → α × σ) : Fails E (act f : Comp ε σ α) := by
  rintro s e s' h
  cases h

theorem fails_throw (h : E e) : Fails E (throw e : Comp ε σ α) := by
  rintro s e' s' heq
  cases heq
  exact h

theorem fails_ofExcept {r : Except ε α} (h : ∀ e, r = .error e → E e) : Fails E
    (ofExcept r : Comp ε σ α) := by
  rintro s e s' heq
  exact h e (Prod.mk.inj heq).1

theorem fails_require (c : Bool) (h : E e) : Fails E (require c e : Comp ε σ Unit) := by
  cases c with
  | true => exact fails_pure ()
  | false => exact fails_throw h

theorem fails_bind (hx : Fails E x) (hf : ∀ a, Fails E (f a)) : Fails E (x >>= f) := by
  rintro s e s' heq
  rw [exec_bind] at heq
  cases hexec : x.exec s with
  | mk outcome t =>
    rw [hexec] at heq
    cases outcome with
    | ok a => exact hf a t e s' heq
    | error e' =>
      cases heq
      exact hx s e s' hexec

theorem fails_ite {c : Prop} [Decidable c] {y : Comp ε σ α} (hx : Fails E x) (hy : Fails E y) :
    Fails E (if c then x else y) := by
  split
  · exact hx
  · exact hy

end Fails

/-- An error of a sequence that its first part cannot have is one of its second part. -/
theorem exec_bind_error {E : ε → Prop} (hx : Fails E x) (he : ¬ E e) :
    (x >>= f).exec s = (.error e, s') ↔ ∃ a t, x.Returns s a t ∧ (f a).exec t = (.error e, s') := by
  rw [exec_bind]
  cases hexec : x.exec s with
  | mk outcome t =>
    cases outcome with
    | ok a =>
      constructor
      · exact fun h => ⟨a, t, hexec, h⟩
      rintro ⟨a', t', hreturns, h⟩
      rw [Returns, hexec] at hreturns
      cases hreturns
      exact h
    | error e' =>
      constructor
      · rintro h
        cases h
        exact absurd (hx s e s' hexec) he
      · rintro ⟨a', t', hreturns, -⟩
        rw [Returns, hexec] at hreturns
        cases hreturns

/-! ### Properties of the state -/

/-- The property `I` of the state survives the computation, whether or not it succeeds. -/
def Keeps (I : σ → Prop) (x : Comp ε σ α) : Prop := ∀ s, I s → I (x.exec s).2

variable {I : σ → Prop}

theorem Keeps.returns (hx : Keeps I x) (hs : I s) (h : x.Returns s a s') : I s' := by
  have := hx s hs
  rw [h] at this
  exact this

/-! ### Runs over related states -/

/-- From related states, the two computations have the same outcome and leave related states. -/
def Related (R : τ → σ → Prop) (x : Comp ε τ α) (y : Comp ε σ α) : Prop :=
  ∀ t s, R t s → (x.exec t).1 = (y.exec s).1 ∧ R (x.exec t).2 (y.exec s).2

variable {R : τ → σ → Prop} {y : Comp ε σ α}

theorem Related.returns_symm {x : Comp ε τ α} {t : τ}
    (hxy : Related R x y) (hR : R t s) (h : y.Returns s a s') : ∃ t',
    x.Returns t a t' ∧ R t' s' := by
  have := hxy t s hR
  rw [h] at this
  exact ⟨(x.exec t).2, Prod.ext this.1 rfl, this.2⟩

/-- A property of the state is kept by a computation that is related to itself over equal states
with the property. -/
theorem keeps_of_related (h : Related (fun t s => t = s ∧ I s) x x) :
    Keeps I x := fun s hs => (h s s ⟨rfl, hs⟩).2.2

/-! ### Runs over related states, until something happens -/

/-- Two computations over related states, of which the first one may at some point reach a state
with the property `B`. It does not leave `B` again, and as long as it is not in `B` the two behave
alike. -/
structure RelatedUntil (B : τ → Prop) (R : τ → σ → Prop) (x : Comp ε τ α)
    (y : Comp ε σ α) : Prop where
  keeps : Keeps B x
  related : ∀ t s, R t s → B (x.exec t).2 ∨
    ((x.exec t).1 = (y.exec s).1 ∧ R (x.exec t).2 (y.exec s).2)

variable {B : τ → Prop}

/-- If nothing can happen then the computations are related. -/
theorem RelatedUntil.of_false {x : Comp ε τ α} (h : RelatedUntil (fun _ => False) R x y) :
    Related R x y :=
  fun t s hR => (h.related t s hR).resolve_left id

theorem relatedUntil_pure (a : α) : RelatedUntil B R (pure a : Comp ε τ α) (pure a) :=
  ⟨fun _ h => h, fun _ _ h => .inr ⟨rfl, h⟩⟩

theorem relatedUntil_ofExcept (r : Except ε α) : RelatedUntil B R (ofExcept r : Comp ε τ α)
    (ofExcept r) :=
  ⟨fun _ h => h, fun _ _ h => .inr ⟨rfl, h⟩⟩

theorem relatedUntil_act {f : τ → α × τ} {g : σ → α × σ} (hB : ∀ t, B t → B (f t).2)
    (hfg : ∀ t s, R t s → B (f t).2 ∨ ((f t).1 = (g s).1 ∧ R (f t).2 (g s).2)) :
    RelatedUntil B R (act f : Comp ε τ α) (act g) := by
  refine ⟨hB, fun t s h => ?_⟩
  rcases hfg t s h with hB | ⟨hvalue, hR⟩
  · exact .inl hB
  · exact .inr ⟨congrArg Except.ok hvalue, hR⟩

variable {g : α → Comp ε σ β}

theorem relatedUntil_bind {x : Comp ε τ α} {f : α → Comp ε τ β}
    (hx : RelatedUntil B R x y) (hf : ∀ a, RelatedUntil B R (f a) (g a)) :
    RelatedUntil B R (x >>= f) (y >>= g) := by
  -- once the first part is in `B`, so is the whole
  have hafter : ∀ t, B (x.exec t).2 → B ((x >>= f).exec t).2 := by
    intro t hB
    rw [exec_bind]
    rcases hrun : x.exec t with ⟨_ | a, t'⟩
    · rwa [hrun] at hB
    · rw [hrun] at hB
      exact (hf a).keeps t' hB
  refine ⟨fun t hB => hafter t (hx.keeps t hB), fun t s hR => ?_⟩
  rcases hx.related t s hR with hB | ⟨hvalue, hR'⟩
  · exact .inl (hafter t hB)
  rw [exec_bind, exec_bind]
  rcases ht : x.exec t with ⟨r, t'⟩
  rcases hs : y.exec s with ⟨r', s'⟩
  rw [ht, hs] at hvalue hR'
  obtain rfl : r = r' := hvalue
  cases r with
  | error e => exact .inr ⟨rfl, hR'⟩
  | ok a => exact (hf a).related t' s' hR'

/-! ### Comparing computations -/

/-- Every successful run of `y` is also a successful run of `x`, with the same value and the same
final state. -/
def Permits (x y : Comp ε σ α) : Prop := ∀ s a s', y.Returns s a s' → x.Returns s a s'

theorem Permits.refl (x : Comp ε σ α) : Permits x x := fun _ _ _ h => h

theorem permits_bind (hx : Permits x y) (hf : ∀ a, Permits (f a) (g a)) : Permits (x >>= f)
    (y >>= g) := by
  intro s b s'' h
  simp only [returns_bind_iff] at h ⊢
  obtain ⟨a, s', hy, hg⟩ := h
  exact ⟨a, s', hx s a s' hy, hf a s' b s'' hg⟩

theorem permits_ofExcept {r r' : Except ε α} (h : Weaker r r') :
    Permits (ofExcept r : Comp ε σ α) (ofExcept r') := by
  intro s a s' hr
  simp only [returns_ofExcept_iff] at hr ⊢
  exact ⟨h a hr.1, hr.2⟩

theorem permits_require {d : Bool} (e e' : ε) (h : d → c) :
    Permits (require c e : Comp ε σ Unit) (require d e') := by
  intro s a s' hd
  simp only [returns_require_iff] at hd ⊢
  exact ⟨h hd.1, hd.2⟩

end Comp

end Tessera.Lib
