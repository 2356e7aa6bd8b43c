import Mathlib.Data.List.Basic

/-!
# Reading values off a stream

A `Reader` takes a value off the front of a list of tokens or fails. `Reads r ts x` says that the
tokens `ts` are an encoding of `x` for the reader `r`, whatever follows them; encodings are put
together with `Reads.bind` in the same way in which readers are. `Takes r E` says the converse: what
the reader takes is an encoding, in the sense of `E`, of what it makes of it.
-/

namespace Tessera.Lib

open List

/-- A reader of an `α` from a stream of `τ`. -/
abbrev Reader (ε τ α : Type) := StateT (List τ) (Except ε) α

/-- The reader takes exactly the tokens `ts`, and makes `x` of them. -/
def Reads {ε τ α : Type} (r : Reader ε τ α) (ts : List τ) (x : α) : Prop :=
  ∀ rest, r.run (ts ++ rest) = .ok (x, rest)

namespace Reader

variable {ε τ α β : Type}

/-- Read the next `n` tokens. -/
def take (eof : ε) (n : Nat) : Reader ε τ (List τ) := fun ts =>
  if ts.length < n then .error eof else .ok (ts.take n, ts.drop n)

/-- Read a value `n` times. -/
def many (r : Reader ε τ α) : Nat → Reader ε τ (List α)
  | 0 => pure []
  | n + 1 => do
    let x ← r
    let xs ← many r n
    return x :: xs

/-- Fail if the condition does not hold. -/
def check (c : Bool) (e : ε) : Reader ε τ Unit := if c then pure () else throw e

end Reader

section Reads

variable {ε τ α β : Type}

theorem reads_pure (x : α) : Reads (pure x : Reader ε τ α) [] x := fun _ => rfl

variable {r : Reader ε τ α} {ts : List τ} {x : α}

theorem Reads.bind {f : α → Reader ε τ β} {us : List τ} {y : β}
    (hr : Reads r ts x) (hf : Reads (f x) us y) : Reads (r >>= f) (ts ++ us) y := by
  intro rest
  rw [StateT.run_bind, append_assoc, hr]
  exact hf rest

theorem Reads.map {f : α → β} (hr : Reads r ts x) : Reads (f <$> r) ts (f x) := by
  intro rest
  rw [StateT.run_map, hr]
  rfl

/-- A reader whose last step returns a value made of what it read. -/
theorem Reads.bind_pure (hr : Reads r ts x) (f : α → β) : Reads (r >>= fun y => pure (f y))
    ts (f x) := by
  have hbind : Reads (r >>= fun y => pure (f y)) (ts ++ []) (f x) :=
    bind (f := fun y => pure (f y)) hr (reads_pure (f x))
  rwa [append_nil] at hbind

theorem reads_check {c : Bool} (hc : c) (e : ε) :
    Reads (Reader.check c e : Reader ε τ Unit) [] () := by
  intro rest
  rw [Reader.check, if_pos hc]
  rfl

theorem reads_take (eof : ε) (ts : List τ) : Reads (Reader.take eof ts.length) ts ts := by
  intro rest
  change (if (ts ++ rest).length < ts.length then _ else _) = _
  rw [if_neg (by simp), take_left, drop_left]

theorem reads_many {enc : α → List τ} {xs : List α}
    (h : ∀ x ∈ xs, Reads r (enc x) x) : Reads (r.many xs.length) (xs.flatMap enc) xs := by
  induction xs with
  | nil => exact reads_pure []
  | cons x xs ih =>
    have hxs := ih fun y hy => h y (mem_cons_of_mem x hy)
    exact (h x mem_cons_self).bind (hxs.bind_pure (cons x))

/-- A list is determined by the encodings of its items, even if nothing tells how many there are. -/
theorem eq_of_flatMap_eq {enc : α → List τ} {xs ys : List α} (hne : ∀ x, enc x ≠ [])
    (hx : ∀ x ∈ xs, Reads r (enc x) x) (hy : ∀ y ∈ ys, Reads r (enc y) y)
    (h : xs.flatMap enc = ys.flatMap enc) : xs = ys := by
  induction xs generalizing ys with
  | nil =>
    cases ys with
    | nil => rfl
    | cons y ys => exact absurd (append_eq_nil_iff.mp h.symm).1 (hne y)
  | cons x xs ih =>
    cases ys with
    | nil => exact absurd (append_eq_nil_iff.mp h).1 (hne x)
    | cons y ys =>
      rw [forall_mem_cons] at hx hy
      have hread := hx.1 (xs.flatMap enc)
      rw [← flatMap_cons, h, flatMap_cons, hy.1] at hread
      obtain ⟨rfl, hrest⟩ := Prod.mk.inj (Except.ok.inj hread)
      rw [ih hx.2 hy.2 hrest.symm]

end Reads

section Takes

variable {ε τ α β : Type}

/-- What the reader takes, and what it makes of it, are in the relation. -/
def Takes (r : Reader ε τ α) (E : List τ → α → Prop) : Prop :=
  ∀ ts x rest, r.run ts = .ok (x, rest) → ∃ used, ts = used ++ rest ∧ E used x

variable {r : Reader ε τ α} {E F : List τ → α → Prop}

theorem Takes.mono (hr : Takes r E) (h : ∀ used x, E used x → F used x) : Takes r F := by
  intro ts x rest hrun
  obtain ⟨used, hts, hused⟩ := hr ts x rest hrun
  exact ⟨used, hts, h used x hused⟩

theorem takes_pure (x : α) : Takes (pure x : Reader ε τ α) fun used y => used = [] ∧ y = x := by
  intro ts y rest hrun
  cases hrun
  exact ⟨[], rfl, rfl, rfl⟩

theorem Reads.run_bind {ts : List τ} {x : α} (hr : Reads r ts x) {f : α → Reader ε τ β}
    {rest : List τ} : (r >>= f).run (ts ++ rest) = (f x).run rest := by
  rw [StateT.run_bind, hr]
  rfl

theorem run_bind_of_error {ts : List τ} {e : ε} (h : r.run ts = .error e) {f : α → Reader ε τ β} :
    (r >>= f).run ts = .error e := by
  rw [StateT.run_bind, h]
  rfl

/-- A reader takes what its parts take one after the other. -/
theorem Takes.bind {f : α → Reader ε τ β} {G : α → List τ → β → Prop} (hr : Takes r E)
    (hf : ∀ x, Takes (f x) (G x)) : Takes (r >>= f) fun used y => ∃ x us vs, used = us ++ vs ∧
    E us x ∧ G x vs y := by
  intro ts y rest hrun
  rw [StateT.run_bind] at hrun
  cases hfirst : r.run ts with
  | error e =>
    rw [hfirst] at hrun
    cases hrun
  | ok p =>
    rw [hfirst] at hrun
    obtain ⟨us, hts, hus⟩ := hr ts p.1 p.2 hfirst
    obtain ⟨vs, hrest, hvs⟩ := hf p.1 p.2 y rest hrun
    exact ⟨us ++ vs, by rw [hts, hrest, append_assoc], p.1, us, vs, rfl, hus, hvs⟩

theorem Takes.map {f : α → β} (hr : Takes r E) : Takes (f <$> r) fun used y => ∃ x,
    E used x ∧ y = f x := by
  refine (hr.bind fun x => takes_pure (f x)).mono ?_
  rintro used y ⟨x, us, vs, rfl, hus, rfl, rfl⟩
  exact ⟨x, by rwa [append_nil], rfl⟩

theorem takes_take (eof : ε) (n : Nat) :
    Takes (Reader.take eof n : Reader ε τ (List τ)) fun used x => used = x ∧ x.length = n := by
  intro ts x rest hrun
  change (if ts.length < n then _ else _) = _ at hrun
  split at hrun
  · cases hrun
  next hlen =>
    cases hrun
    exact ⟨_, (take_append_drop n ts).symm, rfl, length_take_of_le (Nat.not_lt.mp hlen)⟩

theorem takes_check (c : Bool) (e : ε) :
    Takes (Reader.check c e : Reader ε τ Unit) fun used _ => used = [] ∧ c := by
  unfold Reader.check
  split
  next hc => exact (takes_pure ()).mono fun _ _ h => ⟨h.1, hc⟩
  · nofun

theorem Takes.many {enc : α → List τ} {Q : α → Prop} (hr : Takes r fun used x => used = enc x ∧ Q x)
    (n : Nat) :
    Takes (r.many n) fun used xs => used = xs.flatMap enc ∧ xs.length = n ∧ ∀ x ∈ xs, Q x := by
  induction n with
  | zero =>
    refine (takes_pure []).mono ?_
    rintro used xs ⟨rfl, rfl⟩
    exact ⟨rfl, rfl, nofun⟩
  | succ n ih =>
    refine (hr.bind fun x => ih.bind fun xs => takes_pure (x :: xs)).mono ?_
    rintro used ys ⟨x, us, vs, rfl, ⟨rfl, hx⟩, xs, vs, ws, rfl, ⟨rfl, rfl, hxs⟩, rfl, rfl⟩
    exact ⟨by rw [append_nil, flatMap_cons], rfl, forall_mem_cons.mpr ⟨hx, hxs⟩⟩

end Takes

end Tessera.Lib
