import Mathlib.Algebra.Ring.Int.Defs
import Mathlib.Algebra.Ring.Nat
import Mathlib.Data.List.Basic
import Mathlib.Order.Nat

/-!
# Depth-first search over selections

A search walks over the selections of the first `size` indices. A selection is kept as the list of
its indices, the last one first. Each round adds the next index, evaluates the selection, and
decides where to go on:

* `explore` adds the next index;
* `shift` leaves the last index out, and goes on behind it;
* `cut` also leaves the one before it out.

Behind an index that was left out, indices that tie with it are skipped. An evaluation may leave out
selections only if they are covered by the best result so far; then a search that ends has covered
every selection.

## Main definitions

* `run` : the search, with a limit on the number of rounds.
* `Ahead` : the selections that are still to come.
* `Prunes` : what an evaluation may leave out.

## Main results

* `Prunes.run_covers` : a search that ends has covered every selection.
-/

namespace Tessera.Lib.SubsetSearch

open List

variable {next : Nat} {stack rest : List Nat} {i : Nat}

/-- Where to go on after an evaluation. -/
inductive Decision where
  | explore
  | shift
  | cut
  deriving DecidableEq

/-- How a search ends: there is nothing left, with some rounds to spare; all rounds are used; or an
evaluation has failed. -/
inductive Outcome (β : Type) where
  | completed (best : β) (left : Nat)
  | stopped (best : β)
  | failed
  deriving DecidableEq

/-- A state that keeps a selection, the last index first. -/
structure Walker (σ : Type) where
  selected : σ → List Nat
  push : σ → Nat → σ
  pop : σ → σ
  selected_push : ∀ s i, selected (push s i) = i :: selected s
  selected_pop : ∀ s, selected (pop s) = (selected s).tail

section Search

variable {σ β : Type} (W : Walker σ) (size : Nat) (ties : Nat → Bool)
  (eval : σ → β → Option (Decision × β))

/-- The first index from `next` on that does not tie with the one before it, among the next `n + 1`
ones. -/
def skipTies : Nat → Nat → Option Nat
  | 0, next => if ties next then none else some next
  | n + 1, next => if ties next then skipTies n (next + 1) else some next

/-- Leave the last index out, and go on behind it, or behind the one before it if only ties are
left. -/
def shiftFrom : List Nat → σ → Option (σ × Nat)
  | [], _ => none
  | last :: rest, s =>
    match skipTies ties (size - 1 - (last + 1)) (last + 1) with
    | some next => some (W.pop s, next)
    | none => shiftFrom rest (W.pop s)

/-- Where to go on after the index `next` was added. Nothing is left to add behind the last index.
-/
def move (s : σ) (next : Nat) (d : Decision) : Option (σ × Nat) :=
  match if next + 1 = size then .cut else d with
  | .explore => some (s, next + 1)
  | .shift => shiftFrom W size ties (W.selected s) s
  | .cut => shiftFrom W size ties (W.selected (W.pop s)) (W.pop s)

/-- The search, for a number of rounds. -/
def run : Nat → σ → Nat → β → Outcome β
  | 0, _, _, best => .stopped best
  | rounds + 1, s, next, best =>
    match eval (W.push s next) best with
    | none => .failed
    | some (d, best) =>
      if rounds = 0 then .stopped best
      else
        match move W size ties (W.push s next) next d with
        | none => .completed best rounds
        | some (s, next) => run rounds s next best

end Search

/-! ### Selections that are still to come -/

/-- A list of distinct indices, the last one first. -/
def IsSelection (size : Nat) (S : List Nat) : Prop := S.Pairwise (· > ·) ∧ ∀ i ∈ S, i < size

/-- The selections that a search comes to from the selection `stack` on, if `next` is added next:
those that add indices from `next` on, and those that leave out an index that was selected. -/
inductive Ahead : List Nat → Nat → List Nat → Prop
  | here {stack T : List Nat} {next : Nat} (hne : T ≠ []) (hT : ∀ i ∈ T, next ≤ i) :
    Ahead stack next (T ++ stack)
  | back {rest S : List Nat} {last next : Nat} (h : Ahead rest (last + 1) S) :
    Ahead (last :: rest) next S

section Ahead

variable {size last m : Nat} {S T : List Nat}

theorem IsSelection.of_append (h : IsSelection size (T ++ stack)) : IsSelection size stack :=
  ⟨(pairwise_append.mp h.1).2.1, fun i hi => h.2 i (mem_append_right T hi)⟩

theorem IsSelection.left (h : IsSelection size (T ++ stack)) : IsSelection size T :=
  ⟨(pairwise_append.mp h.1).1, fun i hi => h.2 i (mem_append_left stack hi)⟩

/-- Indices that are added are behind those that were selected before. -/
theorem IsSelection.lt_of_mem (h : IsSelection size (T ++ last :: rest)) (hi : i ∈ T) : last < i :=
  (pairwise_append.mp h.1).2.2 i hi last mem_cons_self

theorem isSelection_cons :
    IsSelection size (i :: stack) ↔ IsSelection size stack ∧ i < size ∧ ∀ j ∈ stack, j < i := by
  unfold IsSelection
  rw [pairwise_cons, forall_mem_cons]
  constructor
  · rintro ⟨⟨hall, hpair⟩, hi, hsize⟩
    exact ⟨⟨hpair, hsize⟩, hi, hall⟩
  · rintro ⟨⟨hpair, hsize⟩, hi, hall⟩
    exact ⟨⟨hall, hpair⟩, hi, hsize⟩

/-- Every selection is still to come when a search starts. -/
theorem ahead_start (hne : S ≠ []) : Ahead [] 0 S := by
  have h : Ahead [] 0 (S ++ []) := .here hne fun i _ => Nat.zero_le i
  rwa [append_nil] at h

/-- A selection of indices from `next` on has `next` as its first index, or only indices behind it.
-/
theorem first_or_behind (hsel : IsSelection size T) (hT : ∀ i ∈ T, next ≤ i) (hne : T ≠ []) :
    (∃ T', T = T' ++ [next] ∧ ∀ i ∈ T', next < i) ∨ ∀ i ∈ T, next < i := by
  -- the first index of a selection is the last one of the list
  obtain ⟨T', first, rfl⟩ : ∃ T' first, T = T' ++ [first] :=
    ⟨T.dropLast, T.getLast hne, (dropLast_append_getLast hne).symm⟩
  have hbehind : ∀ i ∈ T', first < i := fun i hi => hsel.lt_of_mem hi
  rcases eq_or_lt_of_le (hT first (by simp)) with rfl | hlt
  · exact .inl ⟨T', rfl, hbehind⟩
  refine .inr fun i hi => ?_
  rcases mem_append.mp hi with hi | hi
  · exact hlt.trans (hbehind i hi)
  · rwa [mem_singleton.mp hi]

/-- What is to come adds the next index, or leaves it out. -/
theorem Ahead.next_or_behind (h : Ahead stack next S) (hsel : IsSelection size S) :
    (∃ T, S = T ++ next :: stack ∧ ∀ i ∈ T, next < i) ∨ Ahead stack (next + 1) S := by
  cases h with
  | here hne hT =>
    rcases first_or_behind hsel.left hT hne with ⟨T', rfl, hT'⟩ | hbehind
    · exact .inl ⟨T', by rw [append_assoc]; rfl, hT'⟩
    · exact .inr (.here hne hbehind)
  | back h => exact .inr (.back h)

/-- No index is behind the last one. -/
theorem IsSelection.false_of_size (hsel : IsSelection size (T ++ stack)) (hne : T ≠ [])
    (hT : ∀ i ∈ T, next ≤ i) (hnext : size ≤ next) : False := by
  obtain ⟨i, hi⟩ := exists_mem_of_ne_nil T hne
  exact absurd (hsel.left.2 i hi) (not_lt.mpr (hnext.trans (hT i hi)))

theorem not_ahead_nil (hsel : IsSelection size S) (hnext : size ≤ next) : ¬ Ahead [] next S := by
  rintro ⟨hne, hT⟩
  exact hsel.false_of_size hne hT hnext

/-- A selection that still has everything that was selected is to come only if it adds indices from
`next` on. -/
theorem Ahead.of_append (h : Ahead stack next (T ++ stack)) (hsel : IsSelection size (T ++ stack)) :
    ∀ i ∈ T, next ≤ i := by
  generalize hS : T ++ stack = S at h
  induction h generalizing T with
  | here hne hT =>
    obtain rfl := append_cancel_right hS
    exact hT
  | back h ih =>
    rename_i rest S last next
    -- the index `last` is among those that were to be left out
    have hlast : last + 1 ≤ last := by
      refine ih (T := T ++ [last]) ?_ ?_ last (by simp)
      · rw [append_assoc]
        exact hsel
      · rw [append_assoc]
        exact hS
    exact absurd hlast (by omega)

end Ahead

/-! ### Searches that leave nothing out -/

section Covers

variable {σ β : Type} (W : Walker σ) (size : Nat) (ties : Nat → Bool)
  (eval : σ → β → Option (Decision × β))
  (Feasible : List Nat → Prop) (Covers : β → List Nat → Prop) (Good : β → Prop)

/-- What a search leaves out is covered by the best result so far. -/
structure Prunes : Prop where
  /-- What is known of the best result stays true. -/
  good : ∀ {s best d best'}, IsSelection size (W.selected s) → W.selected s ≠ [] → Good best →
    eval s best = some (d, best') → Good best'
  keeps : ∀ {s best d best'}, IsSelection size (W.selected s) → Good best → eval s best =
    some (d, best') → ∀ S, Covers best S → Covers best' S
  /-- The selection that is evaluated. -/
  self : ∀ {s best d best'}, IsSelection size (W.selected s) → W.selected s ≠ [] → Good best →
    eval s best = some (d, best') → Feasible (W.selected s) → Covers best' (W.selected s)
  /-- The selections that add to it, if it is not explored. -/
  shift : ∀ {s best d best'}, IsSelection size (W.selected s) → W.selected s ≠ [] → Good best →
    eval s best = some (d, best') → d ≠ .explore → ∀ T, T ≠ [] → IsSelection size
      (T ++ W.selected s) →
    Feasible (T ++ W.selected s) → Covers best' (T ++ W.selected s)
  /-- The selections that replace its last index, if it is cut. -/
  cut : ∀ {s best d best' last rest}, W.selected s = last :: rest → IsSelection size
    (last :: rest) →
    Good best → eval s best = some (d, best') → d = .cut → ∀ T, T ≠ [] → (∀ i ∈ T, last < i) →
    IsSelection size (T ++ rest) → Feasible (T ++ rest) → Covers best' (T ++ rest)
  /-- A tie can be replaced by the index before it. -/
  tie : ∀ {best m T rest}, ties (m + 1) = true → IsSelection size (T ++ (m + 1) :: rest) →
    IsSelection size (T ++ m :: rest) → Feasible (T ++ (m + 1) :: rest) →
    Feasible (T ++ m :: rest) ∧ (Covers best (T ++ m :: rest) → Covers best (T ++ (m + 1) :: rest))

/-- Every selection is still to come, or covered. -/
def Covered (stack : List Nat) (next : Nat) (best : β) : Prop :=
  ∀ S, IsSelection size S → S ≠ [] → Feasible S → Ahead stack next S ∨ Covers best S

/-- Where a search stands: the selection is one of indices before the next one. -/
structure Stands (size : Nat) (stack : List Nat) (next : Nat) : Prop where
  isSelection : IsSelection size stack
  before : ∀ i ∈ stack, i < next
  inside : next < size

/-- Nothing was left out where a search goes on, and all is covered where it ends. -/
def Leads (best : β) (state : Option (σ × Nat)) : Prop :=
  (∀ s next, state = some (s, next) →
    Stands size (W.selected s) next ∧ Covered size Feasible Covers (W.selected s) next best) ∧
  (state = none → ∀ S, IsSelection size S → S ≠ [] → Feasible S → Covers best S)

variable {W size ties eval Feasible Covers Good} {m : Nat}

theorem IsSelection.replace {T : List Nat} (h : IsSelection size (T ++ (m + 1) :: rest))
    (hrest : ∀ i ∈ rest, i < m) : IsSelection size (T ++ m :: rest) := by
  have hcons := isSelection_cons.mp h.of_append
  have hm : IsSelection size (m :: rest) := isSelection_cons.mpr ⟨hcons.1, by omega, hrest⟩
  refine ⟨pairwise_append.mpr ⟨h.left.1, hm.1, fun i hi j hj => ?_⟩, fun i hi => ?_⟩
  · have hlt := h.lt_of_mem hi
    rcases mem_cons.mp hj with rfl | hj
    · omega
    · have := hrest j hj
      omega
  · rcases mem_append.mp hi with hi | hi
    · exact h.left.2 i hi
    · exact hm.2 i hi

variable {best : β}

/-- An index that ties with one that was left out can be left out too. -/
theorem Prunes.skip_tie (h : Prunes W size ties eval Feasible Covers Good)
    (hcovered : Covered size Feasible Covers rest (m + 1) best) (hrest : ∀ i ∈ rest, i < m)
    (htie : ties (m + 1)) : Covered size Feasible Covers rest (m + 2) best := by
  intro S hsel hne hfeasible
  rcases hcovered S hsel hne hfeasible with hahead | hcovers
  · rcases hahead.next_or_behind hsel with ⟨T, rfl, -⟩ | hahead
    · -- the selection with the other index is not to come any more, and so it is covered
      have hsel' := hsel.replace hrest
      obtain ⟨hfeasible', hcovers⟩ : Feasible (T ++ m :: rest) ∧
          (Covers best (T ++ m :: rest) → Covers best (T ++ (m + 1) :: rest)) :=
          h.tie htie hsel hsel' hfeasible
      rcases hcovered _ hsel' (by simp) hfeasible' with hahead | hcovers'
      · have hsplit : T ++ m :: rest = (T ++ [m]) ++ rest := by rw [append_assoc]; rfl
        rw [hsplit] at hahead hsel'
        have hle := hahead.of_append hsel' m (by simp)
        exact absurd hle (by omega)
      · exact .inr (hcovers hcovers')
    · exact .inl hahead
  · exact .inr hcovers

/-- Skipping ties leaves nothing out. -/
theorem Prunes.skip (h : Prunes W size ties eval Feasible Covers Good) {n : Nat}
    (hcovered : Covered size Feasible Covers rest (m + 1) best) (hrest : ∀ i ∈ rest, i < m)
    (hn : n = size - 1 - (m + 1)) (hm : m + 1 < size) :
    (∀ next, skipTies ties n (m + 1) = some next →
      next < size ∧ (∀ i ∈ rest, i < next) ∧ Covered size Feasible Covers rest next best) ∧
    (skipTies ties n (m + 1) = none → Covered size Feasible Covers rest size best) := by
  -- the case in which the index does not tie is the same in both rounds
  have hstay : ∀ next, some (m + 1) = some next →
      next < size ∧ (∀ i ∈ rest, i < next) ∧ Covered size Feasible Covers rest next best := by
    rintro next ⟨⟩
    exact ⟨hm, fun i hi => (hrest i hi).trans (Nat.lt_succ_self m), hcovered⟩
  induction n generalizing m with
  | zero =>
    rw [skipTies]
    by_cases htie : ties (m + 1)
    · have hskip := h.skip_tie hcovered hrest htie
      have hsize : m + 2 = size := by omega
      rw [hsize] at hskip
      rw [if_pos htie]
      exact ⟨nofun, fun _ => hskip⟩
    · rw [if_neg htie]
      exact ⟨hstay, nofun⟩
  | succ n ih =>
    rw [skipTies]
    by_cases htie : ties (m + 1)
    · have hskip := h.skip_tie hcovered hrest htie
      have hrest' : ∀ i ∈ rest, i < m + 1 := fun i hi => (hrest i hi).trans (Nat.lt_succ_self m)
      rw [if_pos htie]
      refine ih hskip hrest' (by omega) (by omega) ?_
      rintro next ⟨⟩
      exact ⟨by omega, fun i hi => (hrest' i hi).trans (Nat.lt_succ_self _), hskip⟩
    · rw [if_neg htie]
      exact ⟨hstay, nofun⟩

variable {s : σ}

/-- Shifting leaves nothing out. -/
theorem Prunes.shiftFrom (h : Prunes W size ties eval Feasible Covers Good)
    (hs : W.selected s = stack) (hstack : IsSelection size stack)
    (hlast : ∀ i ∈ stack, i + 1 < size) (hcovered : Covered size Feasible Covers stack size best) :
    Leads W size Feasible Covers best (SubsetSearch.shiftFrom W size ties stack s) := by
  induction stack generalizing s with
  | nil =>
    refine ⟨nofun, fun _ S hsel hne hfeasible => ?_⟩
    rcases hcovered S hsel hne hfeasible with hahead | hcovers
    · exact absurd hahead (not_ahead_nil hsel (le_refl size))
    · exact hcovers
  | cons last rest ih =>
    obtain ⟨hrest, -, hbefore⟩ := isSelection_cons.mp hstack
    have hpop : W.selected (W.pop s) = rest := by
      rw [W.selected_pop, hs, tail_cons]
    have hbehind : Covered size Feasible Covers rest (last + 1) best := by
      intro S hsel hne hfeasible
      refine (hcovered S hsel hne hfeasible).imp_left fun hahead => ?_
      cases hahead with
      | here hT hbehind => exact (hsel.false_of_size hT hbehind (le_refl size)).elim
      | back h => exact h
    obtain ⟨hsome, hnone⟩ := h.skip hbehind hbefore rfl (hlast last mem_cons_self)
    rw [shiftFrom]
    cases hskip : skipTies ties (size - 1 - (last + 1)) (last + 1) with
    | some next =>
      obtain ⟨hinside, hbefore', hcovered'⟩ := hsome next hskip
      refine ⟨?_, nofun⟩
      rintro s' next' ⟨⟩
      rw [hpop]
      exact ⟨⟨hrest, hbefore', hinside⟩, hcovered'⟩
    | none => exact ih hpop hrest (fun i hi => hlast i (mem_cons_of_mem last hi)) (hnone hskip)

theorem selected_push_ne_nil (s : σ) (next : Nat) : W.selected (W.push s next) ≠ [] := by
  rw [W.selected_push]
  exact cons_ne_nil _ _

section Round

variable (h : Prunes W size ties eval Feasible Covers Good) {s : σ} {best best' : β} {d : Decision}
  (hstands : Stands size (W.selected s) next) (hgood : Good best)
  (heval : eval (W.push s next) best = some (d, best'))
  (hcovered : Covered size Feasible Covers (W.selected s) next best)

include hstands in
theorem Stands.push : IsSelection size (W.selected (W.push s next)) := by
  rw [W.selected_push]
  exact isSelection_cons.mpr ⟨hstands.isSelection, hstands.inside, hstands.before⟩

include hstands in
theorem Stands.le_of_push (hi : i ∈ W.selected (W.push s next)) : i ≤ next := by
  rw [W.selected_push] at hi
  rcases mem_cons.mp hi with rfl | hi
  · exact Nat.le_refl i
  · exact Nat.le_of_lt (hstands.before i hi)

include h hstands hgood heval hcovered

/-- After a round, a selection adds to the one that was evaluated, leaves its last index out, or is
covered. -/
theorem Prunes.round {S : List Nat} (hsel : IsSelection size S) (hne : S ≠ [])
    (hfeasible : Feasible S) :
    (∃ T, T ≠ [] ∧ (∀ i ∈ T, next < i) ∧ S = T ++ next :: W.selected s) ∨ Ahead (W.selected s)
      (next + 1) S ∨ Covers best' S := by
  rcases hcovered S hsel hne hfeasible with hahead | hcovers
  · rcases hahead.next_or_behind hsel with ⟨T, rfl, hT⟩ | hahead
    · by_cases hT0 : T = []
      · subst hT0
        rw [← W.selected_push] at hfeasible ⊢
        exact .inr (.inr (h.self hstands.push (selected_push_ne_nil s next) hgood heval hfeasible))
      · exact .inl ⟨T, hT0, hT, rfl⟩
    · exact .inr (.inl hahead)
  · exact .inr (.inr (h.keeps hstands.push hgood heval S hcovers))

theorem Prunes.explore (hnext : next + 1 ≠ size) : Stands size
    (W.selected (W.push s next)) (next + 1) ∧
    Covered size Feasible Covers (W.selected (W.push s next)) (next + 1) best' := by
  refine ⟨⟨hstands.push, fun i hi => ?_, ?_⟩, fun S hsel hne hfeasible => ?_⟩
  · exact Nat.lt_succ_of_le (hstands.le_of_push hi)
  · have := hstands.inside
    omega
  rw [W.selected_push]
  rcases h.round hstands hgood heval hcovered hsel hne hfeasible with ⟨T, hT0, hT, rfl⟩ |
    hahead | hcovers
  · exact .inl (.here hT0 hT)
  · exact .inl (.back hahead)
  · exact .inr hcovers

/-- If a selection is not explored, all that adds to it is covered. -/
theorem Prunes.shifted (hd : d ≠ .explore) :
    Covered size Feasible Covers (W.selected (W.push s next)) size best' := by
  intro S hsel hne hfeasible
  have hpush := W.selected_push s next
  rcases h.round hstands hgood heval hcovered hsel hne hfeasible with ⟨T, hT0, -, rfl⟩ |
    hahead | hcovers
  · rw [← hpush] at hsel hfeasible ⊢
    exact .inr (h.shift hstands.push (selected_push_ne_nil s next) hgood heval hd T hT0
      hsel hfeasible)
  · rw [hpush]
    exact .inl (.back hahead)
  · exact .inr hcovers

/-- If a selection is cut, or nothing is left to add, all that replaces its last index is covered.
-/
theorem Prunes.cutOff (hd : d = .cut ∨ next + 1 = size) :
    Covered size Feasible Covers (W.selected s) size best' := by
  intro S hsel hne hfeasible
  have hpush := W.selected_push s next
  rcases h.round hstands hgood heval hcovered hsel hne hfeasible with ⟨T, hT0, hT, rfl⟩ |
    hahead | hcovers
  · rcases hd with rfl | hsize
    · rw [← hpush] at hsel hfeasible ⊢
      exact .inr (h.shift hstands.push (selected_push_ne_nil s next) hgood heval (by decide) T hT0
        hsel hfeasible)
    · exact (hsel.false_of_size hT0 hT (le_of_eq hsize.symm)).elim
  · generalize hstack : W.selected s = stack at hahead
    cases hahead with
    | here hT0 hT =>
      rename_i T
      rcases hd with hd | hsize
      · have hcons : IsSelection size (next :: stack) := by
          rw [← hstack, ← hpush]
          exact hstands.push
        rw [hstack] at hpush
        exact .inr (h.cut hpush hcons hgood heval hd T hT0 hT hsel hfeasible)
      · exact (hsel.false_of_size hT0 hT (le_of_eq hsize.symm)).elim
    | back hahead => exact .inl (.back hahead)
  · exact .inr hcovers

/-- A round leaves nothing out. -/
theorem Prunes.move :
    Leads W size Feasible Covers best' (SubsetSearch.move W size ties (W.push s next) next d) := by
  have hpop : W.selected (W.pop (W.push s next)) = W.selected s := by
    rw [W.selected_pop, W.selected_push, tail_cons]
  have hcut : ∀ hd : d = .cut ∨ next + 1 = size, Leads W size Feasible Covers best'
      (SubsetSearch.shiftFrom W size ties (W.selected s) (W.pop (W.push s next))) := fun hd =>
    h.shiftFrom hpop hstands.isSelection
      (fun i hi => lt_of_le_of_lt (hstands.before i hi) hstands.inside)
      (h.cutOff hstands hgood heval hcovered hd)
  rw [SubsetSearch.move, hpop]
  split_ifs with hsize
  · exact hcut (.inr hsize)
  cases hd : d with
  | explore =>
    refine ⟨?_, nofun⟩
    rintro s' next' ⟨⟩
    exact h.explore hstands hgood heval hcovered hsize
  | shift =>
    refine h.shiftFrom rfl hstands.push (fun i hi => ?_) ?_
    · have := hstands.le_of_push hi
      have := hstands.inside
      omega
    · exact h.shifted hstands hgood heval hcovered (by rw [hd]; decide)
  | cut => exact hcut (.inl hd)

end Round

/-- A rule for runs: what holds at the start of every round decides how the search ends. -/
theorem run_rule {I : σ → Nat → β → Prop} {Q : Outcome β → Prop}
    (hstopped : ∀ {s next best}, I s next best → Q (.stopped best))
    (hfailed : ∀ {s next best}, I s next best → eval (W.push s next) best = none → Q .failed)
    (hround : ∀ {s next best d best'}, I s next best → eval (W.push s next) best = some (d, best') →
      Q (.stopped best') ∧ (SubsetSearch.move W size ties (W.push s next) next d = none → ∀ left,
        Q (.completed best' left)) ∧
      ∀ s' next', SubsetSearch.move W size ties (W.push s next) next d = some (s', next') →
      I s' next' best')
    (rounds : Nat) (h : I s next best) : Q (run W size ties eval rounds s next best) := by
  induction rounds generalizing s next best with
  | zero => exact hstopped h
  | succ rounds ih =>
    rw [run]
    cases heval : eval (W.push s next) best with
    | none => exact hfailed h heval
    | some evaluated =>
      obtain ⟨d, best'⟩ := evaluated
      obtain ⟨hstop, hended, hnext⟩ := hround h heval
      dsimp only
      split
      · exact hstop
      · cases hmove : move W size ties (W.push s next) next d with
        | none => exact hended hmove _
        | some state => exact ih (hnext state.1 state.2 hmove)

variable {rounds : Nat} {result : β}

theorem start_covered (hstart : W.selected s = []) (hsize : 0 < size) :
    Stands size (W.selected s) 0 ∧ Covered size Feasible Covers (W.selected s) 0 best := by
  rw [hstart]
  exact ⟨⟨⟨.nil, nofun⟩, nofun, hsize⟩, fun S _ hne _ => .inl (ahead_start hne)⟩

/-- A search from the start that ends has covered every selection. -/
theorem Prunes.run_covers (h : Prunes W size ties eval Feasible Covers Good)
    {left : Nat} (hstart : W.selected s = []) (hsize : 0 < size) (hgood : Good best)
    (hrun : run W size ties eval rounds s 0 best = .completed result left) :
    Good result ∧ ∀ S, IsSelection size S → S ≠ [] → Feasible S → Covers result S := by
  obtain ⟨hstands, hcovered⟩ := start_covered hstart hsize
  refine run_rule (I := fun s next best => Stands size (W.selected s) next ∧ Good best ∧
    Covered size Feasible Covers (W.selected s) next best)
      (Q := fun outcome => outcome = .completed result left → _)
    (fun _ heq => (by cases heq)) (fun _ _ heq => (by cases heq)) ?_ rounds
      ⟨hstands, hgood, hcovered⟩ hrun
  rintro s next best d best' ⟨hstands, hgood, hcovered⟩ heval
  have hgood' := h.good hstands.push (selected_push_ne_nil s next) hgood heval
  obtain ⟨hsome, hnone⟩ := h.move hstands hgood heval hcovered
  refine ⟨fun heq => (by cases heq), fun hmove _ heq => ?_, fun s' next' hmove => ?_⟩
  · cases heq
    exact ⟨hgood', hnone hmove⟩
  · exact ⟨(hsome s' next' hmove).1, hgood', (hsome s' next' hmove).2⟩

/-! ### Evaluations that do not fail -/

variable {s' : σ}

theorem shiftFrom_suffix (hs : W.selected s = stack)
    (h : shiftFrom W size ties stack s = some (s', next)) : W.selected s' <:+ stack.tail := by
  induction stack generalizing s with
  | nil => cases h
  | cons last rest ih =>
    have hpop : W.selected (W.pop s) = rest := by
      rw [W.selected_pop, hs, tail_cons]
    rw [shiftFrom] at h
    cases hskip : skipTies ties (size - 1 - (last + 1)) (last + 1) with
    | some next' =>
      rw [hskip] at h
      cases h
      rw [hpop]
      exact suffix_refl rest
    | none =>
      rw [hskip] at h
      exact (ih hpop h).trans (tail_suffix rest)

/-- Only exploring keeps the last index. -/
theorem move_cases {next' : Nat} {d : Decision} (h : move W size ties s next d = some (s', next')) :
    (d = .explore ∧ s' = s) ∨ W.selected s' <:+ (W.selected s).tail := by
  have hcut : shiftFrom W size ties (W.selected (W.pop s)) (W.pop s) = some (s', next') →
      W.selected s' <:+ (W.selected s).tail := fun h => by
    rw [← W.selected_pop]
    exact (shiftFrom_suffix rfl h).trans (tail_suffix _)
  rw [move] at h
  by_cases hsize : next + 1 = size
  · rw [if_pos hsize] at h
    exact .inr (hcut h)
  rw [if_neg hsize] at h
  cases d with
  | explore =>
    cases h
    exact .inl ⟨rfl, rfl⟩
  | shift => exact .inr (shiftFrom_suffix rfl h)
  | cut => exact .inr (hcut h)

/-- A search does not fail if an evaluation succeeds whenever it adds to a selection that fits, and
only selections that fit are explored. -/
theorem Prunes.run_ne_failed (h : Prunes W size ties eval Feasible Covers Good)
    (Fits : List Nat → Prop) (hsuffix : ∀ S T, Fits S → T <:+ S → Fits T)
    (htotal : ∀ s best, IsSelection size (W.selected s) → W.selected s ≠ [] →
      Fits (W.selected s).tail → Good best → eval s best ≠ none)
    (hexplore : ∀ s best best', Good best → eval s best = some (.explore, best') →
      Fits (W.selected s))
    (hstart : W.selected s = []) (hsize : 0 < size) (hgood : Good best) (hfits : Fits []) :
    run W size ties eval rounds s 0 best ≠ .failed := by
  obtain ⟨hstands, hcovered⟩ := start_covered hstart hsize
  have htail : ∀ s next, Fits (W.selected s) → Fits (W.selected (W.push s next)).tail := by
    intro s next hfits
    rwa [W.selected_push]
  refine run_rule (I := fun s next best => Stands size (W.selected s) next ∧ Good best ∧
    Covered size Feasible Covers (W.selected s) next best ∧ Fits (W.selected s))
      (Q := (· ≠ .failed))
    (fun _ heq => (by cases heq)) ?_ ?_ rounds ⟨hstands, hgood, hcovered, hstart ▸ hfits⟩
  · rintro s next best ⟨hstands, hgood, -, hfits⟩ heval
    exact absurd heval (htotal _ _ hstands.push (selected_push_ne_nil s next)
      (htail s next hfits) hgood)
  rintro s next best d best' ⟨hstands, hgood, hcovered, hfits⟩ heval
  refine ⟨fun heq => (by cases heq), fun _ _ heq => (by cases heq), fun s' next' hmove => ?_⟩
  obtain ⟨hstands', hcovered'⟩ := (h.move hstands hgood heval hcovered).1 s' next' hmove
  refine ⟨hstands', h.good hstands.push (selected_push_ne_nil s next) hgood heval, hcovered', ?_⟩
  -- an exploration stays where it fits, every other move goes back to a part of what fitted
  rcases move_cases hmove with ⟨rfl, rfl⟩ | hsuff
  · exact hexplore _ _ _ hgood heval
  · exact hsuffix _ _ (htail s next hfits) hsuff

/-! ### Searches that are cut short -/

/-- The best result of a search that did not fail, whether or not it came to its end. -/
def Outcome.found : Outcome β → Option β
  | .completed best _ => some best
  | .stopped best => some best
  | .failed => none

variable (Good) in
/-- What every evaluation keeps is true of the best result, however the search ends. -/
theorem run_found
    (hgood : ∀ {s best d best'}, IsSelection size (W.selected s) → W.selected s ≠
      [] → Good best →
      eval s best = some (d, best') → Good best')
    (hstands : Stands size (W.selected s) next) (hbest : Good best)
    (hrun : (run W size ties eval rounds s next best).found = some result) : Good result := by
  -- nothing has to be covered if nothing is feasible
  have hprunes : Prunes W size ties eval (fun _ => False) (fun _ _ => True) Good :=
    ⟨hgood, fun _ _ _ _ _ => trivial, fun _ _ _ _ _ => trivial, fun _ _ _ _ _ _ _ _ _ => trivial,
      fun _ _ _ _ _ _ _ _ _ _ => trivial, fun _ _ _ hfeasible => hfeasible.elim⟩
  refine run_rule (I := fun s next best => Stands size (W.selected s) next ∧ Good best)
    (Q := fun outcome => outcome.found = some result → Good result) ?_
      (fun _ _ heq => (by cases heq)) ?_
    rounds ⟨hstands, hbest⟩ hrun
  · rintro _ _ best ⟨-, hbest⟩ ⟨⟩
    exact hbest
  rintro s next best d best' ⟨hstands, hbest⟩ heval
  have hbest' := hgood hstands.push (selected_push_ne_nil s next) hbest heval
  refine ⟨?_, ?_, fun s' next' hmove => ⟨?_, hbest'⟩⟩
  · rintro ⟨⟩
    exact hbest'
  · rintro - - ⟨⟩
    exact hbest'
  · exact ((hprunes.move hstands hbest heval fun _ _ _ h => h.elim).1 s' next' hmove).1

end Covers

end Tessera.Lib.SubsetSearch
