import Mathlib.Data.List.Basic

/-!
# Files that are written at positions

A file is the list of what it holds. Writing at a position replaces what is there, and fills the gap
if the file ends before it. `HoldsAt` says that a file holds something at a position: this is so for
what has just been written, and stays so while other ranges are written, the file is extended, or it
is cut off behind the range.
-/

namespace Tessera.Lib.FlatFile

open List

variable {α : Type}

/-- Write `xs` at a position. -/
def writeAt (fill : α) (file : List α) (pos : Nat) (xs : List α) : List α :=
  (file ++ List.replicate (pos - file.length) fill).take pos ++ (xs ++ file.drop (pos + xs.length))

/-- Extend the file to a size, if it is smaller. -/
def extend (fill : α) (file : List α) (size : Nat) : List α :=
  file ++ List.replicate (size - file.length) fill

/-- The file holds `xs` at a position. -/
def HoldsAt (file : List α) (pos : Nat) (xs : List α) : Prop :=
  ∀ i < xs.length, file[pos + i]? = xs[i]?

/-- Two ranges of positions have none in common. -/
def Apart (pos size pos' size' : Nat) : Prop := pos + size ≤ pos' ∨ pos' + size' ≤ pos

theorem Apart.symm {pos size pos' size' : Nat} (h : Apart pos size pos' size') :
    Apart pos' size' pos size := Or.symm h

variable {fill : α} {file xs ys : List α} {pos pos' : Nat}

private theorem length_before (fill : α) (file : List α) (pos : Nat) :
    ((file ++ List.replicate (pos - file.length) fill).take pos).length = pos := by
  rw [length_take, length_append, length_replicate]
  omega

theorem holdsAt_writeAt (fill : α) (file : List α) (pos : Nat) (xs : List α) :
    HoldsAt (writeAt fill file pos xs) pos xs := by
  intro i hi
  rw [writeAt, getElem?_append_right (by rw [length_before]; omega), length_before,
    Nat.add_sub_cancel_left, getElem?_append_left hi]

/-- What is outside the range stays as it is. -/
theorem getElem?_writeAt {j : Nat} (hj : j < file.length) (hout : j < pos ∨ pos + xs.length ≤ j) :
    (writeAt fill file pos xs)[j]? = file[j]? := by
  rcases hout with hlt | hge
  · rw [writeAt, getElem?_append_left (by rw [length_before]; exact hlt), getElem?_take_of_lt hlt,
      getElem?_append_left hj]
  rw [writeAt, getElem?_append_right (by rw [length_before]; omega), length_before,
    getElem?_append_right (by omega), getElem?_drop]
  congr 1
  omega

section

variable (h : HoldsAt file pos xs)

include h

/-- A position that holds something is in the file. -/
theorem HoldsAt.lt_length {i : Nat} (hi : i < xs.length) : pos + i < file.length := by
  by_contra hge
  have hnone := h i hi
  rw [getElem?_eq_none (Nat.not_lt.mp hge), getElem?_eq_getElem hi] at hnone
  cases hnone

theorem HoldsAt.writeAt (hapart : Apart pos xs.length pos' ys.length) :
    HoldsAt (writeAt fill file pos' ys) pos xs := by
  intro i hi
  rw [getElem?_writeAt (h.lt_length hi), h i hi]
  rcases hapart with hbefore | hbehind
  · exact .inl (by omega)
  · exact .inr (by omega)

theorem HoldsAt.extend (fill : α) (size : Nat) : HoldsAt (extend fill file size) pos xs := by
  intro i hi
  rw [FlatFile.extend, getElem?_append_left (h.lt_length hi), h i hi]

theorem HoldsAt.take {size : Nat} (hsize : pos + xs.length ≤ size) :
    HoldsAt (file.take size) pos xs := by
  intro i hi
  rw [getElem?_take_of_lt (by omega), h i hi]

/-- Behind the position the file starts with what it holds there. -/
theorem HoldsAt.drop_eq : file.drop pos = xs ++ file.drop (pos + xs.length) := by
  apply ext_getElem?
  intro i
  by_cases hi : i < xs.length
  · rw [getElem?_drop, h i hi, getElem?_append_left hi]
  · rw [getElem?_drop, getElem?_append_right (Nat.not_lt.mp hi), getElem?_drop]
    congr 1
    omega

end

/-- A part of what a file holds is held behind the part before it. -/
theorem HoldsAt.of_append (h : HoldsAt file pos (xs ++ ys)) : HoldsAt file
    (pos + xs.length) ys := by
  intro i hi
  have hpart := h (xs.length + i) (by rw [length_append]; omega)
  rwa [getElem?_append_right (Nat.le_add_right _ _), Nat.add_sub_cancel_left, ← Nat.add_assoc]
    at hpart

/-! ### Records one behind the other -/

/-- The records `placed` are in the first `size` places of the file, and none overlaps another. -/
structure Placed (size : Nat) (file : List α) (placed : List (Nat × List α)) : Prop where
  within : ∀ r ∈ placed, r.1 + r.2.length ≤ size
  holds : ∀ r ∈ placed, HoldsAt file r.1 r.2
  apart : placed.Pairwise fun r r' => Apart r.1 r.2.length r'.1 r'.2.length

variable {size : Nat} {placed : List (Nat × List α)}

theorem placed_nil (size : Nat) (file : List α) : Placed size file [] :=
  ⟨nofun, nofun, .nil⟩

section

variable (h : Placed size file placed)

include h

/-- A record that is written where the others end is behind all of them. -/
theorem Placed.write (fill : α) (xs : List α) :
    Placed (size + xs.length) (FlatFile.writeAt fill file size xs) ((size, xs) :: placed) := by
  have hbehind : ∀ r ∈ placed, Apart size xs.length r.1 r.2.length :=
    fun r hr => .inr (h.within r hr)
  refine ⟨?_, ?_, pairwise_cons.mpr ⟨hbehind, h.apart⟩⟩
  · intro r hr
    rcases mem_cons.mp hr with rfl | hr
    · exact Nat.le_refl _
    · exact Nat.le_add_right_of_le (h.within r hr)
  · intro r hr
    rcases mem_cons.mp hr with rfl | hr
    · exact holdsAt_writeAt fill file size xs
    · exact (h.holds r hr).writeAt (hbehind r hr).symm

theorem Placed.extend (fill : α) (n : Nat) : Placed size (FlatFile.extend fill file n) placed :=
  ⟨h.within, fun r hr => (h.holds r hr).extend fill n, h.apart⟩

/-- Cutting the file off where the records end keeps them. -/
theorem Placed.truncate (fill : α) : Placed size
    (FlatFile.extend fill (file.take size) size) placed :=
  ⟨h.within, fun r hr => ((h.holds r hr).take (h.within r hr)).extend fill size, h.apart⟩

end

end Tessera.Lib.FlatFile
