import Mathlib.Data.Nat.Bitwise
import Tessera.Script.Interpreter

/-!
# Script numbers have one minimal encoding

An encoding is the bytes of a magnitude with the sign placed on them. A magnitude has one string of
bytes that does not end in zero, and an encoding is minimal if its sign is placed on such a string.
-/

namespace Tessera.Script.ScriptNum

open List

/-! ### The top byte -/

private theorem and_sign_ne_zero_iff (top : UInt8) : top &&& 0x80 ≠ 0 ↔ 128 ≤ top.toNat := by
  have hand : (top &&& 0x80).toNat = (top.toNat.testBit 7).toNat * 2 ^ 7 :=
    (UInt8.toNat_and ..).trans (Nat.and_two_pow top.toNat 7)
  have hlt := top.toNat_lt
  rw [Ne, ← UInt8.toNat_inj, hand, Nat.testBit_eq_decide_div_mod_eq]
  simp
  omega

private theorem and_low_eq_zero_iff (top : UInt8) : (top &&& 0x7f == 0) ↔ top.toNat % 128 = 0 := by
  have hand : (top &&& 0x7f).toNat = top.toNat % 2 ^ 7 :=
    (UInt8.toNat_and ..).trans (Nat.and_two_pow_sub_one_eq_mod top.toNat 7)
  rw [beq_iff_eq, ← UInt8.toNat_inj, hand]
  rfl

private theorem toNat_or_sign {top : UInt8} (h : top.toNat < 128) : (top ||| 0x80).toNat =
    top.toNat + 128 := by
  have hor := Nat.two_pow_add_eq_or_of_lt (i := 7) h 1
  rw [UInt8.toNat_or, Nat.or_comm, add_comm]
  exact hor.symm

section Concat

variable (low : Bytes) (top : UInt8)

private theorem readLE_concat : readLE (low ++ [top]) = readLE low + 256 ^ low.length *
    top.toNat := by
  induction low with
  | nil => simp [readLE]
  | cons b low ih =>
    rw [cons_append, readLE, readLE, ih, length_cons, pow_succ', mul_add, mul_assoc, add_assoc]

private theorem setVch_concat : setVch (low ++ [top]) =
    if 128 ≤ top.toNat then -((readLE low + 256 ^ low.length * (top.toNat - 128) : Nat) : Int)
    else (readLE low + 256 ^ low.length * top.toNat : Nat) := by
  simp only [setVch, getLast?_concat, and_sign_ne_zero_iff, readLE_concat, length_append,
    length_singleton, Nat.add_sub_cancel]
  split
  · rw [mul_comm 0x80, Nat.add_sub_assoc (Nat.mul_le_mul_left _ ‹_›), Nat.mul_sub]
  · rfl

private theorem isPadded_concat_iff : isPadded (low ++ [top]) ↔
    top.toNat % 128 = 0 ∧ ∀ next ∈ low.getLast?, next.toNat < 128 := by
  rw [isPadded, reverse_append, reverse_singleton, singleton_append, ← head?_reverse]
  cases low.reverse with
  | nil => simpa using and_low_eq_zero_iff top
  | cons next rest =>
    have hnext : (next &&& 0x80 == 0) ↔ next.toNat < 128 := by
      rw [beq_iff_eq, ← not_le, ← and_sign_ne_zero_iff, not_not]
    simp only [Bool.and_eq_true, and_low_eq_zero_iff, hnext, head?_cons,
      Option.mem_some_iff, forall_eq']

private theorem addSign_concat (neg : Bool) : addSign neg (low ++ [top]) =
    if 128 ≤ top.toNat then low ++ [top] ++ [if neg then 0x80 else 0]
    else if neg then low ++ [top ||| 0x80] else low ++ [top] := by
  simp [addSign, and_sign_ne_zero_iff]

end Concat

/-! ### Magnitudes -/

/-- The bytes of a magnitude do not end in zero. -/
def Trimmed (m : Bytes) : Prop := m.getLast? ≠ some 0

variable {m vch : Bytes} {fuel n : Nat} {neg : Bool}

private theorem trimmed_concat_iff {low : Bytes} {top : UInt8} : Trimmed (low ++ [top]) ↔
    0 < top.toNat := by
  rw [Trimmed, getLast?_concat, Ne, Option.some.injEq, ← UInt8.toNat_inj, Nat.pos_iff_ne_zero]
  rfl

private theorem Trimmed.readLE_pos (h : Trimmed m) (hne : m ≠ []) : 0 < readLE m := by
  obtain ⟨low, top, rfl⟩ : ∃ low top, m = low ++ [top] := ⟨_, _, (dropLast_append_getLast hne).symm⟩
  rw [readLE_concat]
  exact Nat.add_pos_right _ (Nat.mul_pos (Nat.pow_pos (by decide)) (trimmed_concat_iff.mp h))

private theorem magnitude_spec (h : n < 256 ^ fuel) : readLE (magnitude fuel n) = n ∧
    Trimmed (magnitude fuel n) := by
  induction fuel generalizing n with
  | zero => exact ⟨(Nat.lt_one_iff.mp h).symm, by simp [Trimmed, magnitude]⟩
  | succ fuel ih =>
    obtain ⟨hread, htrimmed⟩ := ih (n := n / 256) (by omega)
    have htop : (UInt8.ofNat n).toNat = n % 256 := UInt8.toNat_ofNat'
    rw [magnitude]
    split
    next hzero => exact ⟨hzero.symm, by simp [Trimmed]⟩
    rw [readLE]
    refine ⟨by omega, ?_⟩
    cases hrest : magnitude fuel (n / 256) with
    | nil =>
      rw [hrest, readLE] at hread
      exact (show Trimmed ([] ++ [UInt8.ofNat n]) from trimmed_concat_iff.mpr (by omega))
    | cons b rest =>
      rw [hrest] at htrimmed
      exact htrimmed

/-- The bytes of a number are the only ones that do not end in zero. -/
theorem Trimmed.magnitude_readLE (h : Trimmed m) (hlen : m.length ≤ fuel) : magnitude fuel
    (readLE m) = m := by
  induction m generalizing fuel with
  | nil => cases fuel <;> rfl
  | cons b rest ih =>
    obtain ⟨fuel, rfl⟩ := Nat.exists_eq_add_one_of_ne_zero (Nat.ne_zero_of_lt hlen)
    have hrest : Trimmed rest := by
      intro hlast
      rw [Trimmed, getLast?_cons, hlast] at h
      exact h rfl
    have hb := b.toNat_lt
    have hbyte : UInt8.ofNat (b.toNat + 256 * readLE rest) = b := by
      rw [← UInt8.toNat_inj, UInt8.toNat_ofNat']
      omega
    have hpos := ne_of_gt (h.readLE_pos (cons_ne_nil _ _))
    have hdiv : (b.toNat + 256 * readLE rest) / 256 = readLE rest := by omega
    rw [magnitude, if_neg hpos, readLE, hbyte, hdiv, ih hrest (Nat.le_of_succ_le_succ hlen)]

/-! ### Encodings -/

/-- A sign that is placed on the bytes of a magnitude is read back. -/
theorem setVch_addSign (neg : Bool) (m : Bytes) :
    setVch (addSign neg m) = if neg then -(readLE m : Int) else readLE m := by
  rcases eq_nil_or_concat' m with rfl | ⟨low, top, rfl⟩
  · cases neg <;> rfl
  rw [addSign_concat]
  split
  · rw [setVch_concat]
    cases neg <;> simp
  next hlow =>
    have hsign := toNat_or_sign (not_le.mp hlow)
    cases neg with
    | false => simp [setVch_concat, hlow, readLE_concat]
    | true => simp [setVch_concat, hsign, readLE_concat]

private theorem Trimmed.isPadded_addSign (h : Trimmed m) : isPadded (addSign neg m) = false := by
  rcases eq_nil_or_concat' m with rfl | ⟨low, top, rfl⟩
  · rfl
  have hpos := trimmed_concat_iff.mp h
  rw [addSign_concat, Bool.eq_false_iff, Ne]
  split
  next htop =>
    rw [isPadded_concat_iff, getLast?_concat]
    rintro ⟨-, hnext⟩
    exact absurd (hnext top rfl) (not_lt.mpr htop)
  next hlow =>
    have hsign := toNat_or_sign (not_le.mp hlow)
    split <;> rw [isPadded_concat_iff] <;> omega

private theorem exists_addSign (h : isPadded vch = false) : ∃ neg m,
    vch = addSign neg m ∧ Trimmed m ∧ m.length ≤ vch.length ∧ (m = [] → neg = false) := by
  rcases eq_nil_or_concat' vch with rfl | ⟨low, top, rfl⟩
  · exact ⟨false, [], rfl, nofun, le_refl 0, fun _ => rfl⟩
  rw [Bool.eq_false_iff, Ne, isPadded_concat_iff] at h
  have hlt := top.toNat_lt
  by_cases hzero : top.toNat % 128 = 0
  · -- the top byte has the sign only, and there is a byte below it that needs all its bits
    obtain ⟨next, hnext, hbig⟩ : ∃ next ∈ low.getLast?, 128 ≤ next.toNat := by
      by_contra hno
      exact h ⟨hzero, fun next hnext => not_le.mp fun hbig => hno ⟨next, hnext, hbig⟩⟩
    obtain ⟨low', rfl⟩ := getLast?_eq_some_iff.mp hnext
    refine ⟨decide (128 ≤ top.toNat), low' ++ [next], ?_, trimmed_concat_iff.mpr (by omega),
      by simp, by simp⟩
    have htop : top = if decide (128 ≤ top.toNat) then 0x80 else 0 := by
      by_cases hneg : 128 ≤ top.toNat
      · simp only [hneg, ← UInt8.toNat_inj]
        exact (by omega : top.toNat = 128)
      · simp only [hneg, ← UInt8.toNat_inj]
        exact (by omega : top.toNat = 0)
    rw [addSign_concat, if_pos hbig, ← htop]
  · have hlow : (UInt8.ofNat (top.toNat % 128)).toNat = top.toNat % 128 := by
      rw [UInt8.toNat_ofNat']
      omega
    refine ⟨decide (128 ≤ top.toNat), low ++ [UInt8.ofNat (top.toNat % 128)], ?_,
      trimmed_concat_iff.mpr (by omega), by simp, by simp⟩
    rw [addSign_concat, if_neg (by omega)]
    have hsign := toNat_or_sign (show (UInt8.ofNat (top.toNat % 128)).toNat < 128 by omega)
    by_cases hneg : 128 ≤ top.toNat
    · have htop : UInt8.ofNat (top.toNat % 128) ||| 0x80 = top := UInt8.toNat_inj.mp (by omega)
      simp [hneg, htop]
    · have htop : UInt8.ofNat (top.toNat % 128) = top := UInt8.toNat_inj.mp (by omega)
      simp [hneg, htop]

private theorem natAbs_signed (neg : Bool) (n : Nat) :
    (if neg then -(n : Int) else n).natAbs = n := by
  cases neg <;> simp

/-- A minimal encoding of at most eight bytes is what its number is serialized to. -/
theorem serialize_setVch (h : isPadded vch = false) (hlen : vch.length ≤ 8) :
    serialize (setVch vch) = vch := by
  obtain ⟨neg, m, rfl, htrimmed, hle, hnil⟩ := exists_addSign h
  rw [setVch_addSign, serialize, natAbs_signed, htrimmed.magnitude_readLE (hle.trans hlen)]
  by_cases hm : m = []
  · rw [hm]
    rfl
  have hpos := htrimmed.readLE_pos hm
  congr 1
  cases neg with
  | false => simp
  | true => simp [hpos]

variable {value : Int}

private theorem magnitude_eight_spec (h : value.natAbs < 2 ^ 63) :
    readLE (magnitude 8 value.natAbs) = value.natAbs ∧ Trimmed (magnitude 8 value.natAbs) :=
  magnitude_spec (h.trans (by decide))

private theorem setVch_serialize (h : value.natAbs < 2 ^ 63) :
    setVch (serialize value) = value := by
  rw [serialize, setVch_addSign, (magnitude_eight_spec h).1]
  by_cases hneg : value < 0
  · simp only [hneg, decide_true, if_true]
    omega
  · simp only [hneg, decide_false, Bool.false_eq_true, if_false]
    omega

/-! ### Lengths -/

private theorem two_mul_natAbs_setVch_lt (vch : Bytes) : 2 * (setVch vch).natAbs <
    256 ^ vch.length := by
  rcases eq_nil_or_concat' vch with rfl | ⟨low, top, rfl⟩
  · decide
  have hlow := readLE_lt low
  have htop := top.toNat_lt
  have hbits {t : Nat} (h : t < 128) : 2 * (readLE low + 256 ^ low.length * t) < 256 ^
      (low ++ [top]).length := by
    have := Nat.mul_le_mul_left (256 ^ low.length) (Nat.le_of_lt_succ h)
    rw [length_append, length_singleton]
    omega
  rw [setVch_concat]
  split
  · rw [Int.natAbs_neg]
    exact hbits (by omega)
  · rw [Int.natAbs_natCast]
    exact hbits (by omega)

private theorem Trimmed.pow_le (h : Trimmed m) (hne : m ≠ []) (neg : Bool) :
    256 ^ ((addSign neg m).length - 1) ≤ 2 * readLE m := by
  obtain ⟨low, top, rfl⟩ : ∃ low top, m = low ++ [top] := ⟨_, _, (dropLast_append_getLast hne).symm⟩
  have hpos := trimmed_concat_iff.mp h
  rw [addSign_concat, readLE_concat]
  split
  next hbig =>
    have := Nat.mul_le_mul_left (256 ^ low.length) hbig
    simp only [length_append, length_singleton, Nat.add_sub_cancel]
    omega
  · have := Nat.mul_le_mul_left (256 ^ low.length) hpos
    split <;> simp <;> omega

/-- No encoding of a number is shorter than that of `serialize`. -/
theorem length_serialize_le {k : Nat} (h : value.natAbs < 2 ^ 63)
    (hk : 2 * value.natAbs < 256 ^ k) : (serialize value).length ≤ k := by
  obtain ⟨hread, htrimmed⟩ := magnitude_eight_spec h
  by_cases hm : magnitude 8 value.natAbs = []
  · rw [serialize, hm]
    exact Nat.zero_le k
  have hpow := htrimmed.pow_le hm (decide (value < 0))
  rw [hread] at hpow
  have := (Nat.pow_lt_pow_iff_right (by decide)).mp (hpow.trans_lt hk)
  rw [serialize]
  omega

/-! ### The constructor and the opcodes -/

private theorem ofVch_true_iff {size : Nat} (hlen : vch.length ≤ size) :
    (ofVch vch true size).isSome ↔ isPadded vch = false := by
  rw [ofVch, if_neg (not_lt.mpr hlen)]
  cases isPadded vch <;> simp

theorem ofVch_serialize {size : Nat} (h : value.natAbs < 2 ^ 63)
    (hlen : (serialize value).length ≤ size) : ofVch (serialize value) true size = some value := by
  have hpadded : isPadded (serialize value) = false := (magnitude_eight_spec h).2.isPadded_addSign
  rw [ofVch, if_neg (not_lt.mpr hlen), hpadded, setVch_serialize h]
  rfl

private theorem natAbs_lt_of_readOperandNum {flags : ScriptFlags} {x : Bytes} {a : Int}
    (h : readOperandNum flags x = .ok a) : a.natAbs < 2 ^ 31 := by
  have hread : ofVch x (decide (.minimalData ∈ flags)) defaultMaxNumSize = some a := by
    unfold readOperandNum readNum at h
    split at h
    next heq => rwa [Except.ok.inj h] at heq
    · cases h
  have hsize : x.length ≤ 4 ∧ setVch x = a := by
    unfold ofVch at hread
    split at hread
    · cases hread
    next hsize =>
      split at hread
      · cases hread
      · exact ⟨not_lt.mp hsize, Option.some.inj hread⟩
  have hlt := two_mul_natAbs_setVch_lt x
  have hpow : 256 ^ x.length ≤ 256 ^ 4 := Nat.pow_le_pow_right (by decide) hsize.1
  omega

private theorem natAbs_unaryNum_le (op : Opcode) (a : Int) : (unaryNum op a).natAbs ≤
    a.natAbs + 1 := by
  unfold unaryNum
  split <;> (try split) <;> omega

private theorem natAbs_binaryNum_le (op : Opcode) (a b : Int) :
    (binaryNum op a b).natAbs ≤ a.natAbs + b.natAbs + 1 := by
  unfold binaryNum
  dsimp only
  split <;> first | exact hbool _ | (try split) <;> omega

/-- A number of 63 bits has one minimal encoding, which is the shortest that there is; a string of
at most eight bytes is accepted as minimal if it is the encoding of its number; and what the numeric
opcodes compute from their operands can be read back. -/
theorem serialize_canonical : (∀ value : Int, value.natAbs < 2 ^ 63 → (serialize value).length ≤ 8 ∧
      (∀ size, (serialize value).length ≤ size → ofVch (serialize value) true size = some value) ∧
      ∀ vch, setVch vch = value → (serialize value).length ≤ vch.length) ∧
    (∀ vch size, vch.length ≤ size → size ≤ 8 →
      ((ofVch vch true size).isSome = true ↔ vch = serialize (setVch vch))) ∧
    ∀ flags op x y a b, readOperandNum flags x = .ok a → readOperandNum flags y = .ok b →
      ∀ value ∈ [unaryNum op a, binaryNum op a b], value.natAbs < 2 ^ 32 ∧
      (serialize value).length ≤ 5 ∧ ofVch (serialize value) true 5 = some value := by
  refine ⟨fun value h => ⟨length_serialize_le h (by omega), fun size => ofVch_serialize h, ?_⟩, ?_,
    ?_⟩
  · rintro vch rfl
    exact length_serialize_le h (two_mul_natAbs_setVch_lt vch)
  · intro vch size hlen hsize
    rw [ofVch_true_iff hlen]
    refine ⟨fun hpadded => (serialize_setVch hpadded (hlen.trans hsize)).symm, fun heq => ?_⟩
    have hlt := two_mul_natAbs_setVch_lt vch
    have hpow : 256 ^ vch.length ≤ 256 ^ 8 := Nat.pow_le_pow_right (by decide) (hlen.trans hsize)
    rw [← ofVch_true_iff hlen, heq, ofVch_serialize (by omega) (heq ▸ hlen)]
    rfl
  · intro flags op x y a b ha hb value hvalue
    have ha := natAbs_lt_of_readOperandNum ha
    have hb := natAbs_lt_of_readOperandNum hb
    have hunary := natAbs_unaryNum_le op a
    have hbinary := natAbs_binaryNum_le op a b
    have hlt : value.natAbs < 2 ^ 32 := by
      rcases mem_pair.mp hvalue with rfl | rfl <;> omega
    have hlen : (serialize value).length ≤ 5 := length_serialize_le (by omega) (by omega)
    exact ⟨hlt, hlen, ofVch_serialize (by omega) hlen⟩

/-- The sum of two operands of four bytes can take five. -/
theorem serialize_canonical_add :
    ofVch (serialize (binaryNum .add (2 ^ 31 - 1) (2 ^ 31 - 1))) true 5 =
      some (binaryNum .add (2 ^ 31 - 1) (2 ^ 31 - 1)) :=
  (serialize_canonical.2.2 ∅ .add [255, 255, 255, 127] [255, 255, 255, 127] _ _ rfl rfl _
    (mem_cons_of_mem _ mem_cons_self)).2.2

/-- A string of nine bytes that passes the check for minimal encodings, although no 64-bit number is
serialized to it. -/
theorem ofVch_nine_bytes : ofVch (List.replicate 8 0 ++ [1]) true 9 = some (2 ^ 64) ∧
    serialize (2 ^ 64) ≠ List.replicate 8 0 ++ [1] := by
  decide

end Tessera.Script.ScriptNum
