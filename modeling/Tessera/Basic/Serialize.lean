import Tessera.Basic.Bytes
import Tessera.Lib.Reader

/-!
# Reading serialized data

The reading side of `serialize.h`: compact sizes, vectors behind their length, and the
variable-length integers of the coin database. A stream is the list of the bytes that are left in
it, and an exception is the message of it.

The writers put out what the readers take: `reads_compactSize`, `reads_varInt` and `reads_vector`. A
compact size is only read from the form that it is written in: `takes_compactSize`.
-/

namespace Tessera

open Lib List

variable {n max : Nat}

/-- A stream that is read. -/
abbrev ByteReader (α : Type) := Reader String UInt8 α

def maxSize : Nat := 0x02000000

def readBytes (n : Nat) : ByteReader Bytes := Reader.take "end of data" n

/-- Read a byte (`ser_readdata8`). -/
def readByte : ByteReader UInt8 := fun bs =>
  match bs with
  | [] => .error "end of data"
  | b :: rest => .ok (b, rest)

/-- Read an integer of `n` bytes, least significant byte first (`ser_readdata16`, ...). -/
def readInt (n : Nat) : ByteReader Nat := readLE <$> readBytes n

/-- An integer of `width` bytes that a shorter form could not hold. -/
def readLong (width least : Nat) : ByteReader Nat := do
  let nSizeRet ← readInt width
  Reader.check (decide (least ≤ nSizeRet)) "non-canonical ReadCompactSize()"
  return nSizeRet

/-- The size that a first byte announces. -/
def readSizeAfter (chSize : UInt8) : ByteReader Nat :=
  if chSize.toNat < 253 then pure chSize.toNat
  else if chSize = 253 then readLong 2 253
  else if chSize = 254 then readLong 4 0x10000
  else readLong 8 0x100000000

/-- `ReadCompactSize`, with the range check. -/
def readCompactSize : ByteReader Nat := do
  let chSize ← readByte
  let nSizeRet ← readSizeAfter chSize
  Reader.check (decide (nSizeRet ≤ maxSize)) "ReadCompactSize(): size too large"
  return nSizeRet

/-- Read a vector (`VectorFormatter`). -/
def readVector {α : Type} (r : ByteReader α) : ByteReader (List α) := do
  let size ← readCompactSize
  r.many size

/-! ### Variable-length integers -/

/-- The bytes of `WriteVarInt` that have the high bit set: those of a number that more digits
follow. The buffer of the source has room for `len` of them. -/
def varIntDigits : Nat → Nat → Bytes
  | 0, _ => []
  | len + 1, n =>
    (if n ≤ 0x7f then [] else varIntDigits len (n / 128 - 1)) ++ [UInt8.ofNat (n % 128 + 128)]

/-- `WriteVarInt`. A number of 64 bits takes ten bytes at most. -/
def writeVarInt (n : Nat) : Bytes :=
  (if n ≤ 0x7f then [] else varIntDigits 9 (n / 128 - 1)) ++ [UInt8.ofNat (n % 128)]

/-- The loop of `ReadVarInt`, with the number so far and the largest one of its type. -/
def readVarIntFrom (max n : Nat) : Bytes → Except String (Nat × Bytes)
  | [] => .error "end of data"
  | chData :: rest =>
    if max / 128 < n then .error "ReadVarInt(): size too large"
    else
      let n := n * 128 + chData.toNat % 128
      if 128 ≤ chData.toNat then
        if n = max then .error "ReadVarInt(): size too large" else readVarIntFrom max (n + 1) rest
      else .ok (n, rest)

/-- `ReadVarInt` for a type whose largest number is `max`. -/
def readVarInt (max : Nat) : ByteReader Nat := readVarIntFrom max 0

/-- The largest number of 32 bits. -/
def uint32Max : Nat := 2 ^ 32 - 1

/-- The largest number of 64 bits. -/
def uint64Max : Nat := 2 ^ 64 - 1

/-! ### Round trips -/

theorem reads_bytes (bs : Bytes) : Reads (readBytes bs.length) bs bs := reads_take _ bs

theorem reads_byte (b : UInt8) : Reads readByte [b] b := fun _ => rfl

theorem reads_int {x : Nat} (h : x < 256 ^ n) : Reads (readInt n) (writeLE n x) x := by
  have hread : Reads (readInt n) (writeLE n x) (readLE (writeLE n x)) := by
    have := (reads_bytes (writeLE n x)).map (f := readLE)
    rwa [writeLE_length] at this
  rwa [readLE_writeLE h] at hread

private theorem reads_long {width least x : Nat} (hx : x < 256 ^ width) (hleast : least ≤ x) :
    Reads (readLong width least) (writeLE width x) x := by
  have hread : Reads (readLong width least) (writeLE width x ++ ([] ++ [])) x :=
    (reads_int hx).bind ((reads_check (decide_eq_true hleast) _).bind (reads_pure x))
  rwa [append_nil, append_nil] at hread

/-- The forms of a size differ in the first byte, which tells the reader how to go on. -/
theorem exists_reads_sizeAfter (h : n < 2 ^ 64) :
    ∃ b bs, writeCompactSize n = b :: bs ∧ Reads (readSizeAfter b) bs n := by
  unfold writeCompactSize
  split_ifs with hlt
  · refine ⟨_, _, rfl, ?_⟩
    have hb : (UInt8.ofNat n).toNat = n := by simp; omega
    rw [readSizeAfter, hb, if_pos hlt]
    exact reads_pure n
  all_goals exact ⟨_, _, rfl, reads_long (by omega) (by omega)⟩

/-- A size in range is read as it was written. -/
theorem reads_compactSize (h : n ≤ maxSize) : Reads readCompactSize (writeCompactSize n) n := by
  obtain ⟨b, bs, hsize, hbs⟩ := exists_reads_sizeAfter (lt_of_le_of_lt h (by decide))
  have hread : Reads readCompactSize ([b] ++ (bs ++ ([] ++ []))) n :=
    (reads_byte b).bind (hbs.bind ((reads_check (decide_eq_true h) _).bind (reads_pure n)))
  rwa [append_nil, append_nil, singleton_append, ← hsize] at hread

/-- A larger size is not read. -/
theorem readCompactSize_of_lt (h : maxSize < n) (hn : n < 2 ^ 64) (rest : Bytes) :
    readCompactSize.run (writeCompactSize n ++ rest) =
      .error "ReadCompactSize(): size too large" := by
  obtain ⟨b, bs, hsize, hbs⟩ := exists_reads_sizeAfter hn
  rw [hsize]
  change (readSizeAfter b).run (bs ++ rest) >>= _ = _
  rw [hbs]
  change (do Reader.check (decide (n ≤ maxSize)) _; return n : ByteReader Nat).run rest = _
  rw [decide_eq_false (not_le.mpr h)]
  rfl

/-- A vector is read as it was written if its items are. -/
theorem reads_vector {α : Type} {r : ByteReader α} {enc : α → Bytes} {xs : List α}
    (hsize : xs.length ≤ maxSize) (h : ∀ x ∈ xs, Reads r (enc x) x) :
    Reads (readVector r) (writeCompactSize xs.length ++ xs.flatMap enc) xs :=
  (reads_compactSize hsize).bind (reads_many h)

private theorem readVarIntFrom_digit {m : Nat} (hm : m = n / 128) (hn : n < max) (rest : Bytes) :
    readVarIntFrom max m ([UInt8.ofNat (n % 128 + 128)] ++ rest) = readVarIntFrom max
      (n + 1) rest := by
  have hbyte : (UInt8.ofNat (n % 128 + 128)).toNat = n % 128 + 128 := by simp; omega
  have hsum : m * 128 + n % 128 = n := by omega
  simp only [singleton_append, readVarIntFrom, hbyte, Nat.add_mod_right, Nat.mod_mod, hsum]
  rw [if_neg (by omega), if_pos (by omega), if_neg (by omega)]

private theorem readVarIntFrom_digits {len : Nat} (hlen : n < 128 ^ (len + 1)) (hn : n < max)
    (rest : Bytes) :
    readVarIntFrom max 0 (varIntDigits (len + 1) n ++ rest) = readVarIntFrom max (n + 1) rest := by
  induction len generalizing n rest with
  | zero =>
    have hle : n ≤ 0x7f := by omega
    rw [varIntDigits, if_pos hle]
    exact readVarIntFrom_digit (by omega) hn rest
  | succ len ih =>
    rw [varIntDigits, append_assoc]
    split
    · exact readVarIntFrom_digit (by omega) hn rest
    · have hmore : n / 128 - 1 + 1 = n / 128 := by omega
      rw [ih (by rw [pow_succ] at hlen; omega) (by omega), hmore]
      exact readVarIntFrom_digit rfl hn rest

/-- A number of the type is read as it was written. -/
theorem reads_varInt (hn : n ≤ max) (hmax : max ≤ uint64Max) :
    Reads (readVarInt max) (writeVarInt n) n := by
  intro rest
  have hbyte : (UInt8.ofNat (n % 128)).toNat = n % 128 := by simp; omega
  have hlast : readVarIntFrom max (n / 128) ([UInt8.ofNat (n % 128)] ++ rest) = .ok (n, rest) := by
    have hsum : n / 128 * 128 + n % 128 = n := by omega
    simp only [singleton_append, readVarIntFrom, hbyte, Nat.mod_mod, hsum]
    rw [if_neg (by omega), if_neg (by omega)]
  change readVarIntFrom max 0 (writeVarInt n ++ rest) = _
  rw [writeVarInt, append_assoc]
  split
  · have hzero : n / 128 = 0 := by omega
    rw [nil_append, ← hlast, hzero]
  have hdigits : n / 128 - 1 < 128 ^ 9 := by
    have hle : n ≤ 2 ^ 64 - 1 := le_trans hn hmax
    omega
  rw [readVarIntFrom_digits hdigits (by omega), ← hlast]
  congr 1
  omega

example : writeVarInt 65535 = [0x82, 0xfe, 0x7f] := by decide

/-! ### What is read was written -/

theorem takes_int (n : Nat) : Takes (readInt n) fun used x => used = writeLE n x ∧ x < 256 ^ n := by
  refine (takes_take _ n).map.mono ?_
  rintro used x ⟨bs, ⟨rfl, rfl⟩, rfl⟩
  exact ⟨(writeLE_readLE used).symm, readLE_lt used⟩

private theorem takes_long (width least : Nat) :
    Takes (readLong width least) fun used x => used = writeLE width x ∧ least ≤ x ∧
    x < 256 ^ width := by
  refine ((takes_int width).bind fun x => (takes_check _ _).bind fun _ => takes_pure x).mono ?_
  rintro used _ ⟨x, us, vs, rfl, ⟨rfl, hlt⟩, _, vs, ws, rfl, ⟨rfl, hleast⟩, rfl, rfl⟩
  exact ⟨by simp, by simpa using hleast, hlt⟩

theorem takes_byte : Takes readByte fun used b => used = [b] := by
  intro ts b rest hrun
  cases ts with
  | nil => cases hrun
  | cons c ts =>
    cases hrun
    exact ⟨[_], rfl, rfl⟩

/-- A size is only read from the form that `WriteCompactSize` gives it. -/
theorem takes_compactSize : Takes readCompactSize fun used n => used = writeCompactSize n := by
  have hafter (b : UInt8) : Takes (readSizeAfter b) fun used n => b :: used =
      writeCompactSize n := by
    unfold readSizeAfter
    split_ifs with hsmall h253 h254
    · refine (takes_pure b.toNat).mono ?_
      rintro used n ⟨rfl, rfl⟩
      rw [writeCompactSize, if_pos hsmall, UInt8.ofNat_toNat]
    all_goals
      refine (takes_long _ _).mono ?_
      rintro used n ⟨rfl, hleast, hlt⟩
    · rw [writeCompactSize, if_neg (by omega), if_pos (by omega), h253]
    · rw [writeCompactSize, if_neg (by omega), if_neg (by omega), if_pos (by omega), h254]
    · have hb : b = 255 := by
        have hlt := b.toNat_lt
        rw [← UInt8.toNat_inj] at h253 h254 ⊢
        exact (by change _ ≠ 253 at h253; change _ ≠ 254 at h254; omega : b.toNat = 255)
      rw [writeCompactSize, if_neg (by omega), if_neg (by omega), if_neg (by omega), hb]
  refine (takes_byte.bind fun b => (hafter b).bind fun n => (takes_check _ _).bind fun _ =>
    takes_pure n).mono ?_
  rintro used _ ⟨b, us, vs, rfl, rfl, n, us, vs, rfl, hsize, _, vs, ws, rfl, ⟨rfl, -⟩, rfl, rfl⟩
  simpa using hsize

theorem Lib.Takes.vector {α : Type} {r : ByteReader α} {enc : α → Bytes} {Q : α → Prop}
    (hr : Takes r fun used x => used = enc x ∧ Q x) :
    Takes (readVector r) fun used xs => used = writeCompactSize xs.length ++ xs.flatMap enc ∧
    ∀ x ∈ xs, Q x := by
  refine (takes_compactSize.bind fun n => hr.many n).mono ?_
  rintro used xs ⟨n, us, vs, rfl, rfl, rfl, rfl, hxs⟩
  exact ⟨rfl, hxs⟩

end Tessera
