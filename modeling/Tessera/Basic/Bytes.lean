import Mathlib.Algebra.Ring.Int.Defs
import Mathlib.Algebra.Ring.Nat
import Mathlib.Data.List.Basic

/-!
# Byte strings

Byte vectors of the source are lists of bytes; the fixed-size hashes of `uint256.h` are byte lists
that carry their length. The integer encodings of `crypto/common.h` and the compact sizes of
`serialize.h` are here because every serialized structure is made of them.
-/

namespace Tessera

/-- `std::vector<unsigned char>`. -/
abbrev Bytes := List UInt8

/-- `base_blob`: a byte string whose length is part of its type. -/
@[ext]
structure Blob (n : Nat) where
  data : Bytes
  size_eq : data.length = n
  deriving DecidableEq

abbrev Uint160 := Blob 20

abbrev Uint256 := Blob 32

namespace Blob

variable {n : Nat}

/-- The all-zero blob, which is what a default-constructed hash holds. -/
def null (n : Nat) : Blob n := ⟨List.replicate n 0, by simp⟩

def isNull (b : Blob n) : Bool := b.data.all (· == 0)

instance : Inhabited (Blob n) := ⟨null n⟩

@[simp] theorem isNull_null : (null n).isNull := by
  simp [null, isNull]

theorem isNull_iff {b : Blob n} : b.isNull ↔ b = null n := by
  constructor
  · intro h
    ext1
    refine List.eq_replicate_iff.mpr ⟨b.size_eq, ?_⟩
    simpa [isNull] using h
  · rintro rfl
    exact isNull_null

/-- The first `k` bytes of a blob. -/
def first (k : Nat) (b : Blob n) (h : k ≤ n) : Blob k :=
  ⟨b.data.take k, by simp [b.size_eq, h]⟩

/-- A `uint160` is shorter than a `uint256`. -/
theorem size160_le : 20 ≤ 32 := by decide

/-- Bytes `j` to `j + k` of a blob. -/
def slice (j k : Nat) (b : Blob n) (h : j + k ≤ n) : Blob k :=
  ⟨(b.data.drop j).take k, by simp [b.size_eq]; omega⟩

/-- Read a blob out of a byte string of the right length. -/
def ofBytes? (n : Nat) (bs : Bytes) : Option (Blob n) :=
  if h : bs.length = n then some ⟨bs, h⟩ else none

@[simp] theorem ofBytes?_data (b : Blob n) : ofBytes? n b.data = some b := by
  simp [ofBytes?, b.size_eq]

end Blob

/-! ### Integers -/

/-- The low `k` bytes of `x`, least significant byte first (`WriteLE16`, `WriteLE32`, ...). -/
def writeLE : Nat → Nat → Bytes
  | 0, _ => []
  | k + 1, x => UInt8.ofNat x :: writeLE k (x / 256)

/-- The number whose bytes, least significant first, are `bs` (`ReadLE16`, `ReadLE32`, ...). -/
def readLE : Bytes → Nat
  | [] => 0
  | b :: bs => b.toNat + 256 * readLE bs

/-- The low `k` bytes of `x`, most significant byte first. -/
def writeBE (k x : Nat) : Bytes := (writeLE k x).reverse

@[simp] theorem writeLE_length (k x : Nat) : (writeLE k x).length = k := by
  induction k generalizing x with
  | zero => rfl
  | succ k ih => simp [writeLE, ih]

theorem readLE_writeLE {k x : Nat} (h : x < 256 ^ k) : readLE (writeLE k x) = x := by
  induction k generalizing x with
  | zero =>
    simp only [pow_zero, Nat.lt_one_iff] at h
    simp [writeLE, readLE, h]
  | succ k ih =>
    have hx : x / 256 < 256 ^ k := by
      rw [Nat.div_lt_iff_lt_mul (by omega)]
      simpa [pow_succ] using h
    simp only [writeLE, readLE, ih hx]
    have : (UInt8.ofNat x).toNat = x % 256 := by simp
    omega

theorem writeLE_readLE (bs : Bytes) : writeLE bs.length (readLE bs) = bs := by
  induction bs with
  | nil => rfl
  | cons b bs ih =>
    have hb := b.toNat_lt
    have hbyte : UInt8.ofNat (b.toNat + 256 * readLE bs) = b := by
      rw [← UInt8.toNat_inj, UInt8.toNat_ofNat']
      omega
    rw [List.length_cons, readLE, writeLE, hbyte, Nat.add_mul_div_left _ _ (by decide),
      Nat.div_eq_of_lt hb, zero_add, ih]

theorem readLE_lt (bs : Bytes) : readLE bs < 256 ^ bs.length := by
  induction bs with
  | nil => exact Nat.one_pos
  | cons b bs ih =>
    have hb := b.toNat_lt
    rw [readLE, List.length_cons]
    omega

def writeCompactSize (n : Nat) : Bytes :=
  if n < 253 then [UInt8.ofNat n]
  else if n ≤ 0xffff then 253 :: writeLE 2 n
  else if n ≤ 0xffffffff then 254 :: writeLE 4 n
  else 255 :: writeLE 8 n

theorem length_writeCompactSize_le (n : Nat) : (writeCompactSize n).length ≤ 9 := by
  unfold writeCompactSize
  split
  · simp
  · split
    · simp
    · split <;> simp

end Tessera
