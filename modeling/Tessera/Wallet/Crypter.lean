import Mathlib.Data.Fintype.Pi
import Tessera.Basic.Keys

/-!
# Wallet encryption

`wallet/crypter.cpp` and the block chaining of `crypto/aes.cpp`: AES-256 in CBC mode with padding,
under a key stretched from a passphrase or under a master key.
-/

namespace Tessera.Wallet

open List

variable {enc dec : Blob 16 → Blob 16}

def walletCryptoKeySize : Nat := 32

def walletCryptoSaltSize : Nat := 8

def walletCryptoIvSize : Nat := 16

def aesBlockSize : Nat := 16

/-! ### Block chaining -/

/-- `mixed[i] ^= *data++` over one block. -/
def xorBlock (mixed : Blob 16) (data : Bytes) : Blob 16 :=
  ⟨List.ofFn fun i : Fin 16 => mixed.data.getD i 0 ^^^ data.getD i 0, by simp⟩

/-- The last block of `CBCEncrypt`: each byte of the remaining space holds the size of that space.
-/
def padBlock (data : Bytes) : Bytes :=
  data ++ List.replicate (aesBlockSize - data.length) (UInt8.ofNat (aesBlockSize - data.length))

/-- The blocks that `CBCEncrypt` writes, after the given number of full blocks the padded one. -/
def cbcEncryptBlocks (enc : Blob 16 → Blob 16) : Nat → Blob 16 → Bytes → Bytes
  | 0, mixed, data => (enc (xorBlock mixed (padBlock data))).data
  | n + 1, mixed, data =>
    let out := enc (xorBlock mixed (data.take aesBlockSize))
    out.data ++ cbcEncryptBlocks enc n out (data.drop aesBlockSize)

/-- `CBCEncrypt` with padding. Nothing is written for an empty plaintext. -/
def cbcEncrypt (enc : Blob 16 → Blob 16) (iv : Blob 16) (data : Bytes) : Bytes :=
  if data.isEmpty then [] else cbcEncryptBlocks enc (data.length / aesBlockSize) iv data

/-- One block of the ciphertext, as the block cipher takes it. -/
def block (data : Bytes) : Blob 16 := ⟨List.ofFn fun i : Fin 16 => data.getD i 0, by simp⟩

/-- The blocks that `CBCDecrypt` recovers. -/
def cbcDecryptBlocks (dec : Blob 16 → Blob 16) : Nat → Blob 16 → Bytes → Bytes
  | 0, _, _ => []
  | n + 1, prev, data =>
    (xorBlock (dec (block data)) prev.data).data ++ cbcDecryptBlocks dec n (block data)
      (data.drop aesBlockSize)

/-- Drop the padding of a decrypted plaintext; empty if it is not well formed. -/
def dropPadding (out : Bytes) : Bytes :=
  match out.getLast? with
  | none => []
  | some last =>
    let padsize := last.toNat
    if padsize = 0 ∨ aesBlockSize < padsize then []
    else if (out.drop (out.length - padsize)).all (· == last) then out.take (out.length - padsize)
    else []

/-- `CBCDecrypt` with padding. -/
def cbcDecrypt (dec : Blob 16 → Blob 16) (iv : Blob 16) (data : Bytes) : Bytes :=
  if data.length % aesBlockSize ≠ 0 then []
  else dropPadding (cbcDecryptBlocks dec (data.length / aesBlockSize) iv data)

/-! ### Keys -/

structure CMasterKey where
  vchCryptedKey : Bytes
  vchSalt : Bytes
  nDerivationMethod : UInt32
  nDeriveIterations : UInt32
  vchOtherDerivationParameters : Bytes
  deriving DecidableEq

def CMasterKey.defaultDeriveIterations : UInt32 := 25000

/-- The master key that `CMasterKey()` builds, with a given salt. -/
def CMasterKey.new (vchSalt : Bytes) : CMasterKey := ⟨[], vchSalt, 0, defaultDeriveIterations, []⟩

/-- `CCrypter` once its key is set. -/
structure CCrypter where
  vchKey : Blob 32
  vchIV : Blob 16

variable (P : Primitives)

/-- The digest of `BytesToKeySHA3_512AES` after the given number of further rounds. -/
def stretch : Nat → Blob 64 → Blob 64
  | 0, buf => buf
  | n + 1, buf => stretch n (P.sha3_512 buf.data)

namespace CCrypter

/-- The key is in the first bytes of the hash, and the initialization vector behind it. -/
theorem keyBytes_le : 0 + 32 ≤ 64 := by decide

private theorem ivBytes_le : 32 + 16 ≤ 64 := by decide

/-- `CCrypter::BytesToKeySHA3_512AES` with at least one round. -/
def bytesToKeySHA3_512AES (salt keyData : Bytes) (count : Nat) : CCrypter :=
  let buf := stretch P (count - 1) (P.sha3_512 (keyData ++ salt))
  ⟨buf.slice 0 32 keyBytes_le, buf.slice 32 16 ivBytes_le⟩

def setKeyFromPassphrase (keyData salt : Bytes) (rounds derivationMethod : UInt32) :
    Option CCrypter :=
  if rounds < 1 ∨ salt.length ≠ walletCryptoSaltSize then none
  else if derivationMethod = 0 then some (bytesToKeySHA3_512AES P salt keyData rounds.toNat)
  else none

def setKey (newKey newIV : Bytes) : Option CCrypter := do
  let key ← Blob.ofBytes? walletCryptoKeySize newKey
  let iv ← Blob.ofBytes? walletCryptoIvSize newIV
  some ⟨key, iv⟩

def encrypt (c : CCrypter) (plaintext : Bytes) : Option Bytes :=
  let out := cbcEncrypt (P.aes256Encrypt c.vchKey) c.vchIV plaintext
  if out.length < plaintext.length then none else some out

def decrypt (c : CCrypter) (ciphertext : Bytes) : Option Bytes :=
  let out := cbcDecrypt (P.aes256Decrypt c.vchKey) c.vchIV ciphertext
  if out.isEmpty then none else some out

end CCrypter

def encryptSecret (vMasterKey plaintext : Bytes) (nIV : Uint256) : Option Bytes := do
  let c ← CCrypter.setKey vMasterKey (nIV.data.take walletCryptoIvSize)
  c.encrypt P plaintext

def decryptSecret (masterKey ciphertext : Bytes) (iv : Uint256) : Option Bytes := do
  let c ← CCrypter.setKey masterKey (iv.data.take walletCryptoIvSize)
  c.decrypt P ciphertext

/-! ### Sealing -/

private theorem cbcEncryptBlocks_length (enc : Blob 16 → Blob 16) (n : Nat) (mixed : Blob 16)
    (data : Bytes) : (cbcEncryptBlocks enc n mixed data).length = 16 * (n + 1) := by
  induction n generalizing mixed data with
  | zero => exact (enc _).size_eq
  | succ n ih =>
    simp only [cbcEncryptBlocks, length_append, ih, Blob.size_eq]
    omega

variable {data plaintext : Bytes}

private theorem cbcEncrypt_length (enc : Blob 16 → Blob 16) (iv : Blob 16) (h : data ≠ []) :
    (cbcEncrypt enc iv data).length = 16 * (data.length / 16 + 1) := by
  rw [cbcEncrypt, if_neg (by simpa using h), cbcEncryptBlocks_length]
  rfl

/-- Encryption never fails on a plaintext, and gives a ciphertext. -/
theorem CCrypter.encrypt_eq_some (c : CCrypter) (h : plaintext ≠ []) :
    ∃ out, out ≠ [] ∧ c.encrypt P plaintext = some out := by
  have hlen := cbcEncrypt_length (P.aes256Encrypt c.vchKey) c.vchIV h
  refine ⟨_, ?_, if_neg ?_⟩
  · intro hnil
    rw [hnil, length_nil] at hlen
    omega
  · rw [hlen]
    omega

/-- A key of the right size and the first half of a 256-bit number always make a crypter. -/
theorem setKey_eq (masterKey : Blob 32) (iv : Uint256) :
    CCrypter.setKey masterKey.data (iv.data.take walletCryptoIvSize) =
      some ⟨masterKey, iv.first walletCryptoIvSize (by decide)⟩ := by
  have hiv : Blob.ofBytes? walletCryptoIvSize (iv.data.take walletCryptoIvSize) =
      some (iv.first walletCryptoIvSize (by decide)) :=
    Blob.ofBytes?_data (iv.first walletCryptoIvSize (by decide))
  have hkey : Blob.ofBytes? walletCryptoKeySize masterKey.data = some masterKey :=
    Blob.ofBytes?_data masterKey
  rw [CCrypter.setKey, hkey, hiv]
  rfl

/-- A new master key takes every passphrase. -/
theorem CCrypter.setKeyFromPassphrase_new (keyData : Bytes) (salt : Blob 8) :
    CCrypter.setKeyFromPassphrase P keyData (CMasterKey.new salt.data).vchSalt
      (CMasterKey.new salt.data).nDeriveIterations (CMasterKey.new salt.data).nDerivationMethod =
        some (CCrypter.bytesToKeySHA3_512AES P salt.data keyData 25000) := by
  refine (if_neg ?_).trans (if_pos rfl)
  rintro (h | h)
  · have hpos : ¬ CMasterKey.defaultDeriveIterations < 1 := by decide
    exact hpos h
  · exact h salt.size_eq

variable {P} in
theorem CCrypter.decrypt_ne_nil {c : CCrypter} {ciphertext : Bytes}
    (h : c.decrypt P ciphertext = some plaintext) : plaintext ≠ [] := by
  rintro rfl
  unfold CCrypter.decrypt at h
  dsimp only at h
  split at h
  · cases h
  next hne =>
    rw [Option.some.inj h] at hne
    exact hne rfl

/-! ### Opening what was sealed -/

private theorem eq_of_getD {out : Bytes} (h : data.length = 16) (h' : out.length = 16)
    (hget : ∀ i < 16, data.getD i 0 = out.getD i 0) : data = out := by
  apply ext_getElem (h.trans h'.symm)
  intro i hi hi'
  simpa [hi, hi'] using hget i (h ▸ hi)

private theorem ofFn_getD {n i : Nat} {f : Fin n → UInt8} (h : i < n) : (ofFn f).getD i 0 =
    f ⟨i, h⟩ := by
  simp [h]

private theorem xorBlock_getD (mixed : Blob 16) {i : Nat} (h : i < 16) :
    (xorBlock mixed data).data.getD i 0 = mixed.data.getD i 0 ^^^ data.getD i 0 := by
  rw [xorBlock, ofFn_getD h]

private theorem block_getD {i : Nat} (h : i < 16) : (block data).data.getD i 0 = data.getD i 0 := by
  rw [block, ofFn_getD h]

private theorem xorBlock_xorBlock (mixed : Blob 16) (h : data.length = 16) :
    (xorBlock (xorBlock mixed data) mixed.data).data = data :=
  eq_of_getD (Blob.size_eq _) h fun i hi => by
    rw [xorBlock_getD _ hi, xorBlock_getD _ hi, UInt8.xor_comm, ← UInt8.xor_assoc, UInt8.xor_self,
      UInt8.zero_xor]

private theorem block_append (out : Blob 16) (rest : Bytes) : block (out.data ++ rest) = out :=
  Blob.ext (eq_of_getD (Blob.size_eq _) out.size_eq fun i hi => by
    rw [block_getD hi, getD_eq_getElem?_getD, getElem?_append_left (by rwa [out.size_eq]),
      ← getD_eq_getElem?_getD])

private theorem drop_append_blob (out : Blob 16) (rest : Bytes) :
    (out.data ++ rest).drop aesBlockSize = rest := by
  rw [← show out.data.length = aesBlockSize from out.size_eq, drop_left]

private theorem padBlock_length (h : data.length < 16) : (padBlock data).length = 16 := by
  simp only [padBlock, aesBlockSize, length_append, length_replicate]
  omega

private theorem cbcDecryptBlocks_cbcEncryptBlocks
    (h : ∀ b, dec (enc b) = b) (n : Nat) (iv : Blob 16) (hlow : 16 * n ≤ data.length)
    (hhigh : data.length < 16 * n + 16) : cbcDecryptBlocks dec (n + 1) iv
      (cbcEncryptBlocks enc n iv data) = data ++ List.replicate (16 * n + 16 - data.length)
        (UInt8.ofNat (16 * n + 16 - data.length)) := by
  induction n generalizing iv data with
  | zero =>
    have hblock := block_append (enc (xorBlock iv (padBlock data))) []
    rw [append_nil] at hblock
    rw [cbcEncryptBlocks, cbcDecryptBlocks, hblock, h, xorBlock_xorBlock _ (padBlock_length hhigh)]
    simp [cbcDecryptBlocks, padBlock, aesBlockSize]
  | succ n ih =>
    have htake : (data.take aesBlockSize).length = 16 := by
      simp only [aesBlockSize, length_take]
      omega
    rw [cbcEncryptBlocks, cbcDecryptBlocks, block_append, h, xorBlock_xorBlock _ htake,
      drop_append_blob, ih]
    · simp only [aesBlockSize, length_drop]
      rw [← append_assoc, take_append_drop]
      have hpad : 16 * n + 16 - (data.length - 16) = 16 * (n + 1) + 16 - data.length := by omega
      rw [hpad]
    · simp only [aesBlockSize, length_drop]
      omega
    · simp only [aesBlockSize, length_drop]
      omega

private theorem dropPadding_append (data : Bytes) {p : Nat} (hlow : 0 < p) (hhigh : p ≤ 16) :
    dropPadding (data ++ List.replicate p (UInt8.ofNat p)) = data := by
  have hp : (UInt8.ofNat p).toNat = p := by
    rw [UInt8.toNat_ofNat', Nat.mod_eq_of_lt (by omega)]
  have hlast : (data ++ replicate p (UInt8.ofNat p)).getLast? = some (UInt8.ofNat p) := by
    rw [getLast?_append, getLast?_replicate, if_neg (by omega)]
    rfl
  have hlen : (data ++ replicate p (UInt8.ofNat p)).length - p = data.length := by
    simp
  simp only [dropPadding, hlast, hp, hlen, aesBlockSize]
  rw [if_neg (by omega), if_pos (by simp), take_left]

private theorem cbcDecrypt_cbcEncrypt (h : ∀ b, dec (enc b) = b)
    (iv : Blob 16) (hne : data ≠ []) : cbcDecrypt dec iv (cbcEncrypt enc iv data) = data := by
  have hlen := cbcEncrypt_length enc iv hne
  rw [cbcDecrypt, hlen, if_neg (by simp [aesBlockSize])]
  have hblocks : 16 * (data.length / 16 + 1) / aesBlockSize = data.length / 16 + 1 := by
    simp [aesBlockSize]
  rw [hblocks, cbcEncrypt, if_neg (by simpa using hne)]
  have hlow : 16 * (data.length / 16) ≤ data.length := by omega
  have hhigh : data.length < 16 * (data.length / 16) + 16 := by omega
  rw [aesBlockSize, cbcDecryptBlocks_cbcEncryptBlocks h _ iv hlow hhigh]
  exact dropPadding_append data (by omega) (by omega)

/-- The block cipher can be undone. -/
def AesInverts : Prop :=
  ∀ key b, P.aes256Decrypt key (P.aes256Encrypt key b) = b

variable {P} {out : Bytes}

private theorem CCrypter.cbcEncrypt_eq {c : CCrypter} (h : c.encrypt P plaintext = some out) :
    cbcEncrypt (P.aes256Encrypt c.vchKey) c.vchIV plaintext = out := by
  simp only [CCrypter.encrypt] at h
  split at h
  · cases h
  · exact Option.some.inj h

theorem CCrypter.decrypt_encrypt (hP : AesInverts P) (c : CCrypter)
    (hne : plaintext ≠ []) (h : c.encrypt P plaintext = some out) : c.decrypt P out =
      some plaintext := by
  obtain rfl := cbcEncrypt_eq h
  rw [CCrypter.decrypt, cbcDecrypt_cbcEncrypt (hP c.vchKey) _ hne]
  simp [hne]

/-! ### Sealing what was opened -/

/-- How `CBCDecrypt` looks at the padding, with the same steps for all of them: in round `k`, at the
byte that is `k` before the last. -/
def checkPadding (out : Bytes) : Bytes :=
  let padsize := out.getLastD 0
  let fail := decide (padsize.toNat = 0 ∨ aesBlockSize < padsize.toNat)
  let padsize := if fail then 0 else padsize
  let fail := fail || (range aesBlockSize).any fun k =>
    decide (aesBlockSize - padsize.toNat < aesBlockSize - k) &&
      out.getD (out.length - 1 - k) 0 != padsize
  if fail then [] else out.take (out.length - padsize.toNat)

/-- The rounds accept what ends with as many bytes as each of them says. -/
theorem dropPadding_eq_checkPadding (h : aesBlockSize ≤ out.length) : dropPadding out =
    checkPadding out := by
  obtain rfl | ⟨front, last, rfl⟩ := eq_nil_or_concat' out
  · cases h
  have hlast : (front ++ [last]).getLastD 0 = last := by simp
  simp only [dropPadding, checkPadding, getLast?_concat, hlast]
  generalize front ++ [last] = out at h
  by_cases hp : last.toNat = 0 ∨ aesBlockSize < last.toNat
  · simp [hp]
  have hrounds : ((range aesBlockSize).any fun k =>
    decide (aesBlockSize - last.toNat < aesBlockSize - k) &&
      out.getD (out.length - 1 - k) 0 != last) = !(out.drop (out.length - last.toNat)).all
        (· == last) := by
    rw [not_all_eq_any_not, Bool.eq_iff_iff, any_eq_true, any_eq_true]
    constructor
    · rintro ⟨k, hk, hround⟩
      refine ⟨out.getD (out.length - 1 - k) 0,
        mem_drop_iff_getElem.mpr ⟨last.toNat - 1 - k, by omega, ?_⟩, by grind⟩
      grind
    · rintro ⟨b, hb, hround⟩
      obtain ⟨i, hi, rfl⟩ := mem_drop_iff_getElem.mp hb
      refine ⟨last.toNat - 1 - i, by grind, ?_⟩
      grind
  simp only [hp, hrounds, decide_false, Bool.false_eq_true, if_false]
  cases (out.drop (out.length - last.toNat)).all (· == last) <;> rfl

/-- Two bytes of padding. -/
theorem dropPadding_eq_checkPadding_two : checkPadding (replicate 14 7 ++ [2, 2]) = replicate 14 7 ∧
    dropPadding (replicate 14 7 ++ [2, 2]) = checkPadding (replicate 14 7 ++ [2, 2]) :=
  ⟨by decide, dropPadding_eq_checkPadding (by decide)⟩

private theorem xorBlock_comm (a b : Blob 16) : xorBlock a b.data = xorBlock b a.data :=
  Blob.ext (congrArg ofFn (funext fun _ => UInt8.xor_comm ..))

private theorem xorBlock_left_inj {a b iv : Blob 16} (h : xorBlock a iv.data = xorBlock b iv.data) :
    a = b := by
  rw [xorBlock_comm a, xorBlock_comm b] at h
  apply Blob.ext
  rw [← xorBlock_xorBlock iv a.size_eq, h, xorBlock_xorBlock iv b.size_eq]

private theorem block_data (h : 16 ≤ data.length) : (block data).data = data.take aesBlockSize :=
  eq_of_getD (Blob.size_eq _) (by simp [aesBlockSize, h]) fun i hi => by
    rw [block_getD hi]
    simp [aesBlockSize, hi]

private theorem cbcDecryptBlocks_inj (h : dec.Injective) {n : Nat} {iv : Blob 16}
    (hdata : data.length = 16 * n) (hout : out.length = 16 * n)
    (heq : cbcDecryptBlocks dec n iv data = cbcDecryptBlocks dec n iv out) : data = out := by
  induction n generalizing iv data out with
  | zero => rw [length_eq_zero_iff.mp hdata, length_eq_zero_iff.mp hout]
  | succ n ih =>
    obtain ⟨hfirst, hrest⟩ := append_inj heq (by rw [Blob.size_eq, Blob.size_eq])
    have hblock := h (xorBlock_left_inj (Blob.ext hfirst))
    have htake := congrArg Blob.data hblock
    rw [block_data (by omega), block_data (by omega)] at htake
    rw [hblock] at hrest
    rw [← take_append_drop aesBlockSize data, htake, ih ?_ ?_ hrest, take_append_drop]
    all_goals
      simp only [length_drop, aesBlockSize]
      omega

private theorem cbcDecryptBlocks_length (n : Nat) (iv : Blob 16) :
    (cbcDecryptBlocks dec n iv data).length = 16 * n := by
  induction n generalizing iv data with
  | zero => rfl
  | succ n ih =>
    rw [cbcDecryptBlocks, length_append, Blob.size_eq, ih]
    omega

private theorem dropPadding_spec (hne : dropPadding out ≠ []) :
    ∃ p, 0 < p ∧ p ≤ 16 ∧ out = dropPadding out ++ replicate p (UInt8.ofNat p) := by
  unfold dropPadding at hne ⊢
  split at hne
  · exact absurd rfl hne
  next last hlast =>
    dsimp only at hne ⊢
    split_ifs at hne ⊢ with hp hall
    · exact absurd rfl hne
    · rw [aesBlockSize] at hp
      have hlen : last.toNat ≤ out.length := by
        by_contra hlt
        exact hne (by rw [Nat.sub_eq_zero_of_le (by omega), take_zero])
      have hdrop : out.drop (out.length - last.toNat) = replicate last.toNat last := by
        refine eq_replicate_iff.mpr ⟨by rw [length_drop]; omega, fun b hb => ?_⟩
        simpa using all_eq_true.mp hall b hb
      refine ⟨last.toNat, by omega, by omega, ?_⟩
      rw [UInt8.ofNat_toNat, ← hdrop, take_append_drop]
    · exact absurd rfl hne

private theorem cbcEncrypt_cbcDecrypt (h : ∀ b, dec (enc b) = b) (hinj : dec.Injective)
    {iv : Blob 16} (hne : cbcDecrypt dec iv data ≠ []) :
    cbcEncrypt enc iv (cbcDecrypt dec iv data) = data := by
  unfold cbcDecrypt at hne ⊢
  split at hne
  · exact absurd rfl hne
  next hmod =>
    rw [if_neg hmod]
    obtain ⟨p, hlow, hhigh, hout⟩ := dropPadding_spec hne
    generalize dropPadding _ = plain at hne hout
    have hlen := congrArg length hout
    rw [cbcDecryptBlocks_length, length_append, length_replicate] at hlen
    simp only [aesBlockSize] at hmod hlen
    have hblocks : data.length / 16 = plain.length / 16 + 1 := by omega
    have hpad : 16 * (plain.length / 16) + 16 - plain.length = p := by omega
    rw [aesBlockSize, hblocks, ← hpad, ← cbcDecryptBlocks_cbcEncryptBlocks h _ iv (by omega)
      (by omega)] at hout
    rw [cbcEncrypt, if_neg (by simpa using hne)]
    exact (cbcDecryptBlocks_inj hinj (by omega) (cbcEncryptBlocks_length ..) hout).symm

instance {n : Nat} : Finite (Blob n) :=
  Finite.of_injective (fun b (i : Fin n) => (b.data.get (i.cast b.size_eq.symm)).toFin)
    fun b b' h =>
    Blob.ext (ext_getElem (b.size_eq.trans b'.size_eq.symm) fun i hi _ =>
      UInt8.toFin_inj.mp (congrFun h ⟨i, b.size_eq ▸ hi⟩))

/-- Encryption is a bijection between the secrets and the ciphertexts that are accepted. The source
has the sizes as `int`: it does this for secrets of fewer than `2 ^ 31 - 16` bytes, whose
ciphertexts have fewer than `2 ^ 31`. -/
theorem CCrypter.encrypt_bijective {P : Primitives} (hP : AesInverts P) (c : CCrypter) :
    (∀ plaintext ≠ [], ∃ out, c.encrypt P plaintext = some out ∧ c.decrypt P out = some plaintext ∧
      out.length = 16 * (plaintext.length / 16 + 1)) ∧
    ∀ ciphertext plaintext, c.decrypt P ciphertext = some plaintext → c.encrypt P plaintext =
      some ciphertext := by
  constructor
  · intro plaintext hne
    obtain ⟨out, -, hout⟩ := c.encrypt_eq_some P hne
    refine ⟨out, hout, c.decrypt_encrypt hP hne hout, ?_⟩
    rw [← cbcEncrypt_eq hout, cbcEncrypt_length _ _ hne]
  · intro ciphertext plaintext hdec
    -- blocks are finitely many, so that a decryption that reaches all of them does not mix them up
    have hinj := Finite.injective_iff_surjective.mpr
      (Function.RightInverse.surjective (hP c.vchKey))
    have hne := c.decrypt_ne_nil hdec
    obtain ⟨-, rfl⟩ : _ ∧ cbcDecrypt (P.aes256Decrypt c.vchKey) c.vchIV ciphertext = plaintext := by
      simpa [CCrypter.decrypt] using hdec
    obtain ⟨out, -, hout⟩ := c.encrypt_eq_some P hne
    rw [hout, ← cbcEncrypt_eq hout, cbcEncrypt_cbcDecrypt (hP c.vchKey) hinj hne]

/-- Three bytes, with a cipher that changes nothing. -/
theorem CCrypter.encrypt_bijective_three :
    CCrypter.encrypt .repeating ⟨.fill 32 0, .fill 16 0⟩ [1, 2, 3] =
      some ([1, 2, 3] ++ replicate 13 13) :=
  (CCrypter.encrypt_bijective (P := .repeating) (fun _ _ => rfl) _).2 _ _ (by decide)

end Tessera.Wallet
