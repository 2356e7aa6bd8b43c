import Tessera.Basic.Bytes

/-!
# Hashes and keys

The cryptographic primitives are parameters of the model: `Primitives` bundles SHA3, the AES block
cipher and ML-DSA-44 as functions between byte strings of the lengths the source fixes. Nothing is
assumed about them here; a result that needs, say, that signatures verify says so.

On top of the primitives sit the key types of `pubkey.h` and `key.h`: `CPubKey` is a scheme byte
followed by a raw ML-DSA key, `CKey` a secret key with its public key, and `CExtKey` the
hierarchical-deterministic node from which the wallet derives its keys.
-/

namespace Tessera

/-- The primitives the code takes from its vendored libraries. The first argument of `mldsaSign` is
the randomness the hedged signing procedure draws. -/
structure Primitives where
  sha3_256 : Bytes → Uint256
  sha3_512 : Bytes → Blob 64
  aes256Encrypt : Blob 32 → Blob 16 → Blob 16
  aes256Decrypt : Blob 32 → Blob 16 → Blob 16
  mldsaKeypair : Uint256 → Blob 1312 × Blob 2560
  mldsaSign : Uint256 → Blob 2560 → Uint256 → Blob 2420
  mldsaVerify : Blob 1312 → Uint256 → Bytes → Bool

/-- Primitives that return zeros and accept no signature. -/
instance : Inhabited Primitives where
  default :=
    { sha3_256 := fun _ => .null 32
      sha3_512 := fun _ => .null 64
      aes256Encrypt := fun _ _ => .null 16
      aes256Decrypt := fun _ _ => .null 16
      mldsaKeypair := fun _ => (.null 1312, .null 2560)
      mldsaSign := fun _ _ _ => .null 2420
      mldsaVerify := fun _ _ _ => false }

/-- `CKeyID`: the hash of a serialized public key. -/
abbrev CKeyID := Uint160

variable (P : Primitives)

/-- `Hash`: one pass of SHA3-256. -/
def hash (bs : Bytes) : Uint256 := P.sha3_256 bs

/-- `Hash160`: the first 20 bytes of SHA3-256. -/
def hash160 (bs : Bytes) : Uint160 := (P.sha3_256 bs).first 20 (by decide)

/-! ### Public keys -/

/-- `SchemePublicKeySize`; the only known scheme byte is `SigScheme::ML_DSA_44`. -/
def schemePublicKeySize (scheme : UInt8) : Nat := if scheme = 0x01 then 1312 else 0

/-- `CPubKey::GetLen`: the serialized length announced by a leading byte, 0 if it is unknown. -/
def CPubKey.getLen (header : UInt8) : Nat :=
  let n := schemePublicKeySize header
  if n = 0 then 0 else 1 + n

def CPubKey.validSize : Bytes → Bool
  | [] => false
  | b :: bs => CPubKey.getLen b == (b :: bs).length

/-- A public key is empty (invalid) or a serialization of the length its scheme byte announces. -/
structure CPubKey where
  vch : Bytes
  wf : vch = [] ∨ CPubKey.validSize vch = true
  deriving DecidableEq

namespace CPubKey

def invalid : CPubKey := ⟨[], .inl rfl⟩

/-- `CPubKey::Set`: keep the bytes if they have a valid size, invalidate the key otherwise. -/
def set (bs : Bytes) : CPubKey :=
  if h : validSize bs = true then ⟨bs, .inr h⟩ else invalid

variable (pk : CPubKey)

def isValid : Bool := !pk.vch.isEmpty

def getID : CKeyID := hash160 P pk.vch

def verify (msg : Uint256) (sig : Bytes) : Bool :=
  match pk.vch with
  | [] => false
  | scheme :: raw =>
    if scheme = 0x01 then
      match Blob.ofBytes? 1312 raw with
      | some key => P.mldsaVerify key msg sig
      | none => false
    else false

variable {bs : Bytes} {pk : CPubKey}

theorem validSize_iff : validSize bs ↔ ∃ raw : Blob 1312, bs = 0x01 :: raw.data := by
  constructor
  · intro h
    cases bs with
    | nil => simp [validSize] at h
    | cons b bs =>
      by_cases hb : b = 0x01
      · simp only [validSize, getLen, schemePublicKeySize, hb] at h
        exact ⟨⟨bs, by simp at h; omega⟩, by rw [hb]⟩
      · simp [validSize, getLen, schemePublicKeySize, hb] at h
  · rintro ⟨raw, rfl⟩
    simp [validSize, getLen, schemePublicKeySize, raw.size_eq]

theorem validSize_length (h : validSize bs) : bs.length = 1313 := by
  obtain ⟨raw, rfl⟩ := validSize_iff.mp h
  simp [raw.size_eq]

theorem isValid_iff : pk.isValid ↔ validSize pk.vch := by
  rcases pk with ⟨vch, rfl | h⟩
  · simp [isValid, validSize]
  have : vch ≠ [] := by
    rintro rfl
    simp [validSize] at h
  simp [isValid, h, this]

theorem set_of_validSize (h : validSize bs) : (set bs).vch = bs := by
  simp [set, h]

@[simp] theorem set_vch (h : pk.isValid) : set pk.vch = pk := by
  have := isValid_iff.mp h
  simp [set, this]

theorem verify_eq {raw : Blob 1312} (h : pk.vch = 0x01 :: raw.data)
    (msg : Uint256) (sig : Bytes) : pk.verify P msg sig = P.mldsaVerify raw msg sig := by
  simp [verify, h]

end CPubKey

/-! ### Secret keys -/

/-- A secret key, absent when the key is invalid, with the public key stored beside it. -/
structure CKey where
  keydata : Option (Blob 2560)
  pubkey : CPubKey
  deriving DecidableEq

namespace CKey

/-- The default-constructed, invalid key. -/
def invalid : CKey := ⟨none, .invalid⟩

def isValid (k : CKey) : Bool := k.keydata.isSome

def getPubKey (k : CKey) : CPubKey := k.pubkey

/-- `CKey::MakeKeyFromSeed` on a seed of the right length. -/
def makeKeyFromSeed (seed : Uint256) : CKey :=
  let (pk, sk) := P.mldsaKeypair seed
  ⟨some sk, .set (0x01 :: pk.data)⟩

/-- `CKey::Sign`, fed with the randomness the primitive draws. -/
def sign (k : CKey) (rnd : Uint256) (msg : Uint256) : Option Bytes :=
  k.keydata.map fun sk => (P.mldsaSign rnd sk msg).data

theorem sign_length {k : CKey} {rnd msg : Uint256} {sig : Bytes}
    (h : k.sign P rnd msg = some sig) : sig.length = 2420 := by
  obtain ⟨sk, -, rfl⟩ := Option.map_eq_some_iff.mp h
  exact (P.mldsaSign rnd sk msg).size_eq

private theorem makeKeyFromSeed_vch (seed : Uint256) :
    (makeKeyFromSeed P seed).pubkey.vch = 0x01 :: (P.mldsaKeypair seed).1.data :=
  CPubKey.set_of_validSize (CPubKey.validSize_iff.mpr ⟨_, rfl⟩)

theorem makeKeyFromSeed_pubkey_isValid (seed : Uint256) :
    (makeKeyFromSeed P seed).pubkey.isValid := by
  rw [CPubKey.isValid_iff, makeKeyFromSeed_vch]
  exact CPubKey.validSize_iff.mpr ⟨_, rfl⟩

end CKey

/-! ### Hierarchical derivation -/

structure CExtKey where
  nDepth : UInt8
  vchFingerprint : Blob 4
  nChild : UInt32
  chaincode : Uint256
  nodeseed : Uint256
  key : CKey
  deriving DecidableEq

variable {k : CExtKey}

namespace CExtKey

/-- The default-constructed extended key, whose signing key is invalid. -/
def empty : CExtKey := ⟨0, .null 4, 0, .null 32, .null 32, .invalid⟩

/-- The personalization tag of `CExtKey::SetSeed`, `"Tessera HD master"`. -/
def masterTag : Bytes :=
  [0x54, 0x65, 0x73, 0x73, 0x65, 0x72, 0x61, 0x20, 0x48, 0x44, 0x20, 0x6d, 0x61, 0x73,
    0x74, 0x65, 0x72]

def setSeedFromTag (seed tag : Bytes) : CExtKey :=
  let out := P.sha3_512 (tag ++ seed)
  let nodeseed := out.slice 0 32 (by decide)
  { nDepth := 0
    vchFingerprint := .null 4
    nChild := 0
    chaincode := out.slice 32 32 (by decide)
    nodeseed := nodeseed
    key := .makeKeyFromSeed P nodeseed }

def setSeed (seed : Bytes) : CExtKey := setSeedFromTag P seed masterTag

/-- `CExtKey::Derive`: the hardened child at an index, none if the parent has no valid key. -/
def derive (k : CExtKey) (index : UInt32) : Option CExtKey :=
  if k.key.isValid then
    let out := P.sha3_512 (k.chaincode.data ++ k.nodeseed.data ++ writeBE 4 index.toNat)
    let nodeseed := out.slice 0 32 (by decide)
    some
      { nDepth := k.nDepth + 1
        vchFingerprint := (k.key.getPubKey.getID P).first 4 (by decide)
        nChild := index
        chaincode := out.slice 32 32 (by decide)
        nodeseed := nodeseed
        key := .makeKeyFromSeed P nodeseed }
  else none

theorem derive_isSome_iff (index : UInt32) : (k.derive P index).isSome ↔ k.key.isValid := by
  cases h : k.key.isValid <;> simp [derive, h]

theorem derive_eq_none (index : UInt32) (h : k.key.isValid = false) : k.derive P index = none := by
  rw [← Option.not_isSome_iff_eq_none, derive_isSome_iff, h]
  exact Bool.false_ne_true

/-- A derived child signs with a key expanded from its node seed. -/
theorem derive_key {child : CExtKey} {index : UInt32} (h : k.derive P index = some child) :
    child.key = .makeKeyFromSeed P child.nodeseed := by
  unfold derive at h
  split at h
  · cases h
    rfl
  · simp at h

end CExtKey

/-! ### Primitives to compute with -/

/-- A blob that repeats one byte. -/
def Blob.fill (n : Nat) (b : UInt8) : Blob n := ⟨List.replicate n b, List.length_replicate⟩

/-- The first byte of a blob, zero if there is none. -/
def Blob.head {n : Nat} (x : Blob n) : UInt8 := x.data.headD 0

theorem Blob.head_fill {n : Nat} (h : 0 < n) (b : UInt8) : (Blob.fill n b).head = b := by
  cases n with
  | zero => omega
  | succ n => rfl

/-- Primitives for concrete runs. A key pair repeats the first byte of its seed, a signature repeats
the byte of its key and verifies under that key only, and a hash copies the bytes behind the first.
-/
def Primitives.repeating : Primitives where
  sha3_256 bs := ⟨(bs.drop 1 ++ (Blob.null 32).data).take 32, by simp [(Blob.null 32).size_eq]⟩
  sha3_512 bs := ⟨(bs ++ (Blob.null 64).data).take 64, by simp [(Blob.null 64).size_eq]⟩
  aes256Encrypt _ block := block
  aes256Decrypt _ block := block
  mldsaKeypair seed := (.fill 1312 seed.head, .fill 2560 seed.head)
  mldsaSign _ sk _ := .fill 2420 sk.head
  mldsaVerify pk _ sig := sig == (Blob.fill 2420 pk.head).data

namespace Primitives.repeating

/-- The key pair of a byte. It is only used through the lemmas below. -/
@[irreducible]
def key (b : UInt8) : CKey := .makeKeyFromSeed repeating (.fill 32 b)

theorem key_vch (b : UInt8) : (key b).pubkey.vch = 0x01 :: (Blob.fill 1312 b).data := by
  rw [key, CKey.makeKeyFromSeed_vch]
  simp [repeating, Blob.head_fill (n := 32) (by decide)]

/-- Only the first byte of a seed matters. -/
theorem makeKeyFromSeed_eq (seed : Uint256) : CKey.makeKeyFromSeed repeating seed =
    key seed.head := by
  simp [key, CKey.makeKeyFromSeed, repeating, Blob.head_fill (n := 32) (by decide)]

theorem key_isValid (b : UInt8) : (key b).pubkey.isValid := by
  rw [key]
  exact CKey.makeKeyFromSeed_pubkey_isValid _ _

theorem key_getID (b : UInt8) : (key b).pubkey.getID repeating = .fill 20 b := by
  have hdata : ((key b).pubkey.getID repeating).data =
      (((Blob.fill 1312 b).data ++ (Blob.null 32).data).take 32).take 20 := by
    simp [CPubKey.getID, hash160, Blob.first, repeating, key_vch]
  ext1
  rw [hdata, List.take_take, List.take_append_of_le_length (by rw [Blob.size_eq]; decide)]
  exact List.take_replicate

theorem key_inj {b c : UInt8}
    (h : (key b).pubkey.getID repeating = (key c).pubkey.getID repeating) : b = c := by
  rw [key_getID, key_getID] at h
  rw [← Blob.head_fill (n := 20) (by decide) b, h, Blob.head_fill (by decide)]

theorem key_sign (b : UInt8) (rnd msg : Uint256) :
    (key b).sign repeating rnd msg = some (Blob.fill 2420 b).data := by
  have hsk : (key b).keydata = some (.fill 2560 b) := by
    simp [key, CKey.makeKeyFromSeed, repeating, Blob.head_fill (n := 32) (by decide)]
  simp [CKey.sign, hsk, repeating, Blob.head_fill (n := 2560) (by decide)]

theorem key_verify (b c : UInt8) (msg : Uint256) :
    (key b).pubkey.verify repeating msg (Blob.fill 2420 c).data ↔ c = b := by
  rw [CPubKey.verify_eq repeating (key_vch b)]
  simp only [repeating, beq_iff_eq]
  constructor
  · intro h
    have hblob : Blob.fill 2420 c = Blob.fill 2420 b := Blob.ext h
    rw [← Blob.head_fill (n := 2420) (by decide) c, hblob, Blob.head_fill (by decide)]
  · rintro rfl
    rfl

end Primitives.repeating

/-! ### Serialized extended keys -/

namespace CExtKey

def encode (k : CExtKey) : Blob 73 :=
  ⟨[k.nDepth] ++ (k.vchFingerprint.data ++
    (writeBE 4 k.nChild.toNat ++ (k.chaincode.data ++ k.nodeseed.data))),
    by simp [writeBE, Blob.size_eq]⟩

variable (P : Primitives)

def decode (code : Blob 73) : CExtKey :=
  let nodeseed := code.slice 41 32 (by decide)
  { nDepth := code.head
    vchFingerprint := code.slice 1 4 (by decide)
    nChild := UInt32.ofNat (readLE (code.slice 5 4 (by decide)).data.reverse)
    chaincode := code.slice 9 32 (by decide)
    nodeseed := nodeseed
    key := .makeKeyFromSeed P nodeseed }

/-- The key at a path of child indices, none if a step fails. -/
def derivePath (k : CExtKey) (path : List UInt32) : Option CExtKey := path.foldlM (derive P) k

/-- The encoding leaves out the signing key, so it has to be the one the node seed expands to. -/
theorem decode_encode (h : k.key = .makeKeyFromSeed P k.nodeseed) : decode P k.encode = k := by
  obtain ⟨depth, ⟨fingerprint, hf⟩, child, ⟨chaincode, hc⟩, nodeseed, key⟩ := k
  have hchild : readLE (writeLE 4 child.toNat) = child.toNat := readLE_writeLE child.toNat_lt
  have hseed : (encode ⟨depth, ⟨fingerprint, hf⟩, child, ⟨chaincode, hc⟩, nodeseed, key⟩).slice 41
      32 (by decide) = nodeseed := by
    simp [encode, Blob.slice, writeBE, List.drop_append, List.drop_of_length_le,
      List.take_of_length_le, hf, hc, nodeseed.size_eq]
  simp only [decode, hseed, ← h]
  congr 1 <;>
    simp [encode, Blob.slice, writeBE, List.drop_append, List.drop_of_length_le, hf, hc, hchild]

variable {P}

/-- Every path of a key that signs with its node seed's key leads somewhere, to a key of that kind
whose depth byte has counted the steps. -/
theorem derivePath_eq (h : k.key = .makeKeyFromSeed P k.nodeseed) (path : List UInt32) :
    ∃ k', k.derivePath P path = some k' ∧ k'.key = .makeKeyFromSeed P k'.nodeseed ∧
      k'.nDepth = k.nDepth + UInt8.ofNat path.length := by
  induction path generalizing k with
  | nil => exact ⟨k, rfl, h, by simp⟩
  | cons index path ih =>
    obtain ⟨child, hchild⟩ :=
      Option.isSome_iff_exists.mp ((derive_isSome_iff P index).mpr (congrArg CKey.isValid h))
    obtain ⟨k', hk', hkey, hdepth⟩ := ih (derive_key P hchild)
    have hstep : child.nDepth = k.nDepth + 1 := by
      unfold derive at hchild
      split at hchild
      · cases hchild
        rfl
      · cases hchild
    refine ⟨k', ?_, hkey, ?_⟩
    · simpa [derivePath, hchild] using hk'
    · rw [hdepth, hstep, List.length_cons, Nat.add_comm, UInt8.ofNat_add, UInt8.add_assoc]
      rfl

/-- What a depth byte should do holds of the keys at two paths of a seed exactly if neither path is
longer than the byte can count. Nothing stops a longer derivation: `Derive` lets the byte start
again at zero. -/
theorem derivePath_lossless_iff (seed : Bytes) (path path' : List UInt32) :
    (∀ k k', (setSeed P seed).derivePath P path = some k →
      (setSeed P seed).derivePath P path' = some k' →
      (k.nDepth.toNat = path.length ∧ decode P k.encode = k) ∧
      (k'.nDepth.toNat = path'.length ∧ decode P k'.encode = k') ∧
      (path.length ≠ path'.length → k.encode.head ≠ k'.encode.head)) ↔
    path.length ≤ 255 ∧ path'.length ≤ 255 := by
  obtain ⟨k, hk, hkey, hdepth⟩ := derivePath_eq (k := setSeed P seed) rfl path
  obtain ⟨k', hk', hkey', hdepth'⟩ := derivePath_eq (k := setSeed P seed) rfl path'
  have hzero : (setSeed P seed).nDepth = 0 := rfl
  rw [hzero, UInt8.zero_add] at hdepth hdepth'
  constructor
  · intro h
    obtain ⟨⟨hlen, -⟩, ⟨hlen', -⟩, -⟩ := h k k' hk hk'
    have hlt := k.nDepth.toNat_lt
    have hlt' := k'.nDepth.toNat_lt
    omega
  · rintro ⟨hle, hle'⟩ _ _ h h'
    cases hk.symm.trans h
    cases hk'.symm.trans h'
    have hlen : k.nDepth.toNat = path.length := by
      rw [hdepth, UInt8.toNat_ofNat_of_lt' (by simpa using Nat.lt_succ_of_le hle)]
    have hlen' : k'.nDepth.toNat = path'.length := by
      rw [hdepth', UInt8.toNat_ofNat_of_lt' (by simpa using Nat.lt_succ_of_le hle')]
    refine ⟨⟨hlen, decode_encode P hkey⟩, ⟨hlen', decode_encode P hkey'⟩, fun hne hhead => hne ?_⟩
    rw [← hlen, ← hlen']
    exact congrArg UInt8.toNat hhead

/-- After 256 steps the depth is that of the master key again. -/
theorem derivePath_wraps :
    ∃ k, (setSeed .repeating (Blob.fill 32 7).data).derivePath .repeating
      (List.replicate 256 0) = some k ∧
      k.nDepth.toNat ≠ 256 ∧ k.encode.head =
        (setSeed .repeating (Blob.fill 32 7).data).encode.head := by
  obtain ⟨k, hk, -, hdepth⟩ := derivePath_eq (P := .repeating)
    (k := setSeed .repeating (Blob.fill 32 7).data) rfl (List.replicate 256 0)
  rw [List.length_replicate] at hdepth
  exact ⟨k, hk, ne_of_lt k.nDepth.toNat_lt, hdepth⟩

end CExtKey

end Tessera
