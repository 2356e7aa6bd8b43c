import Tessera.Script.Solver
import Tessera.Wallet.Crypter

/-!
# The key core of the wallet

The keys of `CWallet` (`wallet/wallet.cpp`): the hierarchical-deterministic seed and the keys
derived from it, encryption and locking, and the database records that all of it is rebuilt from.

Every database write succeeds here, until the last section. Random bytes are arguments of the
operations that draw them. Address book records are keyed by destination, where the source writes
the encoded address; its other fields, the birth time and the notifications are left out.
-/

namespace Tessera.Wallet

open Function Script

structure CHDChain where
  nVersion : Nat
  nExternalChainCounter : UInt32
  seedId : CKeyID
  hdSeed : Uint256
  cryptedSeed : Bytes
  deriving DecidableEq

/-- `CHDChain::SetNull`. -/
def CHDChain.null : CHDChain := ⟨1, 0, .null 20, .null 32, []⟩

inductive AddressPurpose where
  | receive
  | send
  | refund
  deriving DecidableEq

/-- The label and purpose of `CAddressBookData`. -/
structure CAddressBookData where
  label : Option String
  purpose : Option AddressPurpose
  deriving DecidableEq

/-- `mapMasterKeys`, which is run through in the order of the identifiers. -/
abbrev MasterKeyMap := Std.TreeMap UInt32 CMasterKey

/-- The records of the wallet database that the key core reads and writes. -/
structure KeyRecords where
  hdChain : Option CHDChain
  pubKeyIds : Finset CKeyID
  masterKeys : MasterKeyMap
  names : CTxDestination → Option String
  purposes : CTxDestination → Option AddressPurpose

/-- The database of a new wallet. -/
def KeyRecords.empty : KeyRecords := ⟨none, ∅, ∅, fun _ => none, fun _ => none⟩

/-- The fields of `CWallet` that hold keys, with the database. `mapKeys` and `mapScripts` are those
of the `FillableSigningProvider` that the wallet is. -/
structure KeyCore where
  mapKeys : CKeyID → Option CKey
  mapScripts : CScriptID → Option CScript
  hdMaster : CExtKey
  hdSeed : Uint256
  nextIndex : UInt32
  hasSeed : Bool
  pubkeyIds : Finset CKeyID
  cryptedSeed : Bytes
  mapMasterKeys : MasterKeyMap
  nMasterKeyMaxID : UInt32
  vMasterKey : Bytes
  addressBook : CTxDestination → Option CAddressBookData
  db : KeyRecords

namespace KeyCore

/-- A wallet object before anything is loaded. -/
def new (db : KeyRecords) : KeyCore where
  mapKeys := fun _ => none
  mapScripts := fun _ => none
  hdMaster := .empty
  hdSeed := .null 32
  nextIndex := 0
  hasSeed := false
  pubkeyIds := ∅
  cryptedSeed := []
  mapMasterKeys := ∅
  nMasterKeyMaxID := 0
  vMasterKey := []
  addressBook := fun _ => none
  db := db

variable (P : Primitives)

/-! ### Keys -/

variable (w : KeyCore)

/-- `FillableSigningProvider::AddKey`: store a key, and the P2WPKH script of its public key. -/
def addKey (key : CKey) : KeyCore :=
  let id := key.getPubKey.getID P
  let script := getScriptForDestination (.witnessV0KeyHash id)
  { w with
    mapKeys := update w.mapKeys id (some key)
    mapScripts := update w.mapScripts (hash160 P script) (some script) }

/-- Derive the key at an index, store it and remember its identifier. -/
def learnKey (index : UInt32) : KeyCore :=
  match w.hdMaster.derive P index with
  | some child =>
    { w.addKey P child.key with
      pubkeyIds := insert (child.key.getPubKey.getID P) w.pubkeyIds }
  | none => w

/-- The loop that derives every key handed out so far. -/
def learnKeys : KeyCore :=
  (List.range w.nextIndex.toNat).foldl (fun w i => w.learnKey P (UInt32.ofNat i)) w

/-- The identifier of the master key, which `CHDChain` records if the key is valid. -/
def seedId : CKeyID :=
  if w.hdMaster.key.isValid then w.hdMaster.key.getPubKey.getID P else .null 20

def setSeed (seed : Uint256) : KeyCore :=
  let w := { w with
    hdMaster := .setSeed P seed.data
    hdSeed := seed
    nextIndex := 0
    hasSeed := true }
  { w with db := { w.db with hdChain := some { CHDChain.null with
      nExternalChainCounter := w.nextIndex, hdSeed := w.hdSeed, seedId := w.seedId P } } }

/-- `CWallet::SetAddressBookWithDB`. -/
def setAddressBook (dest : CTxDestination) (label : String)
    (purpose : AddressPurpose) : KeyCore :=
  { w with
    addressBook := update w.addressBook dest (some ⟨some label, some purpose⟩)
    db := { w.db with
      names := update w.db.names dest (some label)
      purposes := update w.db.purposes dest (some purpose) } }

def getNewDestination (label : String) : Except String CTxDestination × KeyCore :=
  if w.hasSeed then
    match w.hdMaster.derive P w.nextIndex with
    | none => (.error "HD derivation failed", w)
    | some child =>
      let id := child.key.getPubKey.getID P
      let w := { w with nextIndex := w.nextIndex + 1 }
      let w := { w.addKey P child.key with pubkeyIds := insert id w.pubkeyIds }
      let dest := CTxDestination.witnessV0KeyHash id
      let w := { w with db := { w.db with
        hdChain := some { CHDChain.null with
          nExternalChainCounter := w.nextIndex, hdSeed := w.hdSeed, seedId := w.seedId P }
        pubKeyIds := insert id w.db.pubKeyIds } }
      (.ok dest, if label.isEmpty then w else w.setAddressBook dest label .receive)
  else (.error "Wallet has no HD seed", w)

def getNewChangeDestination : Except String CTxDestination × KeyCore :=
  w.getNewDestination P ""

def loadHDChain (chain : CHDChain) : KeyCore :=
  let w := { w with nextIndex := chain.nExternalChainCounter }
  if chain.cryptedSeed ≠ [] then { w with cryptedSeed := chain.cryptedSeed, hasSeed := false }
  else if chain.hdSeed.isNull then w
  else
    learnKeys P { w with
      hdSeed := chain.hdSeed
      hdMaster := .setSeed P chain.hdSeed.data
      hasSeed := true }

/-! ### Encryption -/

def isCrypted : Bool := !w.mapMasterKeys.isEmpty

def isLocked : Bool := w.isCrypted && w.vMasterKey.isEmpty

def lock : Bool × KeyCore :=
  if w.isCrypted then
    (true, { w with
      vMasterKey := []
      hdSeed := .null 32
      hdMaster := .empty
      hasSeed := false
      mapKeys := fun _ => none })
  else (false, w)

/-- `CWallet::Unlock` with a master key. -/
def unlockWithKey (vMasterKeyIn : Bytes) : Bool × KeyCore :=
  if w.cryptedSeed = [] then (true, { w with vMasterKey := vMasterKeyIn })
  else
    match (decryptSecret P vMasterKeyIn w.cryptedSeed (.null 32)).bind (Blob.ofBytes? 32) with
    | none => (false, w)
    | some seed =>
      let w := learnKeys P { w with
        hdSeed := seed
        hdMaster := .setSeed P seed.data
        hasSeed := true }
      (true, { w with vMasterKey := vMasterKeyIn })

def unlockLoop (w : KeyCore) (passphrase : Bytes) : List CMasterKey → Bool × KeyCore
  | [] => (false, w)
  | master :: rest =>
    match CCrypter.setKeyFromPassphrase P passphrase master.vchSalt master.nDeriveIterations
      master.nDerivationMethod with
    | none => (false, w)
    | some crypter =>
      match crypter.decrypt P master.vchCryptedKey with
      | none => unlockLoop w passphrase rest
      | some key =>
        match w.unlockWithKey P key with
        | (true, w') => (true, w')
        | (false, w') => unlockLoop w' passphrase rest

/-- `CWallet::Unlock` with a passphrase. -/
def unlock (passphrase : Bytes) : Bool × KeyCore :=
  w.unlockLoop P passphrase w.mapMasterKeys.values

/-- The identifiers that `EncryptWallet` writes out while the seed is available. -/
def derivedIds : List CKeyID :=
  (List.range w.nextIndex.toNat).filterMap fun i =>
    (w.hdMaster.derive P (UInt32.ofNat i)).map fun child => child.key.getPubKey.getID P

/-- `CWallet::EncryptWallet`, with the master key and the salt it draws. -/
def encryptWallet (passphrase : Bytes) (newMasterKey : Blob 32) (salt : Blob 8) : Bool × KeyCore :=
  if w.isCrypted then (false, w)
  else if w.hasSeed then
    let kMasterKey := CMasterKey.new salt.data
    match CCrypter.setKeyFromPassphrase P passphrase kMasterKey.vchSalt kMasterKey.nDeriveIterations
      kMasterKey.nDerivationMethod with
    | none => (false, w)
    | some crypter =>
      match crypter.encrypt P newMasterKey.data with
      | none => (false, w)
      | some vchCryptedKey =>
        match encryptSecret P newMasterKey.data w.hdSeed.data (.null 32) with
        | none => (false, w)
        | some cryptedSeed =>
          let id := w.nMasterKeyMaxID + 1
          let kMasterKey := { kMasterKey with vchCryptedKey := vchCryptedKey }
          let ids := (w.derivedIds P).toFinset
          (true, { w with
            mapMasterKeys := w.mapMasterKeys.insert id kMasterKey
            nMasterKeyMaxID := id
            cryptedSeed := cryptedSeed
            pubkeyIds := w.pubkeyIds ∪ ids
            vMasterKey := newMasterKey.data
            db := { w.db with
              masterKeys := w.db.masterKeys.insert id kMasterKey
              hdChain := some { CHDChain.null with
                nExternalChainCounter := w.nextIndex, cryptedSeed := cryptedSeed
                seedId := w.seedId P }
              pubKeyIds := w.db.pubKeyIds ∪ ids } })
  else (false, w)

/-- One round of the loop of `ChangeWalletPassphrase`: the master key under the new passphrase. -/
def rekey (oldPassphrase newPassphrase : Bytes) (master : CMasterKey) : Option CMasterKey := do
  let crypter ← CCrypter.setKeyFromPassphrase P oldPassphrase master.vchSalt
    master.nDeriveIterations master.nDerivationMethod
  let decrypted ← crypter.decrypt P master.vchCryptedKey
  let crypter ← CCrypter.setKeyFromPassphrase P newPassphrase master.vchSalt
    master.nDeriveIterations master.nDerivationMethod
  let vchCryptedKey ← crypter.encrypt P decrypted
  some { master with vchCryptedKey := vchCryptedKey }

/-- The loop of `ChangeWalletPassphrase`; it stops at the first master key that fails. -/
def rekeyLoop (w : KeyCore) (oldPassphrase newPassphrase : Bytes) : List (UInt32 × CMasterKey) →
    Bool × KeyCore
  | [] => (true, w)
  | (id, master) :: rest =>
    match rekey P oldPassphrase newPassphrase master with
    | none => (false, w)
    | some master' =>
      rekeyLoop { w with
        mapMasterKeys := w.mapMasterKeys.insert id master'
        db := { w.db with masterKeys := w.db.masterKeys.insert id master' } }
        oldPassphrase newPassphrase rest

def changeWalletPassphrase (w : KeyCore) (oldPassphrase newPassphrase : Bytes) : Bool × KeyCore :=
  match w.unlock P oldPassphrase with
  | (false, w) => (false, w)
  | (true, w) => w.rekeyLoop P oldPassphrase newPassphrase w.mapMasterKeys.toList

/-! ### Loading -/

/-- The largest identifier of some master keys, at least the given one. -/
def maxMasterKeyID (id : UInt32) (keys : List UInt32) : UInt32 :=
  keys.foldl (fun acc id => if acc < id then id else acc) id

/-- The address book entry that the records of a destination make. -/
def loadAddress (db : KeyRecords) (dest : CTxDestination) : Option CAddressBookData :=
  match db.names dest, db.purposes dest with
  | none, none => none
  | label, purpose => some ⟨label, purpose⟩

/-- `PopulateWalletFromDB` into a new wallet object: the HD chain, then the key identifiers, the
master keys and the address book. -/
def load (db : KeyRecords) : KeyCore :=
  let w := new db
  let w := match db.hdChain with
    | some chain => w.loadHDChain P chain
    | none => w
  { w with
    pubkeyIds := w.pubkeyIds ∪ db.pubKeyIds
    mapMasterKeys := db.masterKeys
    nMasterKeyMaxID := maxMasterKeyID w.nMasterKeyMaxID db.masterKeys.keys
    addressBook := loadAddress db }

/-! ### What the operations do -/

section Cases

variable {P} (w : KeyCore)

/-- Deriving keys only adds keys, scripts and identifiers. -/
theorem learnKey_frame (index : UInt32) : ∃ keys scripts ids, w.learnKey P index =
      { w with mapKeys := keys, mapScripts := scripts, pubkeyIds := ids } := by
  unfold learnKey
  split
  · exact ⟨_, _, _, rfl⟩
  · exact ⟨_, _, _, rfl⟩

theorem foldl_learnKey_frame (indices : List Nat) :
    ∃ keys scripts ids, indices.foldl (fun w i => w.learnKey P (UInt32.ofNat i)) w =
      { w with mapKeys := keys, mapScripts := scripts, pubkeyIds := ids } := by
  induction indices generalizing w with
  | nil => exact ⟨_, _, _, rfl⟩
  | cons i indices ih =>
    obtain ⟨keys, scripts, ids, hstep⟩ := w.learnKey_frame (P := P) (UInt32.ofNat i)
    obtain ⟨keys', scripts', ids', hrest⟩ := ih (w.learnKey P (UInt32.ofNat i))
    refine ⟨keys', scripts', ids', ?_⟩
    rw [List.foldl_cons, hrest, hstep]

theorem learnKeys_frame : ∃ keys scripts ids, w.learnKeys P =
      { w with mapKeys := keys, mapScripts := scripts, pubkeyIds := ids } :=
  w.foldl_learnKey_frame _

/-- The wallet that a seed brings back: the master key and every key handed out so far. -/
def withSeed (P : Primitives) (seed : Uint256) : KeyCore :=
  learnKeys P { w with hdSeed := seed, hdMaster := .setSeed P seed.data, hasSeed := true }

theorem withSeed_frame (seed : Uint256) : ∃ keys scripts ids, w.withSeed P seed = { w with
      hdSeed := seed, hdMaster := .setSeed P seed.data, hasSeed := true
      mapKeys := keys, mapScripts := scripts, pubkeyIds := ids } :=
  learnKeys_frame _

/-- A record of the chain brings back a seed, or at most a ciphertext; then the other records
follow. -/
theorem load_cases (db : KeyRecords) : ∃ index w, ((∃ cryptedSeed,
        w = { new db with nextIndex := index, cryptedSeed := cryptedSeed }) ∨
      ∃ seed, w = { new db with nextIndex := index }.withSeed P seed) ∧
    load P db = { w with
      pubkeyIds := w.pubkeyIds ∪ db.pubKeyIds
      mapMasterKeys := db.masterKeys
      nMasterKeyMaxID := maxMasterKeyID w.nMasterKeyMaxID db.masterKeys.keys
      addressBook := loadAddress db } := by
  unfold load
  cases db.hdChain with
  | none => exact ⟨_, _, .inl ⟨_, rfl⟩, rfl⟩
  | some chain =>
    dsimp only
    unfold loadHDChain
    split
    · exact ⟨_, _, .inl ⟨_, rfl⟩, rfl⟩
    split
    · exact ⟨_, _, .inl ⟨_, rfl⟩, rfl⟩
    · exact ⟨_, _, .inr ⟨_, rfl⟩, rfl⟩

/-- What unlocking with a master key may lead to. -/
inductive Unlocked (P : Primitives) : KeyCore → Prop
  | noSeed (key : Bytes) : Unlocked P { w with vMasterKey := key }
  | seed (key : Bytes) (seed : Uint256) : Unlocked P { w.withSeed P seed with vMasterKey := key }

/-- Unlocking changes neither the database nor the master keys. -/
theorem Unlocked.masterKeys {w w' : KeyCore} (h : w.Unlocked P w') :
    w'.mapMasterKeys = w.mapMasterKeys ∧ w'.db = w.db := by
  cases h with
  | noSeed key => exact ⟨rfl, rfl⟩
  | seed key seed =>
    obtain ⟨keys, scripts, ids, hframe⟩ := w.withSeed_frame (P := P) seed
    rw [hframe]
    exact ⟨rfl, rfl⟩

private theorem unlockWithKey_cases (key : Bytes) : w.unlockWithKey P key = (false, w) ∨
      ∃ w', w.unlockWithKey P key = (true, w') ∧ w.Unlocked P w' ∧ w'.vMasterKey = key := by
  unfold unlockWithKey
  split
  · exact .inr ⟨_, rfl, .noSeed key, rfl⟩
  · split
    · exact .inl rfl
    · exact .inr ⟨_, rfl, .seed key _, rfl⟩

private theorem unlockLoop_cases (passphrase : Bytes) (masters : List CMasterKey) :
    w.unlockLoop P passphrase masters = (false, w) ∨
      ∃ w', w.unlockLoop P passphrase masters = (true, w') ∧ w.Unlocked P w' ∧
      w'.vMasterKey ≠ [] := by
  induction masters with
  | nil => exact .inl rfl
  | cons master rest ih =>
    unfold unlockLoop
    split
    · exact .inl rfl
    split
    · exact ih
    next key hdecrypt =>
      -- a master key that does not fit leaves the wallet as it was for the next one
      obtain h | ⟨w', h, hunlocked, rfl⟩ := w.unlockWithKey_cases (P := P) key
      · rw [h]
        exact ih
      · rw [h]
        exact .inr ⟨w', rfl, hunlocked, CCrypter.decrypt_ne_nil hdecrypt⟩

/-- A failed `Unlock` leaves the wallet alone, and one that succeeds leaves a master key in it. -/
theorem unlock_cases (passphrase : Bytes) : w.unlock P passphrase = (false, w) ∨
      ∃ w', w.unlock P passphrase = (true, w') ∧ w.Unlocked P w' ∧ w'.vMasterKey ≠ [] :=
  w.unlockLoop_cases passphrase _

private theorem rekeyLoop_cases (old new : Bytes) (masters : List (UInt32 × CMasterKey)) :
    ∃ ok inMemory onDisk, w.rekeyLoop P old new masters =
        (ok, { w with mapMasterKeys := inMemory, db := { w.db with masterKeys := onDisk } }) ∧
      (w.mapMasterKeys.isEmpty = false → inMemory.isEmpty = false) ∧
      (w.db.masterKeys.isEmpty = false → onDisk.isEmpty = false) := by
  induction masters generalizing w with
  | nil => exact ⟨_, _, _, rfl, id, id⟩
  | cons entry rest ih =>
    unfold rekeyLoop
    split
    · exact ⟨_, _, _, rfl, id, id⟩
    next master' _ =>
      obtain ⟨ok, inMemory, onDisk, h, hmemory, hdisk⟩ := ih { w with
        mapMasterKeys := w.mapMasterKeys.insert entry.1 master'
        db := { w.db with masterKeys := w.db.masterKeys.insert entry.1 master' } }
      exact ⟨ok, inMemory, onDisk, h, fun _ => hmemory Std.TreeMap.isEmpty_insert,
        fun _ => hdisk Std.TreeMap.isEmpty_insert⟩

/-- `ChangeWalletPassphrase` unlocks the wallet and then replaces master keys. -/
theorem changeWalletPassphrase_cases (old new : Bytes) :
    w.unlock P old = (false, w) ∧ w.changeWalletPassphrase P old new = (false, w) ∨
      ∃ w' ok inMemory onDisk, w.unlock P old = (true, w') ∧ w.Unlocked P w' ∧
        w.changeWalletPassphrase P old new =
          (ok, { w' with mapMasterKeys := inMemory, db := { w'.db with masterKeys := onDisk } }) ∧
        (w'.mapMasterKeys.isEmpty = false → inMemory.isEmpty = false) ∧
        (w'.db.masterKeys.isEmpty = false → onDisk.isEmpty = false) := by
  unfold changeWalletPassphrase
  obtain h | ⟨w', h, hunlocked, -⟩ := w.unlock_cases (P := P) old
  · rw [h]
    exact .inl ⟨rfl, rfl⟩
  rw [h]
  obtain ⟨ok, inMemory, onDisk, hloop⟩ :=
    w'.rekeyLoop_cases (P := P) old new w'.mapMasterKeys.toList
  exact .inr ⟨w', ok, inMemory, onDisk, rfl, hunlocked, hloop⟩

private theorem blob_ne_nil (b : Blob 32) : b.data ≠ [] := by
  intro h
  have := b.size_eq
  rw [h] at this
  cases this

/-- A destination is handed out with a new key and a new record of the chain, which holds the seed
in memory and no ciphertext. A request fails for want of a seed or of a valid master key, and then
leaves the wallet alone. -/
theorem getNewDestination_cases (label : String) :
    ((w.hasSeed = false ∨ w.hdMaster.key.isValid = false) ∧
        ∃ e, w.getNewDestination P label = (.error e, w)) ∨
      ∃ child dest chain db book, w.hasSeed ∧ w.hdMaster.derive P w.nextIndex = some child ∧
        chain.hdSeed = w.hdSeed ∧ chain.cryptedSeed = [] ∧ db.hdChain = some chain ∧
        w.getNewDestination P label = (.ok dest, { w.addKey P child.key with
          nextIndex := w.nextIndex + 1
          pubkeyIds := insert (child.key.getPubKey.getID P) w.pubkeyIds
          addressBook := book
          db := db }) ∧ db.masterKeys = w.db.masterKeys := by
  unfold getNewDestination
  split
  next hseed =>
    split
    next hnone =>
      refine .inl ⟨.inr ?_, _, rfl⟩
      refine Bool.eq_false_iff.mpr fun hvalid => ?_
      have hsome := (CExtKey.derive_isSome_iff P w.nextIndex).mpr hvalid
      rw [hnone] at hsome
      cases hsome
    next child hchild =>
      refine .inr ⟨child, ?_⟩
      split
      · exact ⟨_, _, _, _, hseed, hchild, rfl, rfl, rfl, rfl, rfl⟩
      · exact ⟨_, _, _, _, hseed, hchild, rfl, rfl, rfl, rfl, rfl⟩
  next hseed => exact .inl ⟨.inl (by simpa using hseed), _, rfl⟩

end Cases

/-! ### Encrypting on a disk that may fail -/

section Encrypting

open CCrypter List Option

/-- The identifiers that reach the database when they are written one after the other, from a given
write on. -/
def written (disk : Nat → Bool) (k : Nat) (ids : List CKeyID) : List CKeyID :=
  ((ids.zipIdx k).filter fun p => disk p.2).map Prod.fst

theorem written_true (k : Nat) (ids : List CKeyID) : written (fun _ => true) k ids = ids := by
  simp only [written, filter_true]
  exact zipIdx_map_fst k ids

/-- `CWallet::EncryptWallet`. `disk` says of each write, in the order in which they are tried,
whether it goes through. -/
def encryptWalletOn (w : KeyCore) (disk : Nat → Bool) (phrase : Bytes) (newMasterKey : Blob 32)
    (salt : Blob 8) : Bool × KeyCore :=
  if w.isCrypted then (false, w)
  else if w.hasSeed then
    let kMasterKey := CMasterKey.new salt.data
    match setKeyFromPassphrase P phrase kMasterKey.vchSalt kMasterKey.nDeriveIterations
      kMasterKey.nDerivationMethod with
    | none => (false, w)
    | some crypter =>
      match crypter.encrypt P newMasterKey.data with
      | none => (false, w)
      | some vchCryptedKey =>
        match encryptSecret P newMasterKey.data w.hdSeed.data (.null 32) with
        | none => (false, w)
        | some cryptedSeed =>
          let id := w.nMasterKeyMaxID + 1
          let kMasterKey := { kMasterKey with vchCryptedKey := vchCryptedKey }
          -- the master key is in memory before it is written
          let w := { w with
            mapMasterKeys := w.mapMasterKeys.insert id kMasterKey, nMasterKeyMaxID := id }
          if !disk 0 then (false, w)
          else
            let w := { w with
              db := { w.db with masterKeys := w.db.masterKeys.insert id kMasterKey }
              cryptedSeed := cryptedSeed }
            if !disk 1 then (false, w)
            else
              -- whether the identifiers could be written is not looked at
              (true, { w with
                vMasterKey := newMasterKey.data
                pubkeyIds := w.pubkeyIds ∪ (w.derivedIds P).toFinset
                db := { w.db with
                  hdChain := some { CHDChain.null with
                    nExternalChainCounter := w.nextIndex, cryptedSeed := cryptedSeed
                    seedId := w.seedId P }
                  pubKeyIds := w.db.pubKeyIds ∪ (written disk 2 (w.derivedIds P)).toFinset } })
  else (false, w)

/-- On a disk that works this is `encryptWallet`. -/
theorem encryptWalletOn_true (w : KeyCore) (phrase : Bytes) (newMasterKey : Blob 32)
    (salt : Blob 8) : w.encryptWalletOn P (fun _ => true) phrase newMasterKey salt =
      w.encryptWallet P phrase newMasterKey salt := by
  unfold encryptWalletOn encryptWallet
  simp only [written_true]
  rfl

variable {P}

/-- The master key in its record, the record under a new identifier. -/
def addMasterKey (w : KeyCore) (master : CMasterKey) : KeyCore :=
  { w with
    mapMasterKeys := w.mapMasterKeys.insert (w.nMasterKeyMaxID + 1) master
    nMasterKeyMaxID := w.nMasterKeyMaxID + 1 }

/-- The wallet after `EncryptWallet` has sealed the seed. -/
def sealedWallet (P : Primitives) (w : KeyCore) (disk : Nat → Bool) (key : Blob 32)
    (master : CMasterKey) (cryptedSeed : Bytes) : KeyCore :=
  { w.addMasterKey master with
    cryptedSeed := cryptedSeed
    vMasterKey := key.data
    pubkeyIds := w.pubkeyIds ∪ (w.derivedIds P).toFinset
    db := { w.db with
      masterKeys := w.db.masterKeys.insert (w.nMasterKeyMaxID + 1) master
      hdChain := some { CHDChain.null with
        nExternalChainCounter := w.nextIndex, cryptedSeed := cryptedSeed, seedId := w.seedId P }
      pubKeyIds := w.db.pubKeyIds ∪ (written disk 2 (w.derivedIds P)).toFinset } }

/-- What a phrase finds in the record of a master key. -/
def opens (P : Primitives) (phrase : Bytes) (master : CMasterKey) : Option Bytes :=
  (setKeyFromPassphrase P phrase master.vchSalt master.nDeriveIterations
    master.nDerivationMethod).bind fun crypter => crypter.decrypt P master.vchCryptedKey

/-- The record and the ciphertext that `EncryptWallet` makes: the phrase opens the one to the master
key, and the master key opens the other to the seed. -/
structure Seals (P : Primitives) (w : KeyCore) (phrase : Bytes) (key : Blob 32)
    (master : CMasterKey) (cryptedSeed : Bytes) : Prop where
  ne : cryptedSeed ≠ []
  opens : AesInverts P → opens P phrase master = some key.data
  seed : AesInverts P → decryptSecret P key.data cryptedSeed (.null 32) = some w.hdSeed.data

/-- `EncryptWallet` refuses a wallet that is encrypted or has no seed. Otherwise it adds a master
key to memory, and gets as far as its writes go through. -/
theorem encryptWalletOn_cases (w : KeyCore) (disk : Nat → Bool) (phrase : Bytes) (key : Blob 32)
    (salt : Blob 8) : (w.isCrypted ∨ w.hasSeed = false) ∧
        w.encryptWalletOn P disk phrase key salt = (false, w) ∨
      (w.isCrypted = false ∧ w.hasSeed) ∧ ∃ master cryptedSeed,
      Seals P w phrase key master cryptedSeed ∧
        (disk 0 = false ∧ w.encryptWalletOn P disk phrase key salt =
          (false, w.addMasterKey master) ∨ disk 0 ∧ disk 1 = false ∧
            w.encryptWalletOn P disk phrase key salt = (false, { w.addMasterKey master with
              db := { w.db with
                masterKeys := w.db.masterKeys.insert (w.nMasterKeyMaxID + 1) master }
              cryptedSeed := cryptedSeed }) ∨
          disk 0 ∧ disk 1 ∧ w.encryptWalletOn P disk phrase key salt =
              (true, sealedWallet P w disk key master cryptedSeed)) := by
  unfold encryptWalletOn
  by_cases hcrypted : w.isCrypted
  · exact .inl ⟨.inl hcrypted, if_pos hcrypted⟩
  rw [if_neg hcrypted]
  by_cases hseed : w.hasSeed
  swap
  · exact .inl ⟨.inr (by simpa using hseed), if_neg hseed⟩
  rw [if_pos hseed]
  -- neither the phrase nor the two plaintexts can be refused
  obtain ⟨cryptedKey, -, hkey⟩ := encrypt_eq_some P
    (bytesToKeySHA3_512AES P salt.data phrase 25000) (blob_ne_nil key)
  obtain ⟨cryptedSeed, hne, hsecret⟩ := encrypt_eq_some P
    ⟨key, (Blob.null 32).first walletCryptoIvSize (by decide)⟩ (blob_ne_nil w.hdSeed)
  simp only [setKeyFromPassphrase_new, hkey, encryptSecret, setKey_eq, bind_eq_bind,
    bind_some, hsecret]
  refine .inr ⟨⟨by simpa using hcrypted, hseed⟩, { CMasterKey.new salt.data with
    vchCryptedKey := cryptedKey }, cryptedSeed, ⟨hne, fun haes => ?_, fun haes => ?_⟩, ?_⟩
  · have hcrypter := setKeyFromPassphrase_new P phrase salt
    refine (congrArg (bind · _) hcrypter).trans ?_
    exact decrypt_encrypt haes _ (blob_ne_nil key) hkey
  · rw [decryptSecret, setKey_eq]
    exact decrypt_encrypt haes _ (blob_ne_nil w.hdSeed) hsecret
  · cases hdisk : disk 0 with
    | false => exact .inl ⟨rfl, rfl⟩
    | true =>
      cases hdisk' : disk 1 with
      | false => exact .inr (.inl ⟨rfl, rfl, rfl⟩)
      | true => exact .inr (.inr ⟨rfl, rfl, rfl⟩)

/-- On a disk that works it always succeeds. -/
theorem encryptWallet_cases (w : KeyCore) (phrase : Bytes) (key : Blob 32) (salt : Blob 8) :
    (w.isCrypted ∨ w.hasSeed = false) ∧ w.encryptWallet P phrase key salt = (false, w) ∨
      (w.isCrypted = false ∧ w.hasSeed) ∧ ∃ master cryptedSeed,
      Seals P w phrase key master cryptedSeed ∧
        w.encryptWallet P phrase key salt =
          (true, sealedWallet P w (fun _ => true) key master cryptedSeed) := by
  rw [← encryptWalletOn_true]
  obtain hrefuse | ⟨hmay, master, cryptedSeed, hseals, hdisk | hdisk | ⟨-, -, heq⟩⟩ :=
    w.encryptWalletOn_cases (P := P) (fun _ => true) phrase key salt
  · exact .inl hrefuse
  · cases hdisk.1
  · cases hdisk.2.1
  · exact .inr ⟨hmay, master, cryptedSeed, hseals, heq⟩

end Encrypting

end KeyCore

end Tessera.Wallet
