import Tessera.Wallet.KeyCore

/-!
# The sealed seed

Once a wallet is encrypted, its HD chain record should hold the seed in encrypted form only. Four
operations write the record or rebuild the wallet from it. `SetSeed` and `GetNewDestination` write
it from memory, with the seed in the clear and no ciphertext, so the record stays sealed exactly as
long as neither of them gets to write.
-/

namespace Tessera.Wallet

open Lib Script

/-- The operations on the key core, with the random bytes that `EncryptWallet` draws. Closing the
wallet and loading it again is one of them. -/
inductive KeyOp where
  | setSeed (seed : Uint256)
  | encryptWallet (phrase : Bytes) (newMasterKey : Blob 32) (salt : Blob 8)
  | lock
  | unlock (phrase : Bytes)
  | changeWalletPassphrase (oldPassphrase newPassphrase : Bytes)
  | getNewDestination (label : String)
  | getNewChangeDestination
  | reload

variable (P : Primitives)

/-- Whether an operation succeeds, with the wallet it leaves. -/
def KeyOp.apply (w : KeyCore) : KeyOp → Bool × KeyCore
  | setSeed seed => (true, w.setSeed P seed)
  | encryptWallet phrase newMasterKey salt => w.encryptWallet P phrase newMasterKey salt
  | lock => w.lock
  | unlock phrase => w.unlock P phrase
  | changeWalletPassphrase oldPassphrase newPassphrase =>
    w.changeWalletPassphrase P oldPassphrase newPassphrase
  | getNewDestination label =>
    ((w.getNewDestination P label).1.isOk, (w.getNewDestination P label).2)
  | getNewChangeDestination =>
    ((w.getNewChangeDestination P).1.isOk, (w.getNewChangeDestination P).2)
  | reload => (true, .load P w.db)

namespace KeyCore

/-- The wallet after an operation. -/
def step (w : KeyCore) (op : KeyOp) : KeyCore := (op.apply P w).2

/-- The persisted HD chain has no plaintext seed and a ciphertext. -/
def Sealed (w : KeyCore) : Prop :=
  ∃ chain, w.db.hdChain = some chain ∧ chain.hdSeed.isNull = true ∧ chain.cryptedSeed ≠ []

/-- The wallet is locked and holds no secret. -/
structure Locked (w : KeyCore) : Prop where
  isLocked : w.isLocked = true
  hasSeed : w.hasSeed = false
  mapKeys : ∀ id, w.mapKeys id = none

/-- What holds of a wallet from its encryption on: it has a master key, in memory and in the
database, and its record is sealed. -/
structure Encrypted (w : KeyCore) : Prop where
  sealed : w.Sealed
  isCrypted : w.isCrypted = true
  masterKeys : w.db.masterKeys.isEmpty = false

variable {P} {w : KeyCore} {chain : CHDChain} {op : KeyOp}

private theorem not_sealed_of_hdChain (h : w.db.hdChain = some chain)
    (hempty : chain.cryptedSeed = []) : ¬ w.Sealed := by
  rintro ⟨chain', h', -, hne⟩
  rw [h] at h'
  cases h'
  exact hne hempty

/-! ### Encrypting -/

theorem encryptWallet_fst (w : KeyCore) (phrase : Bytes) (key : Blob 32) (salt : Blob 8) :
    (w.encryptWallet P phrase key salt).1 = (!w.isCrypted && w.hasSeed) := by
  obtain ⟨hrefuse, h⟩ | ⟨⟨hcrypted, hseed⟩, _, _, -, h⟩ :=
    w.encryptWallet_cases (P := P) phrase key salt
  · rw [h]
    obtain hcrypted | hseed := hrefuse
    · simp [hcrypted]
    · simp [hseed]
  · rw [h, hcrypted, hseed]
    rfl

variable {phrase : Bytes} {key : Blob 32} {salt : Blob 8} {w' : KeyCore}

private theorem encryptWallet_encrypted (h : (w.encryptWallet P phrase key salt).1) :
    (w.encryptWallet P phrase key salt).2.Encrypted := by
  obtain ⟨-, hrefuse⟩ | ⟨-, _, _, hseals, heq⟩ := w.encryptWallet_cases (P := P) phrase key salt
  · rw [hrefuse] at h
    cases h
  · rw [heq]
    exact ⟨⟨_, rfl, Blob.isNull_null, hseals.ne⟩, by simp [isCrypted, sealedWallet, addMasterKey],
      Std.TreeMap.isEmpty_insert⟩

private theorem encryptWallet_of_isCrypted (h : w.isCrypted) (phrase : Bytes) (key : Blob 32)
    (salt : Blob 8) : w.encryptWallet P phrase key salt = (false, w) := by
  rw [encryptWallet, if_pos h]

/-! ### One step -/

/-- Everything that an operation can do. One that fails leaves the wallet alone. -/
inductive Stepped (P : Primitives) (w : KeyCore) : KeyOp → KeyCore → Prop
  | refused (op : KeyOp) : Stepped P w op w
  | seeded (seed : Uint256) : Stepped P w (.setSeed seed) (w.setSeed P seed)
  | encrypted (phrase : Bytes) (key : Blob 32) (salt : Blob 8) (id : UInt32) (master : CMasterKey)
      (cryptedSeed : Bytes) (chain : CHDChain) :
    Stepped P w (.encryptWallet phrase key salt) { w with
      mapMasterKeys := w.mapMasterKeys.insert id master
      nMasterKeyMaxID := id
      cryptedSeed := cryptedSeed
      pubkeyIds := w.pubkeyIds ∪ (w.derivedIds P).toFinset
      vMasterKey := key.data
      db := { w.db with
        masterKeys := w.db.masterKeys.insert id master
        hdChain := some chain
        pubKeyIds := w.db.pubKeyIds ∪ (w.derivedIds P).toFinset } }
  | locked : Stepped P w .lock { w with
      vMasterKey := [], hdSeed := .null 32, hdMaster := .empty, hasSeed := false, mapKeys :=
        fun _ => none }
  | unlocked (phrase : Bytes) {w' : KeyCore} (h : w.Unlocked P w') : Stepped P w (.unlock phrase) w'
  | rekeyed (old new : Bytes) {w' : KeyCore} {inMemory onDisk : MasterKeyMap}
    (hunlock : w.unlock P old = (true, w'))
      (h : w.Unlocked P w') (hmemory : w'.mapMasterKeys.isEmpty = false →
        inMemory.isEmpty = false) :
    Stepped P w (.changeWalletPassphrase old new)
      { w' with mapMasterKeys := inMemory, db := { w'.db with masterKeys := onDisk } }
  | handedOut (op : KeyOp) {child : CExtKey} {db : KeyRecords}
    {book : CTxDestination → Option CAddressBookData}
    (hchild : w.hdMaster.derive P w.nextIndex = some child)
    (hkeys : db.masterKeys = w.db.masterKeys) :
    Stepped P w op { w.addKey P child.key with
      nextIndex := w.nextIndex + 1
      pubkeyIds := insert (child.key.getPubKey.getID P) w.pubkeyIds
      addressBook := book
      db := db }
  | reloaded : Stepped P w .reload (load P w.db)

private theorem stepped_getNewDestination (op : KeyOp) (label : String) : Stepped P w op
    (w.getNewDestination P label).2 := by
  obtain ⟨-, _, heq⟩ | ⟨child, _, _, db, book, -, hchild, -, -, -, heq, hkeys⟩ :=
    w.getNewDestination_cases (P := P) label
  · rw [heq]
    exact .refused op
  · rw [heq]
    exact .handedOut op hchild hkeys

private theorem stepped (w : KeyCore) (op : KeyOp) : Stepped P w op (w.step P op) := by
  cases op with
  | setSeed seed => exact .seeded seed
  | encryptWallet phrase key salt =>
    rw [step, KeyOp.apply]
    obtain ⟨-, heq⟩ | ⟨-, _, _, -, heq⟩ := w.encryptWallet_cases (P := P) phrase key salt
    · rw [heq]
      exact .refused _
    · rw [heq, sealedWallet, written_true]
      exact .encrypted phrase key salt _ _ _ _
  | lock =>
    rw [step, KeyOp.apply, lock]
    split
    · exact .locked
    · exact .refused _
  | unlock phrase =>
    rw [step, KeyOp.apply]
    obtain heq | ⟨w', heq, hunlocked, -⟩ := w.unlock_cases (P := P) phrase
    · rw [heq]
      exact .refused _
    · rw [heq]
      exact .unlocked phrase hunlocked
  | changeWalletPassphrase old new =>
    rw [step, KeyOp.apply]
    obtain ⟨-, heq⟩ | ⟨w', _, _, _, hunlock, hunlocked, heq, hmemory, -⟩ :=
      w.changeWalletPassphrase_cases (P := P) old new
    · rw [heq]
      exact .refused _
    · rw [heq]
      exact .rekeyed old new hunlock hunlocked hmemory
  | getNewDestination label => exact stepped_getNewDestination _ label
  | getNewChangeDestination => exact stepped_getNewDestination _ ""
  | reload => exact .reloaded

/-- What holds of everything that an operation can do holds after it. -/
theorem step_of_stepped {I : KeyCore → Prop} (h : ∀ w', Stepped P w op w' → I w') :
    I (w.step P op) :=
  h _ (w.stepped op)

/-- The steps that leave a sealed record sealed: `SetSeed` is not called, and a destination is asked
for only while the wallet has no seed in memory or no valid master key. -/
def Keeps (w : KeyCore) : KeyOp → Prop
  | .setSeed _ => False
  | .getNewDestination _ | .getNewChangeDestination =>
    w.hasSeed = false ∨ w.hdMaster.key.isValid = false
  | _ => True

/-- The steps in which `Unlock` succeeds, also as the first thing that `ChangeWalletPassphrase`
does. -/
def Unlocks (P : Primitives) (w : KeyCore) (op : KeyOp) : Prop :=
  match op with
  | .unlock phrase => (w.unlock P phrase).1 = true
  | .changeWalletPassphrase oldPassphrase _ => (w.unlock P oldPassphrase).1 = true
  | _ => False

private theorem getNewDestination_refused (h : w.hasSeed = false ∨ w.hdMaster.key.isValid = false)
    (label : String) : (w.getNewDestination P label).2 = w := by
  unfold getNewDestination
  obtain hseed | hkey := h
  · rw [if_neg (by simp [hseed])]
  · rw [CExtKey.derive_eq_none P w.nextIndex hkey]
    split
    · rfl
    · rfl

private theorem getNewDestination_isOk (hseed : w.hasSeed) (hkey : w.hdMaster.key.isValid)
    (label : String) : (w.getNewDestination P label).1.isOk := by
  obtain ⟨hfail, -⟩ | ⟨_, _, _, _, _, -, -, -, -, -, heq, -⟩ :=
    w.getNewDestination_cases (P := P) label
  · rw [hseed, hkey] at hfail
    simp at hfail
  · rw [heq]
    rfl

private theorem getNewDestination_ok (label : String) (h : (w.getNewDestination P label).1.isOk) :
    ∃ chain, (w.getNewDestination P label).2.db.hdChain = some chain ∧ chain.hdSeed = w.hdSeed ∧
      chain.cryptedSeed = [] := by
  obtain ⟨-, _, heq⟩ | ⟨_, _, chain, _, _, -, -, hseed, hempty, hchain, heq, -⟩ :=
    w.getNewDestination_cases (P := P) label
  · rw [heq] at h
    cases h
  · rw [heq]
    exact ⟨chain, hchain, hseed, hempty⟩

/-- Reloading a sealed record reads the ciphertext only. -/
theorem load_of_sealed {db : KeyRecords} (h : db.hdChain = some chain)
    (hne : chain.cryptedSeed ≠ []) : load P db = { new db with
      nextIndex := chain.nExternalChainCounter
      cryptedSeed := chain.cryptedSeed
      pubkeyIds := ∅ ∪ db.pubKeyIds
      mapMasterKeys := db.masterKeys
      nMasterKeyMaxID := maxMasterKeyID 0 db.masterKeys.keys
      addressBook := loadAddress db } := by
  simp only [load, h, loadHDChain, if_pos hne]
  rfl

private theorem Encrypted.load_locked (h : w.Encrypted) : (load P w.db).Locked := by
  obtain ⟨chain, hchain, -, hne⟩ := h.sealed
  rw [load_of_sealed hchain hne]
  refine ⟨?_, rfl, fun _ => rfl⟩
  simp [isLocked, KeyCore.isCrypted, h.masterKeys, new]

private theorem Encrypted.unlocked (h : w.Encrypted) (hunlocked : w.Unlocked P w') :
    w'.Encrypted := by
  obtain ⟨hmap, hdb⟩ := hunlocked.masterKeys
  refine ⟨?_, ?_, ?_⟩
  · rw [Sealed, hdb]
    exact h.sealed
  · rw [KeyCore.isCrypted, hmap]
    exact h.isCrypted
  · rw [hdb]
    exact h.masterKeys

private theorem Encrypted.step_cases (h : w.Encrypted) (hkeeps : w.Keeps op) :
    w.step P op = w ∨ w.step P op = w.lock.2 ∨ w.step P op = load P w.db ∨
      Unlocks P w op ∧ (w.step P op).Encrypted := by
  cases op with
  | setSeed seed => exact hkeeps.elim
  | encryptWallet phrase key salt =>
    exact .inl (congrArg Prod.snd (encryptWallet_of_isCrypted h.isCrypted phrase key salt))
  | lock => exact .inr (.inl rfl)
  | unlock phrase =>
    rw [step, KeyOp.apply, Unlocks]
    obtain heq | ⟨w', heq, hunlocked, -⟩ := w.unlock_cases (P := P) phrase
    · rw [heq]
      exact .inl rfl
    · rw [heq]
      exact .inr (.inr (.inr ⟨rfl, h.unlocked hunlocked⟩))
  | changeWalletPassphrase old new =>
    rw [step, KeyOp.apply, Unlocks]
    obtain ⟨-, heq⟩ | ⟨w', _, _, _, hunlock, hunlocked, heq, hmemory, hdisk⟩ :=
      w.changeWalletPassphrase_cases (P := P) old new
    · rw [heq]
      exact .inl rfl
    have henc := h.unlocked hunlocked
    have hne : w'.mapMasterKeys.isEmpty = false := by simpa [KeyCore.isCrypted] using henc.isCrypted
    rw [heq, hunlock]
    exact .inr (.inr (.inr ⟨rfl, henc.sealed,
      by simp [KeyCore.isCrypted, hmemory hne], hdisk henc.masterKeys⟩))
  | getNewDestination label => exact .inl (getNewDestination_refused hkeeps label)
  | getNewChangeDestination => exact .inl (getNewDestination_refused hkeeps "")
  | reload => exact .inr (.inr (.inl rfl))

/-- What `Keeps` allows leaves an encrypted wallet encrypted. -/
theorem Encrypted.step (h : w.Encrypted) (hkeeps : w.Keeps op) : (w.step P op).Encrypted := by
  obtain heq | heq | heq | ⟨-, henc⟩ := h.step_cases hkeeps
  · rwa [heq]
  · rw [heq, lock, if_pos h.isCrypted]
    exact ⟨h.sealed, h.isCrypted, h.masterKeys⟩
  · obtain ⟨chain, hchain, hnull, hne⟩ := h.sealed
    rw [heq, load_of_sealed hchain hne]
    exact ⟨⟨chain, hchain, hnull, hne⟩, by simp [KeyCore.isCrypted, h.masterKeys], h.masterKeys⟩
  · exact henc

/-- Whatever `Keeps` rules out leaves a record that is not sealed. -/
theorem keeps_of_sealed_step (h : (w.step P op).Sealed) : w.Keeps op := by
  have hrefused : ∀ label, (w.getNewDestination P label).2.Sealed →
      w.hasSeed = false ∨ w.hdMaster.key.isValid = false := by
    intro label hsealed
    by_contra hready
    rw [not_or, Bool.not_eq_false, Bool.not_eq_false] at hready
    obtain ⟨chain, hchain, -, hempty⟩ :=
      getNewDestination_ok label (getNewDestination_isOk (P := P) hready.1 hready.2 label)
    exact not_sealed_of_hdChain hchain hempty hsealed
  cases op with
  | setSeed seed => exact not_sealed_of_hdChain rfl rfl h
  | getNewDestination label => exact hrefused label h
  | getNewChangeDestination => exact hrefused "" h
  | encryptWallet | lock | unlock | changeWalletPassphrase | reload => trivial

/-- A locked wallet stays locked through every step in which `Unlock` does not succeed. -/
theorem Locked.step (henc : w.Encrypted) (h : w.Locked) (hkeeps : w.Keeps op)
    (hunlock : ¬ Unlocks P w op) : (w.step P op).Locked := by
  obtain heq | heq | heq | ⟨hunlocks, -⟩ := henc.step_cases hkeeps
  · rwa [heq]
  · rw [heq, lock, if_pos henc.isCrypted]
    have hcrypted := henc.isCrypted
    exact ⟨by simpa [KeyCore.isLocked, isCrypted] using hcrypted, rfl, fun _ => rfl⟩
  · rw [heq]
    exact henc.load_locked
  · exact absurd hunlocks hunlock

/-- The first address after encryption puts the plaintext seed back into the database: the record is
written from memory, where the wallet that was just encrypted still has the seed. -/
theorem getNewDestination_reveals (h : (w.encryptWallet P phrase key salt).1)
    (hkey : w.hdMaster.key.isValid) (label : String) :
    ∃ chain, ((w.encryptWallet P phrase key salt).2.step P (.getNewDestination label)).db.hdChain =
      some chain ∧ chain.hdSeed = w.hdSeed ∧ chain.cryptedSeed = [] := by
  obtain ⟨-, hrefuse⟩ | ⟨⟨-, hseed⟩, _, _, -, heq⟩ :=
    w.encryptWallet_cases (P := P) phrase key salt
  · rw [hrefuse] at h
    cases h
  rw [heq]
  apply getNewDestination_ok
  apply getNewDestination_isOk
  · exact hseed
  · exact hkey

/-- After `EncryptWallet`, the record stays sealed in every state of a run exactly if no step of the
run sets a seed, and none asks for a destination while the seed is in memory. In such a run every
reload comes up locked and without keys, until `Unlock` succeeds. -/
theorem encryptWallet_run_sealed {passphrase : Bytes} {key : Blob 32} {salt : Blob 8}
    (h : (w.encryptWallet P passphrase key salt).1 = true) (ops : List KeyOp) :
    (Along (step P) Sealed (w.encryptWallet P passphrase key salt).2 ops ↔
      Meets (step P) Keeps (w.encryptWallet P passphrase key salt).2 ops) ∧
    (Meets (step P) Keeps (w.encryptWallet P passphrase key salt).2 ops →
      ∀ before after, ops = before ++ .reload :: after → Meets (step P)
        (fun w op => ¬ Unlocks P w op)
          (run (step P) (w.encryptWallet P passphrase key salt).2 (before ++ [.reload])) after →
        (run (step P) (w.encryptWallet P passphrase key salt).2 ops).Locked) := by
  have henc := encryptWallet_encrypted h
  generalize (w.encryptWallet P passphrase key salt).2 = w' at henc ⊢
  refine ⟨along_iff_meets (fun _ h => h.sealed) (fun _ _ h => h.step)
    (fun _ _ _ => keeps_of_sealed_step) henc, ?_⟩
  rintro hkeeps before after rfl hlocked
  rw [List.append_cons, meets_append] at hkeeps
  rw [List.append_cons, run_append]
  obtain ⟨hbefore, hafter⟩ := hkeeps
  -- from the reload on, the wallet is encrypted and locked
  have hreload : (run (step P) w' (before ++ [.reload])).Locked := by
    rw [run_append]
    exact (run_invariant (fun _ _ h => h.step) henc (meets_append.mp hbefore).1).load_locked
  have hstart := run_invariant (fun _ _ h => h.step) henc hbefore
  exact (run_invariant (J := fun w => w.Encrypted ∧ w.Locked)
    (C := fun w op => w.Keeps op ∧ ¬ Unlocks P w op)
    (fun _ _ h hC => ⟨h.1.step hC.1, h.2.step h.1 hC.1 hC.2⟩) ⟨hstart, hreload⟩
    ((meets_and (C := Keeps)).mpr ⟨hafter, hlocked⟩)).2

def seeded : KeyCore := (new .empty).setSeed .repeating (.fill 32 7)

private theorem seeded_encryptWallet :
    (seeded.encryptWallet .repeating [1, 2, 3] (.fill 32 5) (.fill 8 4)).1 := by
  rfl

theorem encryptWallet_run_sealed_reload : Along (step .repeating) Sealed
        (seeded.encryptWallet .repeating [1, 2, 3] (.fill 32 5) (.fill 8 4)).2
          [.lock, .reload, .lock] ∧
      (run (step .repeating) (seeded.encryptWallet .repeating [1, 2, 3] (.fill 32 5) (.fill 8 4)).2
        [.lock, .reload, .lock]).Locked := by
  obtain ⟨hsealed, hlocked⟩ := encryptWallet_run_sealed seeded_encryptWallet [.lock, .reload, .lock]
  refine ⟨hsealed.mpr ⟨trivial, trivial, trivial, trivial⟩, ?_⟩
  exact hlocked ⟨trivial, trivial, trivial, trivial⟩ [.lock] [.lock] rfl ⟨id, trivial⟩

/-- One address after encryption, and the seed is on disk in the clear. -/
theorem encryptWallet_then_getNewDestination :
    (seeded.encryptWallet .repeating [1, 2, 3] (.fill 32 5) (.fill 8 4)).1 = true ∧ ∃ chain,
        ((seeded.encryptWallet .repeating [1, 2, 3] (.fill 32 5) (.fill 8 4)).2.step .repeating
          (.getNewDestination "")).db.hdChain = some chain ∧
        chain.hdSeed = .fill 32 7 ∧ chain.cryptedSeed = [] :=
  ⟨seeded_encryptWallet, getNewDestination_reveals seeded_encryptWallet rfl ""⟩

end KeyCore

end Tessera.Wallet
