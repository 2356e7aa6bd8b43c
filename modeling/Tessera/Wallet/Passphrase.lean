import Tessera.Wallet.Faults

/-!
# Changing the passphrase

`ChangeWalletPassphrase` (`wallet/wallet.cpp`) unlocks the wallet with the old passphrase and
rewrites the master keys one after the other, each in memory before it is written. It does not lock
the wallet again, does not look at whether the writes go through, and stops at the first master key
that the old passphrase does not open, with those before it rewritten.
-/

namespace Tessera.Wallet

open List Option

variable {w₁ : KeyCore} (P : Primitives)

namespace KeyCore

/-- The loop of `ChangeWalletPassphrase`, from a given write on. `disk` says of each write whether
it goes through. -/
def rekeyLoopOn (w : KeyCore) (disk : Nat → Bool) (oldPassphrase newPassphrase : Bytes) :
    Nat → List (UInt32 × CMasterKey) → Bool × KeyCore
  | _, [] => (true, w)
  | k, (id, master) :: rest =>
    match rekey P oldPassphrase newPassphrase master with
    | none => (false, w)
    | some master' =>
      rekeyLoopOn { w with
        mapMasterKeys := w.mapMasterKeys.insert id master'
        db := if disk k then { w.db with masterKeys := w.db.masterKeys.insert id master' }
          else w.db }
        disk oldPassphrase newPassphrase (k + 1) rest

/-- `CWallet::ChangeWalletPassphrase` on a database whose writes may fail. -/
def changeWalletPassphraseOn (w : KeyCore) (disk : Nat → Bool)
    (oldPassphrase newPassphrase : Bytes) : Bool × KeyCore :=
  match w.unlock P oldPassphrase with
  | (false, w) => (false, w)
  | (true, w) => w.rekeyLoopOn P disk oldPassphrase newPassphrase 0 w.mapMasterKeys.toList

/-- On a disk that works this is `changeWalletPassphrase`. -/
theorem changeWalletPassphraseOn_true (w : KeyCore) (oldPassphrase newPassphrase : Bytes) :
    w.changeWalletPassphraseOn P (fun _ => true) oldPassphrase newPassphrase =
      w.changeWalletPassphrase P oldPassphrase newPassphrase := by
  have hloop : ∀ (masters : List (UInt32 × CMasterKey)) (w : KeyCore) (k : Nat),
      w.rekeyLoopOn P (fun _ => true) oldPassphrase newPassphrase k masters =
        w.rekeyLoop P oldPassphrase newPassphrase masters := by
    intro masters
    induction masters with
    | nil => exact fun _ _ => rfl
    | cons entry rest ih =>
      intro w k
      unfold rekeyLoopOn rekeyLoop
      cases rekey P oldPassphrase newPassphrase entry.2 with
      | none => rfl
      | some master' => exact ih _ _
  unfold changeWalletPassphraseOn changeWalletPassphrase
  rcases w.unlock P oldPassphrase with ⟨ok, w'⟩
  cases ok with
  | false => rfl
  | true => exact hloop _ w' 0

/-- The master keys that get rewritten: those before the first one that cannot be. -/
def rekeyable (w : KeyCore) (oldPassphrase newPassphrase : Bytes) : List (UInt32 × CMasterKey) :=
  w.mapMasterKeys.toList.takeWhile fun entry =>
    (rekey P oldPassphrase newPassphrase entry.2).isSome

variable {P} {w : KeyCore} {disk : Nat → Bool} {old new : Bytes}

/-! ### The loop -/

private theorem rekeyLoopOn_vMasterKey (masters : List (UInt32 × CMasterKey))
    (w : KeyCore) (k : Nat) :
    (w.rekeyLoopOn P disk old new k masters).2.vMasterKey = w.vMasterKey := by
  induction masters generalizing w k with
  | nil => rfl
  | cons entry rest ih =>
    unfold rekeyLoopOn
    split
    · rfl
    · exact ih _ _

/-- What rewriting master keys leaves: those up to the first that cannot be rewritten are, in memory
all of them and on disk those whose write goes through. -/
private structure Rekeyed (P : Primitives) (written : Nat → Bool) (old new : Bytes)
    (memory records : MasterKeyMap)
    (masters done : List (UInt32 × CMasterKey)) (r : Bool × KeyCore) : Prop where
  ok : r.1 = true ↔ done = masters
  other : ∀ id ∉ done.map Prod.fst, r.2.mapMasterKeys[id]? = memory[id]? ∧
    r.2.db.masterKeys[id]? = records[id]?
  rewritten : ∀ j id master, done[j]? = some (id, master) → ∃ master', rekey P old new master =
    some master' ∧ r.2.mapMasterKeys[id]? = some master' ∧
    r.2.db.masterKeys[id]? = if written j then some master' else records[id]?

private theorem rekeyed_rekeyLoopOn (masters : List (UInt32 × CMasterKey))
    (hdistinct : (masters.map Prod.fst).Nodup) (w : KeyCore) (k : Nat) :
    Rekeyed P (fun j => disk (k + j)) old new w.mapMasterKeys w.db.masterKeys masters
      (masters.takeWhile fun entry => (rekey P old new entry.2).isSome)
        (w.rekeyLoopOn P disk old new k masters) := by
  induction masters generalizing w k with
  | nil => exact ⟨by simp [rekeyLoopOn], fun _ _ => ⟨rfl, rfl⟩, fun j id master h => by simp at h⟩
  | cons entry rest ih =>
    obtain ⟨id₀, master₀⟩ := entry
    rw [map_cons, nodup_cons] at hdistinct
    unfold rekeyLoopOn
    cases hrekey : rekey P old new master₀ with
    | none =>
      simp only [takeWhile_cons, hrekey]
      exact ⟨by simp, fun _ _ => ⟨rfl, rfl⟩, fun j id master h => by simp at h⟩
    | some master₀' =>
      simp only [takeWhile_cons, hrekey, isSome_some, if_true]
      generalize hstep : ({ w with
        mapMasterKeys := w.mapMasterKeys.insert id₀ master₀'
        db := if disk k then { w.db with masterKeys := w.db.masterKeys.insert id₀ master₀' }
          else w.db } : KeyCore) = w'
      obtain ⟨hok, hother, hdone⟩ := ih hdistinct.2 w' (k + 1)
      have hget : ∀ (keys : MasterKeyMap) (id : UInt32),
          (keys.insert id₀ master₀')[id]? = if id₀ = id then some master₀' else keys[id]? := by
        intro keys id
        rw [Std.TreeMap.getElem?_insert]
        simp
      have hmemory : ∀ id, w'.mapMasterKeys[id]? = if id₀ = id then some master₀'
          else w.mapMasterKeys[id]? := by
        intro id
        rw [← hstep, hget]
      have hdisk : ∀ id, w'.db.masterKeys[id]? =
          if id₀ = id ∧ disk k then some master₀' else w.db.masterKeys[id]? := by
        rw [← hstep]
        cases hk : disk k with
        | false => simp
        | true => simp [hget]
      -- the first master key is not touched again
      have hfirst : id₀ ∉ (rest.takeWhile fun e => (rekey P old new e.2).isSome).map Prod.fst := by
        intro hmem
        obtain ⟨entry, hentry, hid⟩ := mem_map.mp hmem
        exact hdistinct.1 (mem_map.mpr ⟨entry, (takeWhile_sublist _).mem hentry, hid⟩)
      refine ⟨by simp [hok], fun id hid => ?_, fun j id master hj => ?_⟩
      · rw [map_cons, mem_cons, not_or] at hid
        obtain ⟨hmem, hrec⟩ := hother id hid.2
        rw [hmem, hrec, hmemory, hdisk, if_neg (Ne.symm hid.1), if_neg fun h => hid.1 h.1.symm]
        exact ⟨rfl, rfl⟩
      · cases j with
        | zero =>
          cases hj
          obtain ⟨hmem, hrec⟩ := hother id₀ hfirst
          exact ⟨master₀', hrekey, by rw [hmem, hmemory, if_pos rfl], by simp [hrec, hdisk]⟩
        | succ j =>
          rw [getElem?_cons_succ] at hj
          obtain ⟨master', hrekey', hmem, hrec⟩ := hdone j id master hj
          have hne : id₀ ≠ id := by
            rintro rfl
            exact hfirst (mem_map_of_mem (mem_of_getElem? hj))
          refine ⟨master', hrekey', hmem, ?_⟩
          rw [hrec, hdisk, if_neg (c := _ ∧ _) fun h => hne h.1, add_right_comm, add_assoc]

/-! ### What the passphrases open -/

/-- A rewritten master key opens with the new passphrase to what the old one found in it. -/
theorem opens_of_rekey (haes : AesInverts P) {master master' : CMasterKey}
    (h : rekey P old new master = some master') :
    ∃ key, opens P old master = some key ∧ opens P new master' = some key := by
  obtain ⟨crypter, hcrypter, h⟩ := bind_eq_some_iff.mp h
  obtain ⟨key, hdecrypt, h⟩ := bind_eq_some_iff.mp h
  obtain ⟨crypter', hcrypter', h⟩ := bind_eq_some_iff.mp h
  obtain ⟨vchCryptedKey, hencrypt, h⟩ := bind_eq_some_iff.mp h
  cases h
  have hne := CCrypter.decrypt_ne_nil hdecrypt
  refine ⟨key, bind_eq_some_iff.mpr ⟨crypter, hcrypter, hdecrypt⟩,
    bind_eq_some_iff.mpr ⟨crypter', hcrypter', ?_⟩⟩
  exact CCrypter.decrypt_encrypt haes crypter' hne hencrypt

/-! ### When the change is clean -/

/-- What changing the passphrase should do: leave the lock state alone; if it succeeds, leave only
records that the new passphrase opens; and if it fails, leave every master key, in memory and on
disk, as the old passphrase knows it. -/
structure PassphraseChange (P : Primitives) (w : KeyCore) (disk : Nat → Bool)
    (old new : Bytes) : Prop where
  lockState : (w.changeWalletPassphraseOn P disk old new).2.isLocked = w.isLocked
  success : (w.changeWalletPassphraseOn P disk old new).1 = true →
    ∀ (id : UInt32) (master : CMasterKey),
    (w.changeWalletPassphraseOn P disk old new).2.db.masterKeys[id]? = some master →
      (opens P new master).isSome = true
  failureMemory : (w.changeWalletPassphraseOn P disk old new).1 = false →
    ∀ (id : UInt32) (master : CMasterKey) key, w.mapMasterKeys[id]? = some master →
    opens P old master = some key →
      ∃ master', (w.changeWalletPassphraseOn P disk old new).2.mapMasterKeys[id]? = some master' ∧
        opens P old master' = some key
  failureDisk : (w.changeWalletPassphraseOn P disk old new).1 = false →
    ∀ (id : UInt32) (master : CMasterKey) key, w.db.masterKeys[id]? = some master →
    opens P old master = some key →
      ∃ master', (w.changeWalletPassphraseOn P disk old new).2.db.masterKeys[id]? = some master' ∧
        opens P old master' = some key

/-- The old passphrase is wrong. Or else the wallet is not locked, and if all master keys can be
rewritten, every record is written or opens with the new passphrase anyway. -/
def ChangesCleanly (P : Primitives) (w : KeyCore) (disk : Nat → Bool) (old new : Bytes) : Prop :=
  (w.unlock P old).1 = false ∨ w.isLocked = false ∧
    (rekeyable P w old new = w.mapMasterKeys.toList → ∀ (id : UInt32) (master : CMasterKey),
      w.db.masterKeys[id]? = some master →
        (∃ j master', w.mapMasterKeys.toList[j]? = some (id, master') ∧ disk j = true) ∨
          (opens P new master).isSome = true)

/-- If a master key cannot be rewritten, it is the first one. Or else the passphrase stays the same,
and the records are those of the master keys in memory. -/
def StopsCleanly (P : Primitives) (w : KeyCore) (old new : Bytes) : Prop :=
  rekeyable P w old new = w.mapMasterKeys.toList ∨ rekeyable P w old new = [] ∨
    old = new ∧ ∀ id : UInt32, w.db.masterKeys[id]? = w.mapMasterKeys[id]?

private theorem changeWalletPassphraseOn_spec (hunlock : w.unlock P old = (true, w₁))
    (disk : Nat → Bool) (new : Bytes) : (w.changeWalletPassphraseOn P disk old new).2.isLocked =
      false ∧
      Rekeyed P disk old new w.mapMasterKeys w.db.masterKeys w.mapMasterKeys.toList
        (rekeyable P w old new) (w.changeWalletPassphraseOn P disk old new) := by
  have hunlocked : w.Unlocked P w₁ ∧ w₁.vMasterKey ≠ [] := by
    obtain h | ⟨w', h, hunlocked⟩ := w.unlock_cases (P := P) old
    · rw [hunlock] at h
      cases h
    · rw [hunlock] at h
      cases h
      exact hunlocked
  obtain ⟨hmap, hdb⟩ := hunlocked.1.masterKeys
  have hdistinct : (w₁.mapMasterKeys.toList.map Prod.fst).Nodup := by
    rw [Std.TreeMap.map_fst_toList_eq_keys]
    refine Std.TreeMap.distinct_keys.imp fun h heq => ?_
    exact h (heq ▸ Std.ReflOrd.compare_self)
  have hspec : Rekeyed P (fun j => disk (0 + j)) old new _ _ _ _ _ :=
    rekeyed_rekeyLoopOn _ hdistinct w₁ 0
  have hloop : w.changeWalletPassphraseOn P disk old new =
      w₁.rekeyLoopOn P disk old new 0 w₁.mapMasterKeys.toList := by
    simp [changeWalletPassphraseOn, hunlock]
  constructor
  · rw [hloop, isLocked, rekeyLoopOn_vMasterKey]
    simp [hunlocked.2]
  · rw [← hloop, hmap, hdb] at hspec
    simp only [zero_add] at hspec
    exact hspec

private theorem getElem?_of_rekeyable {j : Nat} {id : UInt32} {master : CMasterKey}
    (h : (rekeyable P w old new)[j]? = some (id, master)) : w.mapMasterKeys[id]? = some master := by
  have hmem := (takeWhile_sublist _).mem (mem_of_getElem? h)
  exact Std.TreeMap.mem_toList_iff_getElem?_eq_some.mp hmem

private theorem rekeyable_cases (P : Primitives) (w : KeyCore) (old new : Bytes) (id : UInt32) :
    (∃ (j : Nat) (master : CMasterKey), (rekeyable P w old new)[j]? = some (id, master)) ∨
      id ∉ (rekeyable P w old new).map Prod.fst := by
  by_cases hmem : id ∈ (rekeyable P w old new).map Prod.fst
  · obtain ⟨⟨id', master⟩, hentry, rfl⟩ := mem_map.mp hmem
    obtain ⟨j, hj⟩ := getElem?_of_mem hentry
    exact .inl ⟨j, master, hj⟩
  · exact .inr hmem

private theorem changesCleanly_of_passphraseChange
    (hunlock : w.unlock P old = (true, w₁)) (h : PassphraseChange P w disk old new) :
    ChangesCleanly P w disk old new := by
  obtain ⟨hlocked, hok, hother, hdone⟩ := changeWalletPassphraseOn_spec hunlock disk new
  refine .inr ⟨h.lockState.symm.trans hlocked, fun hall id master hmaster => ?_⟩
  by_cases hwritten : ∃ j master', w.mapMasterKeys.toList[j]? = some (id, master') ∧ disk j
  · exact .inl hwritten
  -- the record is still the one that was there
  refine .inr (h.success (hok.mpr hall) id master ?_)
  obtain ⟨j, master', hj⟩ | hnot := rekeyable_cases P w old new id
  · obtain ⟨_, -, -, hdisk⟩ := hdone j id master' hj
    rw [hall] at hj
    rw [hdisk, if_neg fun hdiskj => hwritten ⟨j, master', hj, hdiskj⟩]
    exact hmaster
  · rw [(hother id hnot).2]
    exact hmaster

private theorem StopsCleanly.opens_rewritten (haes : AesInverts P)
    (hstops : StopsCleanly P w old new) (hsome : rekeyable P w old new ≠ w.mapMasterKeys.toList)
    {j : Nat} {id : UInt32} {master master' : CMasterKey} {key : Bytes}
    (hj : (rekeyable P w old new)[j]? = some (id, master))
    (hrekey : rekey P old new master = some master')
    (hkey : opens P old master = some key ∨ ∃ record, w.db.masterKeys[id]? = some record ∧
      opens P old record = some key) : opens P old master' = some key := by
  obtain hall | hnone | ⟨rfl, hsame⟩ := hstops
  · exact absurd hall hsome
  · rw [hnone] at hj
    cases hj
  obtain ⟨key', hopens, hopens'⟩ := opens_of_rekey haes hrekey
  obtain hkey | ⟨record, hrecord, hkey⟩ := hkey
  · rw [hopens', ← hopens, hkey]
  · rw [hsame, getElem?_of_rekeyable hj] at hrecord
    cases hrecord
    rw [hopens', ← hopens, hkey]

private theorem passphraseChange_of_changesCleanly (haes : AesInverts P)
    (hunlock : w.unlock P old = (true, w₁)) (hstops : StopsCleanly P w old new)
    (h : ChangesCleanly P w disk old new) : PassphraseChange P w disk old new := by
  obtain ⟨hlocked, hok, hother, hdone⟩ := changeWalletPassphraseOn_spec hunlock disk new
  obtain hwrong | ⟨hopen, hsuccess⟩ := h
  · rw [hunlock] at hwrong
    cases hwrong
  have hnotAll : (w.changeWalletPassphraseOn P disk old new).1 = false →
      rekeyable P w old new ≠ w.mapMasterKeys.toList := by
    intro hfalse hall
    rw [hok.mpr hall] at hfalse
    cases hfalse
  refine ⟨hlocked.trans hopen.symm, fun htrue id master hmaster => ?_,
    fun hfalse id master key hmaster hkey => ?_, fun hfalse id record key hrecord hkey => ?_⟩
  · have hall := hok.mp htrue
    -- a record that was written opens, since it was rewritten for the new passphrase
    have hwritten : ∀ j master', (rekeyable P w old new)[j]? = some (id, master') → disk j →
        (opens P new master).isSome := by
      intro j master' hj hdiskj
      obtain ⟨master'', hrekey, -, hdisk⟩ := hdone j id master' hj
      rw [hdisk, if_pos hdiskj] at hmaster
      cases hmaster
      obtain ⟨key, -, hopens⟩ := opens_of_rekey haes hrekey
      rw [hopens]
      rfl
    have hkept : w.db.masterKeys[id]? = some master → (opens P new master).isSome := by
      intro hbefore
      obtain ⟨j, master', hj, hdiskj⟩ | hopens := hsuccess hall id master hbefore
      · exact hwritten j master' (by rwa [hall]) hdiskj
      · exact hopens
    obtain ⟨j, master', hj⟩ | hnot := rekeyable_cases P w old new id
    · by_cases hdiskj : disk j
      · exact hwritten j master' hj hdiskj
      · obtain ⟨_, -, -, hdisk⟩ := hdone j id master' hj
        rw [hdisk, if_neg hdiskj] at hmaster
        exact hkept hmaster
    · rw [(hother id hnot).2] at hmaster
      exact hkept hmaster
  · obtain ⟨j, master₀, hj⟩ | hnot := rekeyable_cases P w old new id
    · have hsame := getElem?_of_rekeyable hj
      rw [hmaster] at hsame
      cases hsame
      obtain ⟨master', hrekey, hmemory, -⟩ := hdone j id master hj
      exact ⟨master', hmemory, hstops.opens_rewritten haes (hnotAll hfalse) hj hrekey (.inl hkey)⟩
    · exact ⟨master, (hother id hnot).1.trans hmaster, hkey⟩
  · obtain ⟨j, master, hj⟩ | hnot := rekeyable_cases P w old new id
    · obtain ⟨master', hrekey, -, hdisk⟩ := hdone j id master hj
      split at hdisk
      · exact ⟨master', hdisk, hstops.opens_rewritten haes (hnotAll hfalse) hj hrekey
          (.inr ⟨record, hrecord, hkey⟩)⟩
      · exact ⟨record, hdisk.trans hrecord, hkey⟩
    · exact ⟨record, (hother id hnot).2.trans hrecord, hkey⟩

/-- As long as the loop rewrites all master keys or none of them, changing the passphrase does what
it should exactly in the clean cases. -/
theorem changeWalletPassphrase_iff (haes : AesInverts P) (w : KeyCore) (disk : Nat → Bool)
    (old new : Bytes) (hstops : (w.unlock P old).1 = true → StopsCleanly P w old new) :
    PassphraseChange P w disk old new ↔ ChangesCleanly P w disk old new := by
  obtain hunlock | ⟨w₁, hunlock, -⟩ := w.unlock_cases (P := P) old
  · -- a wrong passphrase changes nothing
    have hsame : w.changeWalletPassphraseOn P disk old new = (false, w) := by
      simp [changeWalletPassphraseOn, hunlock]
    refine ⟨fun _ => .inl (by rw [hunlock]), fun _ => ⟨?_, ?_, ?_, ?_⟩⟩
    · rw [hsame]
    · rw [hsame]
      intro h
      cases h
    · rw [hsame]
      exact fun _ id master key hmaster hkey => ⟨master, hmaster, hkey⟩
    · rw [hsame]
      exact fun _ id master key hmaster hkey => ⟨master, hmaster, hkey⟩
  · have hclean := hstops (by rw [hunlock])
    exact ⟨changesCleanly_of_passphraseChange hunlock,
      passphraseChange_of_changesCleanly haes hunlock hclean⟩

/-! ### A wallet with one master key -/

private theorem exists_sealed_seeded : ∃ master cryptedSeed,
    Seals .repeating seeded [1, 2, 3] (.fill 32 5) master cryptedSeed ∧
      seeded.encryptWallet .repeating [1, 2, 3] (.fill 32 5) (.fill 8 4) =
        (true, sealedWallet .repeating seeded (fun _ => true) (.fill 32 5) master cryptedSeed) := by
  obtain ⟨h | h, -⟩ | ⟨-, hsealed⟩ :=
    seeded.encryptWallet_cases (P := .repeating) [1, 2, 3] (.fill 32 5) (.fill 8 4)
  · cases h
  · cases h
  · exact hsealed

/-- The passphrase of an unlocked wallet is changed on a disk that works. -/
theorem changeWalletPassphrase_unlocked :
    PassphraseChange .repeating
      (seeded.encryptWallet .repeating [1, 2, 3] (.fill 32 5) (.fill 8 4)).2
      (fun _ => true) [1, 2, 3] [4, 5] := by
  obtain ⟨master, cryptedSeed, -, heq⟩ := exists_sealed_seeded
  rw [heq]
  refine (changeWalletPassphrase_iff aesInverts_repeating _ _ _ _ fun _ => ?_).mpr (.inr ⟨rfl, ?_⟩)
  · -- there is only one master key, so none before one that fails
    have hlist : (sealedWallet .repeating seeded (fun _ => true) (.fill 32 5) master
        cryptedSeed).mapMasterKeys.toList = [(1, master)] := masterKeys_insert_toList rfl 1 master
    rw [StopsCleanly, rekeyable, hlist, takeWhile_cons]
    split
    · exact .inl rfl
    · exact .inr (.inl rfl)
  · intro _ id record hrecord
    obtain ⟨j, hj⟩ := getElem?_of_mem (Std.TreeMap.mem_toList_iff_getElem?_eq_some.mpr hrecord)
    exact .inl ⟨j, record, hj, rfl⟩

/-- Changing the passphrase of a locked wallet leaves it unlocked. -/
theorem changeWalletPassphrase_locked :
    let w := (seeded.encryptWallet .repeating [1, 2, 3] (.fill 32 5) (.fill 8 4)).2.lock.2
    w.isLocked = true ∧
      (w.changeWalletPassphraseOn .repeating (fun _ => true) [1, 2, 3] [4, 5]).2.isLocked =
        false := by
  obtain ⟨master, cryptedSeed, hseals, heq⟩ := exists_sealed_seeded
  rw [heq]
  generalize hw : (sealedWallet .repeating seeded (fun _ => true) (.fill 32 5) master
    cryptedSeed).lock.2 = w
  have hcrypted : (sealedWallet .repeating seeded (fun _ => true) (.fill 32 5) master
      cryptedSeed).isCrypted := by
    simp [isCrypted, sealedWallet, addMasterKey]
  have hvalues : w.mapMasterKeys.values = [master] := by
    rw [← hw]
    exact masterKeys_insert_values rfl _ master
  have hcryptedSeed : w.cryptedSeed = cryptedSeed := by rw [← hw]; rfl
  have hunlock := unlock_singleton hvalues (hseals.opens aesInverts_repeating)
    (unlockWithKey_eq (by rw [hcryptedSeed]; exact hseals.ne)
      (by rw [hcryptedSeed]; exact hseals.seed aesInverts_repeating))
  refine ⟨?_, (changeWalletPassphraseOn_spec hunlock _ _).1⟩
  rw [← hw]
  exact (Bool.and_true _).trans hcrypted

end KeyCore

end Tessera.Wallet
