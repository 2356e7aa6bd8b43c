import Tessera.Wallet.Ownership

/-!
# Writes that fail

`EncryptWallet` and `ChangeWalletPassphrase` (`wallet/wallet.cpp`) on a database whose writes may
fail. Both change the wallet in memory before they know whether a write goes through, and neither
takes the change back. `EncryptWallet` is all or nothing exactly if its first two writes go through
once it gets to write.
-/

namespace Tessera.Wallet

open Lib List Option

variable {keys : MasterKeyMap} {key : Blob 32} (P : Primitives)

namespace KeyCore

variable {P} {w : KeyCore}

/-! ### Opening a sealed wallet -/

theorem masterKeys_insert_toList (h : keys.isEmpty) (id : UInt32)
    (master : CMasterKey) : (keys.insert id master).toList = [(id, master)] := by
  have hnil : keys.toList = [] := by
    rw [← List.isEmpty_iff, Std.TreeMap.isEmpty_toList, h]
  have hperm := Std.TreeMap.toList_insert_perm (t := keys) (k := id) (v := master)
  rwa [hnil, filter_nil, perm_singleton] at hperm

private theorem values_eq_map (keys : MasterKeyMap) : keys.values = keys.toList.map Prod.snd := by
  change keys.foldr (fun _ v acc => v :: acc) [] = _
  rw [Std.TreeMap.foldr_eq_foldr_toList]
  induction keys.toList with
  | nil => rfl
  | cons entry rest ih => rw [foldr_cons, ih, map_cons]

theorem masterKeys_insert_values (h : keys.isEmpty) (id : UInt32)
    (master : CMasterKey) : (keys.insert id master).values = [master] := by
  rw [values_eq_map, masterKeys_insert_toList h]
  rfl

variable {phrase : Bytes} {master : CMasterKey} {w' : KeyCore}

/-- The only master key of the wallet opens, and unlocks it. -/
theorem unlock_singleton {key : Bytes}
    (hvalues : w.mapMasterKeys.values = [master]) (hopens : opens P phrase master = some key)
    (hunlock : w.unlockWithKey P key = (true, w')) : w.unlock P phrase = (true, w') := by
  obtain ⟨crypter, hcrypter, hdecrypt⟩ := bind_eq_some_iff.mp hopens
  rw [unlock, hvalues, unlockLoop, hcrypter]
  dsimp only
  rw [hdecrypt]
  dsimp only
  rw [hunlock]

/-- A master key that opens the sealed seed brings it back. -/
theorem unlockWithKey_eq {key : Bytes} {seed : Uint256} (hne : w.cryptedSeed ≠ [])
    (hseed : decryptSecret P key w.cryptedSeed (.null 32) = some seed.data) :
    w.unlockWithKey P key = (true, { w.withSeed P seed with vMasterKey := key }) := by
  rw [unlockWithKey, if_neg hne, hseed, bind_some, Blob.ofBytes?_data]
  rfl

private theorem foldl_learnKey_mapKeys (indices : List Nat) {i : Nat} (hi : i ∈ indices)
    {child : CExtKey} (hchild : w.hdMaster.derive P (UInt32.ofNat i) = some child) :
    ∃ j ∈ indices, ∃ child', w.hdMaster.derive P (UInt32.ofNat j) = some child' ∧
      child'.key.getPubKey.getID P = child.key.getPubKey.getID P ∧
      (indices.foldl (fun w i => w.learnKey P (UInt32.ofNat i)) w).mapKeys
        (child.key.getPubKey.getID P) = some child'.key := by
  -- the last index with this identifier is the one whose key stays
  induction indices using reverseRecOn with
  | nil => simp at hi
  | append_singleton indices j ih =>
    rw [foldl_append, foldl_cons]
    obtain ⟨keys, scripts, ids, hframe⟩ := w.foldl_learnKey_frame (P := P) indices
    have hmaster : (indices.foldl (fun w i => w.learnKey P (UInt32.ofNat i)) w).hdMaster =
        w.hdMaster := by rw [hframe]
    rw [learnKey, hmaster]
    by_cases hsame : ∃ last, w.hdMaster.derive P (UInt32.ofNat j) = some last ∧
        last.key.getPubKey.getID P = child.key.getPubKey.getID P
    · obtain ⟨last, hlast, hsame⟩ := hsame
      refine ⟨j, by simp, last, hlast, hsame, ?_⟩
      rw [hlast, ← hsame]
      exact Function.update_self _ _ _
    · have hi' : i ∈ indices := by
        refine (mem_append.mp hi).resolve_right fun hi => ?_
        obtain rfl := mem_singleton.mp hi
        exact hsame ⟨child, hchild, rfl⟩
      obtain ⟨k, hk, child', hchild', hid, hmap⟩ := ih hi'
      refine ⟨k, mem_append_left _ hk, child', hchild', hid, ?_⟩
      cases hlast : w.hdMaster.derive P (UInt32.ofNat j) with
      | none => exact hmap
      | some last =>
        exact (Function.update_of_ne (fun h => hsame ⟨last, hlast, h.symm⟩) _ _).trans hmap

/-! ### Wallets that can be reached -/

/-- The master key is that of the seed in memory, and a wallet without master keys in memory has
none on disk. -/
structure Founded (P : Primitives) (w : KeyCore) : Prop where
  master : w.hasSeed = true → w.hdMaster = .setSeed P w.hdSeed.data
  records : w.isCrypted = false → w.db.masterKeys.isEmpty = true

private theorem Founded.unlocked (h : w.Founded P) (hunlocked : w.Unlocked P w') :
    w'.Founded P := by
  cases hunlocked with
  | noSeed key => exact ⟨h.master, h.records⟩
  | seed key seed =>
    obtain ⟨keys, scripts, ids, hframe⟩ := w.withSeed_frame (P := P) seed
    rw [hframe]
    exact ⟨fun _ => rfl, h.records⟩

private theorem isCrypted_of_unlock (h : w.unlock P phrase = (true, w')) : w.isCrypted := by
  rw [isCrypted, Bool.not_eq_true']
  refine Bool.eq_false_iff.mpr fun hempty => ?_
  have hvalues : w.mapMasterKeys.values = [] := by
    rw [values_eq_map, isEmpty_iff.mp (Std.TreeMap.isEmpty_toList.trans hempty)]
    rfl
  rw [unlock, hvalues] at h
  cases h

private theorem founded_load (db : KeyRecords) : (load P db).Founded P := by
  have hrecords : (!db.masterKeys.isEmpty) = false → db.masterKeys.isEmpty := by simp
  obtain ⟨index, w, ⟨_, rfl⟩ | ⟨seed, rfl⟩, heq⟩ := load_cases (P := P) db
  · rw [heq]
    exact ⟨fun hs => (by cases hs), hrecords⟩
  · obtain ⟨keys, scripts, ids, hframe⟩ :=
      withSeed_frame (P := P) { new db with nextIndex := index } seed
    rw [heq, hframe]
    exact ⟨fun _ => rfl, hrecords⟩

/-- Every operation keeps the wallet founded. -/
theorem Founded.step (h : w.Founded P) (op : KeyOp) : (w.step P op).Founded P := by
  refine step_of_stepped fun w' hstep => ?_
  cases hstep with
  | refused => exact h
  | seeded seed => exact ⟨fun _ => rfl, h.records⟩
  | encrypted => exact ⟨h.master, fun hc => by simp [isCrypted] at hc⟩
  | locked => exact ⟨fun hs => (by cases hs), h.records⟩
  | unlocked _ hunlocked => exact h.unlocked hunlocked
  | rekeyed _ _ hunlock hunlocked hmemory =>
    refine ⟨(h.unlocked hunlocked).master, fun hc => ?_⟩
    -- the wallet was encrypted, and still is
    have hcrypted := isCrypted_of_unlock hunlock
    rw [isCrypted, ← hunlocked.masterKeys.1, Bool.not_eq_true'] at hcrypted
    rw [isCrypted] at hc
    rw [hmemory hcrypted] at hc
    cases hc
  | handedOut _ _ hkeys => exact ⟨h.master, fun hc => hkeys ▸ h.records hc⟩
  | reloaded => exact founded_load w.db

/-- Also a failed `EncryptWallet` does. -/
theorem Founded.encryptWalletOn (h : w.Founded P) (disk : Nat → Bool) (phrase : Bytes)
    (key : Blob 32) (salt : Blob 8) : (w.encryptWalletOn P disk phrase key salt).2.Founded P := by
  obtain ⟨-, heq⟩ | ⟨-, master, cryptedSeed, -, houtcome⟩ :=
    w.encryptWalletOn_cases (P := P) disk phrase key salt
  · rw [heq]
    exact h
  have hcrypted : (w.addMasterKey master).isCrypted ≠ false := by simp [isCrypted, addMasterKey]
  obtain ⟨-, heq⟩ | ⟨-, -, heq⟩ | ⟨-, -, heq⟩ := houtcome
  all_goals
    rw [heq]
    exact ⟨h.master, fun hc => absurd hc hcrypted⟩

/-- Every wallet that the operations lead to is founded. -/
theorem founded_run (ops : List KeyOp) : (run (step P) (new .empty) ops).Founded P :=
  run_invariant (C := fun _ _ => True) (fun _ op h _ => h.step op)
    ⟨fun h => (by cases h), fun _ => rfl⟩ (meets_of_forall fun _ _ _ => trivial)

/-! ### All or nothing -/

/-- Two wallets that do not differ in anything that encryption is about. -/
structure Unchanged (P : Primitives) (w w' : KeyCore) : Prop where
  isCrypted : w'.isCrypted = w.isCrypted
  isLocked : w'.isLocked = w.isLocked
  mapMasterKeys : w'.mapMasterKeys = w.mapMasterKeys
  cryptedSeed : w'.cryptedSeed = w.cryptedSeed
  mapKeys : w'.mapKeys = w.mapKeys
  pubkeyIds : w'.pubkeyIds = w.pubkeyIds
  nextDestination : ∀ label, (w'.getNewDestination P label).1 = (w.getNewDestination P label).1
  db : w'.db = w.db

/-- The second wallet has the keys of the first: it derives the same key for every index that was
handed out, and holds a key of the wallet under the identifier of each. -/
structure SameKeys (P : Primitives) (w w' : KeyCore) : Prop where
  nextIndex : w'.nextIndex = w.nextIndex
  derive : ∀ i < w.nextIndex.toNat, w'.hdMaster.derive P (UInt32.ofNat i) = w.hdMaster.derive P
    (UInt32.ofNat i)
  held : ∀ i < w.nextIndex.toNat, ∀ child, w.hdMaster.derive P (UInt32.ofNat i) = some child →
    ∃ j < w.nextIndex.toNat, ∃ child', w.hdMaster.derive P (UInt32.ofNat j) = some child' ∧
      child'.key.getPubKey.getID P = child.key.getPubKey.getID P ∧
      w'.mapKeys (child.key.getPubKey.getID P) = some child'.key

/-- `EncryptWallet` either changes nothing, so that a call that could have succeeded still can, or
leaves a database from which the phrase brings the keys back. -/
structure AllOrNothing (P : Primitives) (w : KeyCore) (disk : Nat → Bool) (phrase : Bytes)
    (key : Blob 32) (salt : Blob 8) : Prop where
  failure : (w.encryptWalletOn P disk phrase key salt).1 = false →
    Unchanged P w (w.encryptWalletOn P disk phrase key salt).2 ∧
      ∀ passphrase' key' salt', (w.encryptWallet P passphrase' key' salt').1 = true →
        ((w.encryptWalletOn P disk phrase key salt).2.encryptWallet P passphrase' key' salt').1 =
        true
  success : (w.encryptWalletOn P disk phrase key salt).1 = true →
    ∃ w', (load P (w.encryptWalletOn P disk phrase key salt).2.db).unlock P phrase = (true, w') ∧
      SameKeys P w w'

theorem Unchanged.refl (w : KeyCore) : Unchanged P w w :=
  ⟨rfl, rfl, rfl, rfl, rfl, rfl, fun _ => rfl, rfl⟩

private theorem unlock_load_sealedWallet (haes : AesInverts P) (hw : w.Founded P)
    (hcrypted : w.isCrypted = false) (hseed : w.hasSeed) (disk : Nat → Bool) {cryptedSeed : Bytes}
    (hseals : Seals P w phrase key master cryptedSeed) :
    ∃ w', (load P (sealedWallet P w disk key master cryptedSeed).db).unlock P phrase =
        (true, w') ∧ SameKeys P w w' := by
  have hchain : (sealedWallet P w disk key master cryptedSeed).db.hdChain =
    some { CHDChain.null with
        nExternalChainCounter := w.nextIndex, cryptedSeed := cryptedSeed, seedId := w.seedId P } :=
          rfl
  have hload := load_of_sealed (P := P) hchain hseals.ne
  have hvalues : (load P (sealedWallet P w disk key master cryptedSeed).db).mapMasterKeys.values =
      [master] := by
    exact masterKeys_insert_values (hw.records hcrypted) _ master
  have hcryptedSeed : (load P (sealedWallet P w disk key master cryptedSeed).db).cryptedSeed =
      cryptedSeed := by rw [hload]
  have hnext : (load P (sealedWallet P w disk key master cryptedSeed).db).nextIndex =
      w.nextIndex := by
    rw [hload]
  generalize load P (sealedWallet P w disk key master cryptedSeed).db =
    w₀ at hvalues hcryptedSeed hnext ⊢
  have hunlock := unlockWithKey_eq (hcryptedSeed ▸ hseals.ne) (hcryptedSeed ▸ hseals.seed haes)
  refine ⟨_, unlock_singleton hvalues (hseals.opens haes) hunlock, ?_⟩
  -- the keys are derived from the seed that was sealed
  obtain ⟨keys, scripts, ids, hframe⟩ := w₀.withSeed_frame (P := P) w.hdSeed
  have hmaster := hw.master hseed
  refine ⟨?_, fun i _ => ?_, fun i hi child hchild => ?_⟩
  · rw [hframe]
    exact hnext
  · rw [hframe, hmaster]
  rw [← hnext] at hi ⊢
  rw [hmaster] at hchild ⊢
  obtain ⟨j, hj, hheld⟩ := foldl_learnKey_mapKeys (P := P) (range w₀.nextIndex.toNat)
    (w := { w₀ with hdSeed := w.hdSeed, hdMaster := .setSeed P w.hdSeed.data, hasSeed := true })
    (mem_range.mpr hi) hchild
  exact ⟨j, mem_range.mp hj, hheld⟩

private theorem not_allOrNothing {disk : Nat → Bool} {salt : Blob 8}
    (hcrypted : w.isCrypted = false) (heq : w.encryptWalletOn P disk phrase key salt = (false, w'))
    (hmap : w'.mapMasterKeys = (w.addMasterKey master).mapMasterKeys) : ¬ AllOrNothing P w disk
      phrase key salt := by
  intro h
  have hnow := (h.failure (by rw [heq])).1.isCrypted
  rw [heq, hcrypted, isCrypted, hmap] at hnow
  simp [addMasterKey] at hnow

/-- `EncryptWallet` is all or nothing exactly if its first two writes go through, once it gets to
write. -/
theorem encryptWallet_allOrNothing_iff (haes : AesInverts P) (hw : w.Founded P) (disk : Nat → Bool)
    (passphrase : Bytes) (key : Blob 32) (salt : Blob 8) :
    AllOrNothing P w disk passphrase key salt ↔
      (w.isCrypted = false → w.hasSeed = true → disk 0 = true ∧ disk 1 = true) := by
  obtain ⟨hrefuse, heq⟩ | ⟨⟨hcrypted, hseed⟩, master, cryptedSeed, hseals, houtcome⟩ :=
    w.encryptWalletOn_cases (P := P) disk passphrase key salt
  · constructor
    · intro _ hcrypted hseed
      rw [hcrypted, hseed] at hrefuse
      simp at hrefuse
    · intro _
      refine ⟨fun _ => ?_, fun h => ?_⟩
      · rw [heq]
        exact ⟨.refl w, fun _ _ _ h => h⟩
      · rw [heq] at h
        cases h
  · obtain ⟨hdisk, heq⟩ | ⟨hdisk, hdisk', heq⟩ | ⟨hdisk, hdisk', heq⟩ := houtcome
    · -- the record of the master key could not be written, and the key stays in memory
      refine iff_of_false (not_allOrNothing hcrypted heq rfl) fun h => ?_
      rw [(h hcrypted hseed).1] at hdisk
      cases hdisk
    · refine iff_of_false (not_allOrNothing hcrypted heq rfl) fun h => ?_
      rw [(h hcrypted hseed).2] at hdisk'
      cases hdisk'
    · constructor
      · exact fun _ _ _ => ⟨hdisk, hdisk'⟩
      intro _
      refine ⟨fun h => ?_, fun _ => ?_⟩
      · rw [heq] at h
        cases h
      · rw [heq]
        exact unlock_load_sealedWallet haes hw hcrypted hseed disk hseals

theorem aesInverts_repeating : AesInverts .repeating := fun _ _ => rfl

private theorem seeded_founded : seeded.Founded .repeating := ⟨fun _ => rfl, fun _ => rfl⟩

/-- A wallet is encrypted on a disk that works. -/
theorem encryptWallet_allOrNothing_seeded :
    AllOrNothing .repeating seeded (fun _ => true) [1, 2, 3] (.fill 32 5) (.fill 8 4) :=
  (encryptWallet_allOrNothing_iff aesInverts_repeating seeded_founded _ _ _ _).mpr
    fun _ _ => ⟨rfl, rfl⟩

/-- The first write fails: `EncryptWallet` fails, but from then on the wallet counts as encrypted
and locked, nothing opens it, and it cannot be encrypted any more. -/
theorem encryptWallet_first_write_fails :
    (seeded.encryptWalletOn .repeating (fun _ => false) [1, 2, 3] (.fill 32 5) (.fill 8 4)).1 =
      false ∧ seeded.isCrypted = false ∧ seeded.isLocked = false ∧
      (seeded.encryptWalletOn .repeating (fun _ => false) [1, 2, 3] (.fill 32 5)
        (.fill 8 4)).2.isCrypted = true ∧
      (seeded.encryptWalletOn .repeating (fun _ => false) [1, 2, 3] (.fill 32 5)
        (.fill 8 4)).2.isLocked = true ∧
      ∀ passphrase key salt, ((seeded.encryptWalletOn .repeating (fun _ => false) [1, 2, 3]
        (.fill 32 5) (.fill 8 4)).2.encryptWallet .repeating passphrase key salt).1 = false := by
  obtain ⟨hrefuse, -⟩ | ⟨-, master, cryptedSeed, -, houtcome⟩ :=
    seeded.encryptWalletOn_cases (P := .repeating) (fun _ => false) [1, 2, 3]
      (.fill 32 5) (.fill 8 4)
  · obtain h | h := hrefuse
    · cases h
    · cases h
  · obtain ⟨-, heq⟩ | ⟨hdisk, -⟩ | ⟨hdisk, -⟩ := houtcome
    · have hcrypted : (seeded.addMasterKey master).isCrypted := by
        simp [isCrypted, addMasterKey]
      rw [heq]
      refine ⟨rfl, rfl, rfl, hcrypted, ?_, fun passphrase key salt => ?_⟩
      · rw [isLocked]
        rfl
      · rw [encryptWallet_fst]
        rfl
    · cases hdisk
    · cases hdisk

end KeyCore

end Tessera.Wallet
