import Tessera.Tx.KeyHashSpend
import Tessera.Wallet.Sealed

/-!
# Ownership

`IsMine` (`wallet/wallet.cpp`) decides by the key behind a destination whether the wallet counts an
output as its own. A key counts that is in memory, and one whose identifier is known. The keys and
scripts in memory are consistent in every reachable wallet, and only locking and reloading take keys
out of memory.
-/

namespace Tessera.Wallet

open Script Tx

variable (P : Primitives)

namespace KeyCore

/-! ### Ownership -/

/-- The wallet as the signing provider that it is. -/
def provider (w : KeyCore) : SigningProvider where
  getCScript := w.mapScripts
  getPubKey id := (w.mapKeys id).map CKey.getPubKey
  getKey := w.mapKeys

@[simp] theorem provider_getKey (w : KeyCore) : w.provider.getKey = w.mapKeys := rfl

variable (w : KeyCore)

def haveKey (address : CKeyID) : Bool := (w.mapKeys address).isSome

/-- The key behind a script, null if it has no destination or no key. -/
def keyOf (script : CScript) : CKeyID :=
  match extractDestination script with
  | none => .null 20
  | some dest => getKeyForDestination w.provider dest

/-- `CWallet::IsMine` on a script. -/
def isMine (script : CScript) : Bool :=
  match extractDestination script with
  | none => false
  | some dest =>
    let keyid := getKeyForDestination w.provider dest
    if keyid.isNull then false else w.haveKey keyid || decide (keyid ∈ w.pubkeyIds)

variable {P} {w : KeyCore}

/-! ### The keys in memory -/

/-- Every key in memory is made from a seed and stored under its own identifier, and every script is
the witness program of a key hash, stored under its own hash. -/
structure Consistent (P : Primitives) (w : KeyCore) : Prop where
  getID : ∀ id key, w.mapKeys id = some key → key.getPubKey.getID P = id
  fromSeed : ∀ id key, w.mapKeys id = some key → ∃ seed, key = .makeKeyFromSeed P seed
  script : ∀ id s, w.mapScripts id = some s →
    hash160 P s = id ∧ ∃ keyid : CKeyID, s = witnessProgramScript keyid.data

theorem Consistent.honestKeys (h : w.Consistent P) : HonestKeys P w.provider where
  getPubKey _ := rfl
  getID := h.getID
  fromSeed := h.fromSeed

variable {w' : KeyCore}

private theorem Consistent.of_frame (h : w.Consistent P) (hkeys : w'.mapKeys = w.mapKeys)
    (hscripts : w'.mapScripts = w.mapScripts) : w'.Consistent P :=
  ⟨hkeys ▸ h.getID, hkeys ▸ h.fromSeed, hscripts ▸ h.script⟩

private theorem consistent_of_no_keys (hkeys : ∀ id, w.mapKeys id = none)
    (hscripts : ∀ id s, w.mapScripts id = some s →
      hash160 P s = id ∧ ∃ keyid : CKeyID, s = witnessProgramScript keyid.data) :
        w.Consistent P where
  getID id key hkey := by
    rw [hkeys] at hkey
    cases hkey
  fromSeed id key hkey := by
    rw [hkeys] at hkey
    cases hkey
  script := hscripts

private theorem Consistent.addKey (h : w.Consistent P) (seed : Uint256) :
    (w.addKey P (.makeKeyFromSeed P seed)).Consistent P where
  getID id key hkey := by
    simp only [KeyCore.addKey, Function.update_apply] at hkey
    split at hkey
    next heq =>
      cases hkey
      exact heq.symm
    · exact h.getID id key hkey
  fromSeed id key hkey := by
    simp only [KeyCore.addKey, Function.update_apply] at hkey
    split at hkey
    · cases hkey
      exact ⟨seed, rfl⟩
    · exact h.fromSeed id key hkey
  script id s hs := by
    simp only [KeyCore.addKey, Function.update_apply] at hs
    split at hs
    next heq =>
      cases hs
      exact ⟨heq.symm, _, rfl⟩
    · exact h.script id s hs

private theorem Consistent.addChild (h : w.Consistent P) {k child : CExtKey} {index : UInt32}
    (hchild : k.derive P index = some child) : (w.addKey P child.key).Consistent P := by
  rw [CExtKey.derive_key P hchild]
  exact h.addKey child.nodeseed

private theorem Consistent.learnKey (h : w.Consistent P) (index : UInt32) :
    (w.learnKey P index).Consistent P := by
  unfold KeyCore.learnKey
  split
  next child hchild => exact (h.addChild hchild).of_frame rfl rfl
  · exact h

private theorem learnKeys_invariant {I : KeyCore → Prop}
    (hstep : ∀ w index, I w → I (w.learnKey P index)) (h : I w) : I (w.learnKeys P) := by
  unfold learnKeys
  generalize List.range w.nextIndex.toNat = indices
  induction indices generalizing w with
  | nil => exact h
  | cons i indices ih => exact ih (hstep w _ h)

private theorem Consistent.withSeed (h : w.Consistent P) (seed : Uint256) :
    (w.withSeed P seed).Consistent P :=
  learnKeys_invariant (fun _ index h => h.learnKey index) (h.of_frame rfl rfl)

private theorem Consistent.unlocked (h : w.Consistent P) (hunlocked : w.Unlocked P w') :
    w'.Consistent P := by
  cases hunlocked with
  | noSeed key => exact h.of_frame rfl rfl
  | seed key seed => exact (h.withSeed seed).of_frame rfl rfl

theorem consistent_new (db : KeyRecords) : (new db).Consistent P :=
  consistent_of_no_keys (fun _ => rfl) fun _ _ hs => by cases hs

private theorem consistent_load (db : KeyRecords) : (load P db).Consistent P := by
  have hnew : (new db).Consistent P := consistent_new db
  obtain ⟨index, w, ⟨_, rfl⟩ | ⟨seed, rfl⟩, heq⟩ := load_cases (P := P) db
  · rw [heq]
    exact hnew.of_frame rfl rfl
  · rw [heq]
    have hchain : Consistent P { new db with nextIndex := index } := hnew.of_frame rfl rfl
    exact (hchain.withSeed seed).of_frame rfl rfl

/-- Every operation keeps the keys and scripts consistent. -/
theorem Consistent.step (h : w.Consistent P) (op : KeyOp) : (w.step P op).Consistent P := by
  refine step_of_stepped fun w' hstep => ?_
  cases hstep with
  | refused => exact h
  | seeded seed => exact h.of_frame rfl rfl
  | encrypted => exact h.of_frame rfl rfl
  | locked => exact consistent_of_no_keys (fun _ => rfl) h.script
  | unlocked _ hunlocked => exact h.unlocked hunlocked
  | rekeyed _ _ _ hunlocked => exact (h.unlocked hunlocked).of_frame rfl rfl
  | handedOut _ hchild => exact (h.addChild hchild).of_frame rfl rfl
  | reloaded => exact consistent_load w.db

/-! ### Keys that are known are held -/

/-- The wallet holds the key of every identifier it knows, and of every index it has handed out. -/
structure Held (P : Primitives) (w : KeyCore) : Prop where
  ids : ∀ id ∈ w.pubkeyIds, w.haveKey id = true
  derived : ∀ i < w.nextIndex.toNat, ∀ child, w.hdMaster.derive P (UInt32.ofNat i) = some child →
    w.haveKey (child.key.getPubKey.getID P) = true

private theorem haveKey_addKey (key : CKey) (id : CKeyID) : (w.addKey P key).haveKey id ↔
      id = key.getPubKey.getID P ∨ w.haveKey id := by
  simp only [haveKey, addKey, Function.update_apply]
  split
  next heq =>
    simp [heq]
  next hne =>
    simp [hne]

/-- The identifier of a key that is derived for one of some indices. -/
def Derives (P : Primitives) (w : KeyCore) (indices : List Nat) (id : CKeyID) : Prop :=
  ∃ i ∈ indices, ∃ child, w.hdMaster.derive P (UInt32.ofNat i) = some child ∧
    id = child.key.getPubKey.getID P

private theorem derives_cons (i : Nat) (indices : List Nat) (id : CKeyID) :
    w.Derives P (i :: indices) id ↔ w.Derives P [i] id ∨ w.Derives P indices id := by
  simp [Derives]

private theorem learnKey_adds (i : Nat) (id : CKeyID) :
    ((w.learnKey P (UInt32.ofNat i)).haveKey id ↔ w.haveKey id ∨ w.Derives P [i] id) ∧
      (id ∈ (w.learnKey P (UInt32.ofNat i)).pubkeyIds ↔ id ∈ w.pubkeyIds ∨ w.Derives P [i] id) := by
  unfold learnKey
  split
  next child hchild =>
    have hderives : w.Derives P [i] id ↔ id = child.key.getPubKey.getID P := by
      simp [Derives, hchild]
    rw [hderives]
    exact ⟨(haveKey_addKey child.key id).trans or_comm, Finset.mem_insert.trans or_comm⟩
  next hnone =>
    have hderives : ¬ w.Derives P [i] id := by
      simp [Derives, hnone]
    simp [hderives]

private theorem foldl_learnKey_adds (indices : List Nat) (id : CKeyID) :
    ((indices.foldl (fun w i => w.learnKey P (UInt32.ofNat i)) w).haveKey id ↔
        w.haveKey id ∨ w.Derives P indices id) ∧
      (id ∈ (indices.foldl (fun w i => w.learnKey P (UInt32.ofNat i)) w).pubkeyIds ↔
        id ∈ w.pubkeyIds ∨ w.Derives P indices id) := by
  induction indices generalizing w with
  | nil => simp [Derives]
  | cons i indices ih =>
    have hmaster : (w.learnKey P (UInt32.ofNat i)).hdMaster = w.hdMaster := by
      unfold learnKey
      split <;> rfl
    have hderives : (w.learnKey P (UInt32.ofNat i)).Derives P indices id ↔
        w.Derives P indices id := by
      rw [Derives, hmaster, Derives]
    have hone := w.learnKey_adds (P := P) i id
    rw [List.foldl_cons, ih.1, ih.2, hderives, hone.1, hone.2, derives_cons i indices,
      or_assoc, or_assoc]
    exact ⟨Iff.rfl, Iff.rfl⟩

private theorem derives_learnKeys (id : CKeyID) :
    (w.learnKeys P).Derives P (List.range (w.learnKeys P).nextIndex.toNat) id ↔
      w.Derives P (List.range w.nextIndex.toNat) id := by
  obtain ⟨_, _, _, hlearn⟩ := w.learnKeys_frame (P := P)
  rw [hlearn]
  rfl

private theorem held_learnKeys (hids : ∀ id ∈ w.pubkeyIds, w.haveKey id) :
    (w.learnKeys P).Held P := by
  have hadds := foldl_learnKey_adds (P := P) (w := w) (List.range w.nextIndex.toNat)
  refine ⟨fun id hid => (hadds id).1.mpr (((hadds id).2.mp hid).imp_left (hids id)),
    fun i hi child hchild => ?_⟩
  exact (hadds _).1.mpr (.inr
    ((derives_learnKeys _).mp ⟨i, List.mem_range.mpr hi, child, hchild, rfl⟩))

private theorem Held.unlocked (h : w.Held P) (hunlocked : w.Unlocked P w') : w'.Held P := by
  cases hunlocked with
  | noSeed key => exact ⟨h.ids, h.derived⟩
  | seed key seed =>
    have hseed : (w.withSeed P seed).Held P := held_learnKeys h.ids
    exact ⟨hseed.ids, hseed.derived⟩

private theorem mem_derivedIds {id : CKeyID} : id ∈ (w.derivedIds P).toFinset ↔
    ∃ i < w.nextIndex.toNat, ∃ child, w.hdMaster.derive P (UInt32.ofNat i) = some child ∧
      child.key.getPubKey.getID P = id := by
  simp [derivedIds]

private theorem eq_of_last {index : UInt32} {master child child' : CExtKey} {i : Nat}
    (hchild : master.derive P index = some child) (hi : i < (index + 1).toNat)
    (hlt : ¬ i < index.toNat) (hchild' : master.derive P (UInt32.ofNat i) = some child') :
    child'.key.getPubKey.getID P = child.key.getPubKey.getID P := by
  have hnext : (index + 1).toNat ≤ index.toNat + 1 := by
    exact Nat.mod_le _ _
  have hlast : i = index.toNat := by omega
  rw [hlast, UInt32.ofNat_toNat, hchild] at hchild'
  rw [Option.some.inj hchild']

/-- The operations after which a key that was in memory still is. -/
def KeepsKeys : KeyOp → Prop
  | .lock | .reload => False
  | _ => True

/-- Only locking and reloading take keys out of memory. -/
theorem Held.step (h : w.Held P) {op : KeyOp} (hop : KeepsKeys op) : (w.step P op).Held P := by
  refine step_of_stepped fun w' hstep => ?_
  cases hstep with
  | refused => exact h
  | seeded seed => exact ⟨h.ids, fun i hi => absurd hi (Nat.not_lt_zero i)⟩
  | encrypted =>
    refine ⟨fun id hid => ?_, h.derived⟩
    obtain hid | hid := Finset.mem_union.mp hid
    · exact h.ids id hid
    · -- the identifiers that are written out belong to keys handed out before
      obtain ⟨i, hi, child, hchild, rfl⟩ := mem_derivedIds.mp hid
      exact h.derived i hi child hchild
  | locked => exact hop.elim
  | unlocked _ hunlocked => exact h.unlocked hunlocked
  | rekeyed _ _ _ hunlocked => exact ⟨(h.unlocked hunlocked).ids, (h.unlocked hunlocked).derived⟩
  | handedOut _ hchild =>
    refine ⟨fun id hid => ?_, fun i hi child' hchild' => ?_⟩
    · exact (haveKey_addKey _ id).mpr ((Finset.mem_insert.mp hid).imp_right (h.ids id))
    -- the counter may wrap around, and then no index is below it
    refine (haveKey_addKey _ _).mpr ?_
    by_cases hlt : i < w.nextIndex.toNat
    · exact .inr (h.derived i hlt child' hchild')
    · exact .inl (eq_of_last hchild hi hlt hchild')
  | reloaded => exact hop.elim

/-! ### Keys that are held are known -/

/-- The wallet knows the identifier of every key it holds, and of every index it has handed out
since it got its seed. -/
structure Known (P : Primitives) (w : KeyCore) : Prop where
  keys : ∀ id, w.haveKey id = true → id ∈ w.pubkeyIds
  derived : w.hasSeed = true → ∀ i < w.nextIndex.toNat, ∀ child,
    w.hdMaster.derive P (UInt32.ofNat i) = some child → child.key.getPubKey.getID P ∈ w.pubkeyIds

private theorem known_learnKeys (hkeys : ∀ id, w.haveKey id → id ∈ w.pubkeyIds) :
    (w.learnKeys P).Known P := by
  have hadds := foldl_learnKey_adds (P := P) (w := w) (List.range w.nextIndex.toNat)
  refine ⟨fun id hid => (hadds id).2.mpr (((hadds id).1.mp hid).imp_left (hkeys id)),
    fun _ i hi child hchild => ?_⟩
  exact (hadds _).2.mpr (.inr
    ((derives_learnKeys _).mp ⟨i, List.mem_range.mpr hi, child, hchild, rfl⟩))

private theorem Known.union (h : w.Known P) (ids : Finset CKeyID) :
    Known P { w with pubkeyIds := w.pubkeyIds ∪ ids } where
  keys id hid := Finset.mem_union_left _ (h.keys id hid)
  derived hs i hi child hchild := Finset.mem_union_left _ (h.derived hs i hi child hchild)

private theorem known_of_no_keys (hkeys : ∀ id, w.mapKeys id = none) (hseed : w.hasSeed = false) :
    w.Known P where
  keys id hid := by
    rw [haveKey, hkeys] at hid
    cases hid
  derived hs := by
    rw [hseed] at hs
    cases hs

private theorem Known.unlocked (h : w.Known P) (hunlocked : w.Unlocked P w') : w'.Known P := by
  cases hunlocked with
  | noSeed key => exact ⟨h.keys, h.derived⟩
  | seed key seed =>
    have hseed : (w.withSeed P seed).Known P := known_learnKeys h.keys
    exact ⟨hseed.keys, hseed.derived⟩

theorem known_new (db : KeyRecords) : (new db).Known P :=
  known_of_no_keys (fun _ => rfl) rfl

private theorem known_load (db : KeyRecords) : (load P db).Known P := by
  obtain ⟨index, w, ⟨_, rfl⟩ | ⟨seed, rfl⟩, heq⟩ := load_cases (P := P) db
  · rw [heq]
    exact known_of_no_keys (fun _ => rfl) rfl
  · rw [heq]
    have hchain : (withSeed { new db with nextIndex := index } P seed).Known P :=
      known_learnKeys fun id hid => by cases hid
    exact ⟨(hchain.union db.pubKeyIds).keys, (hchain.union db.pubKeyIds).derived⟩

/-- Every operation keeps track of the keys. -/
theorem Known.step (h : w.Known P) (op : KeyOp) : (w.step P op).Known P := by
  refine step_of_stepped fun w' hstep => ?_
  cases hstep with
  | refused => exact h
  | seeded seed => exact ⟨h.keys, fun _ i hi => absurd hi (Nat.not_lt_zero i)⟩
  | encrypted => exact ⟨(h.union _).keys, (h.union _).derived⟩
  | locked => exact known_of_no_keys (fun _ => rfl) rfl
  | unlocked _ hunlocked => exact h.unlocked hunlocked
  | rekeyed _ _ _ hunlocked => exact ⟨(h.unlocked hunlocked).keys, (h.unlocked hunlocked).derived⟩
  | handedOut _ hchild =>
    refine ⟨fun id hid => ?_, fun hs i hi child' hchild' => Finset.mem_insert.mpr ?_⟩
    · exact Finset.mem_insert.mpr (((haveKey_addKey _ id).mp hid).imp_right (h.keys id))
    · by_cases hlt : i < w.nextIndex.toNat
      · exact .inr (h.derived hs i hlt child' hchild')
      · exact .inl (eq_of_last hchild hi hlt hchild')
  | reloaded => exact known_load w.db

/-- What counts as own depends on the redeem scripts and on which keys are held or known. -/
theorem isMine_congr (hscripts : w'.mapScripts = w.mapScripts)
    (hkeys : ∀ id, w'.haveKey id ∨ id ∈ w'.pubkeyIds ↔ w.haveKey id ∨ id ∈ w.pubkeyIds) :
    w'.isMine = w.isMine := by
  funext script
  unfold isMine
  cases extractDestination script with
  | none => rfl
  | some dest =>
    have hkey : getKeyForDestination w'.provider dest = getKeyForDestination w.provider dest := by
      cases dest <;> simp [getKeyForDestination, provider, hscripts]
    dsimp only
    rw [hkey]
    split
    · rfl
    · rw [Bool.eq_iff_iff]
      simpa using hkeys (getKeyForDestination w.provider dest)

private theorem Known.isMine_encryptWallet (h : w.Known P) (phrase : Bytes) (key : Blob 32)
    (salt : Blob 8) : (w.encryptWallet P phrase key salt).2.isMine = w.isMine := by
  obtain ⟨-, heq⟩ | ⟨⟨-, hseed⟩, _, _, -, heq⟩ := w.encryptWallet_cases (P := P) phrase key salt
  · rw [heq]
  rw [heq]
  refine isMine_congr rfl fun id => or_congr Iff.rfl ?_
  refine ⟨fun hid => ?_, fun hid => Finset.mem_union_left _ hid⟩
  obtain hid | hid := Finset.mem_union.mp hid
  · exact hid
  · obtain ⟨i, hi, child, hchild, rfl⟩ := mem_derivedIds.mp hid
    exact h.derived hseed i hi child hchild

private theorem Known.isMine_lock (h : w.Known P) : w.lock.2.isMine = w.isMine := by
  rw [lock]
  split
  · refine isMine_congr rfl fun id => ?_
    -- the keys are gone, but their identifiers are known
    exact ⟨fun hid => .inr (hid.resolve_left (by simp [haveKey])), fun hid =>
      .inr (hid.elim (h.keys id) fun hknown => hknown)⟩
  · rfl

/-! ### What learning keys adds -/

/-- A script counts as own once the key of an identifier is known, with its witness program as a
redeem script. -/
def paysTo (P : Primitives) (id : CKeyID) (script : CScript) : Bool :=
  match extractDestination script with
  | some (.pkHash hash) | some (.witnessV0KeyHash hash) => decide (hash = id)
  | some (.scriptHash hash) => decide (hash = hash160 P (witnessProgramScript id.data))
  | _ => false

/-- The seed that a passphrase leads to: that of the first master key which it opens to a key of the
sealed seed. -/
def unsealed (P : Primitives) (w : KeyCore) (phrase : Bytes) : List CMasterKey → Option Uint256
  | [] => none
  | master :: rest =>
    match CCrypter.setKeyFromPassphrase P phrase master.vchSalt master.nDeriveIterations
      master.nDerivationMethod with
    | none => none
    | some crypter =>
      match crypter.decrypt P master.vchCryptedKey with
      | none => unsealed P w phrase rest
      | some key =>
        if w.cryptedSeed = [] then none
        else
          match (decryptSecret P key w.cryptedSeed (.null 32)).bind (Blob.ofBytes? 32) with
          | none => unsealed P w phrase rest
          | some seed => some seed

/-- The identifiers of the keys that an operation learns: the one that is handed out next, or those
of a seed that is unsealed. -/
def Learns (P : Primitives) (w : KeyCore) (op : KeyOp) (id : CKeyID) : Prop :=
  match op with
  | .getNewDestination _ | .getNewChangeDestination => w.hasSeed = true ∧ ∃ child,
      w.hdMaster.derive P w.nextIndex = some child ∧ id = child.key.getPubKey.getID P
  | .unlock phrase | .changeWalletPassphrase phrase _ => ∃ seed,
      w.unsealed P phrase w.mapMasterKeys.values = some seed ∧
        Derives P { w with hdMaster := .setSeed P seed.data } (List.range w.nextIndex.toNat) id
  | _ => False

private theorem unlockLoop_unsealed (phrase : Bytes) (masters : List CMasterKey) :
    (w.unsealed P phrase masters = none ∧
        ∃ key, (w.unlockLoop P phrase masters).2 = { w with vMasterKey := key }) ∨
      ∃ seed key, w.unsealed P phrase masters = some seed ∧
        (w.unlockLoop P phrase masters).2 = { w.withSeed P seed with vMasterKey := key } := by
  induction masters with
  | nil => exact .inl ⟨rfl, w.vMasterKey, rfl⟩
  | cons master rest ih =>
    unfold unsealed unlockLoop
    cases CCrypter.setKeyFromPassphrase P phrase master.vchSalt master.nDeriveIterations
      master.nDerivationMethod with
    | none => exact .inl ⟨rfl, w.vMasterKey, rfl⟩
    | some crypter =>
      dsimp only
      cases crypter.decrypt P master.vchCryptedKey with
      | none => exact ih
      | some key =>
        dsimp only [unlockWithKey]
        by_cases hempty : w.cryptedSeed = []
        · rw [if_pos hempty, if_pos hempty]
          exact .inl ⟨rfl, key, rfl⟩
        · rw [if_neg hempty, if_neg hempty]
          cases (decryptSecret P key w.cryptedSeed (.null 32)).bind (Blob.ofBytes? 32) with
          | none => exact ih
          | some seed => exact .inr ⟨seed, key, rfl, rfl⟩

private theorem isMine_addKey (hw : w.Consistent P) {id : CKeyID} (hnull : id.isNull = false)
    (hscripts : w'.mapScripts = Function.update w.mapScripts
      (hash160 P (witnessProgramScript id.data)) (some (witnessProgramScript id.data)))
    (hknown : ∀ k, w'.haveKey k ∨ k ∈ w'.pubkeyIds ↔ (w.haveKey k ∨ k ∈ w.pubkeyIds) ∨ k = id)
    (script : CScript) : w'.isMine script ↔ w.isMine script ∨ paysTo P id script := by
  have hkey : ∀ (w : KeyCore) (k : CKeyID), (if k.isNull then false
      else w.haveKey k || decide (k ∈ w.pubkeyIds)) ↔ k.isNull = false ∧
        (w.haveKey k ∨ k ∈ w.pubkeyIds) := by
    intro w k
    cases k.isNull <;> simp
  have hadd : ∀ k : CKeyID, k.isNull = false ∧ (w'.haveKey k ∨ k ∈ w'.pubkeyIds) ↔
      k.isNull = false ∧ (w.haveKey k ∨ k ∈ w.pubkeyIds) ∨ k = id := by
    intro k
    rw [hknown, and_or_left]
    exact or_congr_right ⟨And.right, fun h => ⟨h ▸ hnull, h⟩⟩
  unfold isMine paysTo
  cases extractDestination script with
  | none => simp
  | some dest =>
    dsimp only
    rw [hkey, hkey]
    cases dest with
    | pkHash hash => simpa [getKeyForDestination] using hadd hash
    | witnessV0KeyHash hash => simpa [getKeyForDestination] using hadd hash
    | scriptHash hash =>
      rw [hadd]
      by_cases hhash : hash = hash160 P (witnessProgramScript id.data)
      · simp [getKeyForDestination, provider, hscripts, hhash, extractDestination,
          solver_keyHashProgram]
      · have hsame : w'.mapScripts hash = w.mapScripts hash := by
          rw [hscripts, Function.update_of_ne hhash]
        simp only [getKeyForDestination, provider, hsame, hhash, decide_false,
          Bool.false_eq_true, or_false]
        refine or_iff_left fun heq => ?_
        -- a redeem script of the key would be stored under its hash
        cases hget : w.mapScripts hash with
        | none =>
          rw [hget] at heq
          rw [← heq, Blob.isNull_null] at hnull
          cases hnull
        | some redeem =>
          obtain ⟨hredeem, keyid, rfl⟩ := hw.script hash redeem hget
          rw [hget] at heq
          simp only [extractDestination, solver_keyHashProgram] at heq
          exact hhash (heq ▸ hredeem.symm)
    | noDestination | pubKey | witnessV0ScriptHash | payToAnchor | witnessUnknown =>
      simp [getKeyForDestination, Blob.isNull_null]

private theorem isMine_foldl_learnKey (indices : List Nat) (hw : w.Consistent P)
    (hnull : ∀ id, w.Derives P indices id → id.isNull = false) (script : CScript) :
    (indices.foldl (fun w i => w.learnKey P (UInt32.ofNat i)) w).isMine script ↔
      w.isMine script ∨ ∃ id, w.Derives P indices id ∧ paysTo P id script := by
  induction indices generalizing w with
  | nil => simp [Derives]
  | cons i indices ih =>
    have hderives : ∀ id, (w.learnKey P (UInt32.ofNat i)).Derives P indices id ↔
        w.Derives P indices id := by
      intro id
      obtain ⟨_, _, _, hframe⟩ := w.learnKey_frame (P := P) (UInt32.ofNat i)
      rw [hframe]
      rfl
    have hone : (w.learnKey P (UInt32.ofNat i)).isMine script ↔
        w.isMine script ∨ ∃ id, w.Derives P [i] id ∧ paysTo P id script := by
      cases hchild : w.hdMaster.derive P (UInt32.ofNat i) with
      | none => simp [learnKey, Derives, hchild]
      | some child =>
        have hid : ∀ id, w.Derives P [i] id ↔ id = child.key.getPubKey.getID P := by
          intro id
          simp [Derives, hchild]
        rw [isMine_addKey hw (hnull _ ((derives_cons i indices _).mpr (.inl ((hid _).mpr rfl))))
          (by simp only [learnKey, hchild]; rfl)
          (fun k => by rw [(learnKey_adds i k).1, (learnKey_adds i k).2, hid]; tauto) script]
        simp [hid]
    rw [List.foldl_cons, ih (hw.learnKey _) fun id hid => hnull id ((derives_cons i indices id).mpr
      (.inr ((hderives id).mp hid))), hone]
    simp only [hderives, derives_cons i indices, or_and_right, exists_or, or_assoc]

private theorem isMine_getNewDestination (hw : w.Consistent P) (label : String)
    (hnull : ∀ id, w.Learns P (.getNewDestination label) id → id.isNull = false)
    (script : CScript) : (w.getNewDestination P label).2.isMine script ↔
      w.isMine script ∨ ∃ id, w.Learns P (.getNewDestination label) id ∧ paysTo P id script := by
  simp only [Learns] at hnull ⊢
  obtain ⟨hseed | hkey, _, heq⟩ | ⟨child, _, _, _, _, hseed, hchild, -, -, -, heq, -⟩ :=
    w.getNewDestination_cases (P := P) label
  · simp [heq, hseed]
  · simp [heq, CExtKey.derive_eq_none P w.nextIndex hkey]
  · rw [heq]
    refine (isMine_addKey hw (hnull _ ⟨hseed, child, hchild, rfl⟩) rfl (fun k => ?_) script).trans
      ?_
    · exact (or_congr (haveKey_addKey child.key k) Finset.mem_insert).trans (by tauto)
    · simp [hseed, hchild]

private theorem isMine_unlock (hw : w.Consistent P) (phrase : Bytes)
    (hnull : ∀ id, w.Learns P (.unlock phrase) id → id.isNull = false) (script : CScript) :
    (w.unlock P phrase).2.isMine script ↔
      w.isMine script ∨ ∃ id, w.Learns P (.unlock phrase) id ∧ paysTo P id script := by
  simp only [Learns] at hnull ⊢
  rw [unlock]
  obtain ⟨hseed, key, heq⟩ | ⟨seed, key, hseed, heq⟩ :=
    unlockLoop_unsealed (P := P) (w := w) phrase w.mapMasterKeys.values
  · rw [heq, hseed]
    simp only [reduceCtorEq, false_and, exists_false, or_false]
    exact Iff.rfl
  · rw [heq, hseed]
    simp only [Option.some.injEq, exists_eq_left']
    have hseeded : Consistent P
        { w with hdSeed := seed, hdMaster := .setSeed P seed.data, hasSeed := true } :=
      hw.of_frame rfl rfl
    exact isMine_foldl_learnKey _ hseeded (fun id hid => hnull id ⟨seed, hseed, hid⟩) script

/-- An operation other than reloading makes own what pays to the keys that it learns, and nothing
else. -/
theorem isMine_step (hw : w.Consistent P) (h : w.Known P) {op : KeyOp} (hop : op ≠ .reload)
    (hnull : ∀ id, w.Learns P op id → id.isNull = false) (script : CScript) :
    (w.step P op).isMine script ↔ w.isMine script ∨ ∃ id, w.Learns P op id ∧
    paysTo P id script := by
  cases op with
  | setSeed seed =>
    simp only [Learns, false_and, exists_false, or_false]
    exact Iff.rfl
  | encryptWallet phrase key salt =>
    rw [KeyCore.step, KeyOp.apply, h.isMine_encryptWallet]
    simp [Learns]
  | lock =>
    rw [KeyCore.step, KeyOp.apply, h.isMine_lock]
    simp [Learns]
  | unlock phrase => exact isMine_unlock hw phrase hnull script
  | changeWalletPassphrase old new =>
    refine Iff.trans ?_ (isMine_unlock hw old hnull script)
    rw [KeyCore.step, KeyOp.apply]
    obtain ⟨heq, heq'⟩ | ⟨_, _, _, _, heq, -, heq', -⟩ :=
      w.changeWalletPassphrase_cases (P := P) old new
    · rw [heq, heq']
    · rw [heq, heq']
      exact Iff.rfl
  | getNewDestination label => exact isMine_getNewDestination hw label hnull script
  | getNewChangeDestination => exact isMine_getNewDestination hw "" hnull script
  | reload => exact absurd rfl hop

/-! ### What the wallet owns -/

/-- The scripts that count as the wallet's own, by the key behind them. -/
inductive Owned (P : Primitives) (w : KeyCore) : CScript → CKeyID → Prop
  | pubkeyHash (id : CKeyID) : Owned P w (payToPubkeyHashScript id.data) id
  | witnessKeyHash (id : CKeyID) : Owned P w (witnessProgramScript id.data) id
  | wrapped (id : CKeyID)
      (hscript : w.mapScripts (hash160 P (witnessProgramScript id.data)) =
        some (witnessProgramScript id.data)) :
      Owned P w (payToScriptHashScript (hash160 P (witnessProgramScript id.data)).data) id

/-- An output that counts as the wallet's own is of one of the three kinds, and its key is known. -/
theorem owned_of_isMine (hw : w.Consistent P) {script : CScript} (h : w.isMine script) :
    Owned P w script (w.keyOf script) ∧
    (w.haveKey (w.keyOf script) ∨ w.keyOf script ∈ w.pubkeyIds) := by
  unfold isMine at h
  unfold keyOf
  cases hdest : extractDestination script with
  | none =>
    rw [hdest] at h
    cases h
  | some dest =>
    simp only [hdest] at h ⊢
    split at h
    next hnull =>
      cases h
    rename_i hnull
    refine ⟨?_, by simpa using h⟩
    rw [eq_getScriptForDestination hdest]
    cases dest with
    | pkHash hash => exact .pubkeyHash hash
    | witnessV0KeyHash hash => exact .witnessKeyHash hash
    | scriptHash hash =>
      -- the redeem script is known and is a witness program
      cases hget : w.mapScripts hash with
      | none => simp [getKeyForDestination, provider, hget] at hnull
      | some redeem =>
        obtain ⟨rfl, keyid, rfl⟩ := hw.script hash redeem hget
        have hkey : getKeyForDestination w.provider
            (.scriptHash (hash160 P (witnessProgramScript keyid.data))) = keyid := by
          simp [getKeyForDestination, provider, hget, extractDestination, solver_keyHashProgram]
        rw [hkey]
        exact .wrapped keyid hget
    | noDestination | pubKey | witnessV0ScriptHash | payToAnchor | witnessUnknown =>
      exact absurd Blob.isNull_null hnull

end KeyCore

end Tessera.Wallet
