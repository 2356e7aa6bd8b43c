import Tessera.Script.Multisig
import Tessera.Tx.Sign

/-!
# Sets of signatures for the keys of a multisig script

A partly signed multisig input carries signatures in the order of their keys, with empty values for
those that are missing. The loop of `OP_CHECKMULTISIG` accepts such a list if each signature belongs
to its own key, and `DataFromTransaction` recovers from it which key has which signature.
-/

namespace Tessera.Tx

open Function Lib Script List Option

variable {P : Primitives}

/-! ### The loop of the multisig opcode -/

variable {code : CScript} {keys : List CPubKey}

/-- Signatures paired with their own keys, which lie among the keys of the script in order, pass the
loop if each of them verifies under its own key. -/
theorem checkMultisigLoop_of_sublist {input : TxInput} {pairs : List SigPair}
    (hsub : (pairs.map Prod.fst).Sublist keys)
    (hown : ∀ p ∈ pairs, input.checkSig P p.2 p.1.vch code .witnessV0) :
    checkMultisigLoop (input.checker P) .witnessV0 code (pairs.map Prod.snd)
      (keys.map CPubKey.vch) = pure true := by
  have hmatch : SublistForall₂ (fun sig key => input.checkSig P sig key code .witnessV0)
      (pairs.map Prod.snd) (keys.map CPubKey.vch) := by
    refine sublistForall₂_iff.mpr ⟨(pairs.map Prod.fst).map CPubKey.vch, ?_, hsub.map _⟩
    rw [List.map_map, forall₂_map_left_iff, forall₂_map_right_iff, forall₂_same]
    exact hown
  have hok : ∀ sig key c, ((input.checker P).checkSig sig key code .witnessV0 c).1 =
      input.checkSig P sig key code .witnessV0 := fun _ _ _ => rfl
  refine Comp.eq_pure_of_returns fun c => ?_
  obtain ⟨b, _, hrun, hb⟩ := checkMultisigLoop_returns hok (pairs.map Prod.snd)
    (keys.map CPubKey.vch) c
  rwa [hb.mpr hmatch] at hrun

/-- An empty signature on top fails under every key, and a checker that ignores it is not changed.
-/
theorem checkMultisigLoop_pad {σ : Type} {checker : Checker σ} {sigs : List Bytes}
    (hpad : ∀ key s, checker.checkSig [] key code .witnessV0 s = (false, s)) (keys : List Bytes) :
    checkMultisigLoop checker .witnessV0 code ([] :: sigs) keys = pure false := by
  induction keys with
  | nil => rfl
  | cons key keys ih =>
    have hact : (Comp.act (checker.checkSig [] key code .witnessV0) : Comp ScriptError σ Bool) =
        pure false := by
      funext s
      rw [Comp.act, hpad]
      rfl
    rw [checkMultisigLoop, hact, pure_bind]
    simp only [Bool.false_eq_true, if_false]
    split
    · rfl
    · exact ih

/-! ### Signatures by key -/

/-- A partial set of signatures for the keys of a script: which keys have one, and which. -/
abbrev SigsByKey := CPubKey → Option Bytes

/-- The signatures of a set, in the order of the keys. -/
def collect (g : SigsByKey) (keys : List CPubKey) : List SigPair :=
  keys.filterMap fun key => (g key).map (Prod.mk key)

theorem mem_collect {g : SigsByKey} {p : SigPair} : p ∈ collect g keys ↔ p.1 ∈ keys ∧
    g p.1 = some p.2 := by
  simp only [collect, mem_filterMap, map_eq_some_iff]
  constructor
  · rintro ⟨key, hkey, sig, hsig, rfl⟩
    exact ⟨hkey, hsig⟩
  · rintro ⟨hkey, hsig⟩
    exact ⟨p.1, hkey, p.2, hsig, rfl⟩

theorem collect_keys_sublist (g : SigsByKey) (keys : List CPubKey) :
    ((collect g keys).map Prod.fst).Sublist keys := by
  induction keys with
  | nil => exact .slnil
  | cons key keys ih =>
    cases hg : g key with
    | none => simpa [collect, hg] using ih.cons key
    | some sig => simpa [collect, hg] using ih.cons_cons key

theorem collect_sigs (g : SigsByKey) (keys : List CPubKey) : (collect g keys).map Prod.snd =
    keys.filterMap g := by
  rw [collect, map_filterMap]
  congr 1
  funext key
  cases g key <;> rfl

theorem collect_length (g : SigsByKey) (keys : List CPubKey) :
    (collect g keys).length = keys.countP fun key => (g key).isSome := by
  induction keys with
  | nil => rfl
  | cons key keys ih =>
    rw [countP_cons, ← ih]
    cases hg : g key with
    | none => simp [collect, hg]
    | some sig => simp [collect, hg]

/-- A signature that belongs to one key of a script: it verifies under that key only, and no other
key of the script shares the identifier by which the signing code looks keys up. -/
structure Belongs (P : Primitives) (input : TxInput) (script : CScript) (keys : List CPubKey)
    (key : CPubKey) (sig : Bytes) : Prop where
  size : sig.length ≤ maxWitnessItem
  checkSig_iff : ∀ other ∈ keys, input.checkSig P sig other.vch script .witnessV0 =
    true ↔ other = key
  getID_inj : ∀ other ∈ keys, other.getID P = key.getID P → other = key

/-- Every signature of the set belongs to the key it is listed under. -/
def Sound (P : Primitives) (input : TxInput) (script : CScript) (keys : List CPubKey)
    (g : SigsByKey) : Prop :=
  ∀ key ∈ keys, ∀ sig, g key = some sig → Belongs P input script keys key sig

/-! ### Recovering the signatures of an input -/

section Recover

variable {input : TxInput} {script : CScript} {keys : List CPubKey} {g : SigsByKey}

/-- Note a signature under the identifier of its key. -/
def note (P : Primitives) (m : CKeyID → Option SigPair) (p : SigPair) : CKeyID → Option SigPair :=
  update m (p.1.getID P) (some p)

/-- What has been recovered so far agrees with the set. -/
def Agrees (P : Primitives) (g : SigsByKey) (keys : List CPubKey)
    (m : CKeyID → Option SigPair) : Prop :=
  ∀ key ∈ keys, m (key.getID P) = none ∨ m (key.getID P) = (g key).map (Prod.mk key)

variable {m : CKeyID → Option SigPair} {key : CPubKey} {p : SigPair} {sig : Bytes}
  {pairs : List SigPair} {id : CKeyID}

private theorem agrees_note (hg : Sound P input script keys g) (hm : Agrees P g keys m)
    (hkey : key ∈ keys) (hsig : g key = some sig) : Agrees P g keys (note P m (key, sig)) := by
  intro other hother
  by_cases hid : other.getID P = key.getID P
  · obtain rfl := (hg key hkey sig hsig).getID_inj other hother hid
    simp [note, hsig]
  · simpa [note, update_of_ne hid] using hm other hother

private theorem checkSig_nil (pubkey : Bytes) : input.checkSig P [] pubkey script
    .witnessV0 = false :=
  rfl

variable (P input script) in
private theorem matchKey_pad (ks : List Bytes) (m : CKeyID → Option SigPair) :
    ∃ rest, matchKey P input script .witnessV0 [] ks m = (rest, m) ∧
    (m = (fun _ => none) → rest = none) := by
  induction ks with
  | nil => exact ⟨none, rfl, fun _ => rfl⟩
  | cons key ks ih =>
    unfold matchKey
    split
    next hnoted => exact ⟨_, rfl, fun hm => absurd hnoted (by simp [hm])⟩
    · simpa [extractorChecker, checkSig_nil] using ih

private theorem matchKeys_pads (n : Nat) (ks : List Bytes) (m : CKeyID → Option SigPair) :
    matchKeys P input script .witnessV0 (List.replicate n []) ks m = m := by
  induction n generalizing ks with
  | zero => rfl
  | succ n ih =>
    obtain ⟨rest, hmatch, -⟩ := matchKey_pad P input script ks m
    rw [replicate_succ, matchKeys, hmatch]
    cases rest <;> exact ih _

private theorem matchKey_found (hkeys : ∀ key ∈ keys, key.isValid)
    (hg : Sound P input script keys g) (hm : Agrees P g keys m) {before after : List CPubKey}
    (hmem : ∀ k ∈ before ++ key :: after, k ∈ keys) (hbefore : ∀ k ∈ before, g k = none)
    (hsig : g key = some sig) :
    matchKey P input script .witnessV0 sig ((before ++ key :: after).map CPubKey.vch) m =
      (some (after.map CPubKey.vch), note P m (key, sig)) := by
  have hkey := hmem key (by simp)
  have hbelongs := hg key hkey sig hsig
  induction before with
  | nil =>
    have hset := CPubKey.set_vch (hkeys key hkey)
    rw [nil_append, map_cons, matchKey, hset]
    rcases hm key hkey with hnone | hsome
    · -- the signature is new
      have hok := (hbelongs.checkSig_iff key hkey).mpr rfl
      have hnote : emplace m (key.getID P) (key, sig) = note P m (key, sig) := by
        funext id
        simp [emplace, note, update_apply, hnone]
      rw [if_neg (by simp [hnone])]
      simp [extractorChecker, hok, hset, hnote]
    · -- the key occurs twice and its signature has been noted
      rw [hsig] at hsome
      have hnote : note P m (key, sig) = m := by
        rw [note, update_eq_self_iff]
        exact hsome.symm
      rw [if_pos (by simp [hsome]), hnote]
  | cons k before ih =>
    have hk := hmem k (by simp)
    have hnone := hbefore k mem_cons_self
    have hfree : m (k.getID P) = none := by
      rcases hm k hk with h | h
      · exact h
      · rw [h, hnone]
        rfl
    have hfail : input.checkSig P sig k.vch script .witnessV0 = false := by
      rw [← Bool.not_eq_true, hbelongs.checkSig_iff k hk]
      rintro rfl
      rw [hnone] at hsig
      cases hsig
    rw [cons_append, map_cons, matchKey, CPubKey.set_vch (hkeys k hk), if_neg (by simp [hfree])]
    simp only [extractorChecker, hfail]
    exact ih (fun k' hk' => hmem k' (mem_cons_of_mem k hk'))
      fun k' hk' => hbefore k' (mem_cons_of_mem k hk')

private theorem matchKeys_collect (hkeys : ∀ key ∈ keys, key.isValid)
    (hg : Sound P input script keys g) (hm : Agrees P g keys m)
    {rest : List CPubKey} (hmem : ∀ k ∈ rest, k ∈ keys) (n : Nat) :
    matchKeys P input script .witnessV0
        ((collect g rest).map Prod.snd ++ List.replicate n []) (rest.map CPubKey.vch) m =
      (collect g rest).foldl (note P) m := by
  generalize hpairs : collect g rest = pairs
  induction pairs generalizing rest m with
  | nil => exact matchKeys_pads n _ m
  | cons p pairs ih =>
    -- the first signature left is that of the first key left that has one
    obtain ⟨before, key, after, rfl, hbefore, hp, hafter⟩ := filterMap_eq_cons_iff.mp hpairs
    obtain ⟨sig, hsig, rfl⟩ := map_eq_some_iff.mp hp
    have hnone : ∀ k ∈ before, g k = none := fun k hk => by simpa using hbefore k hk
    have hkey : key ∈ keys := hmem key (by simp)
    rw [map_cons, cons_append, matchKeys, matchKey_found hkeys hg hm hmem hnone hsig]
    exact ih (agrees_note hg hm hkey hsig)
      (fun k hk => hmem k (mem_append_right _ (mem_cons_of_mem key hk))) hafter

/-- The signatures of a set by the identifiers of their keys. -/
def sigMap (P : Primitives) (g : SigsByKey) (keys : List CPubKey) : CKeyID → Option SigPair :=
  (collect g keys).foldl (note P) fun _ => none

private theorem mem_of_foldl_note (h : pairs.foldl (note P) m id = some p) :
    (p ∈ pairs ∧ p.1.getID P = id) ∨ m id = some p := by
  induction pairs generalizing m with
  | nil => exact .inr h
  | cons q pairs ih =>
    rcases ih h with ⟨hp, hid⟩ | hm
    · exact .inl ⟨mem_cons_of_mem q hp, hid⟩
    by_cases hq : id = q.1.getID P
    · rw [note, hq, update_self] at hm
      cases hm
      exact .inl ⟨mem_cons_self, hq.symm⟩
    · rw [note, update_of_ne hq] at hm
      exact .inr hm

private theorem foldl_note_of_mem (hinj : ∀ q ∈ pairs, q.1.getID P = p.1.getID P → q = p)
    (h : p ∈ pairs ∨ m (p.1.getID P) = some p) : pairs.foldl (note P) m (p.1.getID P) = some p := by
  induction pairs generalizing m with
  | nil => exact h.resolve_left not_mem_nil
  | cons q pairs ih =>
    refine ih (fun q' hq' => hinj q' (mem_cons_of_mem q hq')) ?_
    by_cases hq : q.1.getID P = p.1.getID P
    · obtain rfl := hinj q mem_cons_self hq
      right
      rw [note, update_self]
    · rw [note, update_of_ne (symm hq)]
      refine h.imp_left fun hp => ?_
      rcases mem_cons.mp hp with rfl | hp
      · exact absurd rfl hq
      · exact hp

theorem sigMap_eq_some_iff (hg : Sound P input script keys g) :
    sigMap P g keys id = some p ↔ p.1 ∈ keys ∧ g p.1 = some p.2 ∧ p.1.getID P = id := by
  constructor
  · intro h
    rcases mem_of_foldl_note h with ⟨hp, hid⟩ | hnone
    · obtain ⟨hkey, hsig⟩ := mem_collect.mp hp
      exact ⟨hkey, hsig, hid⟩
    · cases hnone
  · rintro ⟨hkey, hsig, rfl⟩
    refine foldl_note_of_mem (fun q hq hid => ?_) (.inl (mem_collect.mpr ⟨hkey, hsig⟩))
    obtain ⟨hqkey, hqsig⟩ := mem_collect.mp hq
    have hkeys := (hg p.1 hkey p.2 hsig).getID_inj q.1 hqkey hid
    rw [hkeys, hsig] at hqsig
    exact Prod.ext hkeys (some.inj hqsig).symm

theorem sigMap_getID (hg : Sound P input script keys g) (hkey : key ∈ keys) :
    sigMap P g keys (key.getID P) = (g key).map (Prod.mk key) := by
  cases hsig : g key with
  | some sig => exact (sigMap_eq_some_iff hg).mpr ⟨hkey, hsig, rfl⟩
  | none =>
    rw [map_none, eq_none_iff_forall_ne_some]
    intro p hp
    obtain ⟨hpkey, hpsig, hid⟩ := (sigMap_eq_some_iff hg).mp hp
    obtain rfl := (hg p.1 hpkey p.2 hpsig).getID_inj key hkey hid.symm
    rw [hsig] at hpsig
    cases hpsig

/-- The values that a signer leaves in a witness give the whole set back. -/
theorem matchKeys_values (hkeys : ∀ key ∈ keys, key.isValid)
    (hg : Sound P input script keys g) (n : Nat) :
    matchKeys P input script .witnessV0 ([] :: ((collect g keys).map Prod.snd ++
        List.replicate n [])) (keys.map CPubKey.vch) (fun _ => none) = sigMap P g keys := by
  have hnone : Agrees P g keys fun _ => none := fun _ _ => .inl rfl
  obtain ⟨rest, hmatch, hrest⟩ := matchKey_pad P input script (keys.map CPubKey.vch) fun _ => none
  rw [matchKeys, hmatch, hrest rfl]
  exact matchKeys_collect hkeys hg hnone (fun _ h => h) n

end Recover

end Tessera.Tx
