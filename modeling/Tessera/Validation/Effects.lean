import Tessera.Lib.PartialMap
import Tessera.Validation.Connect

/-!
# The effects of transactions on the coins

What `UpdateCoins` and `DisconnectBlock` do to a view, as operations on the map of coins that it
shows: `applyTx` removes what a transaction spends and lays what it creates over the rest, and
`undoTx` removes what it creates and puts back what it had spent. The lemmas here say that the loops
of the source compute these maps, and when `DisconnectBlock` finds a view to be clean.
-/

namespace Tessera.Validation

open Function Coins Lib Lib.PartialMap Script Tx List Option

/-! ### Effects -/

section Defs

variable (P : Primitives)

/-- The coins that a transaction creates from some of its outputs, which start at a position. -/
def createdFrom (nHeight : Nat) (tx : CTransaction) (i : Nat) (vout : List CTxOut) :
    CoinMap := fun o =>
  if o.hash = tx.getHash P ∧ i ≤ o.n.toNat then
    (vout[o.n.toNat - i]?).bind fun txout =>
      if isUnspendable txout.scriptPubKey then none else some ⟨txout, tx.isCoinBase, nHeight⟩
  else none

def created (nHeight : Nat) (tx : CTransaction) : CoinMap := createdFrom P nHeight tx 0 tx.vout

def spentOutPoints (tx : CTransaction) : List COutPoint :=
  if tx.isCoinBase then [] else tx.vin.map CTxIn.prevout

/-- What a transaction does to the coins. -/
def applyTx (nHeight : Nat) (M : CoinMap) (tx : CTransaction) : CoinMap :=
  overlay (created P nHeight tx) (without M (spentOutPoints tx))

/-- What undoing a transaction does to the coins, with the coins that it had spent. -/
def undoTx (nHeight : Nat) (tx : CTransaction) (coins : List Coin) (N : CoinMap) : CoinMap :=
  overlay (ofList ((spentOutPoints tx).zip coins).reverse) (erased N (created P nHeight tx))

end Defs

/-- The coins of the record of a transaction; the coinbase has none. -/
def undoCoins : Option CTxUndo → List Coin
  | none => []
  | some txundo => txundo.vprevout

/-- These are the coins that a transaction spends, each of them once. -/
structure Spends (M : CoinMap) (tx : CTransaction) (coins : List Coin) : Prop where
  nodup : (spentOutPoints tx).Nodup
  length : coins.length = (spentOutPoints tx).length
  lookup : ∀ p ∈ (spentOutPoints tx).zip coins, M p.1 = some p.2

/-- A coin that a record can restore. -/
structure Restorable (coin : Coin) : Prop where
  storable : coin.Storable
  height : 0 < coin.nHeight
  spendable : isUnspendable coin.out.scriptPubKey = false

variable {coin : Coin} {o : COutPoint} {vout : List CTxOut} {ρ : Type} {view view' : CCoinsView}
  {coins : List Coin} {M M' : CoinMap}

theorem isSpent_of_value (h : moneyRange coin.out.nValue) : coin.isSpent = false := by
  have hvalue := (moneyRange_iff.mp h).1
  simp only [Coin.isSpent, beq_eq_false_iff_ne]
  intro heq
  rw [heq] at hvalue
  exact absurd hvalue (by decide)

variable {P : Primitives} {nHeight : Nat} {tx : CTransaction}

/-! ### Outputs -/

variable {i : Nat}

private theorem outPoint_n (hi : i < 2 ^ 32) : (outPoint P tx i).n.toNat = i := by
  simp only [outPoint, UInt32.toNat_ofNat']
  omega

theorem createdFrom_nil (i : Nat) : createdFrom P nHeight tx i [] = fun _ => none := by
  funext o
  simp [createdFrom]

variable (P nHeight tx) in
theorem createdFrom_succ_outPoint (hi : i < 2 ^ 32) (rest : List CTxOut) :
    createdFrom P nHeight tx (i + 1) rest (outPoint P tx i) = none := by
  rw [createdFrom, if_neg]
  rw [outPoint_n hi]
  omega

/-- The coins of the outputs after the first are those at the other outpoints. -/
theorem createdFrom_of_ne (txout : CTxOut) (rest : List CTxOut) (ho : o ≠ outPoint P tx i) :
    createdFrom P nHeight tx i (txout :: rest) o = createdFrom P nHeight tx (i + 1) rest o := by
  unfold createdFrom
  by_cases hhash : o.hash = tx.getHash P
  · by_cases hle : i + 1 ≤ o.n.toNat
    · obtain ⟨k, hk⟩ : ∃ k, o.n.toNat - i = k + 1 := ⟨o.n.toNat - i - 1, by omega⟩
      have hk' : o.n.toNat - (i + 1) = k := by omega
      rw [if_pos ⟨hhash, by omega⟩, if_pos ⟨hhash, hle⟩, hk, hk', getElem?_cons_succ]
    · -- an output before the others would have to be the first one
      have hlt : ¬ i ≤ o.n.toNat := by
        intro hle'
        apply ho
        have hn : o.n.toNat = i := by omega
        have hn' : o.n = UInt32.ofNat i := by
          rw [← hn]
          exact (UInt32.ofNat_toNat).symm
        cases o
        simp only [outPoint, COutPoint.mk.injEq]
        exact ⟨hhash, hn'⟩
      rw [if_neg (fun h => hlt h.2), if_neg (fun h => hle h.2)]
  · rw [if_neg (fun h => hhash h.1), if_neg (fun h => hhash h.1)]

/-- A coin that is created from outputs is one of them, and can be spent. -/
theorem createdFrom_eq_some (h : createdFrom P nHeight tx i vout o = some coin) :
    coin.out ∈ vout ∧ isUnspendable coin.out.scriptPubKey = false ∧
      coin.fCoinBase = tx.isCoinBase ∧ coin.nHeight = nHeight := by
  unfold createdFrom at h
  split at h
  · obtain ⟨txout, hget, hcoin⟩ := bind_eq_some_iff.mp h
    split at hcoin
    · cases hcoin
    next hspendable =>
      cases hcoin
      exact ⟨mem_of_getElem? hget, by simpa using hspendable, rfl, rfl⟩
  · cases h

theorem created_eq_some (h : created P nHeight tx o = some coin) :
    coin.out ∈ tx.vout ∧ isUnspendable coin.out.scriptPubKey = false ∧
      coin.fCoinBase = tx.isCoinBase ∧ coin.nHeight = nHeight :=
  createdFrom_eq_some h

/-- A coin that a transaction creates is at the outpoint of one of its outputs. -/
theorem created_outPoint (h : created P nHeight tx o = some coin) : ∃ n < tx.vout.length,
    o = outPoint P tx n := by
  unfold created createdFrom at h
  split at h
  next hhash =>
    obtain ⟨txout, hget, -⟩ := bind_eq_some_iff.mp h
    refine ⟨o.n.toNat, (List.getElem?_eq_some_iff.mp hget).1, ?_⟩
    cases o
    rw [outPoint, ← hhash.1]
    exact congrArg _ (UInt32.ofNat_toNat).symm
  · cases h

variable (P nHeight tx) in
/-- The first output adds its coin to those of the others. -/
theorem createdFrom_cons (hi : i < 2 ^ 32) (txout : CTxOut) (rest : List CTxOut) :
    createdFrom P nHeight tx i (txout :: rest) =
      update (createdFrom P nHeight tx (i + 1) rest) (outPoint P tx i)
        (if isUnspendable txout.scriptPubKey then none
          else some ⟨txout, tx.isCoinBase, nHeight⟩) := by
  funext o
  by_cases ho : o = outPoint P tx i
  · subst ho
    have hhash : (outPoint P tx i).hash = tx.getHash P := rfl
    simp only [createdFrom, outPoint_n hi, hhash, Nat.le_refl, and_self, if_true, Nat.sub_self,
      List.getElem?_cons_zero, bind_some, update_self]
  · rw [createdFrom_of_ne txout rest ho, update_of_ne ho]

/-- What `AddCoin` does, if it returns. -/
theorem addCoin_eq_ok {possibleOverwrite : Bool}
    (h : (addCoin view o coin possibleOverwrite : Except (Failure ρ) CCoinsView) = .ok view') :
    view' = if isUnspendable coin.out.scriptPubKey then view
      else { view with coins := update view.coins o (some coin) } := by
  unfold addCoin at h
  split at h
  · cases h
  split at h
  next hunspendable =>
    rw [if_pos hunspendable]
    exact (Except.ok.inj h).symm
  next hspendable =>
    rw [if_neg hspendable]
    split at h
    · cases h
    · exact (Except.ok.inj h).symm

private theorem addCoinsFrom_spec (hlen : i + vout.length ≤ 2 ^ 32)
    (h : (addCoinsFrom P tx nHeight i vout view : Except (Failure ρ) CCoinsView) = .ok view') :
    view' = { view with coins := overlay (createdFrom P nHeight tx i vout) view.coins } := by
  induction vout generalizing i view with
  | nil =>
    rw [createdFrom_nil]
    exact (Except.ok.inj h).symm
  | cons txout rest ih =>
    simp only [length_cons] at hlen
    have hi : i < 2 ^ 32 := by omega
    obtain ⟨view₁, hadd, hrest⟩ := bind_eq_ok_iff.mp h
    have hview₁ := addCoin_eq_ok hadd
    have hview' := ih (by omega) hrest
    have hlater := createdFrom_succ_outPoint P nHeight tx hi rest
    have hcoins : overlay (createdFrom P nHeight tx (i + 1) rest) view₁.coins =
        overlay (createdFrom P nHeight tx i (txout :: rest)) view.coins := by
      rw [hview₁, createdFrom_cons P nHeight tx hi]
      split
      · rw [← hlater, update_eq_self]
      · exact (overlay_update hlater _).symm
    have hhash : view₁.hashBlock = view.hashBlock := by
      rw [hview₁]
      split <;> rfl
    rw [hview', hcoins, hhash]

variable (P nHeight tx) in
/-- The loop over the outputs removes what they created, and finds them clean if they were there. -/
theorem removeOutputsFrom_spec (exempt : Bool) (i : Nat) (fClean : Bool)
    (view : CCoinsView) (hlen : i + vout.length ≤ 2 ^ 32) :
    (removeOutputsFrom P tx nHeight exempt i vout fClean view).2 =
        { view with coins := erased view.coins (createdFrom P nHeight tx i vout) } ∧
      ((removeOutputsFrom P tx nHeight exempt i vout fClean view).1 ↔ fClean ∧
        (exempt ∨ Sub (createdFrom P nHeight tx i vout) view.coins)) := by
  induction vout generalizing i fClean view with
  | nil =>
    rw [createdFrom_nil]
    refine ⟨rfl, ?_⟩
    have hsub : Sub (fun _ => none) view.coins := by
      intro o coin hcoin
      cases hcoin
    simp [removeOutputsFrom, hsub]
  | cons txout rest ih =>
    simp only [length_cons] at hlen
    have hi : i < 2 ^ 32 := by omega
    have hlater := createdFrom_succ_outPoint P nHeight tx hi rest
    rw [createdFrom_cons P nHeight tx hi, removeOutputsFrom]
    split
    · -- the output made no coin, so the coins of all outputs are those of the others
      rw [← hlater, update_eq_self]
      exact ih (i + 1) fClean view (by omega)
    · set o₁ := outPoint P tx i
      set coin₁ : Coin := ⟨txout, tx.isCoinBase, nHeight⟩
      have hspent : (spendCoin view o₁).2 = { view with coins := update view.coins o₁ none } := by
        unfold spendCoin
        split
        · rfl
        next hnone =>
          rw [← hnone, update_eq_self]
      have hmatch : (!(spendCoin view o₁).1.1 || (spendCoin view o₁).1.2 != coin₁) = false ↔
          view.coins o₁ = some coin₁ := by
        unfold spendCoin
        split
        next coin hcoin =>
          simp [hcoin]
        next hnone =>
          simp [hnone]
      obtain ⟨hview, hclean⟩ := ih (i + 1)
        (fClean && (exempt || !(!(spendCoin view o₁).1.1 || (spendCoin view o₁).1.2 != coin₁)))
        (spendCoin view o₁).2 (by omega)
      rw [hview, hclean, hspent]
      refine ⟨?_, ?_⟩
      · rw [erased_update hlater]
      · rw [sub_update_iff hlater, ← hmatch]
        cases exempt <;> simp [and_assoc]

/-! ### Inputs -/

theorem spendCoin_of_some (h : view.coins o = some coin) :
    spendCoin view o = ((true, coin), { view with coins := update view.coins o none }) := by
  simp [spendCoin, h]

theorem spendCoin_of_none (h : view.coins o = none) : spendCoin view o =
    ((false, .null), view) := by
  simp [spendCoin, h]

theorem spendInputs_spec {vin : List CTxIn}
    (h : (spendInputs vin view : Except (Failure ρ) (List Coin × CCoinsView)) =
      .ok (coins, view')) :
    (vin.map CTxIn.prevout).Nodup ∧ coins.length = vin.length ∧
      (∀ p ∈ (vin.map CTxIn.prevout).zip coins, view.coins p.1 = some p.2) ∧
      view' = { view with coins := without view.coins (vin.map CTxIn.prevout) } := by
  induction vin generalizing view coins with
  | nil =>
    cases h
    refine ⟨nodup_nil, rfl, by simp, ?_⟩
    rw [map_nil, without_nil]
  | cons txin rest ih =>
    obtain ⟨_, hassert, hbind⟩ := bind_eq_ok_iff.mp h
    obtain ⟨⟨coins₁, view₁⟩, hrest, hret⟩ := bind_eq_ok_iff.mp hbind
    cases hret
    -- the coin was there, so it is not spent again by a later input
    obtain ⟨coin, hcoin⟩ : ∃ coin, view.coins txin.prevout = some coin := by
      cases hlookup : view.coins txin.prevout with
      | some coin => exact ⟨coin, rfl⟩
      | none =>
        rw [spendCoin_of_none hlookup] at hassert
        cases hassert
    rw [spendCoin_of_some hcoin] at hrest ⊢
    obtain ⟨hnodup, hlength, hlookup, hview⟩ := ih hrest
    dsimp only at hlookup
    have hfresh : txin.prevout ∉ rest.map CTxIn.prevout := by
      intro hmem
      have hkeys : ((rest.map CTxIn.prevout).zip coins₁).map Prod.fst = rest.map CTxIn.prevout :=
        map_fst_zip (by simp [hlength])
      rw [← hkeys] at hmem
      obtain ⟨p, hp, heq⟩ := mem_map.mp hmem
      have hpair := hlookup p hp
      rw [heq, update_self] at hpair
      cases hpair
    refine ⟨nodup_cons.mpr ⟨hfresh, hnodup⟩, by simp [hlength], ?_, ?_⟩
    · intro p hp
      obtain rfl | hp := mem_cons.mp hp
      · exact hcoin
      have hne : p.1 ≠ txin.prevout := by
        intro heq
        exact hfresh (heq ▸ (of_mem_zip hp).1)
      have := hlookup p hp
      rwa [update_of_ne hne] at this
    · rw [hview, map_cons, without_cons]

private theorem applyTxInUndo_spec {undo : Coin} (h : Restorable undo) (view : CCoinsView)
    (out : COutPoint) : applyTxInUndo undo view out = .ok (.ofClean (!haveCoin view out),
      { view with coins := update view.coins out (some undo) }) := by
  have hundo : undoCoin undo view out = some undo := if_neg (Nat.pos_iff_ne_zero.mp h.height)
  have hadd : (addCoin view out undo (!!haveCoin view out) :
      Except (Failure BlockValidationResult) CCoinsView) =
        .ok { view with coins := update view.coins out (some undo) } := by
    rw [addCoin, isSpent_of_value h.storable.value, h.spendable, if_neg Bool.false_ne_true,
      if_neg Bool.false_ne_true, if_neg (by simp)]
  unfold applyTxInUndo
  rw [hundo]
  dsimp only
  rw [hadd]
  rfl

@[simp] theorem ofClean_ne_failed (b : Bool) : DisconnectResult.ofClean b ≠ .failed := by
  cases b <;> decide

@[simp] theorem ofClean_ne_unclean_iff (b : Bool) : DisconnectResult.ofClean b ≠ .unclean ↔ b := by
  cases b <;> decide

/-- The loop over the inputs puts their coins back, and finds them clean if none was there. -/
theorem restoreInputs_spec {kvs : List (COutPoint × Coin)} (fClean : Bool) (view : CCoinsView)
    (hnodup : (kvs.map Prod.fst).Nodup) (h : ∀ p ∈ kvs, Restorable p.2) : ∃ clean,
    restoreInputs kvs fClean view =
        .ok (.ofClean clean, { view with coins := overlay (ofList kvs) view.coins }) ∧
      (clean ↔ fClean ∧ ∀ p ∈ kvs, view.coins p.1 = none) := by
  induction kvs generalizing fClean view with
  | nil => exact ⟨fClean, rfl, by simp⟩
  | cons p kvs ih =>
    obtain ⟨out, undo⟩ := p
    rw [map_cons, nodup_cons] at hnodup
    set view₁ : CCoinsView := { view with coins := update view.coins out (some undo) } with hview₁
    obtain ⟨clean, hrun, hclean⟩ := ih
      (fClean && decide (DisconnectResult.ofClean (!haveCoin view out) ≠ .unclean)) view₁ hnodup.2
      (fun q hq => h q (mem_cons_of_mem _ hq))
    refine ⟨clean, ?_, ?_⟩
    · rw [restoreInputs, applyTxInUndo_spec (h _ mem_cons_self), overlay_ofList_cons hnodup.1]
      change (if DisconnectResult.ofClean (!haveCoin view out) = .failed then _ else _) = _
      rw [if_neg (ofClean_ne_failed _)]
      exact hrun
    · have hrest : (∀ q ∈ kvs, view₁.coins q.1 = none) ↔ ∀ q ∈ kvs, view.coins q.1 = none := by
        refine forall₂_congr fun q hq => ?_
        have hne : q.1 ≠ out := by
          intro heq
          exact hnodup.1 (mem_map.mpr ⟨q, hq, heq⟩)
        rw [hview₁]
        dsimp only
        rw [update_of_ne hne]
      have hhave : haveCoin view out = false ↔ view.coins out = none := by
        simp [haveCoin]
      rw [hclean, hrest, Bool.and_eq_true, decide_eq_true_eq, ofClean_ne_unclean_iff,
        Bool.not_eq_true', hhave, and_assoc, forall_mem_cons]

/-! ### Transactions -/

theorem updateCoins_spec {txundo : CTxUndo} (hlen : tx.vout.length ≤ 2 ^ 32)
    (h : (updateCoins P tx view nHeight : Except (Failure ρ) (CTxUndo × CCoinsView)) =
      .ok (txundo, view')) : Spends view.coins tx txundo.vprevout ∧
      view' = { view with coins := applyTx P nHeight view.coins tx } := by
  simp only [updateCoins, bind_eq_ok_iff] at h
  obtain ⟨⟨coins, view₁⟩, hspend, view₂, hadd, hret⟩ := h
  cases hret
  have hview₂ := addCoinsFrom_spec (by omega) hadd
  -- a coinbase spends nothing
  obtain ⟨vin, hall, hspend⟩ : ∃ vin, spentOutPoints tx = vin.map CTxIn.prevout ∧
      (spendInputs vin view : Except (Failure ρ) _) = .ok (coins, view₁) := by
    unfold spendInputsOf at hspend
    split at hspend
    next hcoinbase => exact ⟨[], if_pos hcoinbase, hspend⟩
    next hcoinbase => exact ⟨tx.vin, if_neg hcoinbase, hspend⟩
  obtain ⟨hnodup, hlength, hlookup, hview₁⟩ := spendInputs_spec hspend
  refine ⟨⟨by rwa [hall], ?_, by rwa [hall]⟩, ?_⟩
  · rw [hall, hlength, length_map]
  · rw [hview₂, hview₁, applyTx, hall]
    rfl

section Undo

variable (P nHeight)

/-- Undoing a transaction finds a clean view: its outputs are there, unless it is exempt, and the
coins that it had spent are not. -/
def CleanAt (exempt : Bool) (tx : CTransaction) (N : CoinMap) : Prop :=
  (exempt = true ∨ Sub (created P nHeight tx) N) ∧
    ∀ o ∈ spentOutPoints tx, erased N (created P nHeight tx) o = none

/-- Undoing transactions with their records, in the order of the list. -/
def undoTxs (N : CoinMap) (txs : List (CTransaction × Option CTxUndo)) : CoinMap :=
  txs.foldl (fun N p => undoTx P nHeight p.1 (undoCoins p.2) N) N

/-- Undoing transactions finds a clean view every time. -/
def CleanAll (fEnforceBIP30 : Bool) : CoinMap → List (CTransaction × Option CTxUndo) → Prop
  | _, [] => True
  | N, p :: rest =>
    CleanAt P nHeight (p.1.isCoinBase && !fEnforceBIP30) p.1 N ∧
      CleanAll fEnforceBIP30 (undoTx P nHeight p.1 (undoCoins p.2) N) rest

end Undo

/-- A record that fits its transaction. -/
structure Undoable (tx : CTransaction) (txundo : Option CTxUndo) : Prop where
  outputs : tx.vout.length ≤ 2 ^ 32
  coinbase : txundo.isNone = tx.isCoinBase
  nodup : (spentOutPoints tx).Nodup
  length : (undoCoins txundo).length = (spentOutPoints tx).length
  restorable : ∀ coin ∈ undoCoins txundo, Restorable coin

theorem map_fst_zip {os : List COutPoint} (h : coins.length = os.length) :
    ((os.zip coins).reverse.map Prod.fst) = os.reverse := by
  rw [map_reverse, List.map_fst_zip (by omega)]

variable (P nHeight) in
private theorem disconnectTransaction_spec {txundo : Option CTxUndo} (h : Undoable tx txundo)
    (fEnforceBIP30 fClean : Bool) (view : CCoinsView) :
    ∃ clean, disconnectTransaction P nHeight fEnforceBIP30 tx txundo fClean view =
        .ok (.ofClean clean, { view with
          coins := undoTx P nHeight tx (undoCoins txundo) view.coins }) ∧
      (clean ↔ fClean ∧ CleanAt P nHeight (tx.isCoinBase && !fEnforceBIP30) tx view.coins) := by
  obtain ⟨hview, hclean⟩ := removeOutputsFrom_spec P nHeight tx (tx.isCoinBase && !fEnforceBIP30) 0
    fClean view ((Nat.zero_add _).trans_le h.outputs)
  have hkeys := map_fst_zip h.length
  generalize hkvs : ((spentOutPoints tx).zip (undoCoins txundo)).reverse = kvs at hkeys
  -- the record of the coinbase is one of no coins
  have hdisconnect : disconnectTransaction P nHeight fEnforceBIP30 tx txundo fClean view =
      restoreInputs kvs (removeOutputsFrom P tx nHeight (tx.isCoinBase && !fEnforceBIP30) 0 tx.vout
        fClean view).1
        (removeOutputsFrom P tx nHeight (tx.isCoinBase && !fEnforceBIP30) 0 tx.vout
          fClean view).2 := by
    rw [← hkvs]
    cases txundo with
    | none =>
      rw [show spentOutPoints tx = [] from if_pos h.coinbase.symm]
      rfl
    | some txundo =>
      have hall : spentOutPoints tx = tx.vin.map CTxIn.prevout := if_neg (by simp [← h.coinbase])
      have hlength := h.length
      rw [hall, length_map] at hlength
      rw [hall]
      exact if_neg (not_not.mpr hlength)
  have hrestorable : ∀ p ∈ kvs, Restorable p.2 := by
    intro p hp
    rw [← hkvs] at hp
    exact h.restorable p.2 (of_mem_zip (mem_reverse.mp hp)).2
  obtain ⟨clean, hrun, hiff⟩ :=
    restoreInputs_spec _ _ (hkeys ▸ nodup_reverse.mpr h.nodup) hrestorable
  refine ⟨clean, ?_, ?_⟩
  · rw [hdisconnect, hrun, hview, ← hkvs]
    rfl
  · rw [hiff, hclean, hview, CleanAt, and_assoc]
    -- the keys of the entries are the outpoints that were spent
    have hspent : ∀ o, o ∈ spentOutPoints tx ↔ o ∈ kvs.map Prod.fst := by simp [hkeys]
    simp only [hspent, List.forall_mem_map]
    rfl

variable {txs : List (CTransaction × Option CTxUndo)}

variable (P nHeight) in
/-- The loop of `DisconnectBlock` undoes one transaction after the other. -/
theorem disconnectTransactions_spec
    (h : ∀ p ∈ txs, Undoable p.1 p.2) (fEnforceBIP30 fClean : Bool) (view : CCoinsView) :
    ∃ clean, disconnectTransactions P nHeight fEnforceBIP30 txs fClean view =
        .ok (.ofClean clean, { view with coins := undoTxs P nHeight view.coins txs }) ∧
      (clean ↔ fClean ∧ CleanAll P nHeight fEnforceBIP30 view.coins txs) := by
  induction txs generalizing fClean view with
  | nil => exact ⟨fClean, rfl, by simp [CleanAll]⟩
  | cons p txs ih =>
    obtain ⟨tx, txundo⟩ := p
    obtain ⟨clean, hstep, hclean⟩ :=
      disconnectTransaction_spec P nHeight (h _ mem_cons_self) fEnforceBIP30 fClean view
    obtain ⟨clean', hrest, hclean'⟩ := ih (fun q hq => h q (mem_cons_of_mem _ hq))
      (decide (DisconnectResult.ofClean clean ≠ .unclean))
      { view with coins := undoTx P nHeight tx (undoCoins txundo) view.coins }
    refine ⟨clean', ?_, ?_⟩
    · rw [disconnectTransactions, hstep]
      change (if DisconnectResult.ofClean clean = .failed then _ else _) = _
      rw [if_neg (ofClean_ne_failed _)]
      exact hrest
    · rw [hclean', decide_eq_true_eq, ofClean_ne_unclean_iff, hclean, CleanAll, and_assoc]

/-! ### Applying and undoing -/

section Applies

variable (P nHeight)

/-- Transactions are applied one after the other, and their records hold the coins that they spend.
-/
def Applies : CoinMap → List (CTransaction × Option CTxUndo) → CoinMap → Prop
  | M, [], M' => M' = M
  | M, p :: rest, M' =>
    Spends M p.1 (undoCoins p.2) ∧ Applies (applyTx P nHeight M p.1) rest M'

/-- No transaction creates a coin at an outpoint that is unspent when it does. -/
def CreatesNew : CoinMap → List CTransaction → Prop
  | _, [] => True
  | M, tx :: rest =>
    (∀ o coin, created P nHeight tx o = some coin → without M (spentOutPoints tx) o = none) ∧
      CreatesNew (applyTx P nHeight M tx) rest

private theorem undoTxs_append (N : CoinMap) (xs ys : List (CTransaction × Option CTxUndo)) :
    undoTxs P nHeight N (xs ++ ys) = undoTxs P nHeight (undoTxs P nHeight N xs) ys :=
  foldl_append

private theorem cleanAll_append (fEnforceBIP30 : Bool) (N : CoinMap)
    (xs ys : List (CTransaction × Option CTxUndo)) :
    CleanAll P nHeight fEnforceBIP30 N (xs ++ ys) ↔ CleanAll P nHeight fEnforceBIP30 N xs ∧
      CleanAll P nHeight fEnforceBIP30 (undoTxs P nHeight N xs) ys := by
  induction xs generalizing N with
  | nil => simp [CleanAll, undoTxs]
  | cons p xs ih =>
    rw [cons_append, CleanAll, CleanAll, ih, and_assoc]
    rfl

end Applies

/-- Transactions do to a larger map what they do to a smaller one. -/
theorem applyTx_mono (h : Sub M M') : Sub (applyTx P nHeight M tx) (applyTx P nHeight M' tx) :=
  (h.without _).overlay _

theorem Spends.mono (h : Spends M tx coins) (hsub : Sub M M') : Spends M' tx coins :=
  ⟨h.nodup, h.length, fun p hp => hsub _ _ (h.lookup p hp)⟩

theorem Applies.mono {W : CoinMap} (h : Applies P nHeight M txs M') (hsub : Sub M W) :
    ∃ W', Applies P nHeight W txs W' ∧ Sub M' W' := by
  induction txs generalizing M W with
  | nil =>
    obtain rfl := h
    exact ⟨W, rfl, hsub⟩
  | cons p txs ih =>
    obtain ⟨hspends, hrest⟩ := h
    obtain ⟨W', happlies, hsub'⟩ := ih hrest (applyTx_mono hsub)
    exact ⟨W', ⟨hspends.mono hsub, happlies⟩, hsub'⟩

/-- Undoing a transaction in a part of what it left gives a part of what there was. -/
theorem undoTx_sub {N : CoinMap} (hspends : Spends M tx coins)
    (h : Sub N (applyTx P nHeight M tx)) : Sub (undoTx P nHeight tx coins N) M := by
  intro o coin hcoin
  cases hput : ofList ((spentOutPoints tx).zip coins).reverse o with
  | some coin' =>
    rw [undoTx, overlay_of_some hput] at hcoin
    cases hcoin
    exact hspends.lookup _ (mem_reverse.mp (ofList_eq_some hput))
  | none =>
    rw [undoTx, overlay_of_none hput] at hcoin
    -- a coin that stays was not created, and is none of those that were spent
    cases hcreated : created P nHeight tx o with
    | some coin' =>
      rw [erased_of_some hcreated] at hcoin
      cases hcoin
    | none =>
      rw [erased_of_none hcreated] at hcoin
      have hleft := h o coin hcoin
      rw [applyTx, overlay_of_none hcreated, without_of_not_mem] at hleft
      · exact hleft
      · rw [ofList_eq_none_iff, map_fst_zip hspends.length, mem_reverse] at hput
        exact hput

theorem Applies.undo_sub {N : CoinMap}
    (h : Applies P nHeight M txs M') (hN : Sub N M') : Sub (undoTxs P nHeight N txs.reverse) M := by
  induction txs generalizing M with
  | nil =>
    obtain rfl := h
    exact hN
  | cons p txs ih =>
    obtain ⟨hspends, hrest⟩ := h
    rw [reverse_cons, undoTxs_append]
    exact undoTx_sub hspends (ih hrest)

private theorem undoTx_applyTx (hspends : Spends M tx coins)
    (hnew : ∀ o coin, created P nHeight tx o = some coin → without M (spentOutPoints tx) o = none)
    (exempt : Bool) : CleanAt P nHeight exempt tx (applyTx P nHeight M tx) ∧
      undoTx P nHeight tx coins (applyTx P nHeight M tx) = M := by
  have herased : erased (applyTx P nHeight M tx) (created P nHeight tx) =
      without M (spentOutPoints tx) := erased_overlay hnew
  refine ⟨⟨.inr fun o coin hcoin => overlay_of_some hcoin, fun o ho => ?_⟩, ?_⟩
  · rw [herased]
    exact without_of_mem ho
  · rw [undoTx, herased]
    refine overlay_ofList_without (fun p hp => hspends.lookup p (mem_reverse.mp hp)) fun o => ?_
    rw [map_fst_zip hspends.length, mem_reverse]

/-- Undoing transactions in the opposite order gives the coins back that there were. -/
theorem Applies.undo (h : Applies P nHeight M txs M')
    (hnew : CreatesNew P nHeight M (txs.map Prod.fst)) (fEnforceBIP30 : Bool) :
    CleanAll P nHeight fEnforceBIP30 M' txs.reverse ∧ undoTxs P nHeight M' txs.reverse = M := by
  induction txs generalizing M with
  | nil => exact ⟨trivial, h⟩
  | cons p txs ih =>
    obtain ⟨hspends, hrest⟩ := h
    obtain ⟨hclean, hundo⟩ := ih hrest hnew.2
    obtain ⟨hat, hback⟩ :=
      undoTx_applyTx hspends hnew.1 (p.1.isCoinBase && !fEnforceBIP30)
    rw [reverse_cons, cleanAll_append, undoTxs_append, hundo]
    exact ⟨⟨hclean, hat, trivial⟩, hback⟩

/-! ## Views are caches

`Validation` computes with the coins that a view shows. The view that the code hands to these
functions is a cache over other views; each operation on it shows, and answers, what the operation
on the shown coins says. A coin that is not there is answered by the null coin, which no output has.
-/

variable {base : CCoinsView} {c : CCoinsViewCache} {below : List CCoinsViewCache} {hash : Uint256}

section

variable (h : StackOk base (c :: below))

include h

private theorem haveCoin_shown (o : COutPoint) :
    (Coins.haveCoin base o (c :: below)).1 = haveCoin ⟨peekCoin base (c :: below), hash⟩ o :=
  haveCoin_spec h o

private theorem accessCoin_shown (o : COutPoint) :
    (Coins.accessCoin base o (c :: below)).1 = accessCoin ⟨peekCoin base (c :: below), hash⟩ o :=
  accessCoin_spec h o

/-- Spending a coin. If there is none, the cache may still have an entry, and then moves out the
null coin. -/
theorem spendCoin_shown (o : COutPoint) : peekCoin base (Coins.spendCoin base o (c :: below)).2 =
        (spendCoin ⟨peekCoin base (c :: below), hash⟩ o).2.coins ∧
      (Coins.spendCoin base o (c :: below)).1.2 =
        (spendCoin ⟨peekCoin base (c :: below), hash⟩ o).1.2 ∧
      (haveCoin ⟨peekCoin base (c :: below), hash⟩ o →
        (Coins.spendCoin base o (c :: below)).1.1) := by
  obtain ⟨-, -, hmaps⟩ := spendCoin_spec h o
  have hpeek := peekCoin_of_maps hmaps
  obtain ⟨hlookup, c', below', hlayers, -⟩ := fetchCoin_spec h o
  have hspend : (Coins.spendCoin base o (c :: below)).1 =
      ((fetchCoin base o (c :: below)).1.isSome, (Coins.accessCoin base o (c :: below)).1) := by
    unfold Coins.spendCoin Coins.accessCoin
    rcases hfetched : fetchCoin base o (c :: below) with ⟨found, layers⟩
    rw [hfetched] at hlayers
    subst hlayers
    cases found <;> rfl
  rw [hpeek, hspend, accessCoin_spec h o]
  cases hshown : peekCoin base (c :: below) o with
  | none =>
    rw [spendCoin_of_none hshown]
    refine ⟨?_, rfl, fun hhave => ?_⟩
    · rw [← hshown, Function.update_eq_self]
    · simp [haveCoin, hshown] at hhave
  | some coin =>
    rw [spendCoin_of_some hshown]
    refine ⟨rfl, rfl, fun _ => ?_⟩
    rw [hshown] at hlookup
    obtain ⟨e, he, -⟩ := Option.bind_eq_some_iff.mp hlookup
    rw [he]
    rfl

/-- Adding a coin. The cache need not notice a coin below it that is overwritten, but if there is
none then it does what the view does. -/
theorem addCoin_shown {ρ : Type} {o : COutPoint} {coin : Coin} {possibleOverwrite : Bool}
    {view' : CCoinsView}
    (hadd : (addCoin ⟨peekCoin base (c :: below), hash⟩ o coin possibleOverwrite :
      Except (Failure ρ) CCoinsView) = .ok view') :
    ∃ c', c.addCoin o coin possibleOverwrite = .ok c' ∧ StackOk base (c' :: below) ∧
      peekCoin base (c' :: below) = view'.coins := by
  unfold addCoin at hadd
  split at hadd
  · cases hadd
  next hunspent =>
    have hcontract : possibleOverwrite = false →
        isUnspendable coin.out.scriptPubKey = false → «over» (peekCoin base below) c o = none := by
      rintro rfl hspendable
      rw [if_neg (by simp [hspendable])] at hadd
      split at hadd
      · cases hadd
      next hnew =>
        simpa [haveCoin, peekCoin_cons] using hnew
    split at hadd
    next hunspendable =>
      cases hadd
      refine ⟨c, ?_, h, rfl⟩
      rw [CCoinsViewCache.addCoin, if_neg hunspent, if_pos hunspendable]
    next hspendable =>
      obtain ⟨c', hc', hok, hover⟩ := addCoin_spec h.1 (by simpa using hunspent)
        fun hpo => hcontract hpo (by simpa using hspendable)
      rw [if_neg hspendable] at hover
      split at hadd
      · cases hadd
      · cases hadd
        exact ⟨c', hc', ⟨hok, h.2⟩, hover⟩

end

end Tessera.Validation
