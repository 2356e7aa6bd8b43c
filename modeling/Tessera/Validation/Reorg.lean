import Tessera.Validation.ConnectSpec

/-!
# The coins are a function of the active chain

A chain state moves its tip by connecting a block or by disconnecting the last one, which it does
with the undo record that is stored for the block. However the tip has moved, the coins are those
that connecting the blocks of the active chain in order gives, and the next disconnection is clean.
The record of a block is written when it is first connected and not again when it comes back.
-/

namespace Tessera.Validation

open Coins Lib Lib.PartialMap Script Tx List Option CBlockIndex

variable {pprev : CBlockIndex} {view view' : CCoinsView} {chain : CBlockIndex}

/-! ### The chain state -/

/-- The entries of the block index. They form a tree whose root is the genesis block, and a hash is
the hash of one entry only. -/
structure BlockTree (P : Primitives) (params : Params) where
  entries : CBlockIndex → Prop
  parent : ∀ block pprev, entries (block :: pprev) → pprev = [] ∨ entries pprev
  root : ∀ block, entries [block] → block.getHash P = params.hashGenesisBlock
  hash_inj : ∀ i j, entries i → entries j → i.getBlockHash P = j.getBlockHash P → i = j
  /-- Heights are of type `int`. -/
  height : ∀ i, entries i → i.nHeight < 2 ^ 31

/-- `Chainstate`: the tip of the active chain, the coins at it, and what the undo files hold for an
entry of the block index. -/
structure Chainstate where
  tip : CBlockIndex
  view : CCoinsView
  rev : CBlockIndex → Option Bytes

inductive TipMove where
  | connect (mode : ScriptMode) (block : CBlock)
  | disconnect

namespace Chainstate

variable (P : Primitives) (params : Params)

/-- The chain state before any block. -/
def init : Chainstate := ⟨[], ⟨fun _ => none, .null 32⟩, fun _ => none⟩

variable (s : Chainstate)

/-- `WriteBlockUndo`: the record of an entry that has none yet. -/
def recordUndo (pindex : CBlockIndex) (hashPrev : Uint256) : Option CBlockUndo →
    CBlockIndex → Option Bytes
  | none => s.rev
  | some undo =>
    if (s.rev pindex).isSome then s.rev
    else Function.update s.rev pindex (some (writeBlockUndo P hashPrev undo))

def connectTip (mode : ScriptMode) (block : CBlock) : Chainstate :=
  match connectBlock P params int64Range mode block s.tip s.view with
  | .ok (view, undo) =>
    ⟨block :: s.tip, view, s.recordUndo P (block :: s.tip) (s.tip.getBlockHash P) undo⟩
  | .error _ => s

/-- `DisconnectTip`. The genesis block stays. -/
def disconnectTip : Chainstate :=
  match s.tip with
  | [] => s
  | block :: pprev =>
    if pprev.isEmpty then s
    else
      match disconnectBlock P block pprev (s.rev (block :: pprev)) s.view with
      | .ok (.ok, view) => ⟨pprev, view, s.rev⟩
      | _ => s

/-- A move of the tip. -/
def step : TipMove → Chainstate
  | .connect mode block => s.connectTip P params mode block
  | .disconnect => s.disconnectTip P

end Chainstate

variable {P : Primitives} {params : Params}

/-! ### Coins of a chain -/

/-- Every coin can be restored from an undo record. -/
def CoinsGood (M : CoinMap) : Prop := ∀ o coin, M o = some coin → Restorable coin

variable {M : CoinMap} {nHeight : Nat} {tx : CTransaction} {coins : List Coin}

private theorem coinsGood_applyTx (h : CoinsGood M) (htx : TxChecked tx) (hpos : 0 < nHeight)
    (hlt : nHeight < 2 ^ 31) : CoinsGood (applyTx P nHeight M tx) := by
  intro o coin hcoin
  cases hcreated : created P nHeight tx o with
  | some coin' =>
    rw [applyTx, overlay_of_some hcreated] at hcoin
    cases hcoin
    obtain ⟨hmem, hspendable, -, hheight⟩ := created_eq_some hcreated
    refine ⟨⟨htx.values _ hmem, ?_, by omega⟩, by omega, hspendable⟩
    -- a script that is too long could not be spent
    simp only [isUnspendable, Bool.or_eq_false_iff, decide_eq_false_iff_not, not_lt] at hspendable
    exact hspendable.2
  | none =>
    rw [applyTx, overlay_of_none hcreated] at hcoin
    by_cases ho : o ∈ spentOutPoints tx
    · rw [without_of_mem ho] at hcoin
      cases hcoin
    · rw [without_of_not_mem ho] at hcoin
      exact h o coin hcoin

section

variable (h : Spends M tx coins)

include h

/-- What the coins show at the outpoints that are spent. -/
theorem Spends.map_eq : (spentOutPoints tx).map M = coins.map some :=
  calc (spentOutPoints tx).map M
      = (((spentOutPoints tx).zip coins).map Prod.fst).map M := by
        rw [List.map_fst_zip (by rw [h.length])]
    _ = (((spentOutPoints tx).zip coins).map Prod.snd).map some := by
        rw [List.map_map, List.map_map]
        exact map_congr_left h.lookup
    _ = coins.map some := by rw [map_snd_zip (by rw [h.length])]

theorem Spends.mem {coin : Coin} (hmem : coin ∈ coins) : ∃ o, M o = some coin := by
  have hsome := mem_map_of_mem (f := some) hmem
  rw [← h.map_eq] at hsome
  obtain ⟨o, -, ho⟩ := mem_map.mp hsome
  exact ⟨o, ho⟩

theorem Spends.has {o : COutPoint} (ho : o ∈ spentOutPoints tx) : ∃ coin, M o = some coin := by
  have hmem := mem_map_of_mem (f := M) ho
  rw [h.map_eq] at hmem
  obtain ⟨coin, -, hcoin⟩ := mem_map.mp hmem
  exact ⟨coin, hcoin.symm⟩

theorem Spends.unique {coins' : List Coin} (h' : Spends M tx coins') : coins = coins' :=
  map_injective_iff.mpr (some_injective _) (h.map_eq.symm.trans h'.map_eq)

end

/-- Transactions that are applied to good coins leave good coins, and have records that fit. -/
theorem Applies.good {M' : CoinMap} {txs : List (CTransaction × Option CTxUndo)}
    (h : Applies P nHeight M txs M') (hgood : CoinsGood M) (hpos : 0 < nHeight)
    (hlt : nHeight < 2 ^ 31) (htxs : ∀ p ∈ txs, TxChecked p.1 ∧ p.2.isNone = p.1.isCoinBase) :
    CoinsGood M' ∧ ∀ p ∈ txs, Undoable p.1 p.2 := by
  induction txs generalizing M with
  | nil =>
    obtain rfl := h
    exact ⟨hgood, by simp⟩
  | cons p txs ih =>
    obtain ⟨hspends, hrest⟩ := h
    obtain ⟨⟨htx, hcoinbase⟩, hothers⟩ := forall_mem_cons.mp htxs
    obtain ⟨hgood', hundoable⟩ := ih hrest (coinsGood_applyTx hgood htx hpos hlt) hothers
    refine ⟨hgood', forall_mem_cons.mpr ⟨⟨htx.vout_length, hcoinbase, hspends.nodup,
      hspends.length, fun coin hcoin => ?_⟩, hundoable⟩⟩
    obtain ⟨o, ho⟩ := hspends.mem hcoin
    exact hgood o coin ho

theorem Applies.unique {M₁ M₂ : CoinMap}
    {txs₁ txs₂ : List (CTransaction × Option CTxUndo)} (h₁ : Applies P nHeight M txs₁ M₁)
    (h₂ : Applies P nHeight M txs₂ M₂) (hfst : txs₁.map Prod.fst = txs₂.map Prod.fst)
    (hnone₁ : ∀ p ∈ txs₁, p.2.isNone = p.1.isCoinBase)
    (hnone₂ : ∀ p ∈ txs₂, p.2.isNone = p.1.isCoinBase) : txs₁ = txs₂ ∧ M₁ = M₂ := by
  induction txs₁ generalizing M txs₂ with
  | nil =>
    cases txs₂ with
    | nil => exact ⟨rfl, h₁.trans h₂.symm⟩
    | cons p txs₂ => simp at hfst
  | cons p txs₁ ih =>
    cases txs₂ with
    | nil => simp at hfst
    | cons q txs₂ =>
      obtain ⟨tx, txundo⟩ := p
      obtain ⟨tx', txundo'⟩ := q
      obtain ⟨hhead, htail⟩ := cons.inj hfst
      obtain rfl := hhead
      obtain ⟨hp, hnone₁⟩ := forall_mem_cons.mp hnone₁
      obtain ⟨hq, hnone₂⟩ := forall_mem_cons.mp hnone₂
      obtain ⟨rfl, rfl⟩ := ih h₁.2 h₂.2 htail hnone₁ hnone₂
      -- the records hold the same coins, and are missing for the coinbase only
      have hcoins := h₁.1.unique h₂.1
      have hsame : txundo = txundo' := by
        cases txundo with
        | none =>
          cases txundo' with
          | none => rfl
          | some u => exact absurd (hp.trans hq.symm) (by simp)
        | some u =>
          cases txundo' with
          | none => exact absurd (hp.trans hq.symm) (by simp)
          | some u' =>
            cases u
            cases u'
            exact congrArg (fun coins => some (CTxUndo.mk coins)) hcoins
      rw [hsame]
      exact ⟨rfl, rfl⟩

/-! ### Connecting and disconnecting one block -/

section Connected

variable {block : CBlock} {undo : CBlockUndo}

section

variable (h : Connected P block pprev view view' undo)

include h

/-- The transactions of a connected block with their records. -/
theorem Connected.paired :
    (∀ p ∈ block.vtx.zip (none :: undo.vtxundo.map some), TxChecked p.1 ∧ p.2.isNone =
      p.1.isCoinBase) ∧
      (block.vtx.zip (none :: undo.vtxundo.map some)).map Prod.fst = block.vtx := by
  refine ⟨?_, List.map_fst_zip (by simp [h.length])⟩
  intro p hp
  refine ⟨h.checked.checked _ (of_mem_zip hp).1, ?_⟩
  obtain ⟨cb, rest, hvtx, hcoinbase, hothers⟩ := h.checked.coinbase
  rw [hvtx] at hp
  obtain rfl | hp := mem_cons.mp hp
  · exact hcoinbase.symm
  obtain ⟨hfst, hsnd⟩ := of_mem_zip hp
  obtain ⟨txundo, -, hsome⟩ := mem_map.mp hsnd
  rw [← hsome, hothers _ hfst]
  rfl

theorem Connected.height_pos : 0 < pprev.length :=
  length_pos_iff.mpr h.prev

theorem Connected.good (hgood : CoinsGood view.coins) (hheight : pprev.length < 2 ^ 31) :
    CoinsGood view'.coins :=
  (h.applies.good hgood h.height_pos hheight h.paired.1).1

theorem Connected.unique {view'' : CCoinsView} {blockundo' : CBlockUndo}
    (h' : Connected P block pprev view view'' blockundo') : view' = view'' ∧ undo = blockundo' := by
  obtain ⟨hpairs, hcoins⟩ := h.applies.unique h'.applies (h.paired.2.trans h'.paired.2.symm)
    (fun p hp => (h.paired.1 p hp).2) (fun p hp => (h'.paired.1 p hp).2)
  have hrecords : undo.vtxundo = blockundo'.vtxundo := by
    have hsnd := congrArg (map Prod.snd) hpairs
    rw [map_snd_zip (by simp [h.length]), map_snd_zip (by simp [h'.length])] at hsnd
    exact map_injective_iff.mpr (some_injective _) (cons.inj hsnd).2
  cases view'
  cases view''
  cases undo
  cases blockundo'
  exact ⟨by rw [CCoinsView.mk.injEq]; exact ⟨hcoins, h.best'.trans h'.best'.symm⟩,
    congrArg CBlockUndo.mk hrecords⟩

section

variable (hgood : CoinsGood view.coins)

include hgood

/-- The record of a connected block can be read back. -/
theorem Connected.storable (hheight : pprev.length < 2 ^ 31) : undo.Storable := by
  have hundoable := (h.applies.good hgood h.height_pos hheight h.paired.1).2
  have hmax : maxSize = 33554432 := rfl
  -- each record is that of a transaction of the block
  have hpair : ∀ txundo ∈ undo.vtxundo, ∃ tx ∈ block.vtx, Undoable tx (some txundo) := by
    intro txundo hmem
    obtain ⟨k, hk, rfl⟩ := mem_iff_getElem.mp hmem
    have hlen := h.length
    have hk' : k + 1 < (block.vtx.zip (none :: undo.vtxundo.map some)).length := by
      simp only [length_zip, length_cons, length_map]
      omega
    have hp := hundoable _ (getElem_mem hk')
    rw [getElem_zip, getElem_cons_succ, getElem_map] at hp
    exact ⟨_, getElem_mem _, hp⟩
  refine ⟨?_, fun txundo hmem => ?_, fun txundo hmem coin hcoin => ?_⟩
  · have := h.checked.size
    have := h.length
    omega
  · obtain ⟨tx, htx, hundo⟩ := hpair txundo hmem
    have hlength : txundo.vprevout.length = (spentOutPoints tx).length := hundo.length
    have hle : (spentOutPoints tx).length ≤ tx.vin.length := by
      unfold spentOutPoints
      split <;> simp
    have := vin_length_le tx
    have := (h.checked.checked tx htx).size
    omega
  · obtain ⟨tx, -, hundo⟩ := hpair txundo hmem
    exact (hundo.restorable coin hcoin).storable

/-- Disconnecting a block undoes its transactions, whatever the view shows. -/
theorem Connected.disconnect_run (hheight : pprev.length < 2 ^ 31) (other : CCoinsView) :
    ∃ clean, disconnectBlock P block pprev
        (some (writeBlockUndo P (pprev.getBlockHash P) undo)) other =
        .ok (.ofClean clean, ⟨undoTxs P pprev.length other.coins
          (block.vtx.zip (none :: undo.vtxundo.map some)).reverse, pprev.getBlockHash P⟩) ∧
      (clean ↔ CleanAll P pprev.length
        (!isBIP30Unspendable (CBlockIndex.getBlockHash P (block :: pprev))
          (CBlockIndex.nHeight (block :: pprev))) other.coins
        (block.vtx.zip (none :: undo.vtxundo.map some)).reverse) := by
  have hread := readBlockUndo_writeBlockUndo (P := P) (h.storable hgood hheight)
    (pprev.getBlockHash P)
  have hundoable : ∀ p ∈ (block.vtx.zip (none :: undo.vtxundo.map some)).reverse,
      Undoable p.1 p.2 := fun p hp =>
    (h.applies.good hgood h.height_pos hheight h.paired.1).2 p (mem_reverse.mp hp)
  obtain ⟨clean, hrun, hiff⟩ := disconnectTransactions_spec P pprev.length hundoable
    (!isBIP30Unspendable (getBlockHash P (block :: pprev)) (nHeight (block :: pprev))) true other
  refine ⟨clean, ?_, by rw [hiff]; simp⟩
  unfold disconnectBlock
  rw [bind_some, hread]
  dsimp only
  rw [if_neg (by simp [h.length]), nHeight_cons, hrun]
  change (if DisconnectResult.ofClean clean = .failed then _ else _) = _
  rw [if_neg (ofClean_ne_failed clean)]
  rfl

/-- Disconnecting a block that was connected last gives the view back, if no coin was overwritten.
-/
theorem Connected.disconnect (hheight : pprev.length < 2 ^ 31)
    (hnew : CreatesNew P pprev.length view.coins block.vtx) : disconnectBlock P block pprev
      (some (writeBlockUndo P (pprev.getBlockHash P) undo)) view' = .ok (.ok, view) := by
  rw [← h.paired.2] at hnew
  obtain ⟨clean, hrun, hiff⟩ := h.disconnect_run hgood hheight view'
  obtain ⟨hclean, hback⟩ := h.applies.undo hnew
    (!isBIP30Unspendable (getBlockHash P (block :: pprev)) (nHeight (block :: pprev)))
  rw [hrun, hiff.mpr hclean, hback, ← h.best]
  rfl

end

end

end Connected

/-! ### Connecting a chain -/

variable (P params) in
/-- Connecting the blocks of a chain once, in order, from the genesis block on. -/
inductive Connects : CBlockIndex → CCoinsView → Prop
  | nil : Connects [] ⟨fun _ => none, .null 32⟩
  | cons {mode : ScriptMode} {block : CBlock} {pprev : CBlockIndex} {view view' : CCoinsView}
      {undo : Option CBlockUndo} (chain : Connects pprev view)
      (block_ok : connectBlock P params int64Range mode block pprev view = .ok (view', undo)) :
      Connects (block :: pprev) view'

/-- The coins of a chain are determined by it, however its scripts are checked. -/
theorem Connects.unique (h : Connects P params chain view)
    (h' : Connects P params chain view') : view = view' := by
  induction h generalizing view' with
  | nil =>
    cases h'
    rfl
  | cons hchain hblock ih =>
    cases h' with
    | cons hchain' hblock' =>
      obtain rfl := ih hchain'
      obtain ⟨hgenesis, -, rfl⟩ | ⟨hgenesis, undo, -, hconnected⟩ := connectBlock_spec hblock
      · obtain ⟨-, -, rfl⟩ | ⟨hnot, -⟩ := connectBlock_spec hblock'
        · rfl
        · exact absurd hgenesis hnot
      · obtain ⟨hgenesis', -⟩ | ⟨-, undo', -, hconnected'⟩ := connectBlock_spec hblock'
        · exact absurd hgenesis' hgenesis
        · exact (hconnected.unique hconnected').1

theorem Connects.good (h : Connects P params chain view)
    (hlength : chain.length ≤ 2 ^ 31) : CoinsGood view.coins := by
  induction h with
  | nil =>
    intro o coin hcoin
    cases hcoin
  | cons hchain hblock ih =>
    rw [length_cons] at hlength
    obtain ⟨-, -, rfl⟩ | ⟨-, undo, -, hconnected⟩ := connectBlock_spec hblock
    · exact ih (by omega)
    · exact hconnected.good (ih (by omega)) (by omega)

namespace BlockTree

variable (tree : BlockTree P params)

/-- The chain of an entry consists of entries. -/
theorem entries_append {fork : CBlockIndex} (bs : CBlockIndex) (h : tree.entries (bs ++ fork))
    (hfork : fork ≠ []) : tree.entries fork := by
  induction bs with
  | nil => exact h
  | cons b bs ih =>
    rcases tree.parent b (bs ++ fork) h with hnil | hentry
    · exact absurd (append_eq_nil_iff.mp hnil).2 hfork
    · exact ih hentry

/-- It ends in the genesis block. -/
theorem entries_getLast {i : CBlockIndex} (h : tree.entries i) (hne : i ≠ []) :
    tree.entries [i.getLast hne] :=
  tree.entries_append i.dropLast (by rwa [dropLast_append_getLast]) (cons_ne_nil _ _)

/-- Only the root has the hash of the genesis block. -/
theorem genesis_iff {block : CBlock} (h : tree.entries (block :: pprev)) :
    block.getHash P = params.hashGenesisBlock ↔ pprev = [] := by
  constructor
  · intro hhash
    have hroot := tree.entries_getLast h (cons_ne_nil block pprev)
    have hsame := tree.hash_inj _ _ h hroot (hhash.trans (tree.root _ hroot).symm)
    exact (cons.inj hsame).2
  · rintro rfl
    exact tree.root block h

theorem length_lt {block : CBlock} (h : tree.entries (block :: pprev)) : pprev.length < 2 ^ 31 := by
  have := tree.height _ h
  simp only [nHeight, length_cons] at this
  omega

end BlockTree

/-! ### Moves of the tip -/

namespace Chainstate

variable (tree : BlockTree P params)

/-- The moves in question: blocks of the tree are connected, and a block that is connected creates
no outpoint that is unspent already. -/
def Admissible (s : Chainstate) : TipMove → Prop
  | .connect mode block =>
    tree.entries (block :: s.tip) ∧
      (s.tip ≠ [] → (connectBlock P params int64Range mode block s.tip s.view).isOk →
        CreatesNew P s.tip.length s.view.coins block.vtx)
  | .disconnect => True

/-- A record that the block index entry was connected with. -/
def Recorded (block : CBlock) (pprev : CBlockIndex) (file : Bytes) : Prop :=
  tree.entries (block :: pprev) ∧ ∃ view view' undo,
    Connects P params pprev view ∧ Connected P block pprev view view' undo ∧
    CreatesNew P pprev.length view.coins block.vtx ∧
    file = writeBlockUndo P (pprev.getBlockHash P) undo

/-- What holds of a chain state however its tip has moved. -/
structure Consistent (tree : BlockTree P params) (s : Chainstate) : Prop where
  connects : Connects P params s.tip s.view
  recorded : ∀ block pprev, block :: pprev <:+ s.tip → pprev ≠ [] → (s.rev (block :: pprev)).isSome
  records : ∀ block pprev file, s.rev (block :: pprev) = some file → Recorded tree block pprev file

variable {tree : BlockTree P params} {s : Chainstate}

theorem consistent_init : Consistent tree init where
  connects := .nil
  recorded block pprev h := by
    have := suffix_nil.mp h
    cases this
  records block pprev file h := by cases h

/-- Disconnecting the tip gives the coins of the block before it. -/
theorem Consistent.disconnect (h : Consistent tree s) {block : CBlock}
    (htip : s.tip = block :: pprev) (hprev : pprev ≠ []) : ∃ view, Connects P params pprev view ∧
      disconnectBlock P block pprev (s.rev (block :: pprev)) s.view = .ok (.ok, view) := by
  obtain ⟨file, hfile⟩ := isSome_iff_exists.mp
    (h.recorded block pprev (htip ▸ suffix_rfl) hprev)
  obtain ⟨hentry, view, view', undo, hchain, hconnected, hnew, rfl⟩ := h.records _ _ _ hfile
  have hlt := tree.length_lt hentry
  -- the view is the one that was recorded, since it is that of the same chain
  have hview : s.view = view' := by
    have hconnects := h.connects
    rw [htip] at hconnects
    cases hconnects with
    | cons hchain' hblock =>
      obtain rfl := hchain.unique hchain'
      obtain ⟨hgenesis, -⟩ | ⟨-, undo, -, hconnected'⟩ := connectBlock_spec hblock
      · exact absurd ((tree.genesis_iff hentry).mp hgenesis) hprev
      · exact (hconnected'.unique hconnected).1
  refine ⟨view, hchain, ?_⟩
  rw [hfile, hview]
  exact hconnected.disconnect (hchain.good (by omega)) hlt hnew

/-- Recording the undo data of an entry keeps the records that there are. -/
theorem recordUndo_spec (s : Chainstate) (pindex : CBlockIndex) (hashPrev : Uint256)
    (undo : CBlockUndo) :
    (∀ i, (s.rev i).isSome → (s.recordUndo P pindex hashPrev (some undo) i).isSome) ∧
      (s.recordUndo P pindex hashPrev (some undo) pindex).isSome ∧
      ∀ i file, s.recordUndo P pindex hashPrev (some undo) i = some file →
        s.rev i = some file ∨ i = pindex ∧ file = writeBlockUndo P hashPrev undo := by
  unfold recordUndo
  dsimp only
  split
  next hsome => exact ⟨fun i hi => hi, hsome, fun i file hfile => .inl hfile⟩
  · refine ⟨fun i hi => ?_, by simp, fun i file hfile => ?_⟩
    · by_cases heq : i = pindex
      · subst heq
        simp
      · rwa [Function.update_of_ne heq]
    · by_cases heq : i = pindex
      · subst heq
        rw [Function.update_self] at hfile
        exact .inr ⟨rfl, (some.inj hfile).symm⟩
      · rw [Function.update_of_ne heq] at hfile
        exact .inl hfile

private theorem Consistent.connectTip (h : Consistent tree s) {mode : ScriptMode} {block : CBlock}
    (hmove : Admissible tree s (.connect mode block)) : Consistent tree
      (s.connectTip P params mode block) := by
  obtain ⟨hentry, hnew⟩ := hmove
  unfold Chainstate.connectTip
  cases hconnect : connectBlock P params int64Range mode block s.tip s.view with
  | error e => exact h
  | ok r =>
    obtain ⟨view, undo⟩ := r
    have hconnects : Connects P params (block :: s.tip) view := .cons h.connects hconnect
    obtain ⟨hgenesis, rfl, -⟩ | ⟨-, undo, rfl, hconnected⟩ := connectBlock_spec hconnect
    · -- the genesis block has no record, and is connected to nothing
      have htip := (tree.genesis_iff hentry).mp hgenesis
      refine ⟨hconnects, fun b rest hsuffix hne => ?_, h.records⟩
      rw [htip] at hsuffix
      obtain heq | hsuffix := suffix_cons_iff.mp hsuffix
      · exact absurd (cons.inj heq).2 hne
      · exact absurd (suffix_nil.mp hsuffix) (cons_ne_nil b rest)
    · have hcreates := hnew hconnected.prev (by rw [hconnect]; rfl)
      obtain ⟨hkept, hself, hcases⟩ :=
        recordUndo_spec s (block :: s.tip) (s.tip.getBlockHash P) undo
      refine ⟨hconnects, fun b rest hsuffix hne => ?_, fun b rest file hfile => ?_⟩
      · obtain heq | hsuffix := suffix_cons_iff.mp hsuffix
        · rw [heq]
          exact hself
        · exact hkept _ (h.recorded b rest hsuffix hne)
      · obtain hold | ⟨heq, rfl⟩ := hcases _ _ hfile
        · exact h.records b rest file hold
        · cases heq
          exact ⟨hentry, s.view, view, undo, h.connects, hconnected, hcreates, rfl⟩

private theorem Consistent.disconnectTip (h : Consistent tree s) : Consistent tree
    (s.disconnectTip P) := by
  unfold Chainstate.disconnectTip
  split
  · exact h
  next block pprev htip =>
    split
    · exact h
    next hprev =>
      obtain ⟨view, hchain, hrun⟩ := h.disconnect htip (by simpa using hprev)
      rw [hrun]
      refine ⟨hchain, fun b rest hsuffix hne => ?_, h.records⟩
      refine h.recorded b rest ?_ hne
      rw [htip]
      exact hsuffix.trans (suffix_cons block pprev)

theorem Consistent.step (h : Consistent tree s) {move : TipMove} (hmove : Admissible tree s move) :
    Consistent tree (s.step P params move) := by
  cases move with
  | connect mode block => exact h.connectTip hmove
  | disconnect => exact h.disconnectTip

/-- However the tip has moved, the coins are those that connecting the active chain in order gives,
and disconnecting the tip is clean. -/
theorem coins_of_active_chain (tree : BlockTree P params) (moves : List TipMove)
    (hmoves : Meets (step P params) (Admissible tree) init moves) :
    let s := run (step P params) init moves
    (Connects P params s.tip s.view ∧ ∀ view, Connects P params s.tip view → view = s.view) ∧
      ∀ block pprev, s.tip = block :: pprev → pprev ≠ [] →
        ∃ view, disconnectBlock P block pprev (s.rev s.tip) s.view = .ok (.ok, view) := by
  have hs := run_invariant (fun _ _ h hmove => h.step hmove) consistent_init hmoves
  refine ⟨⟨hs.connects, fun view hview => hview.unique hs.connects⟩,
    fun block pprev htip hprev => ?_⟩
  obtain ⟨view, -, hrun⟩ := hs.disconnect htip hprev
  rw [htip]
  exact ⟨view, hrun⟩

end Chainstate

/-! ### A chain of two blocks -/

namespace TwoBlocks

def coinbase (scriptPubKey : CScript) : CTransaction :=
  ⟨[⟨⟨.null 32, COutPoint.nullIndex⟩, [1, 1], 0, []⟩], [⟨50 * coin, scriptPubKey⟩], 1, 0⟩

def blockOf (nVersion : Int) (hashPrevBlock : Uint256) (tx : CTransaction) : CBlock :=
  ⟨⟨nVersion, hashPrevBlock, tx.getHash .repeating, 0, 0x207fffff, 0⟩, [tx]⟩

def genesis : CBlock := blockOf 256 (.null 32) (coinbase [0x6a])

def block : CBlock := blockOf 512 (genesis.getHash .repeating) (coinbase [0x51])

/-- A block in the place of the other one. -/
def rival : CBlock := blockOf 768 (genesis.getHash .repeating) (coinbase [0x52])

/-- The rules of the network of the two blocks. -/
def network : Params where
  hashGenesisBlock := genesis.getHash .repeating
  nSubsidyHalvingInterval := 150
  bip34Height := 1
  bip34Hash := .null 32
  bip65Height := 1
  csvHeight := 1
  segwitHeight := 0
  powLimit := 2 ^ 256 - 1

/-- The genesis block, and on it the two others. -/
def entries : List CBlockIndex := [[genesis], [block, genesis], [rival, genesis]]

private theorem entries_cases {i : CBlockIndex} (h : i ∈ entries) :
    i = [genesis] ∨ ∃ b, (b = block ∨ b = rival) ∧ i = [b, genesis] := by
  simp only [entries, mem_cons, not_mem_nil, or_false] at h
  obtain rfl | rfl | rfl := h
  · exact .inl rfl
  · exact .inr ⟨_, .inl rfl, rfl⟩
  · exact .inr ⟨_, .inr rfl, rfl⟩

def tree : BlockTree .repeating network where
  entries i := i ∈ entries
  parent b pprev h := by
    obtain h | ⟨_, -, h⟩ := entries_cases h
    · exact .inl (List.cons.inj h).2
    · rw [(List.cons.inj h).2]
      exact .inr mem_cons_self
  root b h := by
    obtain h | ⟨_, -, h⟩ := entries_cases h
    · rw [(List.cons.inj h).1]
      rfl
    · cases (List.cons.inj h).2
  hash_inj i j hi hj h := by
    have hnodup : (entries.map (CBlockIndex.getBlockHash .repeating)).Nodup := by decide +kernel
    exact inj_on_of_nodup_map hnodup hi hj h
  height i h := by
    obtain rfl | ⟨_, -, rfl⟩ := entries_cases h
    · decide
    · exact (by decide : (1 : Int) < 2 ^ 31)

/-- Both blocks are connected, and the second one is disconnected again. -/
def moves : List TipMove :=
  [.connect ⟨true, false⟩ genesis, .connect ⟨true, false⟩ block, .disconnect]

/-- The chain state with the genesis block. -/
def atGenesis : Chainstate := Chainstate.init.step .repeating network
    (.connect ⟨true, false⟩ genesis)

private theorem atGenesis_tip : atGenesis.tip = [genesis] := by
  decide +kernel

private theorem atGenesis_coins : atGenesis.view.coins = fun _ => none := by
  unfold atGenesis Chainstate.step Chainstate.connectTip
  dsimp only
  split
  next view undo hconnect =>
    obtain ⟨-, -, rfl⟩ | ⟨hgenesis, -⟩ := connectBlock_spec hconnect
    · rfl
    · exact absurd rfl hgenesis
  · rfl

theorem admissible_connect {b : CBlock} (hb : b = block ∨ b = rival) :
    Chainstate.Admissible tree atGenesis (.connect ⟨true, false⟩ b) := by
  have hnew : CreatesNew .repeating 1 (fun _ => none) b.vtx := by
    obtain rfl | rfl := hb
    all_goals
      refine ⟨fun o coin _ => ?_, trivial⟩
      unfold without
      split <;> rfl
  refine ⟨?_, fun _ _ => ?_⟩
  · rw [atGenesis_tip]
    obtain rfl | rfl := hb
    · exact mem_cons_of_mem _ mem_cons_self
    · exact mem_cons_of_mem _ (mem_cons_of_mem _ mem_cons_self)
  · rw [atGenesis_tip, atGenesis_coins]
    exact hnew

theorem admissible_moves :
    Meets (Chainstate.step .repeating network) (Chainstate.Admissible tree) Chainstate.init moves :=
  ⟨⟨mem_cons_self, fun h => absurd rfl h⟩, admissible_connect (.inl rfl), trivial, trivial⟩

end TwoBlocks

open TwoBlocks in
/-- The moves on the two blocks end at the genesis block, with the coins that it leaves. -/
theorem Chainstate.coins_of_active_chain_two_blocks :
    let s := run (Chainstate.step .repeating network) Chainstate.init moves
    s.tip = [genesis] ∧
      (Connects .repeating network s.tip s.view ∧ ∀ view, Connects .repeating network s.tip view →
        view = s.view) ∧
      ∀ block pprev, s.tip = block :: pprev → pprev ≠ [] →
        ∃ view, disconnectBlock .repeating block pprev (s.rev s.tip) s.view = .ok (.ok, view) :=
  ⟨by decide +kernel, Chainstate.coins_of_active_chain tree moves admissible_moves⟩

end Tessera.Validation
