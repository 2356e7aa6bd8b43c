import Mathlib.Data.Nat.Bitwise
import Tessera.Validation.Reorg

/-!
# Lock times that scripts ask for

`OP_CHECKLOCKTIMEVERIFY` and `OP_CHECKSEQUENCEVERIFY` compare their operand with a field of the
transaction only. It is `IsFinalTx` and `SequenceLocks` that hold a transaction back until the block
has come to what its fields ask for.
-/

namespace Tessera.Validation

open Lib Lib.Comp Script Tx CBlockIndex

variable {pindex : CBlockIndex} {test : Int → Bool} {opcode : Opcode}

/-- An input executes an opcode on the number `n`, and its script goes on. -/
def Executes (P : Primitives) (flags : ScriptFlags) (sv : SigVersion) (t : TxInput)
    (opcode : Opcode) (n : Int) : Prop :=
  ∃ i s s' x st, i.opcode = opcode ∧ s.vfExec.allTrue = true ∧ s.stack = x :: st ∧
    readNum flags x 5 = .ok n ∧ (evalInstr P flags (t.checker P) sv i s).Returns () s' ()

section LockTimes

variable {P : Primitives} {flags : ScriptFlags} {sv : SigVersion} {t : TxInput} {n : Int}

/-! ### The opcodes -/

private theorem checkLock_eq_ok {x : Bytes} {st : List Bytes} (hnum : readNum flags x 5 = .ok n)
    (h : checkLock flags test (x :: st) = .ok ()) : test n := by
  obtain ⟨m, hm, h⟩ := bind_eq_ok_iff.mp h
  cases hnum.symm.trans hm
  split at h
  · cases h
  split at h
  next htest => exact htest
  · cases h

private theorem Executes.passes {flag : ScriptFlag} (h : Executes P flags sv t opcode n)
    (hop : opcode = .checkLockTimeVerify ∧ flag = .checkLockTimeVerify ∧ test = t.checkLockTime ∨
      opcode = .checkSequenceVerify ∧ flag = .checkSequenceVerify ∧
      test = sequenceTest (t.checker P))
    (hflag : flag ∈ flags) : test n := by
  obtain ⟨i, s, s', x, st, hi, hexec, hstack, hnum, hrun⟩ := h
  obtain ⟨rfl, rfl, rfl⟩ | ⟨rfl, rfl, rfl⟩ := hop
  all_goals
    have hswitch := evalSwitch_of_evalInstr hrun hexec (by rw [hi]; rfl) (by rw [hi]; rfl)
    have hok := (returns_ofExcept_iff.mp hswitch).1
    rw [evalOp, hi] at hok
    rw [if_pos hflag, hstack] at hok
    obtain ⟨_, hcheck, -⟩ := bind_eq_ok_iff.mp hok
    exact checkLock_eq_ok hnum hcheck

/-! ### Absolute lock times -/

/-- A lock time of zero is final at once, but no block with transactions to check is at height zero.
-/
theorem lt_of_isFinalTx (hcheck : t.checkLockTime n) {nHeight cutoff : Int}
    (hheight : 0 < nHeight) (hfinal : isFinalTx t.tx nHeight cutoff) :
    n < if n < lockTimeThreshold then nHeight else cutoff := by
  simp only [TxInput.checkLockTime, Bool.and_eq_true, beq_iff_eq, decide_eq_decide,
    decide_eq_true_eq, bne_iff_ne] at hcheck
  obtain ⟨⟨htype, hle⟩, hsequence⟩ := hcheck
  simp only [isFinalTx, Bool.or_eq_true, beq_iff_eq, decide_eq_true_eq, List.all_eq_true] at hfinal
  rcases hfinal with (hzero | hlt) | hall
  · rw [if_pos (htype.mp (by rw [Int.natCast_eq_zero.mp hzero]; decide))]
    omega
  · split at hlt <;> split <;> omega
  · -- the input that is checked is not final
    exact absurd (hall t.txin (List.get_mem _ _)) hsequence

/-! ### Relative lock times -/

private theorem maskSequence_eq (m : Nat) : maskSequence m = m % 2 ^ 16 + if m.testBit 22 then 2 ^
    22 else 0 := by
  have hlow : m % 2 ^ 16 < 2 ^ 22 := (Nat.mod_lt m (by decide)).trans (by decide)
  have hflag : m &&& 2 ^ 22 = 2 ^ 22 * (m.testBit 22).toNat := by rw [Nat.and_two_pow, mul_comm]
  rw [maskSequence, sequenceLockTimeTypeFlag, Nat.and_or_distrib_left, hflag,
    show (0x0000ffff : Nat) = 2 ^ 16 - 1 from rfl, Nat.and_two_pow_sub_one_eq_mod,
    ← Nat.two_pow_add_eq_or_of_lt hlow, add_comm]
  cases m.testBit 22 <;> rfl

private theorem low_le_of_maskSequence_le {m k : Nat}
    (htype : maskSequence k < sequenceLockTimeTypeFlag ↔ maskSequence m < sequenceLockTimeTypeFlag)
    (hle : maskSequence m ≤ maskSequence k) : m.testBit 22 = k.testBit 22 ∧ m % 2 ^ 16 ≤
      k % 2 ^ 16 := by
  rw [maskSequence_eq, maskSequence_eq, sequenceLockTimeTypeFlag] at htype
  rw [maskSequence_eq, maskSequence_eq] at hle
  generalize m.testBit 22 = bit, k.testBit 22 = bit' at *
  cases bit <;> cases bit' <;> simp at htype hle ⊢ <;> omega

variable {prevHeights : List Int} {nCoinHeight : Int}

private theorem le_sequenceLockStep (locks : Int × Int) (txin : CTxIn) : locks ≤
    sequenceLockStep pindex locks txin nCoinHeight := by
  unfold sequenceLockStep
  dsimp only
  split
  · exact le_rfl
  · split
    · exact ⟨le_rfl, le_max_left _ _⟩
    · exact ⟨le_max_left _ _, le_rfl⟩

private theorem exists_le_foldl {α β : Type} [Preorder β] {f : β → α → β} (hf : ∀ b a, b ≤ f b a)
    {l : List α} {a : α} (ha : a ∈ l) (b : β) : ∃ b', f b' a ≤ l.foldl f b := by
  induction l generalizing b with
  | nil => cases ha
  | cons first rest ih =>
    rcases List.mem_cons.mp ha with rfl | ha
    · -- what follows only adds to the round of the element
      exact ⟨b, List.foldlRecOn rest f le_rfl fun b' hb' a' _ => hb'.trans (hf b' a')⟩
    · exact ih ha _

private theorem le_of_sequenceLocks (hversion : 2 ≤ t.tx.version.toNat)
    (henabled : t.txin.nSequence.toNat.testBit 31 = false)
    (hcoin : prevHeights[t.nIn]? = some nCoinHeight)
    (h : sequenceLocks t.tx true prevHeights pindex) : if t.txin.nSequence.toNat.testBit 22 then
      (getMedianTimePast (pindex.getAncestor (max (nCoinHeight - 1) 0)) : Int) +
        ((t.txin.nSequence.toNat % 2 ^ 16) * 2 ^ 9 : Nat) ≤ getMedianTimePast pindex.tail
    else nCoinHeight + (t.txin.nSequence.toNat % 2 ^ 16 : Nat) ≤ pindex.nHeight := by
  have hmem : (t.txin, nCoinHeight) ∈ t.tx.vin.zip prevHeights := by
    rw [List.mem_iff_getElem?]
    exact ⟨t.nIn, List.getElem?_zip_eq_some.mpr ⟨List.getElem?_eq_getElem t.inRange, hcoin⟩⟩
  have hstep : ∀ (locks : Int × Int) (p : CTxIn × Int), locks ≤ sequenceLockStep pindex
      locks p.1 p.2 :=
    fun locks p => le_sequenceLockStep locks p.1
  obtain ⟨locks, hle⟩ := exists_le_foldl hstep hmem (-1, -1)
  have hpair : calculateSequenceLocks t.tx true prevHeights pindex =
      (t.tx.vin.zip prevHeights).foldl (fun locks p => sequenceLockStep pindex locks p.1 p.2)
        (-1, -1) :=
    if_pos (by rw [decide_eq_true hversion]; rfl)
  rw [← hpair] at hle
  simp only [sequenceLocks, Bool.not_eq_true', Bool.or_eq_false_iff, decide_eq_false_iff_not] at h
  simp only [sequenceLockStep, henabled] at hle
  split
  next hflag =>
    rw [if_pos hflag] at hle
    have hlock := le_trans (le_max_right _ _) hle.2
    omega
  next hflag =>
    rw [if_neg hflag] at hle
    have hlock := le_trans (le_max_right _ _) hle.1
    omega

end LockTimes

/-- In a block that has a previous one, once the opcodes are active: if a transaction is final and
its sequence locks hold, then the block has come to the lock time that a script of it asks for. -/
theorem lockTimes_enforced (P : Primitives) (params : Params) (pindex : CBlockIndex)
    (sv : SigVersion) (t : TxInput) (n : Int) :
    (Executes P (blockScriptFlags params pindex) sv t .checkLockTimeVerify n →
      pindex.deploymentActiveAt params.bip65Height = true → 0 < pindex.nHeight →
      ∀ nLockTimeCutoff, isFinalTx t.tx pindex.nHeight nLockTimeCutoff = true →
        n < if n < lockTimeThreshold then pindex.nHeight else nLockTimeCutoff) ∧
    (Executes P (blockScriptFlags params pindex) sv t .checkSequenceVerify n →
      n.toNat.testBit 31 = false → pindex.deploymentActiveAt params.csvHeight = true →
      ∀ prevHeights nCoinHeight, prevHeights[t.nIn]? = some nCoinHeight →
        sequenceLocks t.tx (pindex.deploymentActiveAt params.csvHeight) prevHeights pindex = true →
        if n.toNat.testBit 22 then
          (getMedianTimePast (pindex.getAncestor (max (nCoinHeight - 1) 0)) : Int) +
            ((n.toNat % 2 ^ 16) * 512 : Nat) ≤ getMedianTimePast pindex.tail
        else nCoinHeight + (n.toNat % 2 ^ 16 : Nat) ≤ pindex.nHeight) := by
  constructor
  · intro hexec hactive hheight cutoff hfinal
    have hcheck := hexec.passes (.inl ⟨rfl, rfl, rfl⟩)
      (by simp [blockScriptFlags, getBlockScriptFlags, hactive])
    exact lt_of_isFinalTx hcheck hheight hfinal
  · intro hexec henabled hactive prevHeights nCoinHeight hcoin hlocks
    have hcheck := hexec.passes (.inr ⟨rfl, rfl, rfl⟩)
      (by simp [blockScriptFlags, getBlockScriptFlags, hactive])
    rw [sequenceTest, henabled, Bool.false_or] at hcheck
    simp only [TxInput.checker, TxInput.checkSequence, Bool.and_eq_true, decide_eq_true_eq,
      Bool.not_eq_true', beq_iff_eq, decide_eq_decide] at hcheck
    obtain ⟨⟨⟨hversion, hsequence⟩, htype⟩, hle⟩ := hcheck
    rw [hactive] at hlocks
    have hlock := le_of_sequenceLocks hversion hsequence hcoin hlocks
    obtain ⟨hbit, hlow⟩ := low_le_of_maskSequence_le htype hle
    rw [hbit]
    split at hlock
    next hflag =>
      rw [if_pos hflag]
      exact (Int.add_le_add_left (Int.ofNat_le.mpr (Nat.mul_le_mul_right 512 hlow)) _).trans hlock
    next hflag =>
      rw [if_neg hflag]
      exact (Int.add_le_add_left (Int.ofNat_le.mpr hlow) _).trans hlock

/-- The input of a transaction that has `lock` as its lock time and in the input as the relative
one. -/
def lockedInput (lock : UInt32) : TxInput :=
  ⟨⟨[⟨⟨.null 32, 0⟩, [], lock, []⟩], [], 2, lock⟩, 0, 0, Nat.one_pos⟩

private theorem executes_one {params : Params} {t : TxInput}
    (h : ((evalInstr .repeating (blockScriptFlags params pindex) (t.checker .repeating) .base
      ⟨opcode, [], []⟩ (.init [[1]] [])).exec ()).1.toOption.isSome) :
    Executes .repeating (blockScriptFlags params pindex) .base t opcode 1 := by
  obtain ⟨s', hs'⟩ := Option.isSome_iff_exists.mp h
  have hmin : .minimalData ∉ blockScriptFlags params pindex := by
    unfold blockScriptFlags getBlockScriptFlags
    grind
  exact ⟨_, _, s', [1], [], rfl, rfl, rfl,
    by rw [readNum, decide_eq_false hmin]; rfl, returns_of_toOption hs'⟩

/-- A third block, over the two blocks, with a transaction that asks for a lock of one block. -/
theorem lockTimes_enforced_two :
    let pindex : CBlockIndex := [TwoBlocks.block, TwoBlocks.block, TwoBlocks.genesis]
    (1 : Int) < (if (1 : Int) < lockTimeThreshold then nHeight pindex else 0) ∧
      (1 : Int) + (1 % 2 ^ 16 : Nat) ≤ nHeight pindex := by
  have h := lockTimes_enforced .repeating TwoBlocks.network
    [TwoBlocks.block, TwoBlocks.block, TwoBlocks.genesis] .base (lockedInput 1) 1
  exact ⟨h.1 (executes_one rfl) rfl (by decide) 0 rfl, h.2 (executes_one rfl) rfl rfl [1] 1 rfl
    (sequenceLocks_of_pair rfl (by decide))⟩

/-- Before the opcodes are active they do nothing: they succeed on an input that asks for no lock.
-/
theorem lockTimes_inactive :
    let params := { TwoBlocks.network with bip65Height := 2, csvHeight := 2 }
    let pindex : CBlockIndex := [TwoBlocks.block, TwoBlocks.genesis]
    let flags := blockScriptFlags params pindex
    let t := lockedInput 0
    (Executes .repeating flags .base t .checkLockTimeVerify 1 ∧ isFinalTx t.tx
      (nHeight pindex) 0 = true ∧ ¬ 1 < nHeight pindex) ∧
    Executes .repeating flags .base t .checkSequenceVerify 1 ∧
      sequenceLocks t.tx (pindex.deploymentActiveAt params.csvHeight) [1] pindex = true ∧
      ¬ (1 : Int) + (1 % 2 ^ 16 : Nat) ≤ nHeight pindex :=
  ⟨⟨executes_one rfl, rfl, by decide⟩, executes_one rfl, sequenceLocks_of_pair rfl
    (by decide), by decide⟩

end Tessera.Validation
