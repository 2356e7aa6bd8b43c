import Mathlib.Tactic.IntervalCases
import Tessera.Script.ScriptNumCanonical
import Tessera.Script.Templates

/-!
# Script templates and destinations

`script/solver.cpp`, `addresstype.cpp` and the key lookup of `script/signingprovider.cpp`: which
standard template a script follows, the destination it pays to, and the key behind a destination.
-/

namespace Tessera.Script

open List

/-- `TxoutType`, each type with the solutions that `Solver` returns for it. -/
inductive TxoutType where
  | nonstandard
  | pubkey (pubkey : Bytes)
  | pubkeyhash (hash : Uint160)
  | scripthash (hash : Uint160)
  | multisig (required : Nat) (keys : List Bytes)
  | nullData
  | anchor
  | witnessV0Keyhash (hash : Uint160)
  | witnessV0Scripthash (hash : Uint256)
  | witnessUnknown (version : Nat) (program : Bytes)
  deriving DecidableEq

/-! ### Templates -/

def matchPayToPubkey (s : CScript) : Option Bytes :=
  match getScriptOp s with
  | (some (_, pubkey), rest) =>
    if CPubKey.validSize pubkey then
      match getScriptOp rest with
      | (some (op, _), []) => if op = .checkSig then some pubkey else none
      | _ => none
    else none
  | _ => none

def matchPayToPubkeyHash (s : CScript) : Option Uint160 :=
  if h : s.length = 25 then
    if s[0]? = some 0x76 ∧ s[1]? = some 0xa9 ∧ s[2]? = some 20 ∧ s[23]? = some 0x88 ∧
        s[24]? = some 0xac then
      some ⟨(s.drop 3).take 20, by simp [h]⟩
    else none
  else none

def getScriptNumber (op : Opcode) (data : Bytes) (min max : Nat) : Option Nat :=
  let inRange (count : Int) : Option Nat :=
    if count < min ∨ (max : Int) < count then none else some count.toNat
  match op with
  | .opInt n => inRange (n.val + 1)
  | _ =>
    if op.isPushdataOp then
      if checkMinimalPush data op then
        match ScriptNum.ofVch data true ScriptNum.defaultMaxNumSize with
        | some n => inRange (ScriptNum.getint n)
        | none => none
      else none
    else none

/-- The loop of `MatchMultisig` over the keys, with the instruction on which it stops. -/
def matchMultisigKeys : List Instr → List Bytes × Option Instr
  | [] => ([], none)
  | i :: rest =>
    if CPubKey.validSize i.data then
      (i.data :: (matchMultisigKeys rest).1, (matchMultisigKeys rest).2)
    else ([], some i)

def matchMultisig (s : CScript) : Option (Nat × List Bytes) :=
  if s.getLast? = some 0xae then
    match (parse s).1 with
    | [] => none
    | i :: rest =>
      match getScriptNumber i.opcode i.data 1 maxPubkeysPerMultisig with
      | none => none
      | some required =>
        match matchMultisigKeys rest with
        | (_, none) => none
        | (keys, some j) =>
          match getScriptNumber j.opcode j.data required maxPubkeysPerMultisig with
          | none => none
          | some numKeys =>
            -- only the final opcode is left
            if keys.length = numKeys ∧ j.pc.length = 1 then some (required, keys) else none
  else none

variable {s : CScript}

private theorem scriptHash_length (h : isPayToScriptHash s) : ((s.drop 2).take 20).length = 20 := by
  simp only [isPayToScriptHash, Bool.and_eq_true, beq_iff_eq] at h
  simp [h.1.1.1]

def solveWitnessProgram (s : CScript) (version : Nat) (program : Bytes) : TxoutType :=
  if h : version = 0 ∧ program.length = witnessV0KeyHashSize then .witnessV0Keyhash ⟨program, h.2⟩
  else if h : version = 0 ∧ program.length = witnessV0ScriptHashSize then
    .witnessV0Scripthash ⟨program, h.2⟩
  else if isPayToAnchor s then .anchor
  else if version ≠ 0 then .witnessUnknown version program
  else .nonstandard

def solver (s : CScript) : TxoutType :=
  if h : isPayToScriptHash s = true then .scripthash ⟨(s.drop 2).take 20, scriptHash_length h⟩
  else
    match isWitnessProgram s with
    | some (version, program) => solveWitnessProgram s version program
    | none =>
      if s.head? = some 0x6a ∧ isPushOnly s.tail then .nullData
      else
        match matchPayToPubkey s with
        | some pubkey => .pubkey pubkey
        | none =>
          match matchPayToPubkeyHash s with
          | some hash => .pubkeyhash hash
          | none =>
            match matchMultisig s with
            | some (required, keys) => .multisig required keys
            | none => .nonstandard

theorem exists_solver_scripthash (h : isPayToScriptHash s) : ∃ hash, solver s = .scripthash hash :=
  ⟨_, dif_pos h⟩

/-! ### Destinations -/

inductive CTxDestination where
  | noDestination (script : CScript)
  | pubKey (pubkey : CPubKey)
  | pkHash (hash : Uint160)
  | scriptHash (hash : Uint160)
  | witnessV0ScriptHash (hash : Uint256)
  | witnessV0KeyHash (hash : Uint160)
  | payToAnchor
  | witnessUnknown (version : Nat) (program : Bytes)
  deriving DecidableEq

def anchorBytes : Bytes := [0x4e, 0x73]

def getScriptForDestination : CTxDestination → CScript
  | .noDestination script => script
  | .pubKey pubkey => pushData pubkey.vch ++ [0xac]
  | .pkHash hash => payToPubkeyHashScript hash.data
  | .scriptHash hash => payToScriptHashScript hash.data
  | .witnessV0ScriptHash hash => [0x00] ++ pushData hash.data
  | .witnessV0KeyHash hash => [0x00] ++ pushData hash.data
  | .payToAnchor => [encodeOpN 1] ++ pushData anchorBytes
  | .witnessUnknown version program => [encodeOpN version] ++ pushData program

/-- `ExtractDestination`; none where it returns false. -/
def extractDestination (s : CScript) : Option CTxDestination :=
  match solver s with
  | .pubkeyhash hash => some (.pkHash hash)
  | .scripthash hash => some (.scriptHash hash)
  | .witnessV0Keyhash hash => some (.witnessV0KeyHash hash)
  | .witnessV0Scripthash hash => some (.witnessV0ScriptHash hash)
  | .anchor => some .payToAnchor
  | .witnessUnknown version program => some (.witnessUnknown version program)
  | .pubkey _ | .multisig _ _ | .nullData | .nonstandard => none

/-! ### Signing providers -/

structure SigningProvider where
  getCScript : CScriptID → Option CScript
  getPubKey : CKeyID → Option CPubKey
  getKey : CKeyID → Option CKey

def getKeyForDestination (store : SigningProvider) : CTxDestination → CKeyID
  | .pkHash hash => hash
  | .witnessV0KeyHash hash => hash
  | .scriptHash hash =>
    match store.getCScript hash with
    | some script =>
      match extractDestination script with
      | some (.witnessV0KeyHash hash) => hash
      | _ => .null 20
    | none => .null 20
  | _ => .null 20

/-! ### The numbers of a multisig script -/

def pushInt64 (n : Int) : CScript :=
  if n = -1 ∨ (1 ≤ n ∧ n ≤ 16) then [UInt8.ofNat (n + 0x50).toNat]
  else if n = 0 then [0x00]
  else pushData (ScriptNum.serialize n)

/-- A number up to sixteen is one opcode. -/
theorem pushInt64_small {n : Nat} (h1 : 1 ≤ n) (h16 : n ≤ 16) :
    pushInt64 n = [(Opcode.opInt ⟨n - 1, by omega⟩).toByte] := by
  have h : ∀ k : Fin 16, pushInt64 ((k.val + 1 : Nat) : Int) =
    [(Opcode.opInt k).toByte] := by decide
  have hn := h ⟨n - 1, by omega⟩
  simpa [Nat.sub_add_cancel h1] using hn

theorem hasOperand_opInt (k : Fin 16) : (Opcode.opInt k).hasOperand = false := by
  revert k
  decide

variable {rest : Bytes} {k min : Nat} {op : Opcode} {data : Bytes}

private theorem serialize_le_twenty (hpos : 1 ≤ k) (hle : k ≤ 20) : ScriptNum.serialize k =
      [UInt8.ofNat k] ∧ ((1 ≤ UInt8.ofNat k ∧ UInt8.ofNat k ≤ 16) ∨ UInt8.ofNat k = 0x81 ↔ k ≤ 16) ∧
      (16 < k → pushInt64 k = [0x01, UInt8.ofNat k]) := by
  interval_cases k <;> decide

private theorem serialize_of_ofVch {n : Int}
    (h : ScriptNum.ofVch data true ScriptNum.defaultMaxNumSize = some n) :
    ScriptNum.serialize n = data := by
  unfold ScriptNum.ofVch at h
  split_ifs at h with hlen hpadded
  cases h
  exact ScriptNum.serialize_setVch (by simpa using hpadded) ((not_lt.mp hlen).trans (by decide))

private theorem eq_pushInt64 (hpos : 1 ≤ min) (hop : getScriptOp s = (some (op, data), rest))
    (hnum : getScriptNumber op data min maxPubkeysPerMultisig = some k) :
    s = pushInt64 k ++ rest ∧ min ≤ k ∧ k ≤ 20 := by
  obtain ⟨htakes, rfl⟩ := getScriptOp_eq_some_iff.mp hop
  -- both ways to write a number end in the same range check
  have hrange : ∀ count : Int,
      (if count < min ∨ ((20 : Nat) : Int) < count then none else some count.toNat) =
        some k → count = k ∧ min ≤ k ∧ k ≤ 20 := by
    intro count hc
    split at hc
    · cases hc
    · have := Option.some.inj hc
      omega
  unfold getScriptNumber at hnum
  split at hnum
  next n =>
    obtain ⟨hcount, hle⟩ := hrange _ hnum
    obtain rfl := length_eq_zero_iff.mp htakes
    have hn : (⟨k - 1, by omega⟩ : Fin 16) = n := Fin.ext (show k - 1 = n.val by omega)
    exact ⟨by rw [pushInt64_small (by omega) (by omega), hn]; rfl, hle⟩
  split at hnum
  · split at hnum
    next hminimal =>
      split at hnum
      next n hvch =>
        obtain ⟨hcount, hle⟩ := hrange _ hnum
        obtain rfl : n = k := by
          unfold ScriptNum.getint at hcount
          omega
        obtain ⟨hserialize, hsmall, hpush⟩ := serialize_le_twenty (k := k) (by omega) (by omega)
        obtain rfl := (serialize_of_ofVch hvch).symm.trans hserialize
        -- a number up to sixteen is not pushed minimally
        rw [checkMinimalPush] at hminimal
        split at hminimal
        · cases hminimal
        next hbig =>
          cases eq_of_beq hminimal
          exact ⟨by rw [hpush (not_le.mp (mt hsmall.mpr hbig))]; rfl, hle⟩
      · cases hnum
    · cases hnum
  · cases hnum

private theorem exists_getScriptNumber (hpos : 1 ≤ min) (hmin : min ≤ k) (hmax : k ≤ 20)
    (rest : Bytes) :
    ∃ op data, getScriptOp (pushInt64 k ++ rest) = (some (op, data), rest) ∧
    CPubKey.validSize data = false ∧
      getScriptNumber op data min maxPubkeysPerMultisig = some k := by
  have hcast : ¬((k : Int) < min ∨ ((20 : Nat) : Int) < k) := by omega
  by_cases h16 : k ≤ 16
  · rw [pushInt64_small (by omega) h16]
    refine ⟨_, _, getScriptOp_op (hasOperand_opInt _) rest, rfl, ?_⟩
    have hcount : (((k - 1 : Nat) : Int) + 1) = (k : Int) := by omega
    simp only [getScriptNumber, hcount, maxPubkeysPerMultisig]
    rw [if_neg hcast]
    rfl
  · obtain ⟨hserialize, hsmall, hpush⟩ := serialize_le_twenty (k := k) (by omega) (by omega)
    have hread : ScriptNum.ofVch (ScriptNum.serialize k) true ScriptNum.defaultMaxNumSize =
        some (k : Int) :=
      ScriptNum.ofVch_serialize (by omega) (by rw [hserialize]; exact Nat.le_of_ble_eq_true rfl)
    have hint : ScriptNum.getint k = k := by
      unfold ScriptNum.getint
      omega
    rw [hpush (by omega)]
    have hinvalid : CPubKey.validSize [UInt8.ofNat k] ≠ true :=
      fun h => by cases CPubKey.validSize_length h
    refine ⟨.pushBytes 1, [_], getScriptOp_eq_some_iff.mpr ⟨rfl, rfl⟩,
      Bool.eq_false_iff.mpr hinvalid, ?_⟩
    have hminimal : checkMinimalPush [UInt8.ofNat k] (.pushBytes 1) := if_neg (mt hsmall.mp h16)
    rw [hserialize] at hread
    have hpushdata : (Opcode.pushBytes 1).isPushdataOp := rfl
    simp only [getScriptNumber, hminimal, hread, hint, maxPubkeysPerMultisig]
    rw [if_neg hcast]
    rfl

/-! ### The keys of a multisig script -/

/-- Some bytes push some keys, each with its length in two bytes or in four. -/
inductive PushesKeys : List Bytes → Bytes → Prop
  | nil : PushesKeys [] []
  | cons {key : Bytes} {keys : List Bytes} {bs : Bytes} (op : Opcode)
    (hop : op = .pushData2 ∨ op = .pushData4)
    (hkey : CPubKey.validSize key = true) (hkeys : PushesKeys keys bs) :
    PushesKeys (key :: keys) (op.toByte :: (writeLE op.sizeWidth key.length ++ (key ++ bs)))

variable {keys : List Bytes} {bs : Bytes} {j : Instr}

private theorem pushesKeys_of_matchMultisigKeys {instrs : List Instr}
    (hparse : (parse s).1 = instrs) (h : matchMultisigKeys instrs = (keys, some j)) :
    ∃ bs s', s = bs ++ s' ∧ PushesKeys keys bs ∧ getScriptOp s' =
      (some (j.opcode, j.data), j.pc) := by
  induction instrs generalizing s keys with
  | nil => cases h
  | cons i rest ih =>
    obtain ⟨hop, hrest⟩ := parse_eq_cons hparse
    rw [matchMultisigKeys] at h
    split at h
    next hvalid =>
      obtain ⟨rfl, hj⟩ := Prod.mk.inj h
      obtain ⟨bs, s', hpc, hpushes, hlast⟩ := ih hrest (Prod.ext rfl hj)
      obtain ⟨htakes, rfl⟩ := getScriptOp_eq_some_iff.mp hop
      refine ⟨_, s', by simp [hpc], .cons i.opcode ?_ hvalid hpushes, hlast⟩
      -- only two opcodes have operands of the length of a key
      rw [CPubKey.validSize_length hvalid] at htakes
      cases hcode : i.opcode with
      | pushData2 => exact .inl rfl
      | pushData4 => exact .inr rfl
      | pushBytes n => exact absurd (show 1313 = n.val by rwa [hcode] at htakes) (by omega)
      | pushData1 => exact absurd (show 1313 < 256 ^ 1 by rwa [hcode] at htakes) (by decide)
      | _ => exact absurd (show 1313 = 0 by rwa [hcode] at htakes) (by decide)
    · cases h
      exact ⟨[], s, rfl, .nil, hop⟩

private theorem getScriptOp_key {key : Bytes} (hop : op = .pushData2 ∨ op = .pushData4)
    (hkey : CPubKey.validSize key) (rest : Bytes) :
    getScriptOp (op.toByte :: (writeLE op.sizeWidth key.length ++ (key ++ rest))) =
      (some (op, key), rest) := by
  refine getScriptOp_eq_some_iff.mpr ⟨?_, rfl⟩
  rw [CPubKey.validSize_length hkey]
  rcases hop with rfl | rfl <;> exact Nat.le_of_ble_eq_true rfl

private theorem matchMultisigKeys_of_pushesKeys (h : PushesKeys keys bs)
    (hj : getScriptOp s = (some (j.opcode, j.data), j.pc))
    (hinvalid : CPubKey.validSize j.data = false) :
    matchMultisigKeys (parse (bs ++ s)).1 = (keys, some j) := by
  induction h with
  | nil =>
    rw [nil_append, parse_of_some hj]
    simp [matchMultisigKeys, hinvalid]
  | cons op hop hkey hkeys ih =>
    rw [cons_append, append_assoc, append_assoc, parse_of_some (getScriptOp_key hop hkey _)]
    simp [matchMultisigKeys, hkey, ih]

/-- A script of the form `<m> <key> ... <key> <n> OP_CHECKMULTISIG`. -/
def IsMultisigScript (m : Nat) (keys : List Bytes) (s : CScript) : Prop :=
  1 ≤ m ∧ m ≤ keys.length ∧ keys.length ≤ maxPubkeysPerMultisig ∧
    ∃ bs, PushesKeys keys bs ∧ s = pushInt64 m ++ (bs ++ (pushInt64 keys.length ++ [0xae]))

variable {m : Nat}

private theorem matchMultisig_eq_some_iff : matchMultisig s = some (m, keys) ↔
    IsMultisigScript m keys s := by
  unfold matchMultisig IsMultisigScript
  constructor
  · intro h
    split at h
    next hlast =>
      split at h
      · cases h
      next i rest hparse =>
        obtain ⟨hop, hrest⟩ := parse_eq_cons hparse
        split at h
        · cases h
        next required hreq =>
          split at h
          · cases h
          next ks j hks =>
            split at h
            · cases h
            next numKeys hnum =>
              split at h
              next hend =>
                cases h
                obtain ⟨rfl, hm, -⟩ := eq_pushInt64 (le_refl 1) hop hreq
                obtain ⟨bs, s', hpc, hpushes, hj⟩ := pushesKeys_of_matchMultisigKeys hrest hks
                rw [hpc] at hlast ⊢
                obtain ⟨rfl, hmn, hn⟩ := eq_pushInt64 hm hj hnum
                obtain ⟨x, hx⟩ := length_eq_one_iff.mp hend.2
                rw [hx] at hlast ⊢
                simp only [← append_assoc, getLast?_concat, Option.some.injEq] at hlast
                rw [hlast, hend.1]
                exact ⟨hm, hmn, hn, bs, hpushes, rfl⟩
              · cases h
    · cases h
  · rintro ⟨hm, hmn, hn, bs, hpushes, rfl⟩
    obtain ⟨op, data, hop, -, hreq⟩ := exists_getScriptNumber (le_refl 1) hm (hmn.trans hn)
      (bs ++ (pushInt64 keys.length ++ [0xae]))
    obtain ⟨op', data', hop', hinvalid, hnum⟩ := exists_getScriptNumber hm hmn hn [0xae]
    rw [parse_of_some hop]
    dsimp only
    rw [hreq, matchMultisigKeys_of_pushesKeys (j := ⟨op', data', [0xae]⟩) hpushes hop' hinvalid]
    dsimp only
    rw [hnum]
    simp

/-- A multisig script has at least one key. -/
theorem matchMultisig_instr (h : matchMultisig s = some (m, keys)) :
    ∃ i ∈ (parse s).1, CPubKey.validSize i.data := by
  obtain ⟨hm, hmn, hn, bs, hpushes, rfl⟩ := matchMultisig_eq_some_iff.mp h
  obtain ⟨op, data, hop, -⟩ := exists_getScriptNumber (le_refl 1) hm (hmn.trans hn)
    (bs ++ (pushInt64 keys.length ++ [0xae]))
  rw [parse_of_some hop]
  cases hpushes with
  | nil => exact absurd (hm.trans hmn) (by decide)
  | cons op hkeyop hkey hkeys =>
    rw [cons_append, append_assoc, append_assoc, parse_of_some (getScriptOp_key hkeyop hkey _)]
    exact ⟨_, mem_cons_of_mem _ mem_cons_self, hkey⟩

theorem exists_instr_of_matchPayToPubkey {pubkey : Bytes} (h : matchPayToPubkey s = some pubkey) :
    ∃ i ∈ (parse s).1, i.data = pubkey ∧ CPubKey.validSize pubkey := by
  unfold matchPayToPubkey at h
  split at h
  next op data rest hop =>
    split_ifs at h with hvalid
    split at h
    · split_ifs at h
      cases h
      exact ⟨⟨op, _, rest⟩, by rw [parse_of_some hop]; exact mem_cons_self, rfl, hvalid⟩
    · cases h
  · cases h

/-! ### Templates of fixed size -/

private theorem drop_eq_cons {n : Nat} {b : UInt8} (h : s[n]? = some b) : s.drop n = b ::
    s.drop (n + 1) := by
  rw [drop_eq_getElem?_toList_append, h]
  rfl

private theorem eq_of_matchPayToPubkeyHash {hash : Uint160}
    (h : matchPayToPubkeyHash s = some hash) : s = payToPubkeyHashScript hash.data := by
  unfold matchPayToPubkeyHash at h
  split at h
  next hlen =>
    split at h
    next hbytes =>
      cases h
      obtain ⟨h0, h1, h2, h23, h24⟩ := hbytes
      have hlast : (s.drop 3).drop 20 = [0x88, 0xac] := by
        rw [drop_drop, drop_eq_cons h23, drop_eq_cons h24, drop_of_length_le (by omega)]
      rw [payToPubkeyHashScript, pushData_twenty (by simp [hlen])]
      calc s = 0x76 :: 0xa9 :: 20 ::
        s.drop 3 := by rw [← drop_eq_cons h2, ← drop_eq_cons h1, ← drop_eq_cons h0]; rfl
        _ = 0x76 :: 0xa9 :: 20 :: ((s.drop 3).take 20 ++ [0x88, 0xac]) := by
          rw [← hlast, take_append_drop]
        _ = _ := rfl
    · cases h
  · cases h

private theorem eq_of_isPayToScriptHash (h : isPayToScriptHash s) :
    s = payToScriptHashScript ((s.drop 2).take 20) := by
  simp only [isPayToScriptHash, Bool.and_eq_true, beq_iff_eq] at h
  obtain ⟨⟨⟨hlen, h0⟩, h1⟩, h22⟩ := h
  have hlast : (s.drop 2).drop 20 = [0x87] := by
    rw [drop_drop, drop_eq_cons h22, drop_of_length_le (by omega)]
  rw [payToScriptHashScript, pushData_twenty (by simp [hlen])]
  calc s = 0xa9 :: 0x14 :: s.drop 2 := by rw [← drop_eq_cons h1, ← drop_eq_cons h0]; rfl
    _ = 0xa9 :: 0x14 :: ((s.drop 2).take 20 ++ [0x87]) := by rw [← hlast, take_append_drop]
    _ = _ := rfl

theorem eq_of_isPayToAnchor (h : isPayToAnchor s) : s = [0x51, 0x02, 0x4e, 0x73] := by
  simp only [isPayToAnchor, Bool.and_eq_true, beq_iff_eq] at h
  obtain ⟨⟨⟨⟨hlen, h0⟩, h1⟩, h2⟩, h3⟩ := h
  have hend : s.drop 4 = [] := drop_of_length_le (by omega)
  rw [← hend, ← drop_eq_cons h3, ← drop_eq_cons h2, ← drop_eq_cons h1, ← drop_eq_cons h0]
  rfl

/-- A witness program is a version up to sixteen and one push of two to forty bytes. -/
theorem isWitnessProgram_eq_some_iff {version : Nat} {program : Bytes} :
    isWitnessProgram s = some (version, program) ↔
      (version ≤ 16 ∧ 2 ≤ program.length ∧ program.length ≤ 40) ∧ s = [encodeOpN version] ++
      pushData program := by
  constructor
  · intro h
    match s with
    | v :: len :: rest =>
      simp only [isWitnessProgram] at h
      split_ifs at h with hsize hversion hlen
      cases h
      have hv : decodeOpN v ≤ 16 ∧ encodeOpN (decodeOpN v) = v := by
        by_cases h0 : v = 0x00
        · exact h0 ▸ by decide
        simp only [ne_eq, h0, not_false_eq_true, true_and, not_or, UInt8.not_lt] at hversion
        obtain ⟨hmin : 0x51 ≤ v.toNat, hmax : v.toNat ≤ 0x60⟩ := hversion
        rw [decodeOpN, if_neg h0, encodeOpN, if_neg (by omega), Nat.add_sub_of_le (by omega),
          UInt8.ofNat_toNat]
        exact ⟨by omega, rfl⟩
      obtain ⟨hle, hv⟩ := hv
      have hlen' : UInt8.ofNat program.length =
        len := by rw [← UInt8.ofNat_toNat (x := len)]; congr 1; omega
      rw [pushData_short (by omega), hv, hlen']
      exact ⟨⟨hle, by omega, by omega⟩, rfl⟩
  · rintro ⟨⟨hversion, hsize, hsize'⟩, rfl⟩
    have hbytes : ∀ n ≤ 16, ¬ (encodeOpN n ≠ 0x00 ∧ (encodeOpN n < 0x51 ∨ 0x60 < encodeOpN n)) ∧
        decodeOpN (encodeOpN n) = n := by decide
    obtain ⟨hv, hdecode⟩ := hbytes version hversion
    have hlen : (UInt8.ofNat program.length).toNat + 2 = program.length + 2 := by simp; omega
    rw [pushData_short (by omega), singleton_append, isWitnessProgram, if_neg (by omega), if_neg hv,
      if_pos hlen, hdecode]

theorem solver_of_isWitnessProgram {version : Nat} {program : Bytes}
    (h : isWitnessProgram s = some (version, program)) : solver s = solveWitnessProgram s
      version program := by
  have hsh : ¬ isPayToScriptHash s := fun hsh => by
    rw [isWitnessProgram_of_isPayToScriptHash hsh] at h
    cases h
  rw [solver, dif_neg hsh, h]

theorem solver_payToScriptHashScript (hash : Uint160) :
    solver (payToScriptHashScript hash.data) = .scripthash hash := by
  have htake : ((payToScriptHashScript hash.data).drop 2).take 20 = hash.data := by
    simp [payToScriptHashScript, pushData_twenty hash.size_eq, hash.size_eq]
  rw [solver, dif_pos (isPayToScriptHash_payToScriptHashScript hash.size_eq)]
  congr 1
  exact Blob.ext htake

theorem solver_payToPubkeyHashScript (hash : Uint160) :
    solver (payToPubkeyHashScript hash.data) = .pubkeyhash hash := by
  have hscript : payToPubkeyHashScript hash.data = 0x76 :: 0xa9 :: 20 ::
      (hash.data ++ [0x88, 0xac]) := by
    simp [payToPubkeyHashScript, pushData_twenty hash.size_eq]
  have hlen := hash.size_eq
  have hsh : isPayToScriptHash (payToPubkeyHashScript hash.data) = false := by
    simp [hscript, isPayToScriptHash]
  have hprog : isWitnessProgram (payToPubkeyHashScript hash.data) = none := by
    simp [hscript, isWitnessProgram]
  have hpk : matchPayToPubkey (payToPubkeyHashScript hash.data) = none := by
    rfl
  have hpkh : matchPayToPubkeyHash (payToPubkeyHashScript hash.data) = some hash := by
    simp [hscript, matchPayToPubkeyHash, hlen]
  have hnull : ¬ ((payToPubkeyHashScript hash.data).head? = some 0x6a ∧
      isPushOnly (payToPubkeyHashScript hash.data).tail) := by
    simp [hscript]
  rw [solver, dif_neg (by simp [hsh]), hprog]
  simp [if_neg hnull, hpk, hpkh]

/-- What a script of each type looks like. -/
theorem solver_matches (s : CScript) : match solver s with
    | .pubkey pubkey => matchPayToPubkey s = some pubkey
    | .pubkeyhash hash => s = getScriptForDestination (.pkHash hash)
    | .scripthash hash => s = getScriptForDestination (.scriptHash hash)
    | .multisig required keys => matchMultisig s = some (required, keys)
    | .anchor => s = getScriptForDestination .payToAnchor
    | .witnessV0Keyhash hash => s = getScriptForDestination (.witnessV0KeyHash hash)
    | .witnessV0Scripthash hash => s = getScriptForDestination (.witnessV0ScriptHash hash)
    | .witnessUnknown version program => version ≠ 0 ∧ isPayToAnchor s = false ∧
      isWitnessProgram s = some (version, program)
    | _ => True := by
  unfold solver
  by_cases hsh : isPayToScriptHash s
  · rw [dif_pos hsh]
    exact eq_of_isPayToScriptHash hsh
  rw [dif_neg hsh]
  cases hprog : isWitnessProgram s with
  | some w =>
    obtain ⟨version, program⟩ := w
    obtain ⟨-, hs⟩ := isWitnessProgram_eq_some_iff.mp hprog
    dsimp only
    unfold solveWitnessProgram
    split_ifs with hkey hscript hanchor hversion
    · obtain rfl := hkey.1
      exact hs
    · obtain rfl := hscript.1
      exact hs
    · exact eq_of_isPayToAnchor hanchor
    · exact ⟨hversion, by simpa using hanchor, rfl⟩
    · trivial
  | none =>
    split_ifs with hnull
    · trivial
    cases hpk : matchPayToPubkey s with
    | some pubkey => rfl
    | none =>
      cases hpkh : matchPayToPubkeyHash s with
      | some hash => exact eq_of_matchPayToPubkeyHash hpkh
      | none =>
        cases hms : matchMultisig s with
        | some m => rfl
        | none => trivial

/-- A script that pays to a destination is the one built for it. -/
theorem eq_getScriptForDestination {dest : CTxDestination} (h : extractDestination s = some dest) :
    s = getScriptForDestination dest := by
  have hmatch := solver_matches s
  unfold extractDestination at h
  cases hs : solver s with
  | witnessUnknown version program =>
    rw [hs] at h hmatch
    cases h
    exact (isWitnessProgram_eq_some_iff.mp hmatch.2.2).2
  | _ =>
    rw [hs] at h hmatch
    cases h
    all_goals exact hmatch

private theorem solver_of_length (hlen : 42 < s.length) (hhead : s.head? ≠ some 0x6a) :
    (∀ pubkey, matchPayToPubkey s = some pubkey → solver s = .pubkey pubkey) ∧
      ∀ m keys, matchPayToPubkey s = none → matchMultisig s = some (m, keys) → solver s =
        .multisig m keys := by
  have hsh : ¬ isPayToScriptHash s := by
    simp only [isPayToScriptHash, Bool.and_eq_true, beq_iff_eq]
    omega
  have hprog : isWitnessProgram s = none := by
    unfold isWitnessProgram
    split
    · simp only [length_cons] at hlen
      exact if_pos (by omega)
    · rfl
  have hpkh : matchPayToPubkeyHash s = none := dif_neg (by omega)
  rw [solver, dif_neg hsh, hprog]
  refine ⟨fun pubkey h => ?_, fun m keys hpk h => ?_⟩
  · simp [hhead, h]
  · simp [hhead, hpk, hpkh, h]

theorem solver_pubkey {pubkey : CPubKey} (h : pubkey.isValid) :
    solver (getScriptForDestination (.pubKey pubkey)) = .pubkey pubkey.vch := by
  have hvalid := CPubKey.isValid_iff.mp h
  have hlen := CPubKey.validSize_length hvalid
  have hscript : getScriptForDestination (.pubKey pubkey) = 0x4d ::
      (writeLE 2 1313 ++ (pubkey.vch ++ [0xac])) := by
    simp [getScriptForDestination, pushData, appendDataSize, hlen]
  have hmatch : matchPayToPubkey (getScriptForDestination (.pubKey pubkey)) = some pubkey.vch := by
    rw [getScriptForDestination, matchPayToPubkey, getScriptOp_pushData (by omega)]
    exact if_pos hvalid
  refine (solver_of_length ?_ ?_).1 _ hmatch
  · simp only [hscript, length_cons, length_append]
    omega
  · simp [hscript]

/-- The solver reports exactly the multisig scripts as such. -/
theorem solver_eq_multisig_iff : solver s = .multisig m keys ↔ IsMultisigScript m keys s := by
  constructor
  · intro h
    have hmatch := solver_matches s
    rw [h] at hmatch
    exact matchMultisig_eq_some_iff.mp hmatch
  · intro h
    have hmulti := matchMultisig_eq_some_iff.mpr h
    obtain ⟨hm, hmn, hn, bs, hpushes, hs⟩ := h
    -- the script is longer than the templates with a hash
    have hlen : 1313 ≤ s.length := by
      rw [hs]
      cases hpushes with
      | nil => exact absurd (hm.trans hmn) (by decide)
      | cons op hop hkey hkeys =>
        have := CPubKey.validSize_length hkey
        simp only [length_append, length_cons]
        omega
    -- and it starts with a number
    obtain ⟨op, data, hop, hinvalid, hnum⟩ := exists_getScriptNumber (le_refl 1) hm (hmn.trans hn)
      (bs ++ (pushInt64 keys.length ++ [0xae]))
    rw [← hs] at hop
    refine (solver_of_length (by omega) ?_).2 m keys ?_ hmulti
    · intro hhead
      rw [(getScriptOp_eq_some_iff.mp hop).2, head?_cons, Option.some.injEq] at hhead
      have hreturn : op = .opReturn := by rw [← Opcode.ofByte_toByte op, hhead]; rfl
      rw [hreturn] at hnum
      cases hnum
    · rw [matchPayToPubkey, hop]
      exact if_neg (by simp [hinvalid])

end Tessera.Script
