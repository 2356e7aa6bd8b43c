import Mathlib.Data.Fintype.Basic
import Tessera.Basic.Keys

/-!
# Scripts

The opcodes, serialized scripts and script numbers of `script/script.h`. Every byte is an opcode:
direct pushes, the named opcodes, and the bytes above `OP_CHECKSIGADD`, which name nothing.
`Opcode.ofByte` and `Opcode.toByte` are inverse to each other, so a parsed opcode and the byte it
came from carry the same information.
-/

namespace Tessera.Script

/-- `opcodetype`. `pushBytes 0` is `OP_0`, `pushBytes n` the direct push of `n` bytes, `opInt n` is
`OP_1` to `OP_16` for `n` from 0 to 15, and `unassigned n` is the byte `0xbb + n`. -/
inductive Opcode where
  | pushBytes (n : Fin 76)
  | pushData1
  | pushData2
  | pushData4
  | oneNegate
  | reserved
  | opInt (n : Fin 16)
  | nop
  | ver
  | opIf
  | opNotIf
  | verIf
  | verNotIf
  | opElse
  | endIf
  | verify
  | opReturn
  | toAltStack
  | fromAltStack
  | drop2
  | dup2
  | dup3
  | over2
  | rot2
  | swap2
  | ifDup
  | depth
  | drop
  | dup
  | nip
  | «over»
  | pick
  | roll
  | rot
  | swap
  | tuck
  | cat
  | substr
  | left
  | right
  | size
  | invert
  | and
  | or
  | xor
  | equal
  | equalVerify
  | reserved1
  | reserved2
  | add1
  | sub1
  | mul2
  | div2
  | negate
  | abs
  | not
  | notEqual0
  | add
  | sub
  | mul
  | div
  | mod
  | lshift
  | rshift
  | boolAnd
  | boolOr
  | numEqual
  | numEqualVerify
  | numNotEqual
  | lessThan
  | greaterThan
  | lessThanOrEqual
  | greaterThanOrEqual
  | min
  | max
  | within
  | ripemd160
  | sha1
  | sha256
  | hash160
  | hash256
  | codeSeparator
  | checkSig
  | checkSigVerify
  | checkMultiSig
  | checkMultiSigVerify
  | nop1
  | checkLockTimeVerify
  | checkSequenceVerify
  | nop4
  | nop5
  | nop6
  | nop7
  | nop8
  | nop9
  | nop10
  | checkSigAdd
  | unassigned (n : Fin 69)
  deriving DecidableEq

namespace Opcode

def toByte : Opcode → UInt8
  | pushBytes n => UInt8.ofNat n
  | pushData1 => 0x4c
  | pushData2 => 0x4d
  | pushData4 => 0x4e
  | oneNegate => 0x4f
  | reserved => 0x50
  | opInt n => UInt8.ofNat (0x51 + n)
  | nop => 0x61
  | ver => 0x62
  | opIf => 0x63
  | opNotIf => 0x64
  | verIf => 0x65
  | verNotIf => 0x66
  | opElse => 0x67
  | endIf => 0x68
  | verify => 0x69
  | opReturn => 0x6a
  | toAltStack => 0x6b
  | fromAltStack => 0x6c
  | drop2 => 0x6d
  | dup2 => 0x6e
  | dup3 => 0x6f
  | over2 => 0x70
  | rot2 => 0x71
  | swap2 => 0x72
  | ifDup => 0x73
  | depth => 0x74
  | drop => 0x75
  | dup => 0x76
  | nip => 0x77
  | «over» => 0x78
  | pick => 0x79
  | roll => 0x7a
  | rot => 0x7b
  | swap => 0x7c
  | tuck => 0x7d
  | cat => 0x7e
  | substr => 0x7f
  | left => 0x80
  | right => 0x81
  | size => 0x82
  | invert => 0x83
  | and => 0x84
  | or => 0x85
  | xor => 0x86
  | equal => 0x87
  | equalVerify => 0x88
  | reserved1 => 0x89
  | reserved2 => 0x8a
  | add1 => 0x8b
  | sub1 => 0x8c
  | mul2 => 0x8d
  | div2 => 0x8e
  | negate => 0x8f
  | abs => 0x90
  | not => 0x91
  | notEqual0 => 0x92
  | add => 0x93
  | sub => 0x94
  | mul => 0x95
  | div => 0x96
  | mod => 0x97
  | lshift => 0x98
  | rshift => 0x99
  | boolAnd => 0x9a
  | boolOr => 0x9b
  | numEqual => 0x9c
  | numEqualVerify => 0x9d
  | numNotEqual => 0x9e
  | lessThan => 0x9f
  | greaterThan => 0xa0
  | lessThanOrEqual => 0xa1
  | greaterThanOrEqual => 0xa2
  | min => 0xa3
  | max => 0xa4
  | within => 0xa5
  | ripemd160 => 0xa6
  | sha1 => 0xa7
  | sha256 => 0xa8
  | hash160 => 0xa9
  | hash256 => 0xaa
  | codeSeparator => 0xab
  | checkSig => 0xac
  | checkSigVerify => 0xad
  | checkMultiSig => 0xae
  | checkMultiSigVerify => 0xaf
  | nop1 => 0xb0
  | checkLockTimeVerify => 0xb1
  | checkSequenceVerify => 0xb2
  | nop4 => 0xb3
  | nop5 => 0xb4
  | nop6 => 0xb5
  | nop7 => 0xb6
  | nop8 => 0xb7
  | nop9 => 0xb8
  | nop10 => 0xb9
  | checkSigAdd => 0xba
  | unassigned n => UInt8.ofNat (0xbb + n)

/-- The named opcodes from `OP_NOP` on, in the order of their bytes. -/
def named : List Opcode :=
  [nop, ver, opIf, opNotIf, verIf, verNotIf, opElse, endIf, verify, opReturn, toAltStack,
    fromAltStack, drop2, dup2, dup3, over2, rot2, swap2, ifDup, depth, drop, dup, nip, «over»,
    pick, roll, rot, swap, tuck, cat, substr, left, right, size, invert, and, or, xor, equal,
    equalVerify, reserved1, reserved2, add1, sub1, mul2, div2, negate, abs, not, notEqual0,
    add, sub, mul, div, mod, lshift, rshift, boolAnd, boolOr, numEqual, numEqualVerify,
    numNotEqual, lessThan, greaterThan, lessThanOrEqual, greaterThanOrEqual, min, max,
    within, ripemd160, sha1, sha256, hash160, hash256, codeSeparator, checkSig,
    checkSigVerify, checkMultiSig, checkMultiSigVerify, nop1, checkLockTimeVerify,
    checkSequenceVerify, nop4, nop5, nop6, nop7, nop8, nop9, nop10, checkSigAdd]

def ofByte (b : UInt8) : Opcode :=
  let n := b.toNat
  if h : n < 76 then pushBytes ⟨n, h⟩
  else if n = 0x4c then pushData1
  else if n = 0x4d then pushData2
  else if n = 0x4e then pushData4
  else if n = 0x4f then oneNegate
  else if n = 0x50 then reserved
  else if h : n < 0x61 then opInt ⟨n - 0x51, by omega⟩
  else if h : n < 0xbb then named.get ⟨n - 0x61, by simp only [named, List.length]; omega⟩
  else unassigned ⟨n - 0xbb, by have : n < 256 := b.toNat_lt; omega⟩

theorem ofByte_toByte (op : Opcode) : ofByte op.toByte = op := by
  cases op with
  | pushBytes n => revert n; decide +kernel
  | opInt n => revert n; decide +kernel
  | unassigned n => revert n; decide +kernel
  | _ => decide +kernel

private theorem toByte_ofByte (b : UInt8) : (ofByte b).toByte = b := by
  have h : ∀ n : Fin 256, (ofByte (UInt8.ofNat n)).toByte = UInt8.ofNat n := by decide +kernel
  simpa using h ⟨b.toNat, b.toNat_lt⟩

/-- Whether the opcode is at most `OP_PUSHDATA4` and so comes with an operand. -/
def hasOperand (op : Opcode) : Bool := op.toByte ≤ 0x4e

def isPushdataOp (op : Opcode) : Bool := 0x00 < op.toByte && op.toByte ≤ 0x4e

/-- Whether the opcode is above `OP_16` and so counts towards the operation limit. -/
def isCounted (op : Opcode) : Bool := 0x60 < op.toByte

/-- The opcodes that fail a script wherever they stand. -/
def isDisabled : Opcode → Bool
  | cat | substr | left | right | invert | and | or | xor | mul2 | div2 | mul | div | mod
  | lshift | rshift => true
  | _ => false

/-- Whether the opcode lies in the range `OP_IF` to `OP_ENDIF`, which is looked at in branches that
are not taken as well. -/
def isConditional : Opcode → Bool
  | opIf | opNotIf | verIf | verNotIf | opElse | endIf => true
  | _ => false

end Opcode

/-! ## Serialized scripts

`CScript`: reading instructions off a serialized script, the pushes and opcodes
from which scripts are built, and the recognizers for the script templates.

Every loop of the source over a script calls `GetOp` until it reaches the end or an instruction that
is cut short. `parse` runs that loop once; the loops of the source become recursions over the
instructions it lists.
-/

open List

variable {s : Bytes}

abbrev CScript := Bytes

/-- `CScriptID`: the hash of a script. -/
abbrev CScriptID := Uint160

def maxScriptElementSize : Nat := 520

def maxPubkeysPerMultisig : Nat := 20

def maxScriptSize : Nat := 10000

/-! ### Reading instructions -/

/-- Read an operand of `n` bytes; the second component is where the iterator ends up. -/
def readOperand (op : Opcode) (n : Nat) (pc : Bytes) : Option (Opcode × Bytes) × Bytes :=
  if pc.length < n then (none, pc) else (some (op, pc.take n), pc.drop n)

/-- `GetScriptOp`: the next opcode with its operand, none if the script ends inside it. The second
component is the position of the iterator afterwards, which a failed read has moved as well. -/
def getScriptOp : Bytes → Option (Opcode × Bytes) × Bytes
  | [] => (none, [])
  | b :: pc =>
    match Opcode.ofByte b with
    | .pushBytes n => readOperand (.pushBytes n) n pc
    | .pushData1 =>
      if pc.length < 1 then (none, pc)
      else readOperand .pushData1 (readLE (pc.take 1)) (pc.drop 1)
    | .pushData2 =>
      if pc.length < 2 then (none, pc)
      else readOperand .pushData2 (readLE (pc.take 2)) (pc.drop 2)
    | .pushData4 =>
      if pc.length < 4 then (none, pc)
      else readOperand .pushData4 (readLE (pc.take 4)) (pc.drop 4)
    | op => (some (op, []), pc)

variable {op : Opcode} {data rest : Bytes}

private theorem readOperand_eq_some_iff {op' : Opcode} {n : Nat} {pc : Bytes} :
    readOperand op n pc = (some (op', data), rest) ↔ op = op' ∧ data.length = n ∧
    pc = data ++ rest := by
  unfold readOperand
  split
  next hlt =>
    refine iff_of_false (by simp) ?_
    rintro ⟨-, rfl, rfl⟩
    rw [length_append] at hlt
    omega
  · simp only [Prod.mk.injEq]
    constructor
    · rintro ⟨⟨rfl, rfl⟩, rfl⟩
      exact ⟨rfl, by simp; omega, (take_append_drop n pc).symm⟩
    · rintro ⟨rfl, rfl, rfl⟩
      simp

private theorem readSized_eq_some_iff {op' : Opcode} {k : Nat} {pc : Bytes} :
    (if pc.length < k then (none, pc) else readOperand op (readLE (pc.take k)) (pc.drop k)) =
        (some (op', data), rest) ↔
      op = op' ∧ data.length < 256 ^ k ∧ pc = writeLE k data.length ++ (data ++ rest) := by
  split
  next hlt =>
    refine iff_of_false (by simp) ?_
    rintro ⟨-, -, rfl⟩
    rw [length_append, writeLE_length] at hlt
    omega
  · rw [readOperand_eq_some_iff]
    constructor
    · rintro ⟨rfl, hlen, hdrop⟩
      have hk : (pc.take k).length = k := by simp; omega
      have hlt := readLE_lt (pc.take k)
      have hwrite := writeLE_readLE (pc.take k)
      rw [hk] at hlt hwrite
      refine ⟨rfl, hlen ▸ hlt, ?_⟩
      rw [hlen, hwrite, ← hdrop, take_append_drop]
    · rintro ⟨rfl, hlt, rfl⟩
      simp [readLE_writeLE hlt]

/-- The number of bytes in front of an operand that tell its length. -/
def Opcode.sizeWidth : Opcode → Nat
  | pushData1 => 1
  | pushData2 => 2
  | pushData4 => 4
  | _ => 0

/-- Whether an opcode can have an operand of a given length. -/
def Opcode.Takes (n : Nat) : Opcode → Prop
  | pushBytes k => n = k
  | pushData1 => n < 256 ^ 1
  | pushData2 => n < 256 ^ 2
  | pushData4 => n < 256 ^ 4
  | _ => n = 0

/-- What is read of a script is the opcode, the length of the operand where it is not in the opcode,
and the operand. -/
theorem getScriptOp_eq_some_iff : getScriptOp s = (some (op, data), rest) ↔
    op.Takes data.length ∧ s = op.toByte ::
    (writeLE op.sizeWidth data.length ++ (data ++ rest)) := by
  cases s with
  | nil => simp [getScriptOp]
  | cons b pc =>
    obtain ⟨op', rfl⟩ : ∃ op' : Opcode, op'.toByte = b := ⟨.ofByte b, Opcode.toByte_ofByte b⟩
    have hinj : op'.toByte = op.toByte ↔ op' = op :=
      ⟨fun h => by rw [← Opcode.ofByte_toByte op', h, Opcode.ofByte_toByte], congrArg _⟩
    rw [cons.injEq, hinj, and_left_comm, getScriptOp, Opcode.ofByte_toByte]
    cases op' with
    | pushBytes n =>
      refine readOperand_eq_some_iff.trans (and_congr_right ?_)
      rintro rfl
      exact Iff.rfl
    | pushData1 | pushData2 | pushData4 =>
      refine readSized_eq_some_iff.trans (and_congr_right ?_)
      rintro rfl
      exact Iff.rfl
    | _ =>
      simp only [Prod.mk.injEq, Option.some.injEq, and_assoc]
      refine and_congr_right ?_
      rintro rfl
      constructor
      · rintro ⟨rfl, rfl⟩
        exact ⟨rfl, rfl⟩
      · rintro ⟨hnil, rfl⟩
        cases length_eq_zero_iff.mp hnil
        exact ⟨rfl, rfl⟩

private theorem getScriptOp_pc_length_lt {pc : Bytes}
    (h : getScriptOp pc = (some (op, data), rest)) : rest.length < pc.length := by
  obtain ⟨-, rfl⟩ := getScriptOp_eq_some_iff.mp h
  simp only [length_cons, length_append]
  omega

/-- One instruction of a script: its opcode, its operand, and the script after it. -/
structure Instr where
  opcode : Opcode
  data : Bytes
  pc : Bytes
  deriving DecidableEq

/-- `parse` with a bound on the number of instructions. -/
def parseFuel : Nat → Bytes → List Instr × Option Bytes
  | 0, _ => ([], none)
  | _ + 1, [] => ([], none)
  | fuel + 1, b :: pc =>
    match getScriptOp (b :: pc) with
    | (none, stop) => ([], some stop)
    | (some (op, data), rest) =>
      (⟨op, data, rest⟩ :: (parseFuel fuel rest).1, (parseFuel fuel rest).2)

/-- The instructions that repeated calls of `GetOp` read off a script. The second component is none
if they reach the end of the script, and otherwise where the iterator stood after the failed read.
-/
def parse (s : CScript) : List Instr × Option Bytes := parseFuel s.length s

private theorem parseFuel_eq {fuel : Nat} (h : s.length ≤ fuel) : parseFuel fuel s = parse s := by
  induction fuel using Nat.strong_induction_on generalizing s with
  | _ fuel ih =>
    unfold parse
    cases s with
    | nil => cases fuel <;> simp [parseFuel]
    | cons b pc =>
      obtain ⟨k, rfl⟩ : ∃ k, fuel = k + 1 := ⟨fuel - 1, by simp at h; omega⟩
      simp only [length_cons, parseFuel]
      rcases hop : getScriptOp (b :: pc) with ⟨_ | ⟨op, data⟩, rest⟩
      · rfl
      have hlt := getScriptOp_pc_length_lt hop
      simp only [length_cons] at hlt h
      have hk : parseFuel k rest = parse rest := ih k (by omega) (by omega)
      have hpc : parseFuel pc.length rest = parse rest := by
        rcases lt_or_ge pc.length (k + 1) with hlt' | hge
        · exact ih pc.length hlt' (by omega)
        · omega
      simp [hk, hpc]

theorem parse_of_some (h : getScriptOp s = (some (op, data), rest)) :
    parse s = (⟨op, data, rest⟩ :: (parse rest).1, (parse rest).2) := by
  cases s with
  | nil => simp [getScriptOp] at h
  | cons b pc =>
    have hlt := getScriptOp_pc_length_lt h
    have hrest : parseFuel pc.length rest = parse rest :=
      parseFuel_eq (by simp only [length_cons] at hlt; omega)
    simp [parse, parseFuel, h, hrest]

theorem parse_eq_cons {i : Instr} {instrs : List Instr} (h : (parse s).1 = i :: instrs) :
    getScriptOp s = (some (i.opcode, i.data), i.pc) ∧ (parse i.pc).1 = instrs := by
  rcases hop : getScriptOp s with ⟨_ | ⟨op, data⟩, rest⟩
  · cases s with
    | nil => cases h
    | cons b pc =>
      simp only [parse, length_cons, parseFuel, hop] at h
      cases h
  · rw [parse_of_some hop] at h
    cases h
    exact ⟨rfl, rfl⟩

theorem getScriptOp_op (h : op.hasOperand = false) (rest : Bytes) :
    getScriptOp (op.toByte :: rest) = (some (op, []), rest) := by
  rw [getScriptOp_eq_some_iff]
  cases op with
  | pushBytes n =>
    have : ∀ n : Fin 76, (Opcode.pushBytes n).hasOperand := by decide
    simp [this n] at h
  | pushData1 | pushData2 | pushData4 => simp [Opcode.hasOperand, Opcode.toByte] at h
  | _ => exact ⟨rfl, rfl⟩

/-! ### Building scripts -/

def appendDataSize (size : Nat) : Bytes :=
  if size < 0x4c then [UInt8.ofNat size]
  else if size ≤ 0xff then 0x4c :: writeLE 1 size
  else if size ≤ 0xffff then 0x4d :: writeLE 2 size
  else 0x4e :: writeLE 4 size

/-- `CScript::operator<<` on a byte vector. -/
def pushData (data : Bytes) : CScript := appendDataSize data.length ++ data

/-- The opcode with which `pushData` pushes `n` bytes. -/
def pushOpcode (n : Nat) : Opcode :=
  if h : n < 76 then .pushBytes ⟨n, h⟩
  else if n ≤ 0xff then .pushData1
  else if n ≤ 0xffff then .pushData2
  else .pushData4

/-- What `pushData` writes is read back as one push. -/
theorem getScriptOp_pushData (h : data.length < 2 ^ 32) (rest : Bytes) :
    getScriptOp (pushData data ++ rest) = (some (pushOpcode data.length, data), rest) := by
  rw [getScriptOp_eq_some_iff]
  unfold pushData appendDataSize pushOpcode
  split
  · exact ⟨rfl, by simp [Opcode.toByte, Opcode.sizeWidth, writeLE]⟩
  split
  next hle => exact ⟨Nat.lt_succ_of_le hle, by simp [Opcode.toByte, Opcode.sizeWidth]⟩
  split
  next hle => exact ⟨Nat.lt_succ_of_le hle, by simp [Opcode.toByte, Opcode.sizeWidth]⟩
  · exact ⟨h, by simp [Opcode.toByte, Opcode.sizeWidth]⟩

/-- `CScript::EncodeOP_N` for a number up to 16. -/
def encodeOpN (n : Nat) : UInt8 := if n = 0 then 0x00 else UInt8.ofNat (0x50 + n)

/-- `CScript::DecodeOP_N` on `OP_0` or a small integer opcode. -/
def decodeOpN (b : UInt8) : Nat := if b = 0x00 then 0 else b.toNat - 0x50

/-! ### Script templates -/

def isPayToScriptHash (s : CScript) : Bool :=
  s.length == 23 && s[0]? == some 0xa9 && s[1]? == some 0x14 && s[22]? == some 0x87

def isPayToAnchor (s : CScript) : Bool :=
  s.length == 4 && s[0]? == some 0x51 && s[1]? == some 0x02 && s[2]? == some 0x4e &&
    s[3]? == some 0x73

/-- `CScript::IsWitnessProgram`: the version and the program. -/
def isWitnessProgram : CScript → Option (Nat × Bytes)
  | v :: len :: program =>
    let size := program.length + 2
    if size < 4 ∨ 42 < size then none
    else if v ≠ 0x00 ∧ (v < 0x51 ∨ 0x60 < v) then none
    else if len.toNat + 2 = size then some (decodeOpN v, program)
    else none
  | _ => none

theorem isWitnessProgram_of_length {s : CScript} (h : 42 < s.length) :
    isWitnessProgram s = none := by
  rcases s with _ | ⟨v, _ | ⟨len, program⟩⟩
  · rfl
  · rfl
  · rw [isWitnessProgram, if_pos (.inr h)]

theorem isPayToScriptHash_of_length {s : CScript} (h : 23 < s.length) :
    isPayToScriptHash s = false := by
  rw [isPayToScriptHash, beq_false_of_ne (by omega)]
  rfl

theorem isWitnessProgram_of_isPayToScriptHash {s : CScript} (h : isPayToScriptHash s) :
    isWitnessProgram s = none := by
  match s with
  | [] | [_] => simp [isPayToScriptHash] at h
  | v :: len :: program =>
    have hv : v = 0xa9 := by
      simp only [isPayToScriptHash, Bool.and_eq_true, getElem?_cons_zero, beq_iff_eq,
        Option.some.injEq] at h
      exact h.1.1.2
    subst hv
    simp [isWitnessProgram]

def isPushOnly (s : CScript) : Bool :=
  (parse s).2.isNone && (parse s).1.all fun i => !i.opcode.isCounted

def isUnspendable (s : CScript) : Bool :=
  s.head? == some 0x6a || decide (maxScriptSize < s.length)

def checkMinimalPush (data : Bytes) (op : Opcode) : Bool :=
  match data with
  | [] => op == .pushBytes 0
  | [b] => if (1 ≤ b ∧ b ≤ 16) ∨ b = 0x81 then false else op == .pushBytes 1
  | _ =>
    if data.length ≤ 75 then op.toByte.toNat == data.length
    else if data.length ≤ 255 then op == .pushData1
    else if data.length ≤ 65535 then op == .pushData2
    else true

/-- The operations counted by `CScript::GetSigOpCount` from a given previous opcode on. -/
def sigOpCountFrom (accurate : Bool) : Opcode → List Instr → Nat
  | _, [] => 0
  | last, i :: rest =>
    (match i.opcode with
      | .checkSig | .checkSigVerify => 1
      | .checkMultiSig | .checkMultiSigVerify =>
        match last with
        | .opInt n => if accurate then n.val + 1 else maxPubkeysPerMultisig
        | _ => maxPubkeysPerMultisig
      | _ => 0) + sigOpCountFrom accurate i.opcode rest

/-- `CScript::GetSigOpCount`; the previous opcode starts out as `OP_INVALIDOPCODE`. -/
def getSigOpCount (accurate : Bool) (s : CScript) : Nat :=
  sigOpCountFrom accurate (.unassigned 68) (parse s).1

end Tessera.Script

/-! ## Script numbers

`CScriptNum`: integers as the byte strings found on the script stack, with the
sign in the top bit of the last byte. Operands are at most five bytes, so the 64-bit arithmetic of
the source never wraps on them and values are plain integers here.
-/

namespace Tessera.Script.ScriptNum

/-- The bytes of the magnitude, least significant first and without leading zeros. A magnitude is an
unsigned 64-bit number, so eight bytes are enough. -/
def magnitude : Nat → Nat → Bytes
  | 0, _ => []
  | fuel + 1, n => if n = 0 then [] else UInt8.ofNat n :: magnitude fuel (n / 256)

/-- Place the sign of a number on the bytes of its magnitude. -/
def addSign (neg : Bool) (result : Bytes) : Bytes :=
  match result.getLast? with
  | none => result
  | some top =>
    if top &&& 0x80 ≠ 0 then result ++ [if neg then 0x80 else 0]
    else if neg then result.dropLast ++ [top ||| 0x80]
    else result

def serialize (value : Int) : Bytes := addSign (decide (value < 0)) (magnitude 8 value.natAbs)

def setVch (vch : Bytes) : Int :=
  match vch.getLast? with
  | none => 0
  | some top =>
    if top &&& 0x80 ≠ 0 then -((readLE vch - 0x80 * 256 ^ (vch.length - 1) : Nat) : Int)
    else readLE vch

/-- Whether a nonempty encoding uses more bytes than the number needs. -/
def isPadded (vch : Bytes) : Bool :=
  match vch.reverse with
  | [] => false
  | [top] => top &&& 0x7f == 0
  | top :: next :: _ => top &&& 0x7f == 0 && next &&& 0x80 == 0

/-- `CScriptNum::nDefaultMaxNumSize`. -/
def defaultMaxNumSize : Nat := 4

/-- The constructor of `CScriptNum` from stack bytes; none stands for the `scriptnum_error` it
throws. -/
def ofVch (vch : Bytes) (requireMinimal : Bool) (maxNumSize : Nat) : Option Int :=
  if maxNumSize < vch.length then none
  else if requireMinimal && isPadded vch then none
  else some (setVch vch)

def getint (n : Int) : Int := max (-2 ^ 31) (min n (2 ^ 31 - 1))

/-- The conversion of a size to the 64-bit value of a script number. -/
def ofSize (n : Nat) : Int := (n : Int).bmod (2 ^ 64)

private theorem magnitude_length_le (fuel n : Nat) : (magnitude fuel n).length ≤ fuel := by
  induction fuel generalizing n with
  | zero => simp [magnitude]
  | succ fuel ih =>
    unfold magnitude
    split
    · simp
    · simpa using ih (n / 256)

private theorem addSign_length_le (neg : Bool) (result : Bytes) :
    (addSign neg result).length ≤ result.length + 1 := by
  unfold addSign
  cases h : result.getLast? with
  | none => simp
  | some top =>
    dsimp only
    split
    · simp
    split
    · simp only [List.length_append, List.length_dropLast, List.length_singleton]
      omega
    · omega

/-- A serialized number is at most nine bytes long. -/
theorem serialize_length_le (value : Int) : (serialize value).length ≤ 9 :=
  le_trans (addSign_length_le _ _) (Nat.add_le_add_right (magnitude_length_le 8 _) 1)

/-- A number accepted under the minimality rule is accepted without it, with the same value. -/
theorem ofVch_of_requireMinimal {vch : Bytes} {b b' : Bool} {size : Nat} {n : Int}
    (hb : b' → b) (h : ofVch vch b size = some n) : ofVch vch b' size = some n := by
  unfold ofVch at h ⊢
  split at h
  · simp at h
  next hsize =>
    rw [if_neg hsize]
    cases b' with
    | false =>
      split at h
      · simp at h
      · simpa using h
    | true => simpa [hb rfl] using h

end Tessera.Script.ScriptNum
