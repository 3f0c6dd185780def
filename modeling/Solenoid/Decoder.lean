/-
  Solenoid.Decoder — the opcode table (`opcodes.rs`) and the decoder (`decoder.rs`).

  `getOpcode` is the table `OPCODES`; a byte it leaves undefined has code 0xfe. `Op` names
  the arms of the interpreter's match on `opcode.code`, one constructor an arm (the
  PUSH, DUP, SWAP and LOG ranges are one arm each, and RETURN and REVERT share one).
-/
import Solenoid.Word

namespace Solenoid

/-! ## Opcodes -/

structure Opcode where
  code : UInt8
  name : String
  n : UInt8
  deriving DecidableEq, Repr

/-- `name.replace('_', n)`. -/
def Opcode.fullName (o : Opcode) : String :=
  String.join (o.name.toList.map fun c => if c = '_' then toString o.n.toNat else c.toString)

def Opcode.pushLen (o : Opcode) : Nat := if o.name ≠ "PUSH_" then 0 else o.n.toNat

/-- The names of the opcodes below 0x60. -/
def lowName : Nat → Option String
  | 0x00 => some "STOP" | 0x01 => some "ADD" | 0x02 => some "MUL" | 0x03 => some "SUB"
  | 0x04 => some "DIV" | 0x05 => some "SDIV" | 0x06 => some "MOD" | 0x07 => some "SMOD"
  | 0x08 => some "ADDMOD" | 0x09 => some "MULMOD" | 0x0a => some "EXP" | 0x0b => some "SIGNEXTEND"
  | 0x10 => some "LT" | 0x11 => some "GT" | 0x12 => some "SLT" | 0x13 => some "SGT"
  | 0x14 => some "EQ" | 0x15 => some "ISZERO" | 0x16 => some "AND" | 0x17 => some "OR"
  | 0x18 => some "XOR" | 0x19 => some "NOT" | 0x1a => some "BYTE" | 0x1b => some "SHL"
  | 0x1c => some "SHR" | 0x1d => some "SAR" | 0x1e => some "CLZ" | 0x20 => some "SHA3"
  | 0x30 => some "ADDRESS" | 0x31 => some "BALANCE" | 0x32 => some "ORIGIN" | 0x33 => some "CALLER"
  | 0x34 => some "CALLVALUE" | 0x35 => some "CALLDATALOAD" | 0x36 => some "CALLDATASIZE"
  | 0x37 => some "CALLDATACOPY" | 0x38 => some "CODESIZE" | 0x39 => some "CODECOPY"
  | 0x3a => some "GASPRICE" | 0x3b => some "EXTCODESIZE" | 0x3c => some "EXTCODECOPY"
  | 0x3d => some "RETURNDATASIZE" | 0x3e => some "RETURNDATACOPY" | 0x3f => some "EXTCODEHASH"
  | 0x40 => some "BLOCKHASH" | 0x41 => some "COINBASE" | 0x42 => some "TIMESTAMP" | 0x43 => some "NUMBER"
  | 0x44 => some "PREVRANDAO" | 0x45 => some "GASLIMIT" | 0x46 => some "CHAINID" | 0x47 => some "SELFBALANCE"
  | 0x48 => some "BASEFEE" | 0x49 => some "BLOBHASH" | 0x4a => some "BLOBBASEFEE"
  | 0x50 => some "POP" | 0x51 => some "MLOAD" | 0x52 => some "MSTORE" | 0x53 => some "MSTORE8"
  | 0x54 => some "SLOAD" | 0x55 => some "SSTORE" | 0x56 => some "JUMP" | 0x57 => some "JUMPI"
  | 0x58 => some "PC" | 0x59 => some "MSIZE" | 0x5a => some "GAS" | 0x5b => some "JUMPDEST"
  | 0x5c => some "TLOAD" | 0x5d => some "TSTORE" | 0x5e => some "MCOPY" | 0x5f => some "PUSH0"
  | _ => none

/-- The names of the opcodes from 0xf0. -/
def highName : Nat → Option String
  | 0xf0 => some "CREATE" | 0xf1 => some "CALL" | 0xf2 => some "CALLCODE" | 0xf3 => some "RETURN"
  | 0xf4 => some "DELEGATECALL" | 0xf5 => some "CREATE2" | 0xfa => some "STATICCALL" | 0xfd => some "REVERT"
  | 0xfe => some "INVALID" | 0xff => some "SELFDESTRUCT"
  | _ => none

def undefinedOpcode : Opcode := ⟨0xfe, "undefined", 0⟩

/-- `OPCODES[value]`. -/
def getOpcode (value : UInt8) : Opcode :=
  let v := value.toNat
  if v < 0x60 then (lowName v).elim undefinedOpcode fun name => ⟨value, name, 0⟩
  else if v < 0x80 then ⟨value, "PUSH_", UInt8.ofNat (v - 0x60 + 1)⟩
  else if v < 0x90 then ⟨value, "DUP_", UInt8.ofNat (v - 0x80 + 1)⟩
  else if v < 0xa0 then ⟨value, "SWAP_", UInt8.ofNat (v - 0x90 + 1)⟩
  else if v < 0xa5 then ⟨value, "LOG_", UInt8.ofNat (v - 0xa0)⟩
  else (highName v).elim undefinedOpcode fun name => ⟨value, name, 0⟩

/-- The arms of `execute_instruction`. -/
inductive Op where
  | stop | add | mul | sub | div | sdiv | mod | smod | addmod | mulmod | exp | signextend
  | lt | gt | slt | sgt | eq | iszero | and | or | xor | not | byte | shl | shr | sar | clz
  | sha3
  | address | balance | origin | caller | callvalue | calldataload | calldatasize | calldatacopy
  | codesize | codecopy | gasprice | extcodesize | extcodecopy | returndatasize | returndatacopy | extcodehash
  | blockhash | coinbase | timestamp | number | prevrandao | gaslimit | chainid | selfbalance | basefee
  | blobhash | blobbasefee
  | pop | mload | mstore | mstore8 | sload | sstore | jump | jumpi | pc | msize | gas | jumpdest
  | tload | tstore | mcopy | push0
  | push | dup | swap | log
  | create | call | callcode | return_ | delegatecall | create2 | staticcall | revert | invalid | selfdestruct
  | unknown
  deriving DecidableEq, Repr

/-- The arm of the opcodes below 0x60. -/
def lowOp : Nat → Op
  | 0x00 => .stop | 0x01 => .add | 0x02 => .mul | 0x03 => .sub | 0x04 => .div | 0x05 => .sdiv | 0x06 => .mod
  | 0x07 => .smod | 0x08 => .addmod | 0x09 => .mulmod | 0x0a => .exp | 0x0b => .signextend
  | 0x10 => .lt | 0x11 => .gt | 0x12 => .slt | 0x13 => .sgt | 0x14 => .eq | 0x15 => .iszero | 0x16 => .and
  | 0x17 => .or | 0x18 => .xor | 0x19 => .not | 0x1a => .byte | 0x1b => .shl | 0x1c => .shr | 0x1d => .sar
  | 0x1e => .clz | 0x20 => .sha3
  | 0x30 => .address | 0x31 => .balance | 0x32 => .origin | 0x33 => .caller | 0x34 => .callvalue
  | 0x35 => .calldataload | 0x36 => .calldatasize | 0x37 => .calldatacopy | 0x38 => .codesize
  | 0x39 => .codecopy | 0x3a => .gasprice | 0x3b => .extcodesize | 0x3c => .extcodecopy
  | 0x3d => .returndatasize | 0x3e => .returndatacopy | 0x3f => .extcodehash
  | 0x40 => .blockhash | 0x41 => .coinbase | 0x42 => .timestamp | 0x43 => .number | 0x44 => .prevrandao
  | 0x45 => .gaslimit | 0x46 => .chainid | 0x47 => .selfbalance | 0x48 => .basefee | 0x49 => .blobhash
  | 0x4a => .blobbasefee
  | 0x50 => .pop | 0x51 => .mload | 0x52 => .mstore | 0x53 => .mstore8 | 0x54 => .sload | 0x55 => .sstore
  | 0x56 => .jump | 0x57 => .jumpi | 0x58 => .pc | 0x59 => .msize | 0x5a => .gas | 0x5b => .jumpdest
  | 0x5c => .tload | 0x5d => .tstore | 0x5e => .mcopy | 0x5f => .push0
  | _ => .unknown

/-- The arm of the opcodes from 0xf0. -/
def highOp : Nat → Op
  | 0xf0 => .create | 0xf1 => .call | 0xf2 => .callcode | 0xf3 => .return_ | 0xf4 => .delegatecall
  | 0xf5 => .create2 | 0xfa => .staticcall | 0xfd => .revert | 0xfe => .invalid | 0xff => .selfdestruct
  | _ => .unknown

/-- The arm that `match opcode.code` selects. -/
def Opcode.op (o : Opcode) : Op :=
  let v := o.code.toNat
  if v < 0x60 then lowOp v
  else if v < 0x80 then .push
  else if v < 0x90 then .dup
  else if v < 0xa0 then .swap
  else if v < 0xa5 then .log
  else highOp v

/-- The operation is one of the CALL family or a creation: `Instruction::is_call`, on arms. -/
def Op.isCall : Op → Bool
  | .call | .callcode | .delegatecall | .staticcall | .create | .create2 => true
  | _ => false

/-! ## Decoder -/

structure Instruction where
  opcode : Opcode
  offset : Nat
  argument : Option Bytes
  deriving DecidableEq

def Instruction.op (i : Instruction) : Op := i.opcode.op

def Instruction.isCall (i : Instruction) : Bool :=
  ["CALL", "DELEGATECALL", "STATICCALL", "CALLCODE", "CREATE", "CREATE2"].contains i.opcode.name

structure Bytecode where
  bytecode : Bytes
  instructions : List Instruction
  jumptable : List (Nat × Nat)

/-- The loop of `binary_search_by_key`: it halves the window `base .. base + size` (one turn
    a bit of the length, so `fuel` is the length). -/
def searchBase (table : List (Nat × Nat)) (key : Nat) : Nat → Nat → Nat → Nat
  | 0, base, _ => base
  | fuel + 1, base, size =>
    if size ≤ 1 then base
    else
      let half := size / 2
      let mid := base + half
      searchBase table key fuel (if key < (table.getD mid (0, 0)).1 then base else mid) (size - half)

def Bytecode.resolveJump (b : Bytecode) (offset : Nat) : Option Nat :=
  if offset = 0 then some 0
  else
    match b.jumptable[searchBase b.jumptable offset b.jumptable.length 0 b.jumptable.length]? with
    | some (key, index) => if key = offset then some index else none
    | none => none

/-- One turn of the decoder's loop at `pos`, on the bytes from there: the instruction, and
    the bytes it covers. -/
def decodeOne (pos : Nat) (byte : UInt8) (rest : Bytes) : Instruction × Nat :=
  let opcode := getOpcode byte
  let len := opcode.pushLen
  if 0 < len then
    let given := rest.take len
    (⟨opcode, pos, some (given ++ List.replicate (len - given.length) 0)⟩, 1 + given.length)
  else (⟨opcode, pos, none⟩, 1)

/-- The decoder's loop: at most one turn a byte, so `fuel` is the length of `bytes`. -/
def decodeLoop : Nat → Nat → Bytes → Nat → List Instruction × List (Nat × Nat)
  | 0, _, _, _ => ([], [])
  | _ + 1, _, [], _ => ([], [])
  | fuel + 1, pos, byte :: rest, index =>
    let (instruction, width) := decodeOne pos byte rest
    let (instructions, jumptable) := decodeLoop fuel (pos + width) (rest.drop (width - 1)) (index + 1)
    (instruction :: instructions,
      if instruction.opcode.code = 0x5b then (pos, index) :: jumptable else jumptable)

def decode (bytecode : Bytes) : Bytecode :=
  let (instructions, jumptable) := decodeLoop bytecode.length 0 bytecode 0
  ⟨bytecode, instructions, jumptable⟩

example : (decode [0x61, 0x5b, 0x01, 0x5b, 0x60]).jumptable = [(3, 1)] := by decide +kernel

end Solenoid
