/-
  Solenoid.Word — the machine words of evm-common (`word.rs`, `address.rs`, `hash.rs`)
  and the ways a run of the Rust code can be cut short.

  `Word` is `U256`, `Address` is `[u8; 20]` read big-endian, and a `usize` is a `Nat`
  below `2^64`. What aborts in Rust aborts here: a value that does not fit its cast, an
  overflowing `+`, `-` or `*` (on `U256` always, on `usize` and `i64` in the checked
  profile the tests run in), a zero divisor, a slice out of range, a `Vec` grown past
  `isize::MAX` bytes.
-/
import Mathlib.Data.Finmap

namespace Solenoid

abbrev Bytes := List UInt8
abbrev Word := BitVec 256
abbrev Address := BitVec 160

/-- What `?` propagates: `ExecutorError` and the failures of `Ext`. -/
inductive Report where
  | stackOverflow
  | stackUnderflow
  | missingData
  | outOfGas
  | invalidAllocation (size : Nat)
  | staticCallViolation (opcode : UInt8)
  | unknownOpcode (opcode : UInt8)
  | failedToPull (addr : Address)
  | rpc
  | precompile (why : String)
  deriving DecidableEq

/-- `fuel` is the model's own: the bound of the recursion was too small. -/
inductive Fault where
  | report (r : Report)
  | panic (why : String)
  | fuel
  deriving DecidableEq

def panic {α : Type} (why : String) : Except Fault α := .error (.panic why)

def bail {α : Type} (r : Report) : Except Fault α := .error (.report r)

/-! ## usize and i64 -/

def usizeMax : Nat := 2 ^ 64 - 1

def isizeMax : Nat := 2 ^ 63 - 1

/-- `a + b` on `usize`. -/
def addUsize (a b : Nat) : Except Fault Nat :=
  if a + b ≤ usizeMax then .ok (a + b) else panic "attempt to add with overflow"

/-- The value of an `i64` operation whose exact value is `x`. -/
def checkI64 (x : Int) : Except Fault Int :=
  if -(2 ^ 63) ≤ x ∧ x < 2 ^ 63 then .ok x else panic "attempt to add with overflow"

/-- `n as i64` for `n : usize`. -/
def usizeAsI64 (n : Nat) : Int := if n < 2 ^ 63 then n else (n : Int) - 2 ^ 64

def divCeil (n d : Nat) : Nat := (n + d - 1) / d

/-! ## Bytes -/

/-- `&b[start..till]`. -/
def slice (b : Bytes) (start till : Nat) : Except Fault Bytes :=
  if start ≤ till ∧ till ≤ b.length then .ok ((b.drop start).take (till - start))
  else panic "slice index out of range"

/-- `b[at..at + data.len()].copy_from_slice(data)`. -/
def copyFromSlice (b : Bytes) (start : Nat) (data : Bytes) : Except Fault Bytes :=
  if start + data.length ≤ b.length then .ok (b.take start ++ data ++ b.drop (start + data.length))
  else panic "slice index out of range"

/-- `b.resize(n, 0)`. -/
def resize (b : Bytes) (n : Nat) : Except Fault Bytes :=
  if n ≤ isizeMax then .ok (b.take n ++ List.replicate (n - b.length) 0) else panic "capacity overflow"

/-- The `size` bytes from `start` of `b` followed by zeros. -/
def window (b : Bytes) (start size : Nat) : Bytes :=
  let given := (b.drop start).take size
  given ++ List.replicate (size - given.length) 0

theorem window_length (b : Bytes) (start size : Nat) : (window b start size).length = size := by
  simp only [window, List.length_append, List.length_replicate, List.length_take]
  omega

def natOfBytes (b : Bytes) : Nat := b.foldl (fun n x => n * 256 + x.toNat) 0

def natToBytes (len n : Nat) : Bytes := (List.range len).map fun i => UInt8.ofNat (n >>> (8 * (len - 1 - i)))

/-! ## Word -/

namespace Word

def fromBytes (b : Bytes) : Word := BitVec.ofNat 256 (natOfBytes b)

def intoBytes (w : Word) : Bytes := natToBytes 32 w.toNat

def asU64 (w : Word) : Except Fault Nat :=
  if w.toNat < 2 ^ 64 then .ok w.toNat else panic "Integer overflow when casting to u64"

/-- `as_u64() as i64`: the top bit of the `u64` becomes the sign. -/
def asI64 (w : Word) : Except Fault Int := return usizeAsI64 (← w.asU64)

def asUsize (w : Word) : Except Fault Nat :=
  if w.toNat < 2 ^ 64 then .ok w.toNat else panic "Integer overflow when casting to usize"

/-- `Word::from(n)` for `n : i64`. -/
def ofI64 (n : Int) : Except Fault Word :=
  if 0 ≤ n then .ok (BitVec.ofInt 256 n) else panic "Unsigned integer can't be created from negative value"

def add (a b : Word) : Except Fault Word :=
  if a.toNat + b.toNat < 2 ^ 256 then .ok (a + b) else panic "arithmetic operation overflow"

def sub (a b : Word) : Except Fault Word :=
  if b.toNat ≤ a.toNat then .ok (a - b) else panic "arithmetic operation overflow"

def mul (a b : Word) : Except Fault Word :=
  if a.toNat * b.toNat < 2 ^ 256 then .ok (a * b) else panic "arithmetic operation overflow"

def saturatingSub (a b : Word) : Word := if b.toNat ≤ a.toNat then a - b else 0

def bit (w : Word) (index : Nat) : Except Fault Bool :=
  if index < 256 then .ok (w.getLsbD index) else panic "index out of bounds"

/-- `overflowing_pow`, by squaring. -/
def pow (base exp : Word) : Word :=
  ((List.range 256).foldl (fun (acc : Word × Word) i =>
    (if exp.getLsbD i then acc.1 * acc.2 else acc.1, acc.2 * acc.2)) (1, base)).1

/-- The product as a `U512`, which has room for it. -/
def fullMul (a b : Word) : Nat := a.toNat * b.toNat

/-- `a + b` on `U512`, which is 64 bytes. -/
def add512 (a b : Nat) : Except Fault Nat :=
  if a + b < 256 ^ 64 then .ok (a + b) else panic "arithmetic operation overflow"

/-- `a % b` on `U512`. -/
def rem512 (a b : Nat) : Except Fault Nat := if b = 0 then panic "division by zero" else .ok (a % b)

/-- `U256::from_big_endian(&r.to_big_endian()[32..])`. -/
def lowBytes (r : Nat) : Word := fromBytes ((natToBytes 64 r).drop 32)

def mulModulo (a b m : Word) : Except Fault Word := return lowBytes (← rem512 (a.fullMul b) m.toNat)

def addModulo (a b m : Word) : Except Fault Word := do
  let sum ← add512 (a.fullMul 1) (b.fullMul 1)
  return lowBytes (← rem512 sum (m.fullMul 1))

/-- `I256` division; the caller has excluded a zero divisor and `MIN / -1`. -/
def signedDiv (a b : Word) : Word := a.sdiv b

/-- `I256` remainder: as for Rust's integers, `MIN % -1` overflows. -/
def signedRem (a b : Word) : Except Fault Word :=
  if a = BitVec.intMin 256 ∧ b = -1 then panic "attempt to calculate the remainder with overflow"
  else .ok (a.srem b)

/-- `I256 >> n`: as for Rust's integers, an amount of 256 or more overflows. -/
def signedShr (a : Word) (n : Nat) : Except Fault Word :=
  if n < 256 then .ok (a.sshiftRight n) else panic "attempt to shift right with overflow"

def ofBool (b : Bool) : Word := if b then 1 else 0

theorem asU64_ok {w : Word} {n : Nat} (h : w.asU64 = .ok n) : w.toNat < 2 ^ 64 ∧ n = w.toNat := by
  unfold asU64 at h
  split at h
  · next room =>
    cases h
    exact ⟨room, rfl⟩
  · cases h

theorem asU64_error {w : Word} {f : Fault} (h : w.asU64 = .error f) : ∃ why, f = .panic why := by
  unfold asU64 at h
  split at h <;> cases h
  exact ⟨_, rfl⟩

theorem add_ok {a b c : Word} (h : add a b = .ok c) : a.toNat + b.toNat < 2 ^ 256 ∧ c = a + b := by
  unfold add at h
  split at h
  · next room =>
    cases h
    exact ⟨room, rfl⟩
  · cases h

theorem add_error {a b : Word} {f : Fault} (h : add a b = .error f) : ∃ why, f = .panic why := by
  unfold add at h
  split at h <;> cases h
  exact ⟨_, rfl⟩

theorem sub_ok {a b c : Word} (h : sub a b = .ok c) : b.toNat ≤ a.toNat ∧ c = a - b := by
  unfold sub at h
  split at h
  · next room =>
    cases h
    exact ⟨room, rfl⟩
  · cases h

theorem sub_error {a b : Word} {f : Fault} (h : sub a b = .error f) : ∃ why, f = .panic why := by
  unfold sub at h
  split at h <;> cases h
  exact ⟨_, rfl⟩

end Word

/-! ## Address -/

namespace Address

def toWord (a : Address) : Word := a.setWidth 256

def ofWord (w : Word) : Address := w.setWidth 160

def intoBytes (a : Address) : Bytes := natToBytes 20 a.toNat

/-- `Address::try_from(&code[3..])`, on 20 bytes. -/
def fromBytes (b : Bytes) : Address := BitVec.ofNat 160 (natOfBytes b)

end Address

/-! ## Hashing -/

/-- The third-party functions: `tiny_keccak`, `sha2`, `ripemd`, `k256`, `p256`, `ark`. -/
class Crypto where
  keccak256 : Bytes → Word
  sha256 : Bytes → Bytes
  ripemd160 : Bytes → Bytes
  /-- `VerifyingKey::recover_from_prehash` of a message hash, `(r, s)` and a recovery
      id: the 64 bytes of the point. -/
  recoverFromPrehash : Bytes → Nat → Nat → Nat → Option Bytes
  /-- `from_scalars`, `from_encoded_point` and `verify_prehash` all succeed. -/
  p256Verify : Bytes → Bytes → Bytes → Bytes → Bytes → Bool
  /-- BN254 points in affine form, `none` at infinity. -/
  g1Add : Option (Nat × Nat) → Option (Nat × Nat) → Option (Nat × Nat)
  g1Mul : Option (Nat × Nat) → Nat → Option (Nat × Nat)
  /-- On the twist and in the prime-order subgroup. -/
  g2Valid : (Nat × Nat) × (Nat × Nat) → Bool
  multiPairingIsOne : List (Option (Nat × Nat) × Option ((Nat × Nat) × (Nat × Nat))) → Bool
  /-- `verify_kzg_proof`, `none` when a point does not parse. -/
  kzgVerify : Bytes → Bytes → Bytes → Bytes → Option Bool

variable [Crypto]

open Crypto (keccak256)

/-- The hash of no bytes at all (`hash::empty`). -/
def emptyHash : Word := 0xc5d2460186f7233c927e7db2dcc703c0e500b653ca82273b7bfad8045d85a470

/-- The buffer `Address::create` hashes: the RLP list of the creator and its nonce. -/
def createPreimage (a : Address) (nonce : Word) : Bytes :=
  let nonceBytes := nonce.intoBytes.dropWhile (· == 0)
  let single := nonceBytes.length == 1 && nonceBytes.headD 0 < 0x80
  let nonceEncodingLen := if nonceBytes.isEmpty || single then 1 else 1 + nonceBytes.length
  let payloadLen := 1 + a.intoBytes.length + nonceEncodingLen
  let nonceEncoding :=
    if nonceBytes.isEmpty then [0x80]
    else if single then nonceBytes
    else UInt8.ofNat (0x80 + nonceBytes.length) :: nonceBytes
  UInt8.ofNat (0xc0 + payloadLen) :: UInt8.ofNat (0x80 + a.intoBytes.length) :: (a.intoBytes ++ nonceEncoding)

def Address.create (a : Address) (nonce : Word) : Address := .ofWord (keccak256 (createPreimage a nonce))

/-- The buffer `Address::create2` hashes. -/
def create2Preimage (a : Address) (salt : Word) (code : Bytes) : Bytes :=
  0xff :: (a.intoBytes ++ salt.intoBytes ++ (keccak256 code).intoBytes)

def Address.create2 (a : Address) (salt : Word) (code : Bytes) : Address :=
  .ofWord (keccak256 (create2Preimage a salt code))

/-! ## Revert reasons -/

/-- `decode_error_string`: the `string` of an ABI-encoded `Error(string)`. -/
def decodeErrorString (ret : Bytes) : Option String :=
  if ret.length < 4 + 32 + 32 then none
  else
    let offset := natOfBytes ((ret.drop 4).take 32)
    if ret.length < offset then none
    else
      let offset := 4 + 32 + offset
      let size := natOfBytes ((ret.drop (4 + 32)).take 32)
      if ret.length < size then none
      else if ret.length < offset + size then none
      else String.fromUTF8? ⟨((ret.drop offset).take size).toArray⟩

end Solenoid
