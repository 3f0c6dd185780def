/-
  Solenoid.Precompiles — `precompiles.rs`, over the third-party arithmetic of `Crypto`.

  `execute` fails with a report where the Rust returns `Err`, and panics where it aborts:
  a high `s` above the group order (`BigUint` subtraction), and `Affine::new` of a BN254
  point off its curve.
-/
import Solenoid.Lib.Rlp
import Solenoid.Word

namespace Solenoid.Precompiles

variable [Crypto]

/-- EIP-7823: the longest input field of MODEXP. -/
def modexpMaxInputLen : Nat := 1024

/-- 0x01 to 0x0a, and 0x100 (P256VERIFY). -/
def isPrecompile (address : Address) : Bool :=
  (1 ≤ address.toNat && address.toNat ≤ 10) || address.toNat == 0x100

/-- `input[start..start + len]`, of an input known to be long enough. -/
def field (input : Bytes) (start len : Nat) : Bytes := (input.drop start).take len

def fieldNat (input : Bytes) (start len : Nat) : Nat := natOfBytes (field input start len)

/-- `resize(n, 0)` when shorter. -/
def padTo (n : Nat) (input : Bytes) : Bytes := input ++ List.replicate (n - input.length) 0

/-! ## Signatures -/

def secp256k1N : Nat := 0xFFFFFFFFFFFFFFFFFFFFFFFFFFFFFFFEBAAEDCE6AF48A03BBFD25E8CD0364141

def secp256k1NHalf : Nat := 0x7FFFFFFFFFFFFFFFFFFFFFFFFFFFFFFF5D576E7357A4501DDFE92F46681B20A0

/-- A high `s` is replaced by `n - s` and the recovery id flipped. -/
def normalize (s recoveryId : Nat) : Except Fault (Nat × Nat) :=
  if secp256k1NHalf < s then
    if secp256k1N < s then panic "Cannot subtract b from a because b is larger than a."
    else .ok (secp256k1N - s, recoveryId ^^^ 1)
  else .ok (s, recoveryId)

def ecrecover (input : Bytes) : Except Fault Bytes := do
  if input.length ≠ 128 then return List.replicate 32 0
  let vByte := (input.getD 63 0).toNat
  if vByte ≠ 27 ∧ vByte ≠ 28 then return List.replicate 32 0
  let r := fieldNat input 64 32
  let (s, recoveryId) ← normalize (fieldNat input 96 32) (vByte - 27)
  -- `Signature::from_slice`
  if r = 0 ∨ secp256k1N ≤ r ∨ s = 0 ∨ secp256k1N ≤ s then bail (.precompile "Invalid signature")
  else
    match Crypto.recoverFromPrehash (field input 0 32) r s recoveryId with
    | none => bail (.precompile "Failed to recover public key")
    | some pubkey => return List.replicate 12 0 ++ (Crypto.keccak256 pubkey).intoBytes.drop 12

def p256verify (input : Bytes) : Except Fault Bytes :=
  if input.length ≠ 160 then .ok []
  else if Crypto.p256Verify (field input 0 32) (field input 32 32) (field input 64 32) (field input 96 32)
      (field input 128 32) then .ok (List.replicate 31 0 ++ [1])
  else .ok []

/-! ## Hashes -/

def sha256 (input : Bytes) : Except Fault Bytes := .ok (Crypto.sha256 input)

def ripemd160 (input : Bytes) : Except Fault Bytes := .ok (List.replicate 12 0 ++ Crypto.ripemd160 input)

def identity (input : Bytes) : Except Fault Bytes := .ok input

/-! ## MODEXP -/

/-- `try_into().unwrap_or(0)` of a declared length. -/
def declaredLen (input : Bytes) (start : Nat) : Nat :=
  let n := fieldNat input start 32
  if n < 2 ^ 64 then n else 0

/-- `BigUint::to_bytes_be`: the digits, of which zero has one. -/
def toBytesBe (n : Nat) : Bytes := if n = 0 then [0] else Rlp.bigEndian n

def modexp (input : Bytes) : Except Fault Bytes :=
  if input.length < 96 then .ok []
  else
    let baseLen := declaredLen input 0
    let expLen := declaredLen input 32
    let modLen := declaredLen input 64
    if modexpMaxInputLen < baseLen ∨ modexpMaxInputLen < expLen ∨ modexpMaxInputLen < modLen then
      bail (.precompile "MODEXP input exceeds EIP-7823 size limit")
    else if input.length < baseLen + expLen + modLen + 96 then .ok []
    else
      let base := fieldNat input 96 baseLen
      let exp := fieldNat input (96 + baseLen) expLen
      let modulus := fieldNat input (96 + baseLen + expLen) modLen
      if modulus = 0 then .ok (List.replicate modLen 0)
      else
        let resultBytes := toBytesBe (base ^ exp % modulus)
        .ok (if resultBytes.length < modLen then List.replicate (modLen - resultBytes.length) 0 ++ resultBytes
          else resultBytes)

/-- `byte.leading_zeros()`. -/
def leadingZeros (byte : UInt8) : Nat := if byte = 0 then 8 else 7 - byte.toNat.log2

/-- The bit length of a big-endian number, from its first byte that is not zero. -/
def bitLen : Bytes → Nat
  | [] => 0
  | byte :: rest => if byte ≠ 0 then rest.length * 8 + (8 - leadingZeros byte) else bitLen rest

def modexpIterationCount (input : Bytes) (baseLen expLen : Nat) : Nat :=
  if expLen ≤ 32 ∧ 96 + baseLen + expLen ≤ input.length then
    let expBytes := field input (96 + baseLen) expLen
    if expBytes.all (· == 0) then 0 else bitLen expBytes - 1
  else if 32 < expLen then
    if 96 + baseLen + 32 ≤ input.length then 16 * (expLen - 32) + (bitLen (field input (96 + baseLen) 32) - 1)
    else 16 * (expLen - 32)
  else 1

def modexpGasCost (input : Bytes) : Nat :=
  if input.length < 96 then 500
  else
    let baseLen := declaredLen input 0
    let expLen := declaredLen input 32
    let modLen := declaredLen input 64
    if modexpMaxInputLen < baseLen ∨ modexpMaxInputLen < expLen ∨ modexpMaxInputLen < modLen then 2 ^ 64 - 1
    else
      let words := divCeil (max baseLen modLen) 8
      max (words * words * max (modexpIterationCount input baseLen expLen) 1) 500

/-! ## BN254 -/

def bn254P : Nat := 21888242871839275222246405745257275088696311157297823662689037894645226208583

def bn254R : Nat := 21888242871839275222246405745257275088548364400416034343698204186575808495617

abbrev G1 := Option (Nat × Nat)
abbrev G2 := Option ((Nat × Nat) × (Nat × Nat))

/-- The point of two coordinates: both zero is infinity, else they are reduced and
    `G1Affine::new` asserts the curve equation. -/
def g1Point (x y : Nat) : Except Fault G1 :=
  if x = 0 ∧ y = 0 then .ok none
  else
    let x := x % bn254P
    let y := y % bn254P
    if y * y % bn254P = (x * x * x + 3) % bn254P then .ok (some (x, y)) else panic "assertion failed: p.is_on_curve()"

def g2Point (x y : Nat × Nat) : Except Fault G2 :=
  if x = (0, 0) ∧ y = (0, 0) then .ok none
  else
    let p := ((x.1 % bn254P, x.2 % bn254P), (y.1 % bn254P, y.2 % bn254P))
    if Crypto.g2Valid p then .ok (some p) else panic "assertion failed: p.is_on_curve()"

def g1Bytes : G1 → Bytes
  | none => List.replicate 64 0
  | some (x, y) => natToBytes 32 x ++ natToBytes 32 y

def bn128Add (input : Bytes) : Except Fault Bytes := do
  let input := padTo 128 input
  let p1 ← g1Point (fieldNat input 0 32) (fieldNat input 32 32)
  let p2 ← g1Point (fieldNat input 64 32) (fieldNat input 96 32)
  return g1Bytes (Crypto.g1Add p1 p2)

def bn128Mul (input : Bytes) : Except Fault Bytes := do
  let input := padTo 96 input
  let point ← g1Point (fieldNat input 0 32) (fieldNat input 32 32)
  return g1Bytes (Crypto.g1Mul point (fieldNat input 64 32 % bn254R))

/-- One 192-byte pair; the G2 coordinates come imaginary part first. -/
def pairAt (input : Bytes) (offset : Nat) : Except Fault (G1 × G2) := do
  let word i := fieldNat input (offset + 32 * i) 32
  let g1 ← g1Point (word 0) (word 1)
  let g2 ← g2Point (word 3, word 2) (word 5, word 4)
  return (g1, g2)

def bn128Pairing (input : Bytes) : Except Fault Bytes := do
  if input.length % 192 ≠ 0 then bail (.precompile "Invalid input length for pairing")
  else
    let pairs ← (List.range (input.length / 192)).mapM fun i => pairAt input (i * 192)
    if pairs.isEmpty || Crypto.multiPairingIsOne pairs then return List.replicate 31 0 ++ [1]
    else return List.replicate 32 0

/-! ## BLAKE2f -/

def blake2fIV : List UInt64 :=
  [0x6a09e667f3bcc908, 0xbb67ae8584caa73b, 0x3c6ef372fe94f82b, 0xa54ff53a5f1d36f1,
   0x510e527fade682d1, 0x9b05688c2b3e6c1f, 0x1f83d9abfb41bd6b, 0x5be0cd19137e2179]

def blake2fSigma : List (List Nat) :=
  [[0, 1, 2, 3, 4, 5, 6, 7, 8, 9, 10, 11, 12, 13, 14, 15],
   [14, 10, 4, 8, 9, 15, 13, 6, 1, 12, 0, 2, 11, 7, 5, 3],
   [11, 8, 12, 0, 5, 2, 15, 13, 10, 14, 3, 6, 7, 1, 9, 4],
   [7, 9, 3, 1, 13, 12, 11, 14, 2, 6, 5, 10, 4, 0, 15, 8],
   [9, 0, 5, 7, 2, 4, 10, 15, 14, 1, 11, 12, 6, 8, 3, 13],
   [2, 12, 6, 10, 0, 11, 8, 3, 4, 13, 7, 5, 15, 14, 1, 9],
   [12, 5, 1, 15, 14, 13, 4, 10, 0, 7, 6, 3, 9, 2, 8, 11],
   [13, 11, 7, 14, 12, 1, 3, 9, 5, 0, 15, 4, 8, 6, 2, 10],
   [6, 15, 14, 9, 11, 3, 0, 8, 12, 2, 13, 7, 1, 4, 10, 5],
   [10, 2, 8, 4, 7, 6, 1, 5, 15, 11, 9, 14, 3, 12, 13, 0],
   [0, 1, 2, 3, 4, 5, 6, 7, 8, 9, 10, 11, 12, 13, 14, 15],
   [14, 10, 4, 8, 9, 15, 13, 6, 1, 12, 0, 2, 11, 7, 5, 3]]

def rotateRight (x : UInt64) (n : UInt64) : UInt64 := (x >>> n) ||| (x <<< (64 - n))

def mix (v : List UInt64) (a b c d : Nat) (x y : UInt64) : List UInt64 :=
  let at_ (v : List UInt64) i := v.getD i 0
  let v := v.set a (at_ v a + at_ v b + x)
  let v := v.set d (rotateRight (at_ v d ^^^ at_ v a) 32)
  let v := v.set c (at_ v c + at_ v d)
  let v := v.set b (rotateRight (at_ v b ^^^ at_ v c) 24)
  let v := v.set a (at_ v a + at_ v b + y)
  let v := v.set d (rotateRight (at_ v d ^^^ at_ v a) 16)
  let v := v.set c (at_ v c + at_ v d)
  v.set b (rotateRight (at_ v b ^^^ at_ v c) 63)

def blake2fRound (m : List UInt64) (round : Nat) (v : List UInt64) : List UInt64 :=
  let s := blake2fSigma.getD (round % 12) []
  let word i := m.getD (s.getD i 0) 0
  let v := mix v 0 4 8 12 (word 0) (word 1)
  let v := mix v 1 5 9 13 (word 2) (word 3)
  let v := mix v 2 6 10 14 (word 4) (word 5)
  let v := mix v 3 7 11 15 (word 6) (word 7)
  let v := mix v 0 5 10 15 (word 8) (word 9)
  let v := mix v 1 6 11 12 (word 10) (word 11)
  let v := mix v 2 7 8 13 (word 12) (word 13)
  mix v 3 4 9 14 (word 14) (word 15)

/-- Rounds `0 .. rounds`, in order. -/
def blake2fRounds (m : List UInt64) : Nat → List UInt64 → List UInt64
  | 0, v => v
  | n + 1, v => blake2fRound m n (blake2fRounds m n v)

def blake2fCompression (h m t : List UInt64) (f : Bool) (rounds : Nat) : List UInt64 :=
  let v := h ++ blake2fIV
  let v := v.set 12 (v.getD 12 0 ^^^ t.getD 0 0)
  let v := v.set 13 (v.getD 13 0 ^^^ t.getD 1 0)
  let v := if f then v.set 14 (~~~(v.getD 14 0)) else v
  let v := blake2fRounds m rounds v
  (List.range 8).map fun i => h.getD i 0 ^^^ (v.getD i 0 ^^^ v.getD (i + 8) 0)

/-- `u64::from_le_bytes` of `n` words from `start`. -/
def leWords (input : Bytes) (start n : Nat) : List UInt64 :=
  (List.range n).map fun i => UInt64.ofNat (natOfBytes (field input (start + i * 8) 8).reverse)

def blake2f (input : Bytes) : Except Fault Bytes :=
  if input.length ≠ 213 then bail (.precompile "Invalid input length for Blake2f")
  else
    let result := blake2fCompression (leWords input 4 8) (leWords input 68 16) (leWords input 196 2)
      (input.getD 212 0 != 0) (fieldNat input 0 4)
    .ok (result.flatMap fun x => (natToBytes 8 x.toNat).reverse)

def blake2fGasCost (input : Bytes) : Nat := if input.length < 4 then 0 else fieldNat input 0 4

/-! ## KZG -/

/-- `FIELD_ELEMENTS_PER_BLOB ++ BLS_MODULUS`. -/
def kzgOutput : Bytes :=
  natToBytes 32 0x1000 ++ natToBytes 32 0x73eda753299d7d483339d80809a1d80553bda402fffe5bfeffffffff00000001

def kzgPointEvaluation (input : Bytes) : Except Fault Bytes :=
  if input.length ≠ 192 then bail (.precompile "Invalid input length for KZG point evaluation")
  else
    match Crypto.kzgVerify (field input 96 48) (field input 32 32) (field input 64 32) (field input 144 48) with
    | none => bail (.precompile "Invalid point")
    | some false => bail (.precompile "KZG proof verification failed")
    | some true => .ok kzgOutput

/-! ## Dispatch -/

def execute (address : Address) (input : Bytes) : Except Fault Bytes :=
  if address.toNat = 0x100 then p256verify input
  else
    match address.toNat % 256 with
    | 1 => ecrecover input
    | 2 => sha256 input
    | 3 => ripemd160 input
    | 4 => identity input
    | 5 => modexp input
    | 6 => bn128Add input
    | 7 => bn128Mul input
    | 8 => bn128Pairing input
    | 9 => blake2f input
    | 10 => kzgPointEvaluation input
    | _ => bail (.precompile "Invalid precompile address")

/-- A `u64` cast to `i64`: the refusal of an oversized MODEXP (`u64::MAX`) reads as -1. -/
def gasCost (address : Address) (input : Bytes) : Int :=
  if address.toNat = 0x100 then 6900
  else
    let words := divCeil input.length 32
    usizeAsI64 (match address.toNat % 256 with
      | 1 => 3000
      | 2 => 60 + 12 * words
      | 3 => 600 + 120 * words
      | 4 => 15 + 3 * words
      | 5 => modexpGasCost input
      | 6 => 150
      | 7 => 6000
      | 8 => 45000 + 34000 * (input.length / 192)
      | 9 => blake2fGasCost input
      | 10 => 50000
      | _ => 0)

end Solenoid.Precompiles
