/-
  Solenoid.Proxy.Cache — `rpc-proxy/src/cache.rs`.

  The databases and the directories are maps, and neither fails; what the file system makes of
  a separator in a name is left out. A block is a file under its hash; its number is a link to
  that file. A text is its characters, and is cut by their bytes; a character of several bytes
  is no digit, as none of these bytes is one. What may panic is an option.
-/
import Mathlib.Logic.Function.Basic
import Solenoid.Word

namespace Solenoid.Proxy

/-! ## Hex -/

/-- `trim_start_matches("0x")`: the prefix goes as often as it is there. -/
def trimStart0x : List Char → List Char
  | '0' :: 'x' :: rest => trimStart0x rest
  | s => s

def clean (s : String) : List Char := trimStart0x s.toList

/-- `str::to_lowercase`, which follows Unicode; of ASCII it lowers the capital letters. -/
class Lowercase where
  toLowercase : List Char → List Char
  ascii : ∀ s : List Char, (∀ c ∈ s, c.toNat < 128) → toLowercase s = s.map Char.toLower

def normalizeHex [Lowercase] (s : String) : String := .ofList (Lowercase.toLowercase (clean s))

/-- `format!("{:0>width$}", s)`. -/
def padLeft (width : Nat) (s : List Char) : List Char := List.replicate (width - s.length) '0' ++ s

def hexValue? (c : Char) : Option UInt8 :=
  if '0' ≤ c ∧ c ≤ '9' then some (c.toNat - '0'.toNat).toUInt8
  else if 'a' ≤ c ∧ c ≤ 'f' then some (c.toNat - 'a'.toNat + 10).toUInt8
  else if 'A' ≤ c ∧ c ≤ 'F' then some (c.toNat - 'A'.toNat + 10).toUInt8
  else none

def hexDigit (n : UInt8) : Char := if n < 10 then .ofNat ('0'.toNat + n.toNat) else .ofNat ('a'.toNat + n.toNat - 10)

/-- `hex::decode`; an odd length or a character that is no digit is an error. -/
def hexDecode? : List Char → Option Bytes
  | [] => some []
  | [_] => none
  | hi :: lo :: rest => do
    let a ← hexValue? hi
    let b ← hexValue? lo
    return (a * 16 + b) :: (← hexDecode? rest)

/-- `hex::decode_to_slice` on zeros: the bytes before the first character that is no digit. -/
def decodeToSlice : Nat → List Char → Bytes
  | n + 1, hi :: lo :: rest =>
    match hexValue? hi, hexValue? lo with
    | some a, some b => (a * 16 + b) :: decodeToSlice n rest
    | _, _ => List.replicate (n + 1) 0
  | n, _ => List.replicate n 0

/-- `hex::encode`. -/
def hexEncode (b : Bytes) : List Char := b.flatMap fun byte => [hexDigit (byte / 16), hexDigit (byte % 16)]

/-- `&s[..n]`: the first `n` bytes; a cut inside of a character or behind the end panics. -/
def sliceTo : Nat → List Char → Option (List Char)
  | 0, _ => some []
  | _ + 1, [] => none
  | n + 1, c :: rest => if c.utf8Size ≤ n + 1 then (sliceTo (n + 1 - c.utf8Size) rest).map (c :: ·) else none

/-- A longer text loses its end. -/
def decodeHexPadded (n : Nat) (s : String) : Option Bytes :=
  (sliceTo (n * 2) (padLeft (n * 2) (clean s))).map (decodeToSlice n)

def pad32 (s : String) : Option Bytes := decodeHexPadded 32 s

def pad20 (s : String) : Option Bytes := decodeHexPadded 20 s

def pad8 (s : String) : Option Bytes := decodeHexPadded 8 s

def storageKey (slot block : String) : Option Bytes := do return (← pad32 slot) ++ (← pad8 block)

def addressBlockKey (address block : String) : Option Bytes := do return (← pad20 address) ++ (← pad8 block)

def decodeHexCompact (s : String) : Bytes :=
  if clean s = [] then [0]
  else (hexDecode? (if (clean s).length % 2 ≠ 0 then '0' :: clean s else clean s)).getD [0]

def encodeQuantity (b : Bytes) : String :=
  let trimmed := (hexEncode b).dropWhile (· = '0')
  if trimmed = [] then "0x0" else .ofList ('0' :: 'x' :: trimmed)

def encodeData32 (b : Bytes) : String := .ofList ('0' :: 'x' :: padLeft 64 (hexEncode b))

/-! ## The stores -/

/-- A database, or the files of a directory. -/
abbrev Store (κ ν : Type) := κ → Option ν

def Store.insert {κ ν : Type} [DecidableEq κ] (s : Store κ ν) (k : κ) (v : ν) : Store κ ν := Function.update s k (some v)

/-- The storage databases are one by address. -/
structure Cache where
  storage : Store (String × Bytes) Bytes := fun _ => none
  balance : Store Bytes Bytes := fun _ => none
  nonce : Store Bytes Bytes := fun _ => none
  code : Store String String := fun _ => none
  blocks : Store String String := fun _ => none
  links : Store String String := fun _ => none
  txs : Store String String := fun _ => none
  receipts : Store String String := fun _ => none

namespace Cache

variable [Lowercase] (c : Cache)

def getStorageAt (address slot block : String) : Option (Option String) := do
  let key ← storageKey slot block
  return (c.storage (normalizeHex address, key)).map encodeData32

def putStorageAt (address slot block value : String) : Option Cache := do
  let key ← storageKey slot block
  let word ← pad32 value
  return { c with storage := c.storage.insert (normalizeHex address, key) word }

def getBalance (address block : String) : Option (Option String) := do
  let key ← addressBlockKey address block
  return (c.balance key).map encodeQuantity

def putBalance (address block value : String) : Option Cache := do
  let key ← addressBlockKey address block
  return { c with balance := c.balance.insert key (decodeHexCompact value) }

def getTxCount (address block : String) : Option (Option String) := do
  let key ← addressBlockKey address block
  return (c.nonce key).map encodeQuantity

def putTxCount (address block value : String) : Option Cache := do
  let key ← addressBlockKey address block
  return { c with nonce := c.nonce.insert key (decodeHexCompact value) }

/-- Code is kept by address alone. -/
def getCode (address : String) : Option String := c.code (normalizeHex address)

def putCode (address hexCode : String) : Cache := { c with code := c.code.insert (normalizeHex address) hexCode }

def getBlockByHash (hash : String) : Option String := c.blocks (normalizeHex hash)

def putBlock (hash number json : String) : Cache :=
  { c with
    blocks := c.blocks.insert (normalizeHex hash) json
    links := c.links.insert (normalizeHex number) (normalizeHex hash) }

/-- The link is followed. -/
def getBlockByNumber (number : String) : Option String := (c.links (normalizeHex number)).bind c.blocks

def getTx (hash : String) : Option String := c.txs (normalizeHex hash)

def putTx (hash json : String) : Cache := { c with txs := c.txs.insert (normalizeHex hash) json }

def getReceipt (hash : String) : Option String := c.receipts (normalizeHex hash)

def putReceipt (hash json : String) : Cache := { c with receipts := c.receipts.insert (normalizeHex hash) json }

end Cache

end Solenoid.Proxy
