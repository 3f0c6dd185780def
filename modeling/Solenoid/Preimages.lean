/-
  Solenoid.Preimages — the buffers that the addresses of creations are hashes of.

  - `create_preimages`: what CREATE hashes is the RLP list of the creator and its nonce, the
    nonce without leading zeros, and tells both; what CREATE2 hashes tells the creator, the
    salt and the hash of the init code; and no buffer is of both kinds.
-/
import Solenoid.Numbers

namespace Solenoid

open Crypto (keccak256)

theorem Address.intoBytes_injective {a b : Address} (h : a.intoBytes = b.intoBytes) : a = b := by
  apply BitVec.eq_of_toNat_eq
  exact natToBytes_injective (by simpa using a.isLt : a.toNat < 256 ^ 20) (by simpa using b.isLt) h

theorem Word.intoBytes_injective {v w : Word} (h : v.intoBytes = w.intoBytes) : v = w := by
  apply BitVec.eq_of_toNat_eq
  exact natToBytes_injective (by simpa using v.isLt : v.toNat < 256 ^ 32) (by simpa using w.isLt) h

/-! ## CREATE -/

/-- The RLP list of the creator and its nonce. -/
def creationList (a : Address) (nonce : Word) : Bytes :=
  Rlp.list [Rlp.string a.intoBytes, Rlp.string (Rlp.bigEndian nonce.toNat)]

@[simp] theorem Address.intoBytes_length (a : Address) : a.intoBytes.length = 20 := natToBytes_length 20 _

theorem nonce_bytes (nonce : Word) : nonce.intoBytes.dropWhile (· == 0) = Rlp.bigEndian nonce.toNat :=
  dropWhile_natToBytes (by simpa using nonce.isLt : nonce.toNat < 256 ^ 32)

theorem nonce_length_le (nonce : Word) : (Rlp.bigEndian nonce.toNat).length ≤ 32 :=
  Rlp.length_bigEndian_le (by simpa using nonce.isLt)

theorem address_string (a : Address) : Rlp.string a.intoBytes = UInt8.ofNat (0x80 + a.intoBytes.length) :: a.intoBytes := by
  have hlong : Rlp.isSingle a.intoBytes = false := by simp [Rlp.isSingle]
  rw [Rlp.string, hlong]
  rfl

/-- The payload is that of a short list. -/
theorem creation_payload_lt (a : Address) (nonce : Word) :
    (Rlp.string a.intoBytes ++ Rlp.string (Rlp.bigEndian nonce.toNat)).length < 56 := by
  have haddress := Rlp.length_string_le a.intoBytes
  have hnonce := Rlp.length_string_le (Rlp.bigEndian nonce.toNat)
  have hlen := nonce_length_le nonce
  rw [a.intoBytes_length] at haddress
  rw [List.length_append]
  omega

/-- The lengths the code computes apart from the bytes are those of the bytes. -/
theorem createPreimage_eq (a : Address) (nonce : Word) : createPreimage a nonce = creationList a nonce := by
  unfold createPreimage creationList Rlp.list
  rw [nonce_bytes, address_string]
  generalize Rlp.bigEndian nonce.toNat = digits
  simp only [List.flatten_cons, List.flatten_nil, List.append_nil]
  match digits with
  | [] => simp [Rlp.string, Rlp.isSingle]
  | [x] =>
    by_cases hx : x < 0x80
    · simp [Rlp.string, Rlp.isSingle, hx]
    · simp [Rlp.string, Rlp.isSingle, hx]
  | x :: y :: rest =>
    simp [Rlp.string, Rlp.isSingle]
    grind

theorem createPreimage_injective {a b : Address} {m n : Word} (h : createPreimage a m = createPreimage b n) :
    a = b ∧ m = n := by
  rw [createPreimage_eq, createPreimage_eq] at h
  have hpayload := (List.cons.inj h).2
  simp only [List.flatten_cons, List.flatten_nil, List.append_nil] at hpayload
  have hshort : ∀ c : Address, c.intoBytes.length < 56 := fun c => by simp
  have hlow : ∀ k : Word, (Rlp.bigEndian k.toNat).length < 56 := fun k => by
    have := nonce_length_le k
    omega
  obtain ⟨haddress, hnonce⟩ := Rlp.string_append_inj (hshort a) (hshort b) hpayload
  refine ⟨Address.intoBytes_injective haddress, ?_⟩
  have hnonce : Rlp.string (Rlp.bigEndian m.toNat) ++ [] = Rlp.string (Rlp.bigEndian n.toNat) ++ [] := by
    rw [List.append_nil, List.append_nil, hnonce]
  exact BitVec.eq_of_toNat_eq (Rlp.bigEndian_injective (Rlp.string_append_inj (hlow m) (hlow n) hnonce).1)

/-! ## CREATE2 -/

variable [Crypto]

theorem create2Preimage_injective {a b : Address} {salt salt' : Word} {code code' : Bytes}
    (h : create2Preimage a salt code = create2Preimage b salt' code') :
    a = b ∧ salt = salt' ∧ keccak256 code = keccak256 code' := by
  obtain ⟨hfront, hhash⟩ := List.append_inj (List.cons.inj h).2 (by simp [Word.intoBytes])
  obtain ⟨haddress, hsalt⟩ := List.append_inj hfront (by simp)
  exact ⟨Address.intoBytes_injective haddress, Word.intoBytes_injective hsalt, Word.intoBytes_injective hhash⟩

/-- A list of less than 56 bytes does not start with 0xff. -/
theorem createPreimage_ne_create2Preimage (a b : Address) (nonce salt : Word) (code : Bytes) :
    createPreimage a nonce ≠ create2Preimage b salt code := by
  intro h
  have hlt := creation_payload_lt a nonce
  rw [createPreimage_eq] at h
  have hfirst := congrArg UInt8.toNat (List.cons.inj h).1
  simp only [List.flatten_cons, List.flatten_nil, List.append_nil] at hfirst
  rw [UInt8.toNat_ofNat'] at hfirst
  have hff : (0xff : UInt8).toNat = 255 := rfl
  omega

/-- The buffer of a CREATE is canonical: a short list, its nonce without leading zeros. -/
structure Canonical (a : Address) (nonce : Word) : Prop where
  encodes : createPreimage a nonce = creationList a nonce
  short : (Rlp.string a.intoBytes ++ Rlp.string (Rlp.bigEndian nonce.toNat)).length < 56
  trimmed : (Rlp.bigEndian nonce.toNat).head? ≠ some 0

/-- The pre-images of addresses are canonical, and each tells what it was made of. -/
theorem create_preimages :
    (∀ a nonce, Canonical a nonce) ∧
    (∀ a b m n, createPreimage a m = createPreimage b n → a = b ∧ m = n) ∧
    (∀ a b nonce salt code, createPreimage a nonce ≠ create2Preimage b salt code) ∧
    ∀ a b salt salt' code code', create2Preimage a salt code = create2Preimage b salt' code' →
      a = b ∧ salt = salt' ∧ keccak256 code = keccak256 code' :=
  ⟨fun a nonce => ⟨createPreimage_eq a nonce, creation_payload_lt a nonce, Rlp.head_bigEndian _⟩,
    fun _ _ _ _ => createPreimage_injective, createPreimage_ne_create2Preimage,
    fun _ _ _ _ _ _ => create2Preimage_injective⟩

end Solenoid
