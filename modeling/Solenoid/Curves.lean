/-
  Solenoid.Curves — the curve precompiles, against EIP-196, EIP-197 and the ECRECOVER of the
  Yellow Paper.

  - `bn254_validation`: `Affine::new` is given whatever the input holds, reduced. So a point off
    its curve panics, and a coordinate above the field modulus is taken for its remainder: no
    invalid point is ever refused; only a pairing input of a wrong length is.
  - `ecrecover_recovers`: only the last byte of `v` is read, an `s` above the group order
    panics, an `r` or `s` out of range and a failed recovery are reports, and an input of
    another length than 128 is not padded or cut.
-/
import Solenoid.Inputs
import Solenoid.Executor

namespace Solenoid.Precompiles

variable {α β : Type} {input : Bytes} {x y : Nat}

/-! ## Panics and reports -/

/-- It succeeds or panics. -/
def Unreported (run : Except Fault α) : Prop := ∀ r, run ≠ .error (.report r)

theorem unreported_ok (a : α) : Unreported (.ok a) := fun _ h => nomatch h

theorem unreported_panic (why : String) : Unreported (panic why : Except Fault α) := fun _ h => nomatch h

theorem Unreported.bind {run : Except Fault α} {f : α → Except Fault β} (hrun : Unreported run)
    (hf : ∀ a, Unreported (f a)) : Unreported (run >>= f) := by
  intro r h
  cases run with
  | ok a => exact hf a r h
  | error e =>
    cases h
    exact hrun r rfl

theorem unreported_mapM {f : α → Except Fault β} (hf : ∀ a, Unreported (f a)) : ∀ l : List α, Unreported (l.mapM f)
  | [] => unreported_ok _
  | a :: l => by
    rw [List.mapM_cons]
    exact (hf a).bind fun _ => (unreported_mapM hf l).bind fun _ => unreported_ok _

theorem mapM_ok {f : α → Except Fault β} : ∀ {l : List α}, (∀ a ∈ l, ∃ b, f a = .ok b) → ∃ bs, l.mapM f = .ok bs
  | [], _ => ⟨[], rfl⟩
  | a :: l, h => by
    obtain ⟨b, hb⟩ := h a List.mem_cons_self
    obtain ⟨bs, hbs⟩ := mapM_ok fun a' ha' => h a' (List.mem_cons_of_mem a ha')
    refine ⟨b :: bs, ?_⟩
    rw [List.mapM_cons, hb, hbs]
    rfl

/-- A precompile that accepts the valid inputs, and refuses the others with a report. -/
structure Screens (run : Except Fault Bytes) (valid : Prop) : Prop where
  accepted : valid → ∃ out, run = .ok out
  refused : ¬valid → ∃ r, run = .error (.report r)

/-- One that reports nothing screens only what is valid. -/
theorem screens_iff_valid {run : Except Fault Bytes} {valid : Prop} (haccepted : valid → ∃ out, run = .ok out)
    (hrun : Unreported run) : Screens run valid ↔ valid := by
  constructor
  · intro h
    by_contra hnot
    obtain ⟨r, hr⟩ := h.refused hnot
    exact hrun r hr
  · exact fun hvalid => ⟨haccepted, fun hnot => absurd hvalid hnot⟩

/-! ## Points of BN254 -/

/-- Two coordinates that encode a point of G1. -/
structure OnG1 (x y : Nat) : Prop where
  x_lt : x < bn254P
  y_lt : y < bn254P
  curve : (x = 0 ∧ y = 0) ∨ y * y % bn254P = (x * x * x + 3) % bn254P

/-- Two pairs of coordinates that encode a point of G2. -/
structure OnG2 [Crypto] (x y : Nat × Nat) : Prop where
  x_lt : x.1 < bn254P ∧ x.2 < bn254P
  y_lt : y.1 < bn254P ∧ y.2 < bn254P
  curve : (x = (0, 0) ∧ y = (0, 0)) ∨ Crypto.g2Valid (x, y) = true

theorem g1Point_ok (h : OnG1 x y) : ∃ p, g1Point x y = .ok p := by
  unfold g1Point
  by_cases hzero : x = 0 ∧ y = 0
  · rw [if_pos hzero]
    exact ⟨_, rfl⟩
  · have hcurve := h.curve.resolve_left hzero
    rw [if_neg hzero, Nat.mod_eq_of_lt h.x_lt, Nat.mod_eq_of_lt h.y_lt]
    exact ⟨_, if_pos hcurve⟩

theorem unreported_g1Point (x y : Nat) : Unreported (g1Point x y) := by
  unfold g1Point
  split
  · exact unreported_ok _
  · dsimp only
    split
    · exact unreported_ok _
    · exact unreported_panic _

section

variable [Crypto]

theorem g2Point_ok {x y : Nat × Nat} (h : OnG2 x y) : ∃ p, g2Point x y = .ok p := by
  unfold g2Point
  by_cases hzero : x = (0, 0) ∧ y = (0, 0)
  · rw [if_pos hzero]
    exact ⟨_, rfl⟩
  · have hcurve := h.curve.resolve_left hzero
    rw [if_neg hzero, Nat.mod_eq_of_lt h.x_lt.1, Nat.mod_eq_of_lt h.x_lt.2, Nat.mod_eq_of_lt h.y_lt.1,
      Nat.mod_eq_of_lt h.y_lt.2]
    exact ⟨_, if_pos hcurve⟩

theorem unreported_g2Point (x y : Nat × Nat) : Unreported (g2Point x y) := by
  unfold g2Point
  split
  · exact unreported_ok _
  · dsimp only
    split
    · exact unreported_ok _
    · exact unreported_panic _

/-! ## Validation -/

/-- The inputs EIP-196 has ADD accept. -/
structure AddValid (input : Bytes) : Prop where
  first : OnG1 (wordAt input 0 32) (wordAt input 32 32)
  second : OnG1 (wordAt input 64 32) (wordAt input 96 32)

/-- And MUL. -/
def MulValid (input : Bytes) : Prop := OnG1 (wordAt input 0 32) (wordAt input 32 32)

/-- The inputs EIP-197 has the pairing accept. -/
structure PairingValid (input : Bytes) : Prop where
  length : input.length % 192 = 0
  g1 : ∀ i < input.length / 192, OnG1 (wordAt input (i * 192) 32) (wordAt input (i * 192 + 32) 32)
  g2 : ∀ i < input.length / 192, OnG2 (wordAt input (i * 192 + 96) 32, wordAt input (i * 192 + 64) 32)
    (wordAt input (i * 192 + 160) 32, wordAt input (i * 192 + 128) 32)

theorem bn128Add_screens (input : Bytes) : Screens (bn128Add input) (AddValid input) ↔ AddValid input := by
  refine screens_iff_valid (fun h => ?_) ?_
  · unfold bn128Add
    dsimp only
    rw [fieldNat_padTo (by omega), fieldNat_padTo (by omega), fieldNat_padTo (by omega), fieldNat_padTo (by omega)]
    obtain ⟨p, hp⟩ := g1Point_ok h.first
    obtain ⟨q, hq⟩ := g1Point_ok h.second
    rw [hp, hq]
    exact ⟨_, rfl⟩
  · exact (unreported_g1Point _ _).bind fun _ => (unreported_g1Point _ _).bind fun _ => unreported_ok _

theorem bn128Mul_screens (input : Bytes) : Screens (bn128Mul input) (MulValid input) ↔ MulValid input := by
  refine screens_iff_valid (fun h => ?_) ?_
  · unfold bn128Mul
    dsimp only
    rw [fieldNat_padTo (by omega), fieldNat_padTo (by omega), fieldNat_padTo (by omega)]
    obtain ⟨p, hp⟩ := g1Point_ok h
    rw [hp]
    exact ⟨_, rfl⟩
  · exact (unreported_g1Point _ _).bind fun _ => unreported_ok _

theorem unreported_pairAt (input : Bytes) (offset : Nat) : Unreported (pairAt input offset) :=
  (unreported_g1Point _ _).bind fun _ => (unreported_g2Point _ _).bind fun _ => unreported_ok _

/-- The pairs of a valid input are all read. -/
theorem pairs_ok (h : PairingValid input) :
    ∃ pairs, ((List.range (input.length / 192)).mapM fun i => pairAt input (i * 192)) = .ok pairs := by
  refine mapM_ok fun i hi => ?_
  have hlt := List.mem_range.1 hi
  have hwithin : i * 192 + 192 ≤ input.length := by
    have := h.length
    omega
  obtain ⟨p, hp⟩ := g1Point_ok (h.g1 i hlt)
  obtain ⟨q, hq⟩ := g2Point_ok (h.g2 i hlt)
  rw [wordAt_of_le (by omega), wordAt_of_le (by omega)] at hp
  rw [wordAt_of_le (by omega), wordAt_of_le (by omega), wordAt_of_le (by omega), wordAt_of_le (by omega)] at hq
  refine ⟨(p, q), ?_⟩
  show (g1Point (fieldNat input (i * 192) 32) (fieldNat input (i * 192 + 32) 32) >>= fun g1 =>
    g2Point (fieldNat input (i * 192 + 96) 32, fieldNat input (i * 192 + 64) 32)
      (fieldNat input (i * 192 + 160) 32, fieldNat input (i * 192 + 128) 32) >>= fun g2 => pure (g1, g2)) = .ok (p, q)
  rw [hp]
  show (g2Point _ _ >>= fun g2 => pure (p, g2)) = _
  rw [hq]
  rfl

theorem bn128Pairing_screens (input : Bytes) :
    Screens (bn128Pairing input) (PairingValid input) ↔ input.length % 192 ≠ 0 ∨ PairingValid input := by
  by_cases hlen : input.length % 192 ≠ 0
  · refine ⟨fun _ => .inl hlen, fun _ => ⟨fun h => absurd h.length hlen, fun _ => ?_⟩⟩
    unfold bn128Pairing
    rw [if_pos hlen]
    exact ⟨_, rfl⟩
  · have hvalid : input.length % 192 ≠ 0 ∨ PairingValid input ↔ PairingValid input := or_iff_right hlen
    rw [hvalid]
    unfold bn128Pairing
    rw [if_neg hlen]
    refine screens_iff_valid (fun h => ?_) ?_
    · obtain ⟨pairs, hpairs⟩ := pairs_ok h
      rw [hpairs]
      by_cases hone : (pairs.isEmpty || Crypto.multiPairingIsOne pairs) = true
      · exact ⟨_, if_pos hone⟩
      · exact ⟨_, if_neg hone⟩
    · refine (unreported_mapM (fun i => unreported_pairAt input (i * 192)) _).bind fun pairs => ?_
      split
      · exact unreported_ok _
      · exact unreported_ok _

/-- The BN254 precompiles accept what is valid, and refuse nothing else: all they refuse is a
    pairing input of a wrong length. -/
theorem bn254_validation (input : Bytes) :
    (Screens (execute 6 input) (AddValid input) ↔ AddValid input) ∧
      (Screens (execute 7 input) (MulValid input) ↔ MulValid input) ∧
      (Screens (execute 8 input) (PairingValid input) ↔ input.length % 192 ≠ 0 ∨ PairingValid input) :=
  ⟨bn128Add_screens input, bn128Mul_screens input, bn128Pairing_screens input⟩

/-! ## Recovery -/

/-- What ECRECOVER returns when nothing is recovered. -/
def noAddress : Bytes := List.replicate 32 0

/-- The address of a recovered key. -/
def addressOf (pubkey : Bytes) : Bytes := List.replicate 12 0 ++ (Crypto.keccak256 pubkey).intoBytes.drop 12

/-- The address that signed, for a recovery id of `v - 27`: a high `s` is another encoding of
    the low one that recovers with the other id. -/
def signer (input : Bytes) (v : Nat) : Option Bytes :=
  let r := wordAt input 64 32
  let s := wordAt input 96 32
  if (v = 27 ∨ v = 28) ∧ (0 < r ∧ r < secp256k1N) ∧ (0 < s ∧ s < secp256k1N) then
    let low := if secp256k1NHalf < s then (secp256k1N - s, (v - 27) ^^^ 1) else (s, v - 27)
    (Crypto.recoverFromPrehash (window input 0 32) r low.1 low.2).map addressOf
  else none

/-- The address of the whole `v`. -/
def recovered (input : Bytes) : Option Bytes := signer input (wordAt input 32 32)

/-- The same hash and `r`, under the other `v` and `s`. -/
def twin (input : Bytes) : Bytes :=
  window input 0 32 ++ natToBytes 32 (55 - wordAt input 32 32) ++ window input 64 32 ++
    natToBytes 32 (secp256k1N - wordAt input 96 32)

/-- ECRECOVER returns the address, if there is one, and the same one for both encodings. -/
structure Recovers (input : Bytes) : Prop where
  returned : ecrecover input = .ok ((recovered input).getD noAddress)
  twin : ∀ a, recovered input = some a → ecrecover (twin input) = ecrecover input

/-- The inputs that the code answers as it should. -/
structure Answered (input : Bytes) : Prop where
  whole : input.length = 128 → wordAt input 32 32 % 256 = 27 ∨ wordAt input 32 32 % 256 = 28 →
    ∃ a, signer input (wordAt input 32 32 % 256) = some a ∧ (wordAt input 32 32 < 256 ∨ a = noAddress)
  cut : input.length ≠ 128 → ∀ a, recovered input = some a → a = noAddress

omit [Crypto] in
theorem secp256k1N_eq : secp256k1N = 2 * secp256k1NHalf + 1 := by decide

omit [Crypto] in
theorem flip_flip {v : Nat} (hv : v = 27 ∨ v = 28) : 55 - v - 27 = (v - 27) ^^^ 1 ∧ (55 - v - 27) ^^^ 1 = v - 27 := by
  rcases hv with rfl | rfl
  · decide
  · decide

omit [Crypto] in
/-- The last byte of `v`. -/
theorem vByte_eq (hlen : input.length = 128) : (input.getD 63 0).toNat = wordAt input 32 32 % 256 := by
  have hlast : field input 32 32 = field input 32 31 ++ [input.getD 63 0] := by
    have hget : (input.drop 32)[31]? = some (input.getD 63 0) := by
      rw [List.getElem?_drop, List.getD_eq_getElem?_getD, List.getElem?_eq_getElem (by omega), Option.getD_some]
    show (input.drop 32).take (31 + 1) = _
    rw [List.take_add_one, hget]
    rfl
  rw [wordAt_of_le (by omega), fieldNat, hlast, natOfBytes_concat]
  have := (input.getD 63 0).toNat_lt
  omega

/-- The code after the normalisation: the range of `r` and `s`, and the recovery. -/
theorem recovery_toOption (hash : Bytes) (r s recoveryId : Nat) :
    Except.toOption (if r = 0 ∨ secp256k1N ≤ r ∨ s = 0 ∨ secp256k1N ≤ s then bail (.precompile "Invalid signature")
      else
        match Crypto.recoverFromPrehash hash r s recoveryId with
        | none => bail (.precompile "Failed to recover public key")
        | some pubkey => pure (addressOf pubkey)) =
      if (0 < r ∧ r < secp256k1N) ∧ 0 < s ∧ s < secp256k1N then
        (Crypto.recoverFromPrehash hash r s recoveryId).map addressOf
      else none := by
  by_cases hvalid : (0 < r ∧ r < secp256k1N) ∧ 0 < s ∧ s < secp256k1N
  · rw [if_neg (by omega), if_pos hvalid]
    cases Crypto.recoverFromPrehash hash r s recoveryId with
    | none => rfl
    | some pubkey => rfl
  · rw [if_pos (by omega), if_neg hvalid]
    rfl

/-- Of a whole input the code returns what the last byte of `v` recovers, and fails without. -/
theorem ecrecover_toOption (hlen : input.length = 128)
    (hv : wordAt input 32 32 % 256 = 27 ∨ wordAt input 32 32 % 256 = 28) :
    (ecrecover input).toOption = signer input (wordAt input 32 32 % 256) := by
  have hn := secp256k1N_eq
  have hbyte := vByte_eq hlen
  unfold ecrecover signer
  dsimp only
  rw [if_neg (not_not.2 hlen), hbyte, if_neg (by omega), wordAt_of_le (show 64 + 32 ≤ input.length by omega),
    wordAt_of_le (show 96 + 32 ≤ input.length by omega), window_of_le (show 0 + 32 ≤ input.length by omega)]
  generalize fieldNat input 64 32 = r
  generalize fieldNat input 96 32 = s
  generalize wordAt input 32 32 % 256 = v at hv
  unfold normalize
  by_cases hhigh : secp256k1NHalf < s
  · rw [if_pos hhigh, if_pos hhigh]
    by_cases hover : secp256k1N < s
    · rw [if_pos hover, if_neg (by omega)]
      rfl
    · rw [if_neg hover]
      refine (recovery_toOption (field input 0 32) r (secp256k1N - s) ((v - 27) ^^^ 1)).trans ?_
      exact if_congr (by omega) rfl rfl
  · rw [if_neg hhigh, if_neg hhigh]
    refine (recovery_toOption (field input 0 32) r s (v - 27)).trans ?_
    exact if_congr (by omega) rfl rfl

/-- The others get no address. -/
theorem ecrecover_else (h : input.length = 128 → ¬(wordAt input 32 32 % 256 = 27 ∨ wordAt input 32 32 % 256 = 28)) :
    ecrecover input = .ok noAddress := by
  unfold ecrecover
  dsimp only
  by_cases hlen : input.length = 128
  · have hbyte := vByte_eq hlen
    have hv := h hlen
    rw [if_neg (not_not.2 hlen), if_pos (by omega)]
    rfl
  · rw [if_pos hlen]
    rfl

/-! ## The two encodings -/

omit [Crypto] in
theorem field_middle {a b c : Bytes} (ha : a.length = start) (hb : b.length = len) :
    field (a ++ (b ++ c)) start len = b := by
  rw [field, ← ha, List.drop_left, ← hb, List.take_left]

omit [Crypto] in
theorem twin_length (input : Bytes) : (twin input).length = 128 := by
  simp [twin, window_length]

omit [Crypto] in
theorem twin_words (hs : wordAt input 96 32 < secp256k1N) :
    window (twin input) 0 32 = window input 0 32 ∧ wordAt (twin input) 32 32 = 55 - wordAt input 32 32 ∧
      wordAt (twin input) 64 32 = wordAt input 64 32 ∧ wordAt (twin input) 96 32 = secp256k1N - wordAt input 96 32 := by
  have hlen := twin_length input
  have hwindow := fun start => window_length input start 32
  have hbytes := fun n => natToBytes_length 32 n
  have hN : secp256k1N < 256 ^ 32 := by decide
  refine ⟨?_, ?_, ?_, ?_⟩
  · rw [window_of_le (by omega), twin, List.append_assoc, List.append_assoc, ← List.nil_append (window input 0 32 ++ _)]
    exact field_middle rfl (hwindow 0)
  · rw [wordAt_of_le (by omega), fieldNat, twin, List.append_assoc, List.append_assoc, field_middle (hwindow 0) (hbytes _)]
    exact natOfBytes_natToBytes (by omega)
  · rw [wordAt_of_le (by omega), fieldNat, twin, List.append_assoc, field_middle _ (hwindow 64), wordAt]
    rw [List.length_append, hwindow, hbytes]
  · rw [wordAt_of_le (by omega), fieldNat, twin, ← List.append_nil (natToBytes 32 (secp256k1N - _)),
      field_middle _ (hbytes _)]
    · exact natOfBytes_natToBytes (by omega)
    · rw [List.length_append, List.length_append, hwindow, hwindow, hbytes]

/-- What recovers has its `v`, `r` and `s` in range. -/
theorem signer_some {v : Nat} {a : Bytes} (h : signer input v = some a) :
    (v = 27 ∨ v = 28) ∧ (0 < wordAt input 64 32 ∧ wordAt input 64 32 < secp256k1N) ∧
      (0 < wordAt input 96 32 ∧ wordAt input 96 32 < secp256k1N) := by
  by_contra hnot
  rw [signer, if_neg hnot] at h
  cases h

/-- Both encodings of a signature recover the same address. -/
theorem recovered_twin {a : Bytes} (h : recovered input = some a) : recovered (twin input) = some a := by
  have hn := secp256k1N_eq
  obtain ⟨hv, hr, hs⟩ := signer_some h
  obtain ⟨hhash, hv', hr', hs'⟩ := twin_words hs.2
  obtain ⟨hflip, hback⟩ := flip_flip hv
  rw [recovered, signer, if_pos ⟨hv, hr, hs⟩] at h
  rw [recovered, signer, hhash, hv', hr', hs', hback, hflip, if_pos ⟨by omega, hr, by omega⟩, ← h]
  dsimp only
  by_cases hhigh : secp256k1NHalf < wordAt input 96 32
  · rw [if_pos hhigh, if_neg (by omega)]
  · rw [if_neg hhigh, if_pos (by omega), Nat.sub_sub_self hs.2.le]

omit [Crypto] in
theorem toOption_eq_some {run : Except Fault α} {a : α} (h : run.toOption = some a) : run = .ok a := by
  cases run with
  | ok b =>
    cases h
    rfl
  | error e => cases h

/-- A whole input with a `v` of 27 or 28 gets its address. -/
theorem ecrecover_recovered {a : Bytes} (hlen : input.length = 128) (h : recovered input = some a) :
    ecrecover input = .ok a := by
  have hv := (signer_some h).1
  have hsame : wordAt input 32 32 % 256 = wordAt input 32 32 := by omega
  refine toOption_eq_some ?_
  rw [ecrecover_toOption hlen (by omega), hsame]
  exact h

/-- The second encoding takes care of itself. -/
theorem recovers_iff (input : Bytes) : Recovers input ↔ ecrecover input = .ok ((recovered input).getD noAddress) := by
  refine ⟨Recovers.returned, fun h => ⟨h, fun a ha => ?_⟩⟩
  rw [h, ecrecover_recovered (twin_length input) (recovered_twin ha), ha]
  rfl

theorem recovered_none (h : ¬(wordAt input 32 32 = 27 ∨ wordAt input 32 32 = 28)) : recovered input = none :=
  if_neg fun hvalid => h hvalid.1

/-- ECRECOVER answers as it should exactly the inputs of 128 bytes whose `v` ends in neither
    27 nor 28 or that recover, and the inputs of another length that do not. -/
theorem ecrecover_recovers (input : Bytes) : Recovers input ↔ Answered input := by
  rw [recovers_iff]
  by_cases hlen : input.length = 128
  · by_cases hv : wordAt input 32 32 % 256 = 27 ∨ wordAt input 32 32 % 256 = 28
    · have hopt := ecrecover_toOption hlen hv
      constructor
      · intro h
        refine ⟨fun _ _ => ?_, fun hother => absurd hlen hother⟩
        rw [h] at hopt
        refine ⟨_, hopt.symm, ?_⟩
        by_cases hbyte : wordAt input 32 32 < 256
        · exact .inl hbyte
        · rw [recovered_none (by omega)]
          exact .inr rfl
      · intro h
        obtain ⟨a, ha, hwhole⟩ := h.whole hlen hv
        rw [toOption_eq_some (hopt.trans ha)]
        by_cases hbyte : wordAt input 32 32 < 256
        · rw [Nat.mod_eq_of_lt hbyte] at ha
          rw [recovered, ha]
          rfl
        · rw [recovered_none (by omega), hwhole.resolve_left hbyte]
          rfl
    · have hnone : recovered input = none := recovered_none (by omega)
      rw [ecrecover_else fun _ => hv, hnone]
      exact ⟨fun _ => ⟨fun _ hv' => absurd hv' hv, fun hother => absurd hlen hother⟩, fun _ => rfl⟩
  · rw [ecrecover_else fun hwhole => absurd hwhole hlen]
    constructor
    · intro h
      refine ⟨fun hwhole => absurd hwhole hlen, fun _ a ha => ?_⟩
      rw [ha] at h
      exact (Except.ok.inj h).symm
    · intro h
      cases ha : recovered input with
      | none => rfl
      | some a =>
        rw [h.cut hlen a ha]
        rfl

end

/-! ## Inputs -/

open Sample

/-- (0, 1) is off the curve; the precompile panics. -/
theorem bn254_validation_off : ¬∀ input, Screens (execute 6 input) (AddValid input) := by
  intro hall
  have hrun : execute 6 (natToBytes 32 0 ++ natToBytes 32 1) = panic "assertion failed: p.is_on_curve()" := by
    decide +kernel
  have hinvalid : ¬AddValid (natToBytes 32 0 ++ natToBytes 32 1) := fun h => absurd h.first.curve (by decide +kernel)
  obtain ⟨r, hr⟩ := (hall _).refused hinvalid
  rw [hrun] at hr
  cases hr

/-- So does a recovery with an `s` above the group order. -/
theorem ecrecover_recovers_over : ¬∀ input, Recovers input := by
  intro hall
  have hrun : ecrecover (natToBytes 32 0 ++ natToBytes 32 27 ++ natToBytes 32 1 ++ natToBytes 32 (2 ^ 256 - 1)) =
      panic "Cannot subtract b from a because b is larger than a." := by decide +kernel
  have h := (hall _).returned.symm.trans hrun
  cases h

end Solenoid.Precompiles
