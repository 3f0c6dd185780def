/-
  Solenoid.Reasons — the reason a contract gives for its revert (`decode_error_string`).

  `decodeErrorStringRun` is the decoder with every step that can panic. On what a RETURN or a
  REVERT leaves, and on any slice short enough that its offset and its size can be added, it
  does what `decodeErrorString` says: `revert_reasons`.
-/
import Solenoid.Boundaries
import Solenoid.Numbers

namespace Solenoid

open Hoare

/-! ## The decoder, step by step -/

/-- `decode_error_string`, with its casts, sums and slices. -/
def decodeErrorStringRun (ret : Bytes) : Except Fault (Option String) := do
  if ret.length < 4 + 32 + 32 then return none
  else
    let _selector ← slice ret 0 4
    let offset := Word.fromBytes (← slice ret 4 (4 + 32))
    if (BitVec.ofNat 256 ret.length : Word).toNat < offset.toNat then return none
    else
      let offset ← addUsize (4 + 32) (← offset.asUsize)
      let size := Word.fromBytes (← slice ret (4 + 32) (4 + 32 + 32))
      if (BitVec.ofNat 256 ret.length : Word).toNat < size.toNat then return none
      else
        let size ← size.asUsize
        let till ← addUsize offset size
        if ret.length < till then return none
        else
          let data ← slice ret offset till
          return String.fromUTF8? ⟨data.toArray⟩

/-- The word at `start`. -/
def wordAt (b : Bytes) (start : Nat) : Nat := natOfBytes ((b.drop start).take 32)

theorem wordAt_lt (b : Bytes) (start : Nat) : wordAt b start < 2 ^ 256 := by
  have hlt := natOfBytes_lt ((b.drop start).take 32)
  have hpow : 256 ^ ((b.drop start).take 32).length ≤ 256 ^ 32 := Nat.pow_le_pow_right (by decide) (by simp)
  exact hlt.trans_le (hpow.trans (by decide))

theorem slice_of_fits {b : Bytes} {start till : Nat} (h : start ≤ till) (h' : till ≤ b.length) :
    slice b start till = .ok ((b.drop start).take (till - start)) := if_pos ⟨h, h'⟩

/-- The decoder does not panic where offset and size, if they pass for positions in the slice,
    can be added. -/
theorem decodeErrorStringRun_eq {ret : Bytes} (hlen : ret.length ≤ isizeMax)
    (hsum : wordAt ret 4 ≤ ret.length → wordAt ret 36 ≤ ret.length → 36 + wordAt ret 4 + wordAt ret 36 ≤ usizeMax) :
    decodeErrorStringRun ret = .ok (decodeErrorString ret) := by
  have hsize : isizeMax = 2 ^ 63 - 1 := rfl
  have husize : usizeMax = 2 ^ 64 - 1 := rfl
  unfold decodeErrorStringRun decodeErrorString
  by_cases hshort : ret.length < 4 + 32 + 32
  · rw [if_pos hshort, if_pos hshort]
    rfl
  · rw [if_neg hshort, if_neg hshort]
    have hword : ∀ start, (Word.fromBytes ((ret.drop start).take 32)).toNat = wordAt ret start := fun start => by
      rw [Word.fromBytes, BitVec.toNat_ofNat]
      exact Nat.mod_eq_of_lt (wordAt_lt ret start)
    have hlength : (BitVec.ofNat 256 ret.length : Word).toNat = ret.length := by
      rw [BitVec.toNat_ofNat]
      exact Nat.mod_eq_of_lt (by omega)
    have hselector : slice ret 0 4 = .ok ((ret.drop 0).take 4) := slice_of_fits (by decide) (by omega)
    have hoffset : slice ret 4 (4 + 32) = .ok ((ret.drop 4).take 32) := slice_of_fits (by decide) (by omega)
    have hsizes : slice ret (4 + 32) (4 + 32 + 32) = .ok ((ret.drop 36).take 32) := slice_of_fits (by decide) (by omega)
    have hcast : ∀ {start}, wordAt ret start ≤ ret.length →
        (Word.fromBytes ((ret.drop start).take 32)).asUsize = .ok (wordAt ret start) := fun {start} h => by
      rw [Word.asUsize, hword, if_pos (by omega)]
    simp only [hselector, hoffset, hsizes, bind, Except.bind, hword, hlength]
    change _ = Except.ok (if ret.length < wordAt ret 4 then none else if ret.length < wordAt ret 36 then none
      else if ret.length < 36 + wordAt ret 4 + wordAt ret 36 then none
      else String.fromUTF8? ⟨((ret.drop (36 + wordAt ret 4)).take (wordAt ret 36)).toArray⟩)
    by_cases hfar : ret.length < wordAt ret 4
    · rw [if_pos hfar, if_pos hfar]
      rfl
    · have hadd : addUsize (4 + 32) (wordAt ret 4) = .ok (36 + wordAt ret 4) := if_pos (by omega)
      rw [if_neg hfar, if_neg hfar, hcast (not_lt.1 hfar)]
      simp only [hadd]
      by_cases hwide : ret.length < wordAt ret 36
      · rw [if_pos hwide, if_pos hwide]
        rfl
      · have hfits := hsum (not_lt.1 hfar) (not_lt.1 hwide)
        have htill : addUsize (36 + wordAt ret 4) (wordAt ret 36) = .ok (36 + wordAt ret 4 + wordAt ret 36) := if_pos hfits
        rw [if_neg hwide, if_neg hwide, hcast (not_lt.1 hwide)]
        simp only [htill]
        by_cases hout : ret.length < 36 + wordAt ret 4 + wordAt ret 36
        · rw [if_pos hout, if_pos hout]
          rfl
        · have hdata : slice ret (36 + wordAt ret 4) (36 + wordAt ret 4 + wordAt ret 36) =
              .ok ((ret.drop (36 + wordAt ret 4)).take (wordAt ret 36)) := by
            rw [slice_of_fits (Nat.le_add_right _ _) (not_lt.1 hout), Nat.add_sub_cancel_left]
          rw [if_neg hout, if_neg hout, hdata]
          rfl

/-! ## What is found -/

theorem toUTF8_of_fromUTF8 {b : ByteArray} {s : String} (h : String.fromUTF8? b = some s) : s.toUTF8 = b := by
  unfold String.fromUTF8? at h
  split at h
  · cases h
    rfl
  · cases h

theorem fromUTF8_toUTF8 (s : String) : String.fromUTF8? s.toUTF8 = some s := dif_pos s.isValidUTF8

/-- The text is that of a part of the bytes. -/
theorem decodeErrorString_slice {ret : Bytes} {text : String} (h : decodeErrorString ret = some text) :
    ∃ start size, start + size ≤ ret.length ∧ text.toUTF8.data.toList = (ret.drop start).take size := by
  unfold decodeErrorString at h
  dsimp only at h
  split at h
  · cases h
  · split at h
    · cases h
    · split at h
      · cases h
      · split at h
        · cases h
        · next hfits => exact ⟨_, _, not_lt.1 hfits, by rw [toUTF8_of_fromUTF8 h]⟩

/-- The decoder comes back, and a string that it returns is the text of a part of the bytes. -/
structure DecodesReason (ret : Bytes) : Prop where
  runs : decodeErrorStringRun ret = .ok (decodeErrorString ret)
  part : ∀ text, decodeErrorString ret = some text →
    ∃ start size, start + size ≤ ret.length ∧ text.toUTF8.data.toList = (ret.drop start).take size

theorem decodesReason_of_length {ret : Bytes} (h : 36 + 2 * ret.length ≤ usizeMax) : DecodesReason ret := by
  have husize : usizeMax = 2 ^ 64 - 1 := rfl
  have hisize : isizeMax = 2 ^ 63 - 1 := rfl
  exact ⟨decodeErrorStringRun_eq (by omega) fun _ _ => by omega, fun _ => decodeErrorString_slice⟩

/-! ## What is encoded -/

/-- `Error(string)` in the ABI: the selector, the offset of the string, its size, its bytes, and
    zeros up to a whole word. -/
def encodeError (s : String) : Bytes :=
  [0x08, 0xc3, 0x79, 0xa0] ++ natToBytes 32 0x20 ++ natToBytes 32 s.toUTF8.size ++ s.toUTF8.data.toList ++
    List.replicate ((32 - s.toUTF8.size % 32) % 32) 0

theorem encodeError_length (s : String) :
    (encodeError s).length = 68 + s.toUTF8.size + (32 - s.toUTF8.size % 32) % 32 := by
  have hdata : s.toUTF8.data.toList.length = s.toUTF8.size := rfl
  simp only [encodeError, List.length_append, natToBytes_length, hdata, List.length_replicate, List.length_cons,
    List.length_nil]

theorem drop_take_append {a b c : Bytes} {n m : Nat} (ha : a.length = n) (hb : b.length = m) :
    ((a ++ b ++ c).drop n).take m = b := by
  subst ha hb
  rw [List.append_assoc, List.drop_left, List.take_left]

theorem decode_encodeError {s : String} (h : (encodeError s).length ≤ isizeMax) :
    decodeErrorStringRun (encodeError s) = .ok (some s) := by
  have husize : usizeMax = 2 ^ 64 - 1 := rfl
  have hisize : isizeMax = 2 ^ 63 - 1 := rfl
  have hlength := encodeError_length s
  have hvalid : s.toUTF8.size < 256 ^ 32 := by
    have hpow : 2 ^ 63 ≤ 256 ^ 32 := by decide
    omega
  have hoffset : wordAt (encodeError s) 4 = 32 := by
    have hparts : encodeError s = [0x08, 0xc3, 0x79, 0xa0] ++ natToBytes 32 0x20 ++ (natToBytes 32 s.toUTF8.size ++
        (s.toUTF8.data.toList ++ List.replicate ((32 - s.toUTF8.size % 32) % 32) 0)) := by
      simp only [encodeError, List.append_assoc]
    rw [wordAt, hparts, drop_take_append (n := 4) rfl (natToBytes_length _ _), natOfBytes_natToBytes (by decide)]
  have hsize : wordAt (encodeError s) 36 = s.toUTF8.size := by
    have hparts : encodeError s = ([0x08, 0xc3, 0x79, 0xa0] ++ natToBytes 32 0x20) ++ natToBytes 32 s.toUTF8.size ++
        (s.toUTF8.data.toList ++ List.replicate ((32 - s.toUTF8.size % 32) % 32) 0) := by
      simp only [encodeError, List.append_assoc]
    rw [wordAt, hparts, drop_take_append (by simp) (natToBytes_length _ _), natOfBytes_natToBytes hvalid]
  have hdata : ((encodeError s).drop (36 + 32)).take s.toUTF8.size = s.toUTF8.data.toList :=
    drop_take_append (by simp) rfl
  rw [decodeErrorStringRun_eq h fun _ _ => by omega]
  change Except.ok (if (encodeError s).length < 4 + 32 + 32 then none
    else if (encodeError s).length < wordAt (encodeError s) 4 then none
    else if (encodeError s).length < wordAt (encodeError s) 36 then none
    else if (encodeError s).length < 36 + wordAt (encodeError s) 4 + wordAt (encodeError s) 36 then none
    else String.fromUTF8? ⟨(((encodeError s).drop (36 + wordAt (encodeError s) 4)).take
      (wordAt (encodeError s) 36)).toArray⟩) = _
  rw [hoffset, hsize, hdata, if_neg (by omega), if_neg (by omega), if_neg (by omega), if_neg (by omega)]
  exact congrArg Except.ok (fromUTF8_toUTF8 s)

/-! ## What a contract returns -/

section

variable {T : Type} [Crypto] [EventTracer T]

omit [Crypto] [EventTracer T] in
/-- The output is cut out of the memory. -/
theorem wp_setOutput_within (offset size : Nat) (s : Machine T) :
    wp (setOutput offset size : M T Unit) (fun _ t => t.exe.ret.length ≤ t.evm.memory.length) (fun _ _ => True) s := by
  unfold setOutput
  rw [wp_ite]
  refine ⟨fun _ => ?_, fun _ => (wp_setRet _).2 (Nat.zero_le _)⟩
  refine wp_then fun till t => wp_then fun _ u => ?_
  simp only [readMemory, wp_bind, wp_get, wp_lift, wp_setRet]
  refine ⟨fun data hdata => ?_, fun _ _ => trivial⟩
  unfold slice at hdata
  split at hdata
  · cases hdata
    exact (List.length_take_le' _ _).trans (by rw [List.length_drop]; exact Nat.sub_le _ _)
  · cases hdata

omit [Crypto] in
theorem wp_opReturn_within (sc : Scope) (reverted : Bool) (s : Machine T) :
    wp (opReturn sc reverted) (fun r t => (∃ cost, r = .ok cost) ∧ t.exe.ret.length ≤ t.evm.memory.length)
      (fun _ _ => True) s := by
  unfold opReturn
  rw [wp_bind, wp_modify]
  refine wp_then fun offset t => wp_then fun size u => ?_
  rw [wp_bind]
  refine wp_mono (wp_setOutput_within offset size u) (fun _ v hv => ?_) fun _ _ _ => trivial
  simp only [memoryExpansionCost, Evm.memoryExpansionCost, emitReturn, wp_onEvm, wp_bind, wp_get, wp_lift, wp_set, wp_pure,
    wp_emit, wp_next]
  exact ⟨fun _ _ => ⟨⟨_, rfl⟩, hv⟩, fun _ _ => trivial⟩

/-- The memory of a frame is paid for, so its output is small. -/
theorem opReturn_small {sc : Scope} {reverted : Bool} {s t : Machine T} {r : StepResult} (hs : Paid s.evm)
    (h : opReturn sc reverted s = .ok r t) : t.exe.ret.length < 2 ^ 37 := by
  obtain ⟨⟨cost, rfl⟩, hwithin⟩ := (of_ok (wp_opReturn_within sc reverted s) h :)
  have hstops : Stops cost t := (of_ok (price_opReturn sc reverted hs) h :) cost rfl
  exact hwithin.trans_lt hstops.paid.length

/-- The decoder comes back on whatever a contract returns, and on every slice whose positions can
    be added, with the text of a part of it at most; and it finds what was encoded, if that is no
    longer than a slice can be. -/
theorem revert_reasons :
    (∀ {sc₀ sc : Scope} {s₀ s t : Machine T} {instruction : Instruction} {exec : Exec T} {r : StepResult}, Unused s₀ →
      s₀.evm.pc = 0 → Reaches sc₀ s₀ sc s → currentInstruction sc s.evm = some instruction →
      instruction.op = .return_ ∨ instruction.op = .revert → executeInstruction exec sc instruction s = .ok r t →
      DecodesReason t.exe.ret) ∧
    (∀ ret : Bytes, 36 + 2 * ret.length ≤ usizeMax → DecodesReason ret) ∧
    ∀ s : String, (encodeError s).length ≤ isizeMax → decodeErrorStringRun (encodeError s) = .ok (some s) := by
  refine ⟨fun {_ _ _ _ t _ _ _} hs₀ hpc hreach _ hop hrun => ?_, fun _ =>
    decodesReason_of_length, fun _ => decode_encodeError⟩
  have hpaid := (hreach.boundary hs₀ hpc).exact.paid
  have husize : usizeMax = 2 ^ 64 - 1 := rfl
  have hsmall : t.exe.ret.length < 2 ^ 37 := by
    rcases hop with hop | hop
    · simp only [executeInstruction, hop] at hrun
      exact opReturn_small hpaid hrun
    · simp only [executeInstruction, hop] at hrun
      exact opReturn_small hpaid hrun
  exact decodesReason_of_length (by omega)

end

namespace Sample

/-- Reverts with its call data. -/
def echo (data : Bytes) : Scope := { scope [0x36, 0x5f, 0x5f, 0x37, 0x36, 0x5f, 0xfd] with
  call := { from_ := 0xca, to_ := 0xaa, gas := 100000, data } }

end Sample

open Sample

theorem revert_reasons_echo : ∃ (x : Step NoopTracer) (r : StepResult) (t : Machine NoopTracer),
    Reaches (echo (encodeError "no")) (machine []) x.scope x.before ∧
      executeInstruction (executeWithContext 0) x.scope x.instruction x.before = .ok r t ∧ DecodesReason t.exe.ret ∧
      t.exe.ret = encodeError "no" ∧ decodeErrorStringRun t.exe.ret = .ok (some "no") := by
  have hstep : ((history 20 (echo (encodeError "no")) (machine [])).steps.any fun x => x.op == .revert &&
      returns (executeInstruction (executeWithContext 0) x.scope x.instruction x.before) fun _ t =>
        t.exe.ret == encodeError "no") = true := by decide +kernel
  obtain ⟨x, hmem, hx⟩ := List.any_eq_true.1 hstep
  simp only [Bool.and_eq_true, beq_iff_eq] at hx
  obtain ⟨hop, hrun⟩ := hx
  obtain ⟨r, t, hrun, hret⟩ := of_returns hrun
  obtain ⟨hreach, hi⟩ := reaches_history hmem
  have hunused : Unused (machine [] : Machine NoopTracer) := ⟨rfl, rfl, rfl, rfl, rfl⟩
  have hret := beq_iff_eq.1 hret
  refine ⟨x, r, t, hreach, hrun, revert_reasons.1 hunused rfl hreach hi (.inr hop) hrun, hret, ?_⟩
  rw [hret]
  exact (revert_reasons (T := NoopTracer)).2.2 "no" (by decide +kernel)

end Solenoid
