/-
  Solenoid.Decoding — what the decoder makes of a code, byte by byte.

  `CodeStart b p`: an instruction of `b` starts at `p`; `InPush b p`: `p` is a byte of the
  immediate data of a PUSH. `Tiles b pos is`: the instructions `is` cover `b` from `pos` to
  its end. The decoder's loop keeps `Tiles` (`decodeLoop_tiles`), its table lists the
  JUMPDESTs among them in order, and the search in it finds exactly those.
-/
import Solenoid.Decoder
import Mathlib.Data.List.GetD
import Mathlib.Data.List.Pairwise

namespace Solenoid

/-! ## Code and data -/

/-- The length of the immediate data of an opcode byte: PUSH1 to PUSH32. -/
def pushWidth (byte : UInt8) : Nat :=
  if 0x60 ≤ byte.toNat ∧ byte.toNat < 0x80 then byte.toNat - 0x5f else 0

/-- From an instruction at `pos`, one starts at `p`. -/
inductive StartsFrom (b : Bytes) (pos : Nat) : Nat → Prop
  | here (h : pos < b.length) : StartsFrom b pos pos
  | next {p : Nat} {byte : UInt8} (h : StartsFrom b pos p) (hb : b[p]? = some byte)
      (hlt : p + 1 + pushWidth byte < b.length) : StartsFrom b pos (p + 1 + pushWidth byte)

/-- An instruction starts at `p`. -/
def CodeStart (b : Bytes) (p : Nat) : Prop := StartsFrom b 0 p

/-- `p` is a byte of the immediate data of a PUSH. -/
def InPush (b : Bytes) (p : Nat) : Prop :=
  ∃ q byte, CodeStart b q ∧ b[q]? = some byte ∧ q < p ∧ p ≤ q + pushWidth byte

/-- A byte a jump may go to. -/
def ValidJumpdest (b : Bytes) (p : Nat) : Prop := b[p]? = some 0x5b ∧ ¬InPush b p

theorem pushLen_getOpcode (byte : UInt8) : (getOpcode byte).pushLen = pushWidth byte := by
  have h : ∀ n : Fin 256, (getOpcode (UInt8.ofFin n)).pushLen = pushWidth (UInt8.ofFin n) := by decide +kernel
  exact h byte.toFin

theorem code_getOpcode (byte : UInt8) : (getOpcode byte).code = 0x5b ↔ byte = 0x5b := by
  have h : ∀ n : Fin 256, (getOpcode (UInt8.ofFin n)).code = 0x5b ↔ UInt8.ofFin n = 0x5b := by decide +kernel
  exact h byte.toFin

/-! ## Tiles -/

/-- The bytes of `b` that an instruction's argument has: those there are, then zeros. -/
def pushArgument (b : Bytes) (pos : Nat) (byte : UInt8) : Option Bytes :=
  if pushWidth byte = 0 then none else some (window b (pos + 1) (pushWidth byte))

/-- Where the instruction at `pos` ends. -/
def tillAt (b : Bytes) (pos : Nat) (byte : UInt8) : Nat := min (pos + 1 + pushWidth byte) b.length

/-- The instruction is the one at `pos`. -/
structure CoversAt (b : Bytes) (pos : Nat) (byte : UInt8) (i : Instruction) : Prop where
  found : b[pos]? = some byte
  offset : i.offset = pos
  opcode : i.opcode = getOpcode byte
  argument : i.argument = pushArgument b pos byte

/-- The instructions cover `b` from `pos` to its end. -/
inductive Tiles (b : Bytes) : Nat → List Instruction → Prop
  | nil : Tiles b b.length []
  | cons {pos : Nat} {byte : UInt8} {i : Instruction} {is : List Instruction} (covers : CoversAt b pos byte i)
      (rest : Tiles b (tillAt b pos byte) is) : Tiles b pos (i :: is)

/-- The entries of the table for instructions numbered from `index`. -/
def jumps : Nat → List Instruction → List (Nat × Nat)
  | _, [] => []
  | index, i :: is => if i.opcode.code = 0x5b then (i.offset, index) :: jumps (index + 1) is else jumps (index + 1) is

theorem decodeOne_covers {b : Bytes} {pos : Nat} {byte : UInt8} (h : b[pos]? = some byte) :
    CoversAt b pos byte (decodeOne pos byte (b.drop (pos + 1))).1 ∧
      pos + (decodeOne pos byte (b.drop (pos + 1))).2 = tillAt b pos byte := by
  have hlt : pos < b.length := (List.getElem?_eq_some_iff.1 h).1
  unfold decodeOne
  by_cases hw : pushWidth byte = 0
  · simp only [pushLen_getOpcode, hw, lt_irrefl, if_false]
    refine ⟨⟨h, rfl, rfl, ?_⟩, ?_⟩
    · simp [pushArgument, hw]
    · simp only [tillAt, hw]
      omega
  · have hpos : 0 < pushWidth byte := by omega
    simp only [pushLen_getOpcode, hpos, if_true]
    refine ⟨⟨h, rfl, rfl, ?_⟩, ?_⟩
    · simp [pushArgument, hw, window]
    · simp only [tillAt, List.length_take, List.length_drop]
      omega

theorem decodeLoop_tiles {b : Bytes} (fuel : Nat) : ∀ (pos index : Nat), pos ≤ b.length → b.length - pos ≤ fuel →
    Tiles b pos (decodeLoop fuel pos (b.drop pos) index).1 ∧
      (decodeLoop fuel pos (b.drop pos) index).2 = jumps index (decodeLoop fuel pos (b.drop pos) index).1 := by
  induction fuel with
  | zero =>
    intro pos index hpos hfuel
    obtain rfl : pos = b.length := by omega
    exact ⟨.nil, rfl⟩
  | succ fuel ih =>
    intro pos index hpos hfuel
    by_cases hend : pos = b.length
    · subst hend
      rw [List.drop_length]
      exact ⟨.nil, rfl⟩
    · have hlt : pos < b.length := by omega
      have hbyte : b[pos]? = some b[pos] := List.getElem?_eq_getElem hlt
      rw [List.drop_eq_getElem_cons hlt]
      obtain ⟨hcovers, htill⟩ := decodeOne_covers hbyte
      have hwidth : 1 ≤ (decodeOne pos b[pos] (b.drop (pos + 1))).2 := by
        have : pos + 1 ≤ tillAt b pos b[pos] := by
          simp only [tillAt]
          omega
        omega
      have hdrop : (b.drop (pos + 1)).drop ((decodeOne pos b[pos] (b.drop (pos + 1))).2 - 1) =
          b.drop (tillAt b pos b[pos]) := by
        rw [List.drop_drop, ← htill]
        congr 1
        omega
      simp only [decodeLoop, hdrop, htill]
      have hle : tillAt b pos b[pos] ≤ b.length := min_le_right _ _
      obtain ⟨htiles, hjumps⟩ := ih (tillAt b pos b[pos]) (index + 1) hle (by omega)
      refine ⟨.cons hcovers htiles, ?_⟩
      rw [jumps, hcovers.offset, hjumps]

theorem decode_tiles (b : Bytes) :
    Tiles b 0 (decode b).instructions ∧ (decode b).jumptable = jumps 0 (decode b).instructions := by
  have h := decodeLoop_tiles (b := b) b.length 0 0 (Nat.zero_le _) (by omega)
  simpa only [decode, List.drop_zero] using h

namespace Tiles

variable {b : Bytes} {pos : Nat} {is : List Instruction}

theorem le_offset (h : Tiles b pos is) : ∀ i ∈ is, pos ≤ i.offset := by
  induction h with
  | nil => intro i hi; cases hi
  | @cons pos byte i is covers _ ih =>
    have hlt : pos < b.length := (List.getElem?_eq_some_iff.1 covers.found).1
    intro j hj
    rcases List.mem_cons.1 hj with rfl | hj
    · exact covers.offset.ge
    · have := ih j hj
      simp only [tillAt] at this
      omega

/-- The first instruction starts at the position. -/
theorem first (h : Tiles b pos is) : ((is[0]?).map (·.offset)).getD b.length = pos := by
  cases h with
  | nil => rfl
  | cons covers _ => simpa using covers.offset

/-- An instruction, and where the next one starts or the code ends. -/
theorem get (h : Tiles b pos is) : ∀ {k : Nat} {i : Instruction}, is[k]? = some i →
    ∃ byte, CoversAt b i.offset byte i ∧ ((is[k + 1]?).map (·.offset)).getD b.length = tillAt b i.offset byte := by
  induction h with
  | nil => intro k i hi; simp at hi
  | @cons pos byte j is covers rest ih =>
    intro k i hi
    cases k with
    | zero =>
      simp only [List.getElem?_cons_zero, Option.some.injEq] at hi
      subst hi
      rw [covers.offset]
      refine ⟨byte, covers, ?_⟩
      rw [List.getElem?_cons_succ]
      exact rest.first
    | succ k => exact ih hi

theorem covers_mem (h : Tiles b pos is) {i : Instruction} (hi : i ∈ is) : ∃ byte, CoversAt b i.offset byte i := by
  obtain ⟨k, hk⟩ := List.getElem?_of_mem hi
  obtain ⟨byte, hc, -⟩ := h.get hk
  exact ⟨byte, hc⟩

/-- Each instruction ends before the ones after it start. -/
theorem ordered (h : Tiles b pos is) :
    is.Pairwise fun i j => ∀ byte, b[i.offset]? = some byte → tillAt b i.offset byte ≤ j.offset := by
  induction h with
  | nil => exact .nil
  | @cons pos byte i is covers rest ih =>
    refine List.pairwise_cons.2 ⟨fun j hj byte' hb => ?_, ih⟩
    rw [covers.offset] at hb ⊢
    rw [covers.found] at hb
    cases hb
    exact rest.le_offset j hj

theorem sorted (h : Tiles b pos is) : is.Pairwise fun i j => i.offset < j.offset := by
  refine h.ordered.imp_of_mem fun {i j} hi _ hij => ?_
  obtain ⟨byte, hc⟩ := h.covers_mem hi
  have hlt : i.offset < b.length := (List.getElem?_eq_some_iff.1 hc.found).1
  have := hij byte hc.found
  simp only [tillAt] at this
  omega

/-- Every byte belongs to an instruction. -/
theorem covered (h : Tiles b pos is) : ∀ {p : Nat}, pos ≤ p → p < b.length →
    ∃ i ∈ is, ∃ byte, b[i.offset]? = some byte ∧ i.offset ≤ p ∧ p < tillAt b i.offset byte := by
  induction h with
  | nil => intro p hle hlt; omega
  | @cons pos byte i is covers rest ih =>
    intro p hle hlt
    by_cases hp : p < tillAt b pos byte
    · exact ⟨i, List.mem_cons_self, byte, by rw [covers.offset]; exact ⟨covers.found, hle, hp⟩⟩
    · obtain ⟨j, hj, hrest⟩ := ih (by omega) hlt
      exact ⟨j, List.mem_cons_of_mem _ hj, hrest⟩

end Tiles

namespace StartsFrom

variable {b : Bytes} {pos p q : Nat}

theorem lt (h : StartsFrom b pos p) : pos < b.length := by
  induction h with
  | here h => exact h
  | next _ _ _ ih => exact ih

theorem trans (h : StartsFrom b pos q) (h' : StartsFrom b q p) : StartsFrom b pos p := by
  induction h' with
  | here => exact h
  | next _ hb hlt ih => exact .next ih hb hlt

end StartsFrom

/-- The offsets of the instructions are where instructions start. -/
theorem Tiles.startsFrom {b : Bytes} {pos : Nat} {is : List Instruction} (h : Tiles b pos is) {p : Nat} :
    (∃ i ∈ is, i.offset = p) ↔ StartsFrom b pos p := by
  constructor
  · rintro ⟨i, hi, rfl⟩
    induction h with
    | nil => cases hi
    | @cons pos byte j is covers rest ih =>
      have hlt : pos < b.length := (List.getElem?_eq_some_iff.1 covers.found).1
      rcases List.mem_cons.1 hi with rfl | hi
      · rw [covers.offset]
        exact .here hlt
      · have hrest := ih hi
        have htill := hrest.lt
        have heq : tillAt b pos byte = pos + 1 + pushWidth byte := by
          simp only [tillAt] at htill ⊢
          omega
        rw [heq] at hrest htill
        exact (StartsFrom.next (.here hlt) covers.found htill).trans hrest
  · intro hs
    induction hs with
    | here hlt =>
      cases h with
      | nil => exact absurd hlt (lt_irrefl _)
      | cons covers _ => exact ⟨_, List.mem_cons_self, covers.offset⟩
    | @next p byte _ hb hlt ih =>
      obtain ⟨i, hi, rfl⟩ := ih
      obtain ⟨k, hk⟩ := List.getElem?_of_mem hi
      obtain ⟨byte', hc, hnext⟩ := h.get hk
      rw [hc.found] at hb
      cases hb
      have htill : tillAt b i.offset byte = i.offset + 1 + pushWidth byte := by
        simp only [tillAt]
        omega
      rw [htill] at hnext
      cases hj : is[k + 1]? with
      | none =>
        rw [hj] at hnext
        simp only [Option.map_none, Option.getD_none] at hnext
        omega
      | some j =>
        rw [hj] at hnext
        exact ⟨j, List.mem_of_getElem? hj, by simpa using hnext⟩

/-- A byte of a code is where an instruction starts, or data of a PUSH, and not both. -/
theorem codeStart_iff {b : Bytes} {p : Nat} (hp : p < b.length) : CodeStart b p ↔ ¬InPush b p := by
  have h := (decode_tiles b).1
  constructor
  · rintro hs ⟨q, byte, hq, hb, hlt, hle⟩
    obtain ⟨j, hj, rfl⟩ := h.startsFrom.2 hs
    obtain ⟨i, hi, rfl⟩ := h.startsFrom.2 hq
    have hne : i ≠ j := by rintro rfl; exact lt_irrefl _ hlt
    -- the later of the two starts after the earlier one's end
    have hor : (∀ byte, b[i.offset]? = some byte → tillAt b i.offset byte ≤ j.offset) ∨ j.offset < i.offset := by
      obtain ⟨m, hm, rfl⟩ := List.getElem_of_mem hi
      obtain ⟨n, hn, rfl⟩ := List.getElem_of_mem hj
      rcases lt_trichotomy m n with hmn | rfl | hmn
      · exact .inl (List.pairwise_iff_getElem.1 h.ordered m n hm hn hmn)
      · exact absurd rfl hne
      · exact .inr (List.pairwise_iff_getElem.1 h.sorted n m hn hm hmn)
    rcases hor with hor | hor
    · have := hor byte hb
      simp only [tillAt] at this
      omega
    · omega
  · intro hn
    obtain ⟨i, hi, byte, hb, hle, hlt⟩ := h.covered (Nat.zero_le _) hp
    have hs : CodeStart b i.offset := h.startsFrom.1 ⟨i, hi, rfl⟩
    by_cases heq : i.offset = p
    · rwa [heq] at hs
    · exfalso
      apply hn
      refine ⟨i.offset, byte, hs, hb, by omega, ?_⟩
      simp only [tillAt] at hlt
      omega

/-! ## The table -/

theorem mem_jumps {p n : Nat} : ∀ {index : Nat} {is : List Instruction}, (p, n) ∈ jumps index is ↔
    ∃ k i, n = index + k ∧ is[k]? = some i ∧ i.offset = p ∧ i.opcode.code = 0x5b := by
  intro index is
  induction is generalizing index with
  | nil => simp [jumps]
  | cons i is ih =>
    have hrest : (p, n) ∈ jumps (index + 1) is ↔
        ∃ k j, n = index + (k + 1) ∧ (i :: is)[k + 1]? = some j ∧ j.offset = p ∧ j.opcode.code = 0x5b := by
      rw [ih]
      simp only [List.getElem?_cons_succ]
      constructor
      · rintro ⟨k, j, rfl, hj⟩
        exact ⟨k, j, by omega, hj⟩
      · rintro ⟨k, j, rfl, hj⟩
        exact ⟨k, j, by omega, hj⟩
    constructor
    · intro h
      rw [jumps] at h
      split at h
      · next hcode =>
        rcases List.mem_cons.1 h with heq | h
        · cases heq
          exact ⟨0, i, rfl, rfl, rfl, hcode⟩
        · obtain ⟨k, j, hk⟩ := hrest.1 h
          exact ⟨k + 1, j, hk⟩
      · obtain ⟨k, j, hk⟩ := hrest.1 h
        exact ⟨k + 1, j, hk⟩
    · rintro ⟨k, j, hn, hj, hp, hcode⟩
      rw [jumps]
      cases k with
      | zero =>
        simp only [List.getElem?_cons_zero, Option.some.injEq] at hj
        subst hj
        rw [if_pos hcode, hp, hn]
        exact List.mem_cons_self
      | succ k =>
        have hmem := hrest.2 ⟨k, j, hn, hj, hp, hcode⟩
        split
        · exact List.mem_cons_of_mem _ hmem
        · exact hmem

theorem jumps_sublist : ∀ (index : Nat) (is : List Instruction),
    ((jumps index is).map Prod.fst).Sublist (is.map (·.offset))
  | _, [] => .slnil
  | index, i :: is => by
    rw [jumps]
    split
    · exact (jumps_sublist (index + 1) is).cons_cons _
    · exact (jumps_sublist (index + 1) is).cons _

theorem Tiles.jumps_sorted {b : Bytes} {pos : Nat} {is : List Instruction} (h : Tiles b pos is) (index : Nat) :
    (jumps index is).Pairwise fun x y => x.1 < y.1 := by
  have hoffsets : (is.map (·.offset)).Pairwise (· < ·) := List.pairwise_map.2 h.sorted
  exact List.pairwise_map.1 (hoffsets.sublist (jumps_sublist index is))

/-! ## The search -/

/-- The search ends on the entry of the key, if there is one in its window. -/
theorem searchBase_eq {table : List (Nat × Nat)} (hs : table.Pairwise fun x y => x.1 < y.1) {key k : Nat}
    (hk : (table.getD k (0, 0)).1 = key) (hlen : k < table.length) (fuel : Nat) : ∀ (base size : Nat),
    size ≤ fuel + 1 → base ≤ k → k < base + size → base + size ≤ table.length →
    searchBase table key fuel base size = k := by
  have hord : ∀ {i j : Nat}, i < j → j < table.length → (table.getD i (0, 0)).1 < (table.getD j (0, 0)).1 := by
    intro i j hij hj
    rw [List.getD_eq_getElem _ _ (hij.trans hj), List.getD_eq_getElem _ _ hj]
    exact List.pairwise_iff_getElem.1 hs i j (hij.trans hj) hj hij
  induction fuel with
  | zero =>
    intro base size hsize hle hlt _
    simp only [searchBase]
    omega
  | succ fuel ih =>
    intro base size hsize hle hlt htable
    rw [searchBase]
    split
    · omega
    · next hsize' =>
      dsimp only
      split
      · next hless =>
        have hmid : k < base + size / 2 := by
          by_contra hnot
          rcases Nat.lt_or_eq_of_le (not_lt.1 hnot) with h | h
          · have := hord h hlen
            omega
          · rw [← h] at hk
            omega
        exact ih base (size - size / 2) (by omega) hle (by omega) (by omega)
      · next hless =>
        have hmid : base + size / 2 ≤ k := by
          by_contra hnot
          have := hord (not_le.1 hnot) (by omega)
          omega
        exact ih (base + size / 2) (size - size / 2) (by omega) hmid (by omega) (by omega)

theorem resolveJump_eq {code : Bytecode} (hs : code.jumptable.Pairwise fun x y => x.1 < y.1) {p i : Nat} (hp : p ≠ 0) :
    code.resolveJump p = some i ↔ (p, i) ∈ code.jumptable := by
  unfold Bytecode.resolveJump
  rw [if_neg hp]
  constructor
  · intro h
    split at h
    · next key index hget =>
      split at h
      · next hkey =>
        cases h
        rw [← hkey]
        exact List.mem_of_getElem? hget
      · cases h
    · cases h
  · intro h
    obtain ⟨k, hk, hget⟩ := List.getElem_of_mem h
    have hkey : (code.jumptable.getD k (0, 0)).1 = p := by
      rw [List.getD_eq_getElem _ _ hk, hget]
    rw [searchBase_eq hs hkey hk _ 0 _ (by omega) (Nat.zero_le _) (by omega) (by omega),
      List.getElem?_eq_getElem hk, hget]
    simp

/-! ## The decoder -/

/-- The instructions of a code cover it, and the table lists its JUMPDESTs. -/
structure Decodes (b : Bytes) (code : Bytecode) : Prop where
  bytecode : code.bytecode = b
  /-- The first instruction starts the code. -/
  first : ((code.instructions[0]?).map (·.offset)).getD b.length = 0
  increasing : code.instructions.Pairwise fun i j => i.offset < j.offset
  /-- An instruction is its opcode byte and, for PUSHn, the n bytes after it, zeros past the
      end; the next one starts where it ends, and the last one ends the code. -/
  covers : ∀ k i, code.instructions[k]? = some i → ∃ byte, CoversAt b i.offset byte i ∧
    ((code.instructions[k + 1]?).map (·.offset)).getD b.length = min (i.offset + 1 + pushWidth byte) b.length
  argument : ∀ i ∈ code.instructions, ∀ data, i.argument = some data → ∃ byte, b[i.offset]? = some byte ∧
    data.length = pushWidth byte
  sorted : code.jumptable.Pairwise fun x y => x.1 < y.1
  table : ∀ p n, (p, n) ∈ code.jumptable ↔
    b[p]? = some 0x5b ∧ ¬InPush b p ∧ (code.instructions[n]?).map (·.offset) = some p
  resolves : ∀ p, p ≠ 0 → ∀ n, code.resolveJump p = some n ↔
    ValidJumpdest b p ∧ (code.instructions[n]?).map (·.offset) = some p
  valid : ∀ p, p ≠ 0 → ((code.resolveJump p).isSome ↔ ValidJumpdest b p)

theorem mem_jumptable {b : Bytes} {p n : Nat} : (p, n) ∈ (decode b).jumptable ↔
    b[p]? = some 0x5b ∧ ¬InPush b p ∧ ((decode b).instructions[n]?).map (·.offset) = some p := by
  obtain ⟨htiles, htable⟩ := decode_tiles b
  rw [htable, mem_jumps]
  constructor
  · rintro ⟨k, i, rfl, hi, rfl, hcode⟩
    rw [Nat.zero_add]
    have hmem := List.mem_of_getElem? hi
    obtain ⟨byte, hc⟩ := htiles.covers_mem hmem
    have hlt : i.offset < b.length := (List.getElem?_eq_some_iff.1 hc.found).1
    refine ⟨?_, (codeStart_iff hlt).1 (htiles.startsFrom.1 ⟨i, hmem, rfl⟩), by rw [hi]; rfl⟩
    rw [hc.opcode] at hcode
    rw [hc.found, (code_getOpcode byte).1 hcode]
  · rintro ⟨hb, -, hn⟩
    obtain ⟨i, hi, rfl⟩ := Option.map_eq_some_iff.1 hn
    obtain ⟨byte, hc⟩ := htiles.covers_mem (List.mem_of_getElem? hi)
    rw [hc.found] at hb
    cases hb
    exact ⟨n, i, (Nat.zero_add n).symm, hi, rfl, by rw [hc.opcode]; exact (code_getOpcode _).2 rfl⟩

/-- The decoder is right on every byte string. -/
theorem decode_correct (b : Bytes) : Decodes b (decode b) := by
  obtain ⟨htiles, htable⟩ := decode_tiles b
  have hsorted : (decode b).jumptable.Pairwise fun x y => x.1 < y.1 := by
    rw [htable]
    exact htiles.jumps_sorted 0
  have hresolve : ∀ p, p ≠ 0 → ∀ n, (decode b).resolveJump p = some n ↔
      ValidJumpdest b p ∧ ((decode b).instructions[n]?).map (·.offset) = some p := by
    intro p hp n
    rw [resolveJump_eq hsorted hp, mem_jumptable, ValidJumpdest, and_assoc]
  refine ⟨rfl, ?_, htiles.sorted, fun k i hi => htiles.get hi, ?_, hsorted, fun p n => mem_jumptable, hresolve, ?_⟩
  · exact htiles.first
  · intro i hi data hdata
    obtain ⟨byte, hc⟩ := htiles.covers_mem hi
    refine ⟨byte, hc.found, ?_⟩
    rw [hc.argument, pushArgument] at hdata
    split at hdata
    · cases hdata
    · cases hdata
      exact window_length _ _ _
  · intro p hp
    rw [Option.isSome_iff_exists]
    constructor
    · rintro ⟨n, hn⟩
      exact ((hresolve p hp n).1 hn).1
    · intro hv
      have hlt : p < b.length := (List.getElem?_eq_some_iff.1 hv.1).1
      obtain ⟨i, hi, hoffset⟩ := htiles.startsFrom.2 ((codeStart_iff hlt).2 hv.2)
      obtain ⟨n, hn⟩ := List.getElem?_of_mem hi
      exact ⟨n, (hresolve p hp n).2 ⟨hv, by rw [hn, ← hoffset]; rfl⟩⟩

/-- A JUMPDEST byte inside the data of a PUSH is none: `PUSH2 5b 01; JUMPDEST; PUSH1`. -/
example : (decode [0x61, 0x5b, 0x01, 0x5b, 0x60]).resolveJump 1 = none ∧
    (decode [0x61, 0x5b, 0x01, 0x5b, 0x60]).resolveJump 3 = some 1 := by decide +kernel

end Solenoid
