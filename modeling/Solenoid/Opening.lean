/-
  Solenoid.Opening — when a creation gets to its init code, and with what.

  `createOpen` reads its operands, grows the memory, bumps the creator's nonce, makes the
  new account and pays. `Step.Ready` says when all of this goes through, `Step.Refused` when
  it is reported instead (the frame halts); what is neither panics (`wp_createOpen_ready`).
  It takes the creation for a CREATE2 when the context says so (`Step.salted`), which an
  opcode CREATE inherits from its frame.
-/
import Solenoid.Decoding
import Solenoid.Termination

namespace Solenoid

open Hoare

/-! ## Memory -/

/-- The length of a memory of `len` bytes once it covers `till`. -/
def grownTo (len till : Nat) : Nat := if len < till then till + (32 - till % 32) % 32 else len

theorem le_grownTo (len till : Nat) : len ≤ grownTo len till ∧ till ≤ grownTo len till := by
  unfold grownTo
  split <;> omega

section

variable {T : Type} {s : Machine T}

/-- Zeros are appended, unless the range is beyond the sanity limit. -/
theorem wp_expandTo_exact {Q : Unit → Machine T → Prop} {E : Fault → Machine T → Prop} (till : Nat)
    (hQ : (s.evm.memory.length < till → till ≤ allocationSanityLimit) →
      Q () { s with evm.memory := s.evm.memory ++
        List.replicate (grownTo s.evm.memory.length till - s.evm.memory.length) 0 })
    (hE : s.evm.memory.length < till → allocationSanityLimit < till → E (.report (.invalidAllocation till)) s) :
    wp (expandTo till) Q E s := by
  simp only [expandTo, wp_bind, wp_get, wp_ite, wp_refuse, wp_pure]
  refine ⟨fun hlt => ⟨fun hlimit => hE hlt hlimit, fun hlimit => ?_⟩, fun hle => ?_⟩
  · have hresize : resize s.evm.memory (till + (32 - till % 32) % 32) =
        .ok (s.evm.memory ++ List.replicate (grownTo s.evm.memory.length till - s.evm.memory.length) 0) := by
      unfold allocationSanityLimit at hlimit
      unfold resize isizeMax grownTo
      rw [if_pos (by omega), if_pos hlt, List.take_of_length_le (by omega)]
    simp only [growTo, wp_bind, wp_get, wp_lift, wp_modify, hresize]
    refine ⟨?_, fun _ hf => by cases hf⟩
    rintro _ ⟨⟩
    exact hQ fun _ => not_lt.1 hlimit
  · have hsame : grownTo s.evm.memory.length till = s.evm.memory.length := if_neg hle
    rw [hsame, Nat.sub_self, List.replicate_zero, List.append_nil] at hQ
    exact hQ fun hlt => absurd hlt hle

/-- A memory whose square fits is priced. -/
theorem wp_memoryExpansionCost_exact {Q : Int → Machine T → Prop} {E : Fault → Machine T → Prop}
    (hsmall : divCeil s.evm.memory.length 32 * divCeil s.evm.memory.length 32 < 2 ^ 63)
    (hQ : Q (memPrice s.evm.memory.length - s.evm.memCost) { s with evm.memCost := memPrice s.evm.memory.length }) :
    wp memoryExpansionCost Q E s := by
  have hsquare : checkI64 ((divCeil s.evm.memory.length 32 : Int) * divCeil s.evm.memory.length 32) =
      .ok ((divCeil s.evm.memory.length 32 : Int) * divCeil s.evm.memory.length 32) := by
    unfold checkI64
    rw [if_pos (by omega)]
  have hprice : ((divCeil s.evm.memory.length 32 : Int) * divCeil s.evm.memory.length 32) / 512 +
      3 * (divCeil s.evm.memory.length 32 : Int) = memPrice s.evm.memory.length := by
    unfold memPrice
    omega
  simp only [memoryExpansionCost, Evm.memoryExpansionCost, wp_onEvm, wp_bind, wp_get, wp_lift, wp_set, wp_pure, hsquare]
  refine ⟨?_, fun _ hf => by cases hf⟩
  rintro _ ⟨⟩
  rw [hprice]
  exact hQ

/-- Memory grown within the sanity limit can be priced. -/
theorem small_grown {len till : Nat} (hsmall : divCeil len 32 * divCeil len 32 < 2 ^ 63)
    (hlimit : len < till → till ≤ allocationSanityLimit) :
    divCeil (grownTo len till) 32 * divCeil (grownTo len till) 32 < 2 ^ 63 := by
  unfold grownTo
  split
  · next hlt =>
    have hle := hlimit hlt
    unfold allocationSanityLimit at hle
    have hwords : divCeil (till + (32 - till % 32) % 32) 32 ≤ 65537 := by
      unfold divCeil
      omega
    calc divCeil (till + (32 - till % 32) % 32) 32 * divCeil (till + (32 - till % 32) % 32) 32
        ≤ 65537 * 65537 := Nat.mul_le_mul hwords hwords
      _ < 2 ^ 63 := by decide
  · exact hsmall

end

/-! ## Init code -/

/-- How far the memory has to reach for a range. -/
def rangeTill (offset size : Nat) : Nat := if 0 < size then offset + size else 0

/-- The init code can be sliced from a memory of `len` bytes; the slice is taken even when it
    is empty. -/
structure InitFits (len offset size : Nat) : Prop where
  till : offset + size ≤ usizeMax
  empty : size = 0 → offset ≤ len
  sanity : len < rangeTill offset size → rangeTill offset size ≤ allocationSanityLimit

/-- The memory would grow beyond the sanity limit. -/
structure InitExcessive (len offset size : Nat) : Prop where
  till : offset + size ≤ usizeMax
  grows : len < rangeTill offset size
  limit : allocationSanityLimit < rangeTill offset size

section

variable {T : Type} {s : Machine T}

theorem slice_fits {b : Bytes} {start till : Nat} (h : start ≤ till) (hlen : till ≤ b.length) :
    slice b start till = .ok ((b.drop start).take (till - start)) := if_pos ⟨h, hlen⟩

theorem slice_beyond {b : Bytes} {start till : Nat} (h : b.length < till) :
    slice b start till = panic "slice index out of range" := if_neg fun hle => by omega

/-- The init code is the window of the memory it names. -/
theorem wp_initCode_exact {offset size : Nat} {Q : Bytes × Int → Machine T → Prop} {E : Fault → Machine T → Prop}
    (hsmall : divCeil s.evm.memory.length 32 * divCeil s.evm.memory.length 32 < 2 ^ 63)
    (hQ : ∀ memory, InitFits s.evm.memory.length offset size →
      Q (window s.evm.memory offset size,
          memPrice (grownTo s.evm.memory.length (rangeTill offset size)) - s.evm.memCost)
        { s with
          evm.memory := memory
          evm.memCost := memPrice (grownTo s.evm.memory.length (rangeTill offset size)) })
    (hreport : InitExcessive s.evm.memory.length offset size → ∀ r, E (.report r) s)
    (hpanic : ¬InitFits s.evm.memory.length offset size → ¬InitExcessive s.evm.memory.length offset size →
      ∀ why t, E (.panic why) t) : wp (initCode offset size) Q E s := by
  unfold initCode
  rw [wp_bind, wp_lift]
  refine ⟨fun till htill => ?_, fun f hf => ?_⟩
  · unfold addUsize at htill
    split at htill
    · next hroom =>
      cases htill
      rw [wp_bind]
      refine wp_expandTo_exact _ (fun hsanity => ?_) fun hlt hlimit => hreport ⟨hroom, hlt, hlimit⟩ _
      obtain ⟨hgrows, hcovers⟩ := le_grownTo s.evm.memory.length (rangeTill offset size)
      obtain ⟨memory, hmemory⟩ : ∃ memory, memory = s.evm.memory ++
          List.replicate (grownTo s.evm.memory.length (rangeTill offset size) - s.evm.memory.length) (0 : UInt8) := ⟨_, rfl⟩
      have hlen : memory.length = grownTo s.evm.memory.length (rangeTill offset size) := by
        rw [hmemory, List.length_append, List.length_replicate]
        omega
      have hgrown : Grown s.evm.memory memory := ⟨_, hmemory⟩
      rw [show s.evm.memory ++ List.replicate (grownTo s.evm.memory.length (if 0 < size then offset + size else 0) -
        s.evm.memory.length) (0 : UInt8) = memory from hmemory.symm, wp_bind]
      have hprice : divCeil memory.length 32 * divCeil memory.length 32 < 2 ^ 63 := by
        rw [hlen]
        exact small_grown hsmall hsanity
      refine wp_memoryExpansionCost_exact hprice ?_
      · simp only [readMemory, wp_bind, wp_get, wp_lift, wp_pure, hlen]
        by_cases hfits : offset + size ≤ memory.length
        · have hslice := slice_fits (Nat.le_add_right offset size) hfits
          rw [hslice]
          refine ⟨fun code hcode => ?_, fun _ hf => by cases hf⟩
          cases hcode
          rw [hgrown.slice hslice, Nat.add_sub_cancel_left]
          refine hQ memory ⟨hroom, fun hempty => ?_, hsanity⟩
          have hsame : grownTo s.evm.memory.length (rangeTill offset size) = s.evm.memory.length := by
            simp [rangeTill, hempty, grownTo]
          omega
        · rw [slice_beyond (not_le.1 hfits)]
          refine ⟨fun _ hcode => (by cases hcode), fun f hf => ?_⟩
          cases hf
          refine hpanic (fun h => hfits ?_) (fun h => absurd (hsanity h.grows) (not_le.2 h.limit)) _ _
          by_cases hempty : size = 0
          · have hle := h.empty hempty
            omega
          · have htill : rangeTill offset size = offset + size := if_pos (by omega)
            omega
    · cases htill
  · unfold addUsize at hf
    split at hf
    · cases hf
    · next hroom =>
      cases hf
      exact hpanic (fun h => hroom h.till) (fun h => hroom h.till) _ _

end

/-! ## The creator and the new account -/

/-- The entry, the mark and the access that a creation leaves at the new address. -/
def Ext.opened (e : Ext) (created : Address) : Ext :=
  { e with
    createdAccounts := e.createdAccounts ++ [created]
    accessedAddresses := insert created e.accessedAddresses
    state := e.state.insert created (e.orDefault created) }

section

variable {T : Type} {s : Machine T}

/-- The gas and the operands of a frame stay; its accounts become those of `e`. -/
structure AtAccounts (s : Machine T) (e : Ext) (t : Machine T) : Prop where
  ext : t.ext = e
  gas : t.evm.gas = s.evm.gas
  stack : t.evm.stack = s.evm.stack

theorem wp_openAccount_exact {Q : Unit → Machine T → Prop} {E : Fault → Machine T → Prop} (created : Address)
    (hQ : ∀ t, AtAccounts s (s.ext.opened created) t → Q () t) : wp (openAccount created) Q E s := by
  have hwarm : wp (warmTouch created) (fun _ t =>
      AtAccounts s { s.ext with
        createdAccounts := s.ext.createdAccounts ++ [created]
        accessedAddresses := insert created s.ext.accessedAddresses } t) (fun _ _ => False)
      { s with ext.createdAccounts := s.ext.createdAccounts ++ [created] } := by
    simp only [warmTouch, wp_bind, wp_onExt, Ext.warmAddress, wp_get, wp_set, wp_pure, wp_ite, wp_touch]
    exact ⟨fun _ => ⟨rfl, rfl, rfl⟩, fun _ => ⟨rfl, rfl, rfl⟩⟩
  unfold openAccount
  rw [wp_bind, wp_modify, wp_bind]
  refine wp_mono hwarm (fun _ t ht => ?_) fun _ _ h => h.elim
  rw [wp_modify]
  refine hQ _ ⟨?_, ht.gas, ht.stack⟩
  simp only [ht.ext]
  rfl

variable [Crypto] [EventTracer T]

/-- The nonce of a creator that can be loaded is bumped, unless it is the last. -/
theorem wp_bumpNonce_exact {Q : Word → Machine T → Prop} {E : Fault → Machine T → Prop} {depth : Nat} {this : Address}
    {account : Account} {e : Ext} (hpull : Ext.pull this s.ext = .ok account e)
    (hQ : account.nonce.toNat + 1 < 2 ^ 64 → ∀ t,
      AtAccounts s (e.mutate this fun a => { a with nonce := account.nonce + 1 }) t → Q account.nonce t)
    (hE : ¬account.nonce.toNat + 1 < 2 ^ 64 → ∀ why t, E (.panic why) t) : wp (bumpNonce depth this) Q E s := by
  have hl : e.state.lookup this = some account := (Ext.pulled hpull).lookup
  unfold bumpNonce
  rw [wp_bind, wp_onExt, Ext.nonce, wp_bind, wp_of_ok hpull]
  simp only [wp_pure, wp_bind, wp_lift, wp_onExt, Ext.wp_accountMut, wp_touch, wp_emit]
  refine ⟨fun bumped hb => ⟨fun _ => ⟨fun val hval => ⟨fun new hnew => ?_, fun f hf => ?_⟩, fun f hf => ?_⟩,
    fun h => by simp [hl] at h⟩, fun f hf => ?_⟩
  · obtain ⟨-, rfl⟩ := Word.add_ok hb
    obtain ⟨-, rfl⟩ := Word.asU64_ok hval
    split at hnew
    · next hroom => exact hQ (by omega) _ ⟨rfl, rfl, rfl⟩
    · cases hnew
  · obtain ⟨-, rfl⟩ := Word.asU64_ok hval
    split at hf
    · cases hf
    · next hlast =>
      cases hf
      exact hE (by omega) _ _
  · unfold Word.asU64 at hf
    split at hf
    · cases hf
    · next hwide =>
      cases hf
      exact hE (by omega) _ _
  · unfold Word.add at hf
    split at hf
    · cases hf
    · next hover =>
      cases hf
      refine hE (fun hsmall => hover ?_) _ _
      have hone : (1 : Word).toNat = 1 := rfl
      omega

/-- A creator that cannot be loaded is reported. -/
theorem wp_bumpNonce_missing {Q : Word → Machine T → Prop} {E : Fault → Machine T → Prop} {depth : Nat} {this : Address}
    (hnone : s.ext.account? this = none) (hE : ∀ r t, E (.report r) t) : wp (bumpNonce depth this) Q E s := by
  unfold bumpNonce
  rw [wp_bind, wp_onExt, Ext.nonce, wp_bind]
  refine wp_def.2 ⟨fun account e hp => ?_, fun f e hf => ?_⟩
  · rw [Ext.pull_account? hp] at hnone
    cases hnone
  · obtain ⟨r, rfl⟩ := Ext.pull_report hf
    exact hE _ _

end

/-! ## The operands of a creation -/

namespace Step

variable {T : Type} (x : Step T)

/-- The creation takes a salt: it is a CREATE2, or a CREATE of a frame that a CREATE2 opened. -/
def salted : Bool := (callContext x.scope.ctx x.op).callType == .create2

/-- The operands a creation takes. -/
def taken : Nat := if x.salted then 4 else 3

def initOffset : Nat := (x.operand 1).toNat

def initSize : Nat := (x.operand 2).toNat

def initCode : Bytes := window x.before.evm.memory x.initOffset x.initSize

def initWords : Nat := divCeil x.initSize 32

/-- What the memory the init code lies in still costs. -/
def initExpansion : Int :=
  memPrice (grownTo x.before.evm.memory.length (rangeTill x.initOffset x.initSize)) - x.before.evm.memCost

/-- The price of a creation before its init code runs; a salted one hashes the init code. -/
def createPrice (salted : Bool) : Int :=
  x.initExpansion + 32000 + (2 * (x.initWords : Int) + if salted then 6 * (x.initWords : Int) else 0)

/-- The creation gets to its init code. -/
structure Ready [Crypto] : Prop where
  has : x.has x.taken
  offset : x.initOffset < 2 ^ 64
  size : x.initSize < 2 ^ 64
  fits : InitFits x.before.evm.memory.length x.initOffset x.initSize
  creator : ∃ account, x.before.ext.account? x.this = some account ∧ account.nonce.toNat + 1 < 2 ^ 64
  covered : x.createPrice x.salted < x.before.evm.gas.remaining

/-- The creation is reported, and its frame halts. -/
structure Refused [Crypto] : Prop where
  offset : x.initOffset < 2 ^ 64
  size : x.initSize < 2 ^ 64
  why : ¬x.has x.taken ∨ InitExcessive x.before.evm.memory.length x.initOffset x.initSize ∨
    InitFits x.before.evm.memory.length x.initOffset x.initSize ∧ x.before.ext.account? x.this = none

/-- The address of the new account, for the creator's nonce. -/
def derived [Crypto] (nonce : Word) : Address :=
  if x.salted then x.this.create2 (x.operand 3) x.initCode else x.this.create nonce

end Step

section

variable {T : Type} [Crypto] [EventTracer T] {x : Step T}

omit [Crypto] [EventTracer T] in
theorem not_ready_of_excessive {len offset size : Nat} (h : InitExcessive len offset size) : ¬InitFits len offset size :=
  fun h' => absurd (h'.sanity h.grows) (not_le.2 h.limit)

omit [EventTracer T] in
theorem Step.Refused.not_ready (h : x.Refused) : ¬x.Ready := by
  intro hready
  rcases h.why with hhas | hexc | ⟨-, hnone⟩
  · exact hhas hready.has
  · exact not_ready_of_excessive hexc hready.fits
  · obtain ⟨account, hacc, -⟩ := hready.creator
    rw [hnone] at hacc
    cases hacc

/-- What an opened creation hands over: the init code with what is left but a 64th, under
    the derived address. -/
structure CreatesAt (x : Step T) (inner : Inner T) (pending : Pending) (t : Machine T) : Prop where
  accounts : ∃ account e, Ext.pull x.this x.before.ext = .ok account e ∧
    inner.scope.ctx.created = x.derived account.nonce ∧
    t.ext = (e.mutate x.this fun a => { a with nonce := account.nonce + 1 }).opened inner.scope.ctx.created
  gas : t.evm.gas = x.before.evm.gas
  stack : t.evm.stack = x.before.evm.stack.drop x.taken
  code : inner.scope.code = decode x.initCode
  limit : inner.evm.gas.limit = x.before.evm.gas.remaining - x.createPrice x.salted -
    (x.before.evm.gas.remaining - x.createPrice x.salted) / 64
  pending : pending = .create (x.createPrice x.salted) inner.evm.gas.limit inner.scope.ctx.created x.value

omit [Crypto] [EventTracer T] in
theorem asUsize_error {w : Word} {f : Fault} (h : w.asUsize = .error f) : ¬w.toNat < 2 ^ 64 ∧ ∃ why, f = .panic why := by
  unfold Word.asUsize at h
  split at h
  · cases h
  · next hwide =>
    cases h
    exact ⟨hwide, _, rfl⟩

omit [Crypto] [EventTracer T] in
theorem asUsize_lt {w : Word} {n : Nat} (h : w.asUsize = .ok n) : w.toNat < 2 ^ 64 := by
  unfold Word.asUsize at h
  split at h
  · next hlt => exact hlt
  · cases h

omit [Crypto] [EventTracer T] in
theorem wp_popSalt_exact {Q : Word → Machine T → Prop} {E : Fault → Machine T → Prop} {s : Machine T} (salted : Bool)
    (hQ : ∀ salt, (salted = true → 0 < s.evm.stack.length ∧ salt = s.evm.stack.getD 0 0) →
      Q salt { s with evm.stack := s.evm.stack.drop (if salted then 1 else 0) })
    (hE : salted = true → s.evm.stack = [] → ∀ r t, E (.report r) t) : wp (popSalt salted) Q E s := by
  unfold popSalt
  cases salted with
  | false =>
    refine (wp_pure _).2 ?_
    have hQ := hQ 0 nofun
    simpa using hQ
  | true =>
    simp only [if_true, wp_pop]
    refine ⟨fun salt rest hst => ?_, fun hst => hE rfl hst _ _⟩
    have hQ := hQ salt fun _ => ⟨by simp [hst], by simp [hst]⟩
    simpa [hst] using hQ

omit [Crypto] in
/-- The creation proper opens a frame with what is left but a 64th, or panics. -/
theorem wp_createEnter_exact {Q : Opened T → Machine T → Prop} {E : Fault → Machine T → Prop} {s : Machine T} (sc : Scope)
    (code : Bytes) {base : Int} (created : Address) (value : Word)
    (hQ : base < s.evm.gas.remaining → ∀ inner : Inner T, inner.scope.ctx.created = created →
      inner.scope.code = decode code →
      inner.evm.gas.limit = s.evm.gas.remaining - base - (s.evm.gas.remaining - base) / 64 →
      Q (.frame inner (.create base inner.evm.gas.limit created value)) s)
    (hE : ¬base < s.evm.gas.remaining → ∀ why, E (.panic why) s) : wp (createEnter sc code base created value) Q E s := by
  simp only [createEnter, wp_bind, wp_remaining, wp_ite, wp_throw]
  refine ⟨fun hleft => hE (by omega) _, fun hleft => ?_⟩
  refine wp_mono (wp_newFrame _ _) (fun inner t ht => ?_) fun _ _ h => h.elim
  obtain ⟨rfl, hscope, -, hlimit⟩ := ht
  have hQ := hQ (by omega) inner (by rw [hscope]) (by rw [hscope]) hlimit
  rw [hlimit] at hQ
  exact (wp_pure _).2 hQ

/-- A creation opens its frame when it is ready, is reported when it is refused, and panics
    otherwise. -/
theorem wp_createOpen_exact (hop : x.isCreation) (hhas : x.has 3) (hs : Paid x.before.evm) :
    wp (createOpen (x.scope.inContext x.op))
      (fun o t => x.Ready ∧ ∃ inner pending, o = .frame inner pending ∧ CreatesAt x inner pending t)
      (fun f _ => (x.Refused ∧ ∃ r, f = .report r) ∨ (¬x.Ready ∧ ¬x.Refused ∧ ∃ why, f = .panic why)) x.before := by
  obtain ⟨value, w₁, w₂, rest, hst⟩ : ∃ value w₁ w₂ rest, x.before.evm.stack = value :: w₁ :: w₂ :: rest := by
    unfold Step.has at hhas
    match h : x.before.evm.stack with
    | [] | [_] | [_, _] => rw [h] at hhas; simp at hhas
    | value :: w₁ :: w₂ :: rest => exact ⟨value, w₁, w₂, rest, rfl⟩
  have hvalue : x.value = value := by
    rcases hop with h | h <;> simp only [Step.value, h, Step.operand, hst, List.getD_cons_zero]
  have hoffset : x.initOffset = w₁.toNat := by simp [Step.initOffset, Step.operand, hst]
  have hsize : x.initSize = w₂.toNat := by simp [Step.initSize, Step.operand, hst]
  have hthis : (x.scope.inContext x.op).this = x.this := this_inContext _ _
  have hpanic : ∀ why, ¬x.Ready → ¬x.Refused → (x.Refused ∧ ∃ r, Fault.panic why = .report r) ∨
      (¬x.Ready ∧ ¬x.Refused ∧ ∃ why', Fault.panic why = .panic why') := fun why h h' => .inr ⟨h, h', why, rfl⟩
  simp only [createOpen, popUsize, bind_assoc, wp_bind, wp_pop, wp_lift, hst]
  refine ⟨?_, fun h => by cases h⟩
  rintro _ _ ⟨⟩
  refine ⟨?_, fun h => by cases h⟩
  rintro _ _ ⟨⟩
  refine ⟨fun offset ho => ⟨?_, nofun⟩, fun f hf => ?_⟩
  · rintro _ _ ⟨⟩
    refine ⟨fun size hz => ?_, fun f hf => ?_⟩
    · have hoff : x.initOffset < 2 ^ 64 := hoffset ▸ asUsize_lt ho
      have hsz : x.initSize < 2 ^ 64 := hsize ▸ asUsize_lt hz
      obtain rfl : offset = x.initOffset := (asUsize_ok ho).trans hoffset.symm
      obtain rfl : size = x.initSize := (asUsize_ok hz).trans hsize.symm
      rw [show ((x.scope.inContext x.op).ctx.callType == CallType.create2) = x.salted from rfl]
      refine wp_popSalt_exact _ (fun salt hsalt => ?_) fun hsalted hnil r t => ?_
      · have htaken : x.has x.taken := by
          unfold Step.has Step.taken
          rw [hst]
          cases hx : x.salted with
          | false => simp
          | true =>
            have hlen := (hsalt hx).1
            simp at hlen
            simp
            omega
        rw [wp_bind]
        refine wp_initCode_exact hs.small (fun memory hfits => ?_)
          (fun hexc r => .inl ⟨⟨hoff, hsz, .inr (.inl hexc)⟩, r, rfl⟩)
          fun hunfit hmod why _ => hpanic why (fun h => hunfit h.fits) fun h => ?_
        · have hbase : memPrice (grownTo x.before.evm.memory.length (rangeTill x.initOffset x.initSize)) -
            x.before.evm.memCost +
              32000 + (2 * (divCeil x.initCode.length 32 : Int) + if x.salted =
                true then 6 * (divCeil x.initCode.length 32 : Int) else 0) =
              x.createPrice x.salted := by
            unfold Step.createPrice Step.initExpansion Step.initWords Step.initCode
            rw [window_length]
          rw [wp_bind, hthis]
          cases hacc : x.before.ext.account? x.this with
          | none =>
            exact wp_bumpNonce_missing hacc fun r t => .inl ⟨⟨hoff, hsz, .inr (.inr ⟨hfits, hacc⟩)⟩, r, rfl⟩
          | some account =>
            obtain ⟨e, hpull⟩ := Ext.pull_ok hacc
            have hrefused : ¬x.Refused := by
              intro h
              rcases h.why with hlacks | hexc | ⟨-, hnone⟩
              · exact hlacks htaken
              · exact not_ready_of_excessive hexc hfits
              · rw [hacc] at hnone
                cases hnone
            refine wp_bumpNonce_exact hpull (fun hnonce t ht => ?_) fun hlast why t => hpanic why (fun h => ?_) hrefused
            · have hderived : (if x.salted = true then x.this.create2 salt x.initCode else x.this.create account.nonce) =
                  x.derived account.nonce := by
                unfold Step.derived
                cases hx : x.salted with
                | false => simp only [Bool.false_eq_true, if_false]
                | true =>
                  have hsalt := (hsalt hx).2
                  simp only [if_true]
                  rw [hsalt]
                  simp [Step.operand, hst]
              have hdropped : t.evm.stack = x.before.evm.stack.drop x.taken := by
                rw [ht.stack, hst]
                unfold Step.taken
                cases x.salted <;> simp
              rw [wp_bind]
              refine wp_openAccount_exact _ fun u hu => ?_
              have hgas : u.evm.gas = x.before.evm.gas := hu.gas.trans ht.gas
              refine wp_createEnter_exact _ _ _ _ (fun hleft inner hcreated hcode hlimit => ?_) fun hleft why =>
                hpanic why (fun h => hleft ?_) hrefused
              · simp only [Step.initCode] at hbase hderived hcreated hcode
                rw [hgas] at hleft hlimit
                rw [hbase] at hleft hlimit
                rw [hderived] at hcreated
                refine ⟨⟨htaken, hoff, hsz, hfits, ⟨account, hacc, hnonce⟩, hleft⟩, inner, _, rfl,
                  ⟨account, e, hpull, hcreated, ?_⟩,
                  hgas, hu.stack.trans hdropped, hcode, hlimit, ?_⟩
                · rw [hu.ext, ht.ext, hderived, hcreated]
                · rw [hbase, hderived, hcreated, hvalue]
              · have hcovered := h.covered
                rw [hgas]
                simp only [Step.initCode] at hbase
                rw [hbase]
                exact hcovered
            · obtain ⟨account', hacc', hroom⟩ := h.creator
              rw [hacc] at hacc'
              cases hacc'
              exact hlast hroom
        · rcases h.why with hlacks | hexc | hmissing
          · exact hlacks htaken
          · exact hmod hexc
          · exact hunfit hmissing.1
      · refine .inl ⟨⟨hoff, hsz, .inl fun h => ?_⟩, r, rfl⟩
        unfold Step.has Step.taken at h
        simp at hnil
        simp [hst, hsalted, hnil] at h
    · obtain ⟨hwide, why, rfl⟩ := asUsize_error hf
      exact hpanic why (fun h => hwide (hsize ▸ h.size)) fun h => hwide (hsize ▸ h.size)
  · obtain ⟨hwide, why, rfl⟩ := asUsize_error hf
    exact hpanic why (fun h => hwide (hoffset ▸ h.offset)) fun h => hwide (hoffset ▸ h.offset)

end

end Solenoid
