import JavaFragment.Proofs.BufferOperations
/-!
What is read back from a finished body. Addresses are counted by the sizes of instructions while the
body holds their bytes, and the two agree but for interface invocations, which have one byte more than
they count for. So a body without them decodes to what was appended, at the recorded addresses; with one
before the last instruction all later addresses are off.
-/
namespace JavaFragment

namespace Instruction

variable {fuel : Nat}

def isInterfaceCall : Instruction → Bool
  | .invokeInterface _ _ _ => true
  | _ => false

/-- The bytes of an instruction are as many as it counts for, with one more for an interface
invocation. -/
theorem length_encode (address : Nat) (i : Instruction) :
    (i.encode address).length = i.size address + i.isInterfaceCall.toNat := by
  cases i with
  | tableSwitch default low offsets =>
    simp [encode, isWide, operands, size, isInterfaceCall, List.map_const', List.sum_replicate_nat]
    omega
  | lookupSwitch default pairs =>
    simp [encode, isWide, operands, size, isInterfaceCall, List.map_const', List.sum_replicate_nat]
    omega
  | _ => simp [encode, isWide, operands, size, isInterfaceCall]

theorem encode_ne_nil (address : Nat) (i : Instruction) : i.encode address ≠ [] := by
  intro hNil
  have hLength := i.length_encode address
  have hPos := i.size_pos address
  rw [hNil, List.length_nil] at hLength
  omega

/-- Instructions that follow one another, with their addresses. -/
def layOut (address : Nat) : List Instruction → List (Nat × Instruction)
  | [] => []
  | i :: rest => (address, i) :: layOut (address + i.size address) rest

/-- Where instructions that follow one another end. -/
def layOutEnd (address : Nat) : List Instruction → Nat
  | [] => address
  | i :: rest => layOutEnd (address + i.size address) rest

/-- The bytes of instructions, each written for the address it has. -/
def encodeAll (placed : List (Nat × Instruction)) : List UInt8 := placed.flatMap fun (address, i) => i.encode address

theorem encodeAll_cons (address : Nat) (i : Instruction) (placed : List (Nat × Instruction)) :
    encodeAll ((address, i) :: placed) = i.encode address ++ encodeAll placed := rfl

theorem length_encodeAll (address : Nat) (l : List Instruction) : address + (encodeAll (layOut address l)).length =
      layOutEnd address l + l.countP isInterfaceCall := by
  induction l generalizing address with
  | nil => rfl
  | cons i rest ih =>
    have hRest := ih (address + i.size address)
    simp only [layOut, layOutEnd, encodeAll_cons, List.length_append, length_encode, List.countP_cons]
    cases i.isInterfaceCall <;> simp <;> omega

theorem length_le_encodeAll (address : Nat) (l : List Instruction) :
    l.length ≤ (encodeAll (layOut address l)).length := by
  induction l generalizing address with
  | nil => exact Nat.le_refl 0
  | cons i rest ih =>
    have hRest := ih (address + i.size address)
    have hPos := List.length_pos_iff.2 (i.encode_ne_nil address)
    simp only [layOut, encodeAll_cons, List.length_append, List.length_cons]
    omega

/-- What is read from an address begins there. -/
theorem head_decodeAll {address : Nat} {bytes : List UInt8} {first : Nat × Instruction}
    {placed : List (Nat × Instruction)} (h : decodeAll fuel address bytes = .ok (first :: placed)) :
    first.1 = address := by
  cases bytes with
  | nil => simp [decodeAll] at h
  | cons byte bytes =>
    cases fuel with
    | zero => simp [decodeAll] at h
    | succ fuel =>
      unfold decodeAll at h
      cases hRead : decode address (byte :: bytes) with
      | none => simp [hRead] at h
      | some found =>
        simp only [hRead, bind, Except.bind] at h
        split at h
        · cases h
        · cases h
          rfl

theorem decodeAll_encode {address : Nat} {i : Instruction} (hForm : i.isWellFormed) (rest : List UInt8) :
    decodeAll (fuel + 1) address (i.encode address ++ rest) =
      (decodeAll fuel (address + (i.encode address).length) rest).map ((address, i) :: ·) := by
  have hRead : decode address (i.encode address ++ rest) = some (i, rest) := by
    rw [encode_eq]
    exact decode_encodeWith hForm (List.length_replicate ..) rest
  cases hBytes : i.encode address ++ rest with
  | nil => exact absurd (List.append_eq_nil_iff.1 hBytes).1 (i.encode_ne_nil address)
  | cons byte bytes =>
    rw [hBytes] at hRead
    simp only [decodeAll, hRead, bind, Except.bind, pure, Except.pure, Except.map]

/-- Instructions are read back at the addresses they were laid out at just when no interface
invocation comes before the last. -/
theorem decodeAll_layOut {l : List Instruction} (hForm : ∀ i ∈ l, i.isWellFormed)
    (hFuel : l.length ≤ fuel) (address : Nat) :
    decodeAll fuel address (encodeAll (layOut address l)) = .ok (layOut address l) ↔
      ∀ i ∈ l.dropLast, ¬ i.isInterfaceCall := by
  induction l generalizing fuel address with
  | nil => simp [layOut, encodeAll, decodeAll]
  | cons i rest ih =>
    obtain ⟨fuel, rfl⟩ : ∃ less, fuel = less + 1 := ⟨fuel - 1, by simp at hFuel; omega⟩
    have hFirst : i.isWellFormed := hForm i List.mem_cons_self
    have hRest := ih (fun j hj => hForm j (List.mem_cons_of_mem i hj))
      (Nat.le_of_succ_le_succ hFuel) (address + i.size address)
    rw [layOut, encodeAll_cons, decodeAll_encode hFirst, length_encode]
    cases rest with
    | nil => simp [layOut, encodeAll, decodeAll, Except.map]
    | cons j rest =>
      cases hCall : i.isInterfaceCall with
      | false =>
        simp only [List.dropLast_cons_cons, List.forall_mem_cons, hCall, Bool.false_eq_true,
          not_false_eq_true, true_and, ← hRest, Bool.toNat_false, Nat.add_zero]
        cases decodeAll fuel (address + i.size address)
          (encodeAll (layOut (address + i.size address) (j :: rest))) <;> simp [Except.map]
      | true =>
        -- The next instruction is found one byte after its recorded address.
        simp only [List.dropLast_cons_cons, List.forall_mem_cons, hCall, not_true_eq_false, false_and, iff_false]
        intro hRead
        cases hLater : decodeAll fuel (address + (i.size address + true.toNat))
          (encodeAll (layOut (address + i.size address) (j :: rest))) with
        | error fault => simp only [hLater, Except.map, reduceCtorEq] at hRead
        | ok placed =>
          simp only [hLater, Except.map, Except.ok.injEq, List.cons.injEq, true_and] at hRead
          subst hRead
          have hAddress := head_decodeAll hLater
          simp at hAddress

end Instruction

namespace CodeBuffer

open Instruction

variable {b : CodeBuffer}

/-- The instructions of a buffer with the addresses that it recorded. -/
def recorded (b : CodeBuffer) : List (Nat × Instruction) := b.addresses.toList.zip b.instructions.toList

/-- The instructions of a consistent buffer from any of them on follow one another up to its end. -/
theorem Consistent.drop_recorded (hb : b.Consistent) {count k : Nat} (hEnd : k + count = b.instructions.size) :
    b.recorded.drop k = layOut (b.address k) (b.instructions.toList.drop k) ∧
      b.pc = layOutEnd (b.address k) (b.instructions.toList.drop k) := by
  induction count generalizing k with
  | zero =>
    have hAll : b.instructions.toList.drop k = [] := List.drop_eq_nil_of_le (by simp; omega)
    have hPc : b.address k = b.pc := address_of_le (by rw [hb.sizes]; omega)
    simp [recorded, List.drop_zipWith, List.zip, hAll, layOut, layOutEnd, hPc]
  | succ count ih =>
    have hLt : k < b.instructions.size := by omega
    have hAt : b.addresses.toList.drop k = b.address k :: b.addresses.toList.drop (k + 1) := by
      rw [List.drop_eq_getElem_cons (by simpa [hb.sizes] using hLt)]
      simp [address, hb.sizes, hLt]
    have hHead : b.instructions.toList.drop k = b.instructions[k] :: b.instructions.toList.drop (k + 1) := by
      rw [List.drop_eq_getElem_cons (by simpa using hLt)]
      simp
    obtain ⟨hRest, hPc⟩ := ih (k := k + 1) (by omega)
    rw [hb.next k _ (Array.getElem?_eq_getElem hLt)] at hRest hPc
    constructor
    · rw [hHead, layOut, ← hRest]
      simp [recorded, List.zip, List.drop_zipWith, hAt, hHead]
    · rw [hHead, layOutEnd, ← hPc]

theorem Consistent.recorded_eq (hb : b.Consistent) :
    b.recorded = layOut 0 b.instructions.toList ∧ b.pc = layOutEnd 0 b.instructions.toList := by
  simpa [hb.first] using hb.drop_recorded (Nat.zero_add b.instructions.size)

/-! Instructions that can be written stay so. -/

theorem isWellFormed_outline (i : Instruction) : i.outline.isWellFormed = i.isWellFormed := by
  cases i <;> simp [outline, isWellFormed]

def AllWellFormed (b : CodeBuffer) : Prop := ∀ i ∈ b.instructions, i.isWellFormed

theorem AllWellFormed.change {c : CodeBuffer} (hb : b.AllWellFormed)
    (h : Change (fun i => i.isWellFormed) b c) : c.AllWellFormed := by
  intro i hi
  cases h with
  | append change hNew =>
    rcases Array.mem_push.1 hi with hOld | rfl
    · exact hb i hOld
    · exact hNew
  | @retarget index old new hAt hSame =>
    rcases Array.mem_or_eq_of_mem_setIfInBounds hi with hOld | rfl
    · exact hb i hOld
    · rw [← isWellFormed_outline, hSame, isWellFormed_outline]
      exact hb old (Array.mem_of_getElem? hAt)
  | limits hInstructions _ _ _ _ _ => exact hb i (hInstructions ▸ hi)

theorem AllWellFormed.changes {c : CodeBuffer} (hb : b.AllWellFormed)
    (h : Changes (fun i => i.isWellFormed) b c) : c.AllWellFormed := by
  induction h with
  | refl => exact hb
  | tail _ hLast ih => exact ih.change hLast

theorem AllWellFormed.afterAll (hb : b.AllWellFormed) {ops : List BufferOp}
    (hForm : ∀ op ∈ ops, op.isWellFormed) : (b.afterAll ops).AllWellFormed := by
  induction ops generalizing b with
  | nil => exact hb
  | cons op ops ih =>
    have hFirst := hForm op List.mem_cons_self
    apply ih _ fun later hLater => hForm later (List.mem_cons_of_mem op hLater)
    exact hb.changes (by simpa only [hFirst, forall_const] using op.after_changes b)

theorem of_finish {m : MethodCode} (h : b.finish = .ok m) : b.pc ≤ longestBody ∧ m.code = encodeAll b.recorded := by
  unfold finish at h
  split at h
  · cases h
  · next hFits =>
    cases h
    exact ⟨Nat.le_of_not_lt hFits, rfl⟩

theorem Consistent.finish_decodes {m : MethodCode} (hb : b.Consistent) (hAll : b.AllWellFormed)
    (hFinish : b.finish = .ok m) :
    m.code.length = b.pc + b.instructions.toList.countP isInterfaceCall ∧
      (m.instructions = .ok b.recorded ↔ ∀ i ∈ b.instructions.toList.dropLast, ¬ i.isInterfaceCall) := by
  obtain ⟨hRecorded, hPc⟩ := hb.recorded_eq
  obtain ⟨-, hCode⟩ := of_finish hFinish
  have hLength : m.code.length = b.pc + b.instructions.toList.countP isInterfaceCall := by
    have hBytes := length_encodeAll 0 b.instructions.toList
    rw [hCode, hRecorded, hPc]
    omega
  have hFuel : b.instructions.toList.length ≤ m.code.length := by
    rw [hCode, hRecorded]
    exact length_le_encodeAll 0 _
  refine ⟨hLength, ?_⟩
  rw [MethodCode.instructions, hCode, hRecorded]
  rw [hCode, hRecorded] at hFuel
  exact decodeAll_layOut (fun i hi => hAll i (by simpa using hi)) hFuel 0

/-- A finished body has at most the bytes that are allowed, as far as addresses count them. It has one
byte more for each interface invocation, and it decodes to the appended instructions at their recorded
addresses just when none of these comes before the last instruction. -/
theorem finished_code_decodes {locals : UInt16} {ops : List BufferOp} {b : CodeBuffer} {m : MethodCode}
    (hForm : ∀ op ∈ ops, op.isWellFormed) (hb : (withLocals locals).afterAll ops = b)
    (hFinish : b.finish = .ok m) :
    b.pc ≤ longestBody ∧
    m.code.length = b.pc + b.instructions.toList.countP isInterfaceCall ∧
    (m.instructions = .ok b.recorded ↔ ∀ i ∈ b.instructions.toList.dropLast, ¬ i.isInterfaceCall) := by
  have hConsistent : b.Consistent :=
    hb ▸ ((withLocals locals).afterAll_extends ops).consistent (consistent_withLocals locals)
  have hAll : b.AllWellFormed := by
    have hNone : (withLocals locals).AllWellFormed := fun i hi => by simp [withLocals] at hi
    exact hb ▸ hNone.afterAll hForm
  exact ⟨(of_finish hFinish).1, hConsistent.finish_decodes hAll hFinish⟩

/-- An interface invocation and a return: six bytes, of which addresses count five, so that the return
is read at an address other than the recorded one. -/
theorem finished_code_decodes_interface :
    ∃ b m, (withLocals 0).afterAll [.emitInvoke .interface 5 "()V", .emit .voidReturn] = b ∧
      b.finish = .ok m ∧ b.pc = 5 ∧ m.code.length = 6 ∧ m.instructions ≠ .ok b.recorded := by
  refine ⟨_, _, rfl, rfl, rfl, rfl, ?_⟩
  intro hRead
  have hNone := (finished_code_decodes (by decide) rfl rfl).2.2.1 hRead
  exact hNone _ List.mem_cons_self rfl

end CodeBuffer

end JavaFragment
