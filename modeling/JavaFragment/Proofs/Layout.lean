import JavaFragment.Proofs.Machine
/-!
Where the instructions of a buffer lie. Addresses follow one another without gaps, which appending and
patching keep, so that the machine finds each instruction at the address it was given. A buffer grows by
appending; of what it holds already only the targets of branches and switches change.
-/
namespace JavaFragment

/-- An instruction without the targets that are filled in later. -/
def Instruction.outline : Instruction → Instruction
  | .branch b _ => .branch b 0
  | .lookupSwitch _ pairs => .lookupSwitch 0 (pairs.map fun pair => (pair.1, 0))
  | i => i

theorem Instruction.size_outline (i : Instruction) (address : Nat) : i.outline.size address = i.size address := by
  cases i <;> simp [outline, size]

theorem Instruction.size_eq_of_outline {i j : Instruction} (hSame : i.outline = j.outline)
    (address : Nat) : i.size address = j.size address := by
  rw [← i.size_outline, hSame, j.size_outline]

theorem Instruction.size_pos (i : Instruction) (address : Nat) : 0 < i.size address := by
  cases i <;> simp [size] <;> omega

namespace CodeBuffer

variable {b c : CodeBuffer} {j k : Nat}

/-- The address of the instruction with an index, or the one after the last. -/
def address (b : CodeBuffer) (k : Nat) : Nat := b.addresses.getD k b.pc

/-- Every instruction begins where the one before it ends. -/
structure Consistent (b : CodeBuffer) : Prop where
  sizes : b.addresses.size = b.instructions.size
  first : b.address 0 = 0
  next : ∀ k i, b.instructions[k]? = some i → b.address (k + 1) = b.address k + i.size (b.address k)

theorem consistent_withLocals (locals : UInt16) : (withLocals locals).Consistent where
  sizes := rfl
  first := rfl
  next k i hi := by simp [withLocals] at hi

theorem address_of_le (hEnd : b.addresses.size ≤ k) : b.address k = b.pc := by
  simp [address, Array.getElem?_eq_none hEnd]

theorem Consistent.address_size (hb : b.Consistent) :
    b.address b.instructions.size = b.pc := address_of_le (Nat.le_of_eq hb.sizes)

theorem Consistent.address_lt_succ (hb : b.Consistent)
    (hk : k < b.instructions.size) : b.address k < b.address (k + 1) := by
  have hNext := hb.next k _ (Array.getElem?_eq_getElem hk)
  have hPos := (b.instructions[k]).size_pos (b.address k)
  omega

theorem Consistent.address_mono (hb : b.Consistent) (hjk : j ≤ k)
    (hk : k ≤ b.instructions.size) : b.address j ≤ b.address k := by
  induction k with
  | zero => exact Nat.le_of_eq (congrArg b.address (Nat.le_zero.1 hjk))
  | succ k ih =>
    rcases Nat.lt_or_ge j (k + 1) with hLt | hGe
    · have hStep := hb.address_lt_succ (k := k) (by omega)
      have hBefore := ih (by omega) (by omega)
      omega
    · exact Nat.le_of_eq (congrArg b.address (by omega))

theorem Consistent.address_lt (hb : b.Consistent) (hjk : j < k)
    (hk : k ≤ b.instructions.size) : b.address j < b.address k :=
  Nat.lt_of_lt_of_le (hb.address_lt_succ (by omega)) (hb.address_mono (by omega) hk)

theorem Consistent.address_inj (hb : b.Consistent) (hj : j ≤ b.instructions.size) (hk : k ≤ b.instructions.size)
    (hSame : b.address j = b.address k) : j = k := by
  rcases Nat.lt_trichotomy j k with hLt | hEq | hGt
  · have := hb.address_lt hLt hk; omega
  · exact hEq
  · have := hb.address_lt hGt hj; omega

/-- A later buffer: more is appended, and the targets of the instructions with a changed index may
differ. -/
structure Extends (changed : Nat → Prop) (b c : CodeBuffer) : Prop where
  size_le : b.instructions.size ≤ c.instructions.size
  addresses_le : b.addresses.size ≤ c.addresses.size
  address_eq : ∀ k, k ≤ b.addresses.size → c.address k = b.address k
  kept : ∀ k i, ¬ changed k → b.instructions[k]? = some i → c.instructions[k]? = some i
  outline_eq : ∀ (k : Nat) (i : Instruction), b.instructions[k]? = some i →
    ∃ j : Instruction, c.instructions[k]? = some j ∧ j.outline = i.outline
  pc_le : b.pc ≤ c.pc
  maxStack_le : b.maxStack ≤ c.maxStack
  maxLocals_le : b.maxLocals ≤ c.maxLocals
  handlers : b.handlers.toList <+: c.handlers.toList
  consistent : b.Consistent → c.Consistent

theorem Extends.refl (changed : Nat → Prop) (b : CodeBuffer) : b.Extends changed b where
  size_le := Nat.le_refl _
  addresses_le := Nat.le_refl _
  address_eq _ _ := rfl
  kept _ _ _ h := h
  outline_eq _ i h := ⟨i, h, rfl⟩
  pc_le := Nat.le_refl _
  maxStack_le := UInt16.le_refl _
  maxLocals_le := UInt16.le_refl _
  handlers := List.prefix_refl _
  consistent h := h

theorem Extends.trans {first second : Nat → Prop} {a : CodeBuffer} (hab : a.Extends first b)
    (hbc : b.Extends second c) : a.Extends (fun k => first k ∨ second k) c where
  size_le := Nat.le_trans hab.size_le hbc.size_le
  addresses_le := Nat.le_trans hab.addresses_le hbc.addresses_le
  address_eq k hk := by rw [hbc.address_eq k (Nat.le_trans hk hab.addresses_le), hab.address_eq k hk]
  kept k i hk hi := by
    rw [not_or] at hk
    exact hbc.kept k i hk.2 (hab.kept k i hk.1 hi)
  outline_eq k i hi := by
    obtain ⟨j, hj, hSame⟩ := hab.outline_eq k i hi
    obtain ⟨l, hl, hSame'⟩ := hbc.outline_eq k j hj
    exact ⟨l, hl, hSame'.trans hSame⟩
  pc_le := Nat.le_trans hab.pc_le hbc.pc_le
  maxStack_le := UInt16.le_trans hab.maxStack_le hbc.maxStack_le
  maxLocals_le := UInt16.le_trans hab.maxLocals_le hbc.maxLocals_le
  handlers := hab.handlers.trans hbc.handlers
  consistent h := hbc.consistent (hab.consistent h)

/-- Only changes of instructions that are there count. -/
theorem Extends.mono {first second : Nat → Prop} (h : b.Extends first c)
    (hSub : ∀ k, k < b.instructions.size → first k → second k) : b.Extends second c where
  size_le := h.size_le
  addresses_le := h.addresses_le
  address_eq := h.address_eq
  kept k i hk hi := by
    have hLt : k < b.instructions.size := (Array.getElem?_eq_some_iff.1 hi).1
    exact h.kept k i (fun hFirst => hk (hSub k hLt hFirst)) hi
  outline_eq := h.outline_eq
  pc_le := h.pc_le
  maxStack_le := h.maxStack_le
  maxLocals_le := h.maxLocals_le
  handlers := h.handlers
  consistent := h.consistent

/-! Appending. -/

@[simp]
theorem appendWith_instructions (b : CodeBuffer) (i : Instruction) (change : Int) :
    (b.appendWith i change).instructions = b.instructions.push i := rfl

@[simp]
theorem appendWith_pc (b : CodeBuffer) (i : Instruction) (change : Int) :
    (b.appendWith i change).pc = b.pc + i.size b.pc := rfl

theorem appendWith_address (b : CodeBuffer) (i : Instruction) (change : Int) (k : Nat)
    (hk : k ≤ b.addresses.size) : (b.appendWith i change).address k = b.address k := by
  show (b.addresses.push b.pc).getD k _ = b.addresses.getD k b.pc
  rcases Nat.lt_or_eq_of_le hk with hLt | rfl
  · simp [Array.getElem?_push_lt hLt, hLt]
  · simp

theorem le_max_left (a b : UInt16) : a ≤ max a b := by
  show a ≤ if a ≤ b then b else a
  split
  · assumption
  · exact UInt16.le_refl a

theorem Consistent.appendWith (hb : b.Consistent) (i : Instruction) (change : Int) :
    (b.appendWith i change).Consistent where
  sizes := by
    show (b.addresses.push b.pc).size = (b.instructions.push i).size
    simp [hb.sizes]
  first := by rw [appendWith_address _ _ _ _ (Nat.zero_le _), hb.first]
  next k j hj := by
    rw [appendWith_instructions, Array.getElem?_push] at hj
    split at hj
    · rename_i hk
      obtain rfl : i = j := by simpa using hj
      subst hk
      have hAt : (b.appendWith i change).address b.instructions.size = b.pc := by
        rw [appendWith_address _ _ _ _ (Nat.le_of_eq hb.sizes.symm), hb.address_size]
      rw [hAt, address_of_le (by show (b.addresses.push b.pc).size ≤ _; simp [hb.sizes])]
      rfl
    · have hLt : k < b.instructions.size := (Array.getElem?_eq_some_iff.1 hj).1
      rw [appendWith_address _ _ _ _ (by rw [hb.sizes]; omega),
        appendWith_address _ _ _ _ (by rw [hb.sizes]; omega), hb.next k j hj]

theorem Extends.appendWith (b : CodeBuffer) (i : Instruction) (change : Int) :
    b.Extends (fun _ => False) (b.appendWith i change) where
  size_le := by simp
  addresses_le := by
    show b.addresses.size ≤ (b.addresses.push b.pc).size
    simp
  address_eq k hk := appendWith_address _ _ _ _ hk
  kept k j _ hj := by
    have hLt : k < b.instructions.size := (Array.getElem?_eq_some_iff.1 hj).1
    rw [appendWith_instructions, Array.getElem?_push_lt hLt, ← Array.getElem?_eq_getElem hLt, hj]
  outline_eq k j hj := by
    have hLt : k < b.instructions.size := (Array.getElem?_eq_some_iff.1 hj).1
    refine ⟨j, ?_, rfl⟩
    rw [appendWith_instructions, Array.getElem?_push_lt hLt, ← Array.getElem?_eq_getElem hLt, hj]
  pc_le := by simp
  maxStack_le := le_max_left _ _
  maxLocals_le := UInt16.le_refl _
  handlers := List.prefix_refl _
  consistent h := h.appendWith i change

/-! Changes of limits and rows, which leave the instructions as they are. -/

/-- A buffer that differs in its depth, limits and rows only. -/
theorem Extends.of_same (hInstructions : c.instructions = b.instructions)
    (hAddresses : c.addresses = b.addresses) (hPc : c.pc = b.pc) (hStack : b.maxStack ≤ c.maxStack)
    (hLocals : b.maxLocals ≤ c.maxLocals) (hHandlers : b.handlers.toList <+: c.handlers.toList) :
    b.Extends (fun _ => False) c := by
  have hAddress : ∀ k, c.address k = b.address k := fun k => by simp [address, hAddresses, hPc]
  exact
    { size_le := Nat.le_of_eq (congrArg Array.size hInstructions).symm
      addresses_le := Nat.le_of_eq (congrArg Array.size hAddresses).symm
      address_eq := fun k _ => hAddress k
      kept := fun k i _ hi => by rw [hInstructions, hi]
      outline_eq := fun k i hi => ⟨i, by rw [hInstructions, hi], rfl⟩
      pc_le := by omega
      maxStack_le := hStack
      maxLocals_le := hLocals
      handlers := hHandlers
      consistent := fun h =>
        { sizes := by rw [hAddresses, hInstructions, h.sizes]
          first := by rw [hAddress, h.first]
          next := fun k i hi => by
            rw [hInstructions] at hi
            rw [hAddress, hAddress, h.next k i hi] } }

theorem Extends.setDepth (b : CodeBuffer) (depth : Int) : b.Extends (fun _ => False) (b.setDepth depth) :=
  .of_same rfl rfl rfl (le_max_left _ _) (UInt16.le_refl _) (List.prefix_refl _)

/-! Patching. -/

/-- A buffer in which one instruction has got its targets. -/
theorem Extends.set {index : Nat} {i j : Instruction}
    (hi : b.instructions[index]? = some i) (hSame : j.outline = i.outline) :
    b.Extends (· = index) { b with instructions := b.instructions.set! index j } := by
  have hLt : index < b.instructions.size := (Array.getElem?_eq_some_iff.1 hi).1
  exact
    { size_le := by simp
      addresses_le := Nat.le_refl _
      address_eq := fun _ _ => rfl
      kept := fun k i' hk hi' => by
        simp only [Array.set!_eq_setIfInBounds]
        rw [Array.getElem?_setIfInBounds_ne (Ne.symm hk), hi']
      outline_eq := fun k i' hi' => by
        simp only [Array.set!_eq_setIfInBounds]
        rcases Decidable.em (index = k) with rfl | hNe
        · rw [hi] at hi'
          cases hi'
          exact ⟨j, Array.getElem?_setIfInBounds_self_of_lt hLt, hSame⟩
        · exact ⟨i', by rw [Array.getElem?_setIfInBounds_ne hNe, hi'], rfl⟩
      pc_le := Nat.le_refl _
      maxStack_le := UInt16.le_refl _
      maxLocals_le := UInt16.le_refl _
      handlers := List.prefix_refl _
      consistent := fun h =>
        { sizes := by simp [h.sizes]
          first := h.first
          next := fun k i' hi' => by
            simp only [Array.set!_eq_setIfInBounds] at hi'
            show b.address (k + 1) = b.address k + i'.size (b.address k)
            rcases Decidable.em (index = k) with rfl | hNe
            · rw [Array.getElem?_setIfInBounds_self_of_lt hLt] at hi'
              cases hi'
              rw [h.next index i hi, Instruction.size_eq_of_outline hSame]
            · rw [Array.getElem?_setIfInBounds_ne hNe] at hi'
              exact h.next k i' hi' } }

/-- Where the branch with an index leads. -/
def Targets (b : CodeBuffer) (site target : Nat) : Prop :=
  ∃ branch offset, b.instructions[site]? = some (.branch branch offset) ∧ (b.address site : Int) + offset.toInt = target

theorem Targets.later {changed : Nat → Prop} {site target : Nat}
    (h : b.Targets site target) (hb : b.Consistent) (hLater : b.Extends changed c)
    (hKept : ¬ changed site) : c.Targets site target := by
  obtain ⟨branch, offset, hAt, hTarget⟩ := h
  have hLt : site < b.instructions.size := (Array.getElem?_eq_some_iff.1 hAt).1
  exact ⟨branch, offset, hLater.kept _ _ hKept hAt, by rw [hLater.address_eq _ (by rw [hb.sizes]; omega), hTarget]⟩

end CodeBuffer

/-- The machine finds the instructions of a consistent buffer at their addresses. -/
theorem Program.fetch_address {p : Program} (hp : p.code.Consistent) {k : Nat} {i : Instruction}
    (hi : p.code.instructions[k]? = some i) : p.fetch (p.code.address k) = some i := by
  have hLt : k < p.code.instructions.size := (Array.getElem?_eq_some_iff.1 hi).1
  have hAt : ∀ j (hj : j < p.code.addresses.size), p.code.addresses[j] = p.code.address j :=
    fun j hj => by simp [CodeBuffer.address, hj]
  have hIndex : p.code.addresses.findIdx? (· == p.code.address k) = some k := by
    rw [Array.findIdx?_eq_some_iff_getElem]
    refine ⟨by rw [hp.sizes]; exact hLt, by rw [hAt]; simp, ?_⟩
    intro j hj
    have := hp.address_lt hj (by omega)
    rw [hAt]
    simp only [beq_iff_eq]
    omega
  simp [Program.fetch, hIndex, hi]

end JavaFragment
