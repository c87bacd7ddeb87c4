import JavaFragment.Proofs.BufferOperations
/-!
The depth of the operand stack that a buffer follows, and the mark that it keeps of the highest. The mark has sixteen
bits and takes each depth modulo 2^16. So it covers every depth that there was just when all of them fit sixteen bits.
-/
namespace JavaFragment

namespace CodeBuffer

variable {b : CodeBuffer}

/-- The depth of the operand stack at first and after each operation. -/
def depths (b : CodeBuffer) : List BufferOp → List Int
  | [] => [b.depth]
  | op :: rest => b.depth :: (op.after b).depths rest

/-- Neither the depth nor the mark changes. -/
def SameStack (b c : CodeBuffer) : Prop := c.depth = b.depth ∧ c.maxStack = b.maxStack

theorem SameStack.final_bind {α β : Type} {x : BufferM α} {f : α → BufferM β}
    (hx : b.SameStack (x.final b)) (hf : ∀ a (c : CodeBuffer), c.SameStack ((f a).final c)) :
    b.SameStack ((x >>= f).final b) := by
  unfold BufferM.final at *
  simp only [bind, EStateM.bind]
  cases h : x b with
  | ok a c =>
    rw [h] at hx
    exact ⟨(hf a c).1.trans hx.1, (hf a c).2.trans hx.2⟩
  | error fault c =>
    rw [h] at hx
    exact hx

theorem patch_sameStack (b : CodeBuffer) (index target : Nat) : b.SameStack ((patch index target).final b) := by
  unfold BufferM.final
  obtain ⟨_, h⟩ | ⟨_, _, _, -, -, h⟩ := patch_cases b index target <;> exact h ▸ ⟨rfl, rfl⟩

theorem patchAll_sameStack (b : CodeBuffer) (sites : List Nat) (target : Nat) :
    b.SameStack ((patchAll sites target).final b) := by
  induction sites generalizing b with
  | nil => exact ⟨rfl, rfl⟩
  | cons site sites ih => exact .final_bind (patch_sameStack b site target) fun _ c => ih c

/-- An operation leaves depth and mark as they are, or sets the depth once. -/
theorem after_stack (op : BufferOp) (b : CodeBuffer) :
    b.SameStack (op.after b) ∨ ∃ depth, (b.setDepth depth).SameStack (op.after b) := by
  have hMap {α : Type} (x : BufferM α) (f : α → BufferAnswer) : BufferM.final (f <$> x) b = x.final b :=
    BufferM.final_map f
  unfold BufferOp.after
  cases op <;> simp only [BufferOp.run, hMap]
  case emitGoto target =>
    refine .inr ⟨b.depth + (Instruction.branch .goto 0).stackChange?.getD 0, ?_⟩
    have hPatch := patch_sameStack (b.append (.branch .goto 0)) b.instructions.size target
    exact hPatch.final_bind fun _ c => (⟨rfl, rfl⟩ : c.SameStack (BufferM.final (pure b.instructions.size) c))
  case patch index target => exact .inl (patch_sameStack b index target)
  case patchAll sites target => exact .inl (patchAll_sameStack b sites target)
  case patchSwitch index default targets =>
    unfold BufferM.final
    obtain ⟨_, h⟩ | ⟨_, _, -, -, h⟩ := patchSwitch_cases b index default targets <;> exact .inl (h ▸ ⟨rfl, rfl⟩)
  case emitInvoke kind index descriptor =>
    unfold BufferM.final
    obtain ⟨_, h⟩ | ⟨i, change, -, h⟩ := emitInvoke_cases b kind index descriptor
    · exact .inl (h ▸ ⟨rfl, rfl⟩)
    · exact .inr ⟨b.depth + change, h ▸ ⟨rfl, rfl⟩⟩
  case allocate size =>
    unfold BufferM.final
    obtain ⟨_, h⟩ | ⟨-, h⟩ := allocate_cases b size <;> exact .inl (h ▸ ⟨rfl, rfl⟩)
  case addHandler start stop handler caught =>
    unfold BufferM.final
    obtain ⟨_, h⟩ | ⟨_, h⟩ := addHandler_cases b start stop handler caught <;> exact .inl (h ▸ ⟨rfl, rfl⟩)
  case ensureLocals => exact .inl ⟨rfl, rfl⟩
  all_goals exact .inr ⟨_, rfl, rfl⟩

/-- The mark covers the lowest sixteen bits of the depth. -/
structure Marked (b : CodeBuffer) : Prop where
  depth_nonneg : 0 ≤ b.depth
  low_le : b.depth % 65536 ≤ b.maxStack.toNat

theorem toNat_mark (b : CodeBuffer) (depth : Int) :
    ((b.setDepth depth).maxStack.toNat : Int) = max (b.maxStack.toNat : Int) ((b.setDepth depth).depth % 65536) := by
  have hLow : (max depth 0).toNat.toUInt16.toNat = (max depth 0).toNat % 65536 := by simp
  simp only [setDepth, UInt16.toNat_max, hLow]
  omega

/-- One operation: the mark never falls, and what it rises to is the depth at that point. -/
theorem Marked.after (h : b.Marked) (op : BufferOp) :
    (op.after b).Marked ∧ b.maxStack.toNat ≤ (op.after b).maxStack.toNat ∧
      ((op.after b).maxStack = b.maxStack ∨ ((op.after b).maxStack.toNat : Int) = (op.after b).depth % 65536) := by
  obtain ⟨hDepth, hMark⟩ | ⟨depth, hDepth, hMark⟩ := after_stack op b
  · exact ⟨⟨hDepth ▸ h.depth_nonneg, hDepth ▸ hMark ▸ h.low_le⟩, hMark ▸ Nat.le_refl _, .inl hMark⟩
  · have hSet := b.toNat_mark depth
    have hNonneg : 0 ≤ (b.setDepth depth).depth := le_max_right _ _
    rw [← hDepth] at hNonneg
    rw [← hDepth, ← hMark] at hSet
    refine ⟨⟨hNonneg, by omega⟩, by omega, ?_⟩
    rcases le_total ((op.after b).depth % 65536) b.maxStack.toNat with hLow | hHigh
    · exact .inl (UInt16.toNat_inj.1 (by omega))
    · exact .inr (by omega)

/-- Operations one after another: the mark at the end covers every depth that there was, and it is that of one of them
unless it was there before. -/
theorem Marked.afterAll (h : b.Marked) (ops : List BufferOp) : b.maxStack.toNat ≤ (b.afterAll ops).maxStack.toNat ∧
      (∀ d ∈ b.depths ops, 0 ≤ d ∧ d % 65536 ≤ (b.afterAll ops).maxStack.toNat) ∧
      ((b.afterAll ops).maxStack = b.maxStack ∨ ∃ d ∈ b.depths ops, d % 65536 = (b.afterAll ops).maxStack.toNat) := by
  induction ops generalizing b with
  | nil => exact ⟨Nat.le_refl _, fun d hd => by simpa [List.mem_singleton.1 hd] using ⟨h.1, h.2⟩, .inl rfl⟩
  | cons op ops ih =>
    obtain ⟨hNext, hRise, hStep⟩ := h.after op
    obtain ⟨hRest, hCovers, hTaken⟩ := ih hNext
    rw [show b.afterAll (op :: ops) = (op.after b).afterAll ops from rfl]
    refine ⟨Nat.le_trans hRise hRest, ?_, ?_⟩
    · rintro d (_ | ⟨_, hd⟩)
      · exact ⟨h.depth_nonneg, by have := h.low_le; omega⟩
      · exact hCovers d hd
    · rcases hTaken with hSame | ⟨d, hd, hLow⟩
      · rcases hStep with hOld | hNew
        · exact .inl (hSame.trans hOld)
        · refine .inr ⟨(op.after b).depth, List.mem_cons_of_mem _ ?_, by rw [← hNew, ← hSame]⟩
          cases ops <;> exact List.mem_cons_self
      · exact .inr ⟨d, List.mem_cons_of_mem _ hd, hLow⟩

/-- The mark of a finished body is the largest remainder modulo 2^16 of the depths that the operations went through. It
covers all these depths just when none of them is above 65535. -/
theorem finished_mark {ops : List BufferOp} {m : MethodCode} (hFinish : (empty.afterAll ops).finish = .ok m) :
    (∀ d ∈ empty.depths ops, 0 ≤ d ∧ d % 65536 ≤ m.maxStack.toNat) ∧
      (∃ d ∈ empty.depths ops, d % 65536 = m.maxStack.toNat) ∧
      ((∀ d ∈ empty.depths ops, d ≤ m.maxStack.toNat) ↔ ∀ d ∈ empty.depths ops, d ≤ 65535) := by
  have hMark : m.maxStack = (empty.afterAll ops).maxStack := by
    unfold finish at hFinish
    split at hFinish <;> cases hFinish
    rfl
  have hStart : empty.Marked := ⟨le_rfl, le_rfl⟩
  obtain ⟨-, hCovers, hTaken⟩ := hStart.afterAll ops
  rw [← hMark] at hCovers hTaken
  refine ⟨hCovers, ?_, ?_⟩
  · rcases hTaken with hNone | hSome
    · refine ⟨0, ?_, by rw [hNone]; rfl⟩
      cases ops <;> exact List.mem_cons_self
    · exact hSome
  · have := m.maxStack.toNat_lt
    constructor
    · intro hAll d hd
      have := hAll d hd
      omega
    · intro hAll d hd
      have := hAll d hd
      have := hCovers d hd
      omega

/-- A depth of 2^16 leaves no mark. -/
theorem finished_mark_lost :
    ∃ m, (empty.afterAll [.setDepth 65536, .setDepth 3, .emit .voidReturn]).finish = .ok m ∧ m.maxStack = 3 ∧
      empty.depths [.setDepth 65536, .setDepth 3, .emit .voidReturn] = [0, 65536, 3, 3] ∧
      ∃ d ∈ empty.depths [.setDepth 65536, .setDepth 3, .emit .voidReturn], ¬ d ≤ (3 : Int) := by
  refine ⟨_, rfl, rfl, rfl, ?_⟩
  have hIff := (@finished_mark [.setDepth 65536, .setDepth 3, .emit .voidReturn] _ rfl).2.2
  by_contra hNone
  push Not at hNone
  exact absurd (hIff.1 hNone 65536 (by decide)) (by decide)

end CodeBuffer

end JavaFragment
