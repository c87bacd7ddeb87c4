import JavaFragment.Proofs.Codec
import JavaFragment.Proofs.Layout
import Mathlib
/-!
Sequences of operations on a buffer, each of which may be refused. Whatever is asked for in whatever
order, every instruction begins where the one before it ends, locals that are reserved stay apart, and
a refused operation of a single step leaves nothing behind.
-/
namespace JavaFragment

/-- An operation on a buffer. -/
inductive BufferOp where
  | emit (i : Instruction)
  | emitWith (i : Instruction) (change : Int)
  | emitBranch (b : Branch)
  | emitGoto (target : Nat)
  | patch (index target : Nat)
  | patchAll (sites : List Nat) (target : Nat)
  | emitSwitch (keys : List Int32)
  | patchSwitch (index default : Nat) (targets : List Nat)
  | emitLoad (type : JavaType) (slot : UInt16)
  | emitStore (type : JavaType) (slot : UInt16)
  | emitIncrement (slot : UInt16) (value : Int16)
  | emitReturn (type : JavaType)
  | emitInvoke (kind : InvokeKind) (index : UInt16) (descriptor : String)
  | emitField (op : FieldOp) (index : UInt16) (type : JavaType)
  | emitMultiNewArray (index : UInt16) (dimensions : UInt8)
  | allocate (size : Nat)
  | ensureLocals (locals : UInt16)
  | addHandler (start stop handler : Nat) (caught : UInt16)
  | setDepth (depth : Int)
  | growStack (change : Int)

/-- What an operation gives back. -/
inductive BufferAnswer where
  | done
  /-- The index of an instruction that was appended. -/
  | index (n : Nat)
  /-- The first of the locals that were reserved. -/
  | slot (first : UInt16)
deriving DecidableEq, Repr

/-- The buffer after an operation, be it refused or not. -/
def BufferM.final {α : Type} (x : BufferM α) (b : CodeBuffer) : CodeBuffer :=
  match x b with
  | .ok _ c | .error _ c => c

namespace BufferOp

def run : BufferOp → BufferM BufferAnswer
  | .emit i => .index <$> CodeBuffer.emit i
  | .emitWith i change => modifyGet fun b => (.index b.instructions.size, b.appendWith i change)
  | .emitBranch b => .index <$> CodeBuffer.emit (.branch b 0)
  | .emitGoto target => .index <$> CodeBuffer.emitGoto target
  | .patch index target => (fun _ => .done) <$> CodeBuffer.patch index target
  | .patchAll sites target => (fun _ => .done) <$> CodeBuffer.patchAll sites target
  | .emitSwitch keys => .index <$> CodeBuffer.emitSwitch keys
  | .patchSwitch index default targets => (fun _ => .done) <$> CodeBuffer.patchSwitch index default targets
  | .emitLoad type slot => .index <$> CodeBuffer.emit (.loadSlot type.slotKind slot)
  | .emitStore type slot => .index <$> CodeBuffer.emit (.storeSlot type.slotKind slot)
  | .emitIncrement slot value => .index <$> CodeBuffer.emit (.increment slot value)
  | .emitReturn type => .index <$> CodeBuffer.emit (.returning type)
  | .emitInvoke kind index descriptor => (fun _ => .done) <$> CodeBuffer.emitInvoke kind index descriptor
  | .emitField op index type => modifyGet fun b => (.done, b.appendField op index type)
  | .emitMultiNewArray index dimensions => modifyGet fun b => (.done, b.appendMultiNewArray index dimensions)
  | .allocate size => .slot <$> CodeBuffer.allocate size
  | .ensureLocals locals => modifyGet fun b => (.done, b.ensureLocals locals)
  | .addHandler start stop handler caught => (fun _ => .done) <$> CodeBuffer.addHandler start stop handler caught
  | .setDepth depth => modifyGet fun b => (.done, b.setDepth depth)
  | .growStack change => modifyGet fun b => (.done, b.growStack change)

/-- Whether an operation is a single step, taken as a whole or not at all. -/
def isSingle : BufferOp → Bool
  | .patch _ _ | .patchSwitch _ _ _ | .addHandler _ _ _ _ | .allocate _ | .emitInvoke _ _ _ => true
  | _ => false

/-- Whether the instruction that is appended can be written. -/
def isWellFormed : BufferOp → Bool
  | .emit i | .emitWith i _ => i.isWellFormed
  | .emitSwitch keys => decide (keys.length < 4294967296)
  | _ => true

def after (op : BufferOp) (b : CodeBuffer) : CodeBuffer := op.run.final b

/-- The locals that an operation reserves: the first and their number. -/
def reserves (op : BufferOp) (b : CodeBuffer) : List (Nat × Nat) :=
  match op, op.run b with
  | .allocate size, .ok (.slot first) _ => [(first.toNat, size)]
  | _, _ => []

end BufferOp

namespace CodeBuffer

/-- The buffer after operations. -/
def afterAll (b : CodeBuffer) (ops : List BufferOp) : CodeBuffer := ops.foldl (fun b op => op.after b) b

/-- The locals that operations reserve, in their order. -/
def reserved (b : CodeBuffer) : List BufferOp → List (Nat × Nat)
  | [] => []
  | op :: rest => op.reserves b ++ (op.after b).reserved rest

/-! What operations that can be refused do. -/

/-- Patching is refused or changes one branch, which then leads to its target. -/
theorem patch_cases (b : CodeBuffer) (index target : Nat) : (∃ fault, patch index target b = .error fault b) ∨
      ∃ branch old new, b.instructions[index]? = some (.branch branch old) ∧
        (∀ address, b.addresses[index]? = some address → (address : Int) + Int16.toInt new = target) ∧
        patch index target b = .ok ()
          { b with instructions := b.instructions.set! index (.branch branch new) } := by
  simp only [patch, addressOf, bind, EStateM.bind, get, getThe, MonadStateOf.get, EStateM.get]
  cases b.addresses[index]? with
  | none => exact .inl ⟨_, rfl⟩
  | some source =>
    dsimp only [pure, EStateM.pure]
    split
    · exact .inl ⟨_, rfl⟩
    · next hRange =>
      dsimp only [EStateM.bind, EStateM.get]
      cases b.instructions[index]? with
      | none => exact .inl ⟨_, rfl⟩
      | some i =>
        cases i with
        | branch branch old =>
          refine .inr ⟨branch, old, _, rfl, ?_, rfl⟩
          intro address hAddress
          cases hAddress
          rw [Int16.toInt_ofInt_of_le (by omega) (by omega)]
          omega
        | _ => exact .inl ⟨_, rfl⟩

theorem outline_retarget {pairs : List (Int32 × Int32)} {targets : List Nat} (old new : Int32)
    (offset : Nat → Int32) (hSame : pairs.length = targets.length) :
    (Instruction.lookupSwitch new
      (pairs.zipWith (fun pair target => (pair.1, offset target)) targets)).outline =
        (Instruction.lookupSwitch old pairs).outline := by
  have hKeys : (pairs.zipWith (fun pair target => (pair.1, offset target)) targets).map
      (fun pair => (pair.1, (0 : Int32))) = pairs.map fun pair => (pair.1, 0) := by
    induction pairs generalizing targets with
    | nil => simp
    | cons pair pairs ih =>
      cases targets with
      | nil => simp at hSame
      | cons target targets => simpa using ih (by simpa using hSame)
  simp [Instruction.outline, hKeys]

/-- Patching a switch is refused or changes its offsets alone. -/
theorem patchSwitch_cases (b : CodeBuffer) (index default : Nat) (targets : List Nat) :
    (∃ fault, patchSwitch index default targets b = .error fault b) ∨
      ∃ old new : Instruction, b.instructions[index]? = some old ∧ new.outline = old.outline ∧
        patchSwitch index default targets b = .ok () { b with instructions := b.instructions.set! index new } := by
  simp only [patchSwitch, addressOf, bind, EStateM.bind, get, getThe, MonadStateOf.get, EStateM.get]
  cases b.addresses[index]? with
  | none => exact .inl ⟨_, rfl⟩
  | some source =>
    dsimp only [pure, EStateM.pure]
    cases b.instructions[index]? with
    | none => exact .inl ⟨_, rfl⟩
    | some i =>
      cases i with
      | lookupSwitch old pairs =>
        dsimp only
        split
        · exact .inl ⟨_, rfl⟩
        · next hSame =>
          refine .inr ⟨_, _, rfl, ?_, rfl⟩
          apply outline_retarget
          exact Decidable.not_not.1 hSame
      | _ => exact .inl ⟨_, rfl⟩

theorem emitInvoke_cases (b : CodeBuffer) (kind : InvokeKind) (index : UInt16) (descriptor : String) :
    (∃ fault, emitInvoke kind index descriptor b = .error fault b) ∨
      ∃ i change, i.isWellFormed ∧ emitInvoke kind index descriptor b = .ok () (b.appendWith i change) := by
  unfold emitInvoke
  cases MethodType.ofDescriptor? descriptor with
  | none => exact .inl ⟨_, rfl⟩
  | some signature => exact .inr ⟨_, _, by cases kind <;> rfl, rfl⟩

theorem allocate_cases (b : CodeBuffer) (size : Nat) :
    (∃ fault, allocate size b = .error fault b) ∨ b.maxLocals.toNat + size < 65536 ∧
      allocate size b = .ok b.maxLocals { b with maxLocals := (b.maxLocals.toNat + size).toUInt16 } := by
  simp only [allocate, bind, EStateM.bind, get, getThe, MonadStateOf.get, EStateM.get]
  split
  · next hFits => exact .inr ⟨hFits, rfl⟩
  · exact .inl ⟨_, rfl⟩

theorem tableAddress_cases (b : CodeBuffer) (address : Nat) :
    (∃ fault, tableAddress address b = .error fault b) ∨ ∃ entry, tableAddress address b = .ok entry b := by
  unfold tableAddress
  split
  · exact .inr ⟨_, rfl⟩
  · exact .inl ⟨_, rfl⟩

theorem addHandler_cases (b : CodeBuffer) (start stop handler : Nat) (caught : UInt16) :
    (∃ fault, addHandler start stop handler caught b = .error fault b) ∨
      ∃ row, addHandler start stop handler caught b = .ok () { b with handlers := b.handlers.push row } := by
  simp only [addHandler, bind, EStateM.bind]
  obtain ⟨_, hStart⟩ | ⟨_, hStart⟩ := tableAddress_cases b start
  · exact .inl ⟨_, by rw [hStart]⟩
  simp only [hStart]
  obtain ⟨_, hStop⟩ | ⟨_, hStop⟩ := tableAddress_cases b stop
  · exact .inl ⟨_, by rw [hStop]⟩
  simp only [hStop]
  obtain ⟨_, hHandler⟩ | ⟨_, hHandler⟩ := tableAddress_cases b handler
  · exact .inl ⟨_, by rw [hHandler]⟩
  · exact .inr ⟨_, by rw [hHandler]; rfl⟩

/-! Every operation is made of three kinds of changes. -/

/-- An instruction is appended or gets its targets, or only limits and rows grow. -/
inductive Change (new : Instruction → Prop) : CodeBuffer → CodeBuffer → Prop where
  | append {b : CodeBuffer} {i : Instruction} (change : Int) (hNew : new i) : Change new b (b.appendWith i change)
  | retarget {b : CodeBuffer} {index : Nat} {i j : Instruction} (hi : b.instructions[index]? = some i)
      (hSame : j.outline = i.outline) :
      Change new b { b with instructions := b.instructions.set! index j }
  | limits {b c : CodeBuffer} (hInstructions : c.instructions = b.instructions)
      (hAddresses : c.addresses = b.addresses) (hPc : c.pc = b.pc) (hStack : b.maxStack ≤ c.maxStack)
      (hLocals : b.maxLocals ≤ c.maxLocals) (hHandlers : b.handlers.toList <+: c.handlers.toList) :
      Change new b c

/-- A sequence of changes. -/
def Changes (new : Instruction → Prop) : CodeBuffer → CodeBuffer → Prop := Relation.ReflTransGen (Change new)

variable {new : Instruction → Prop} {b c : CodeBuffer}

theorem Change.extends (h : Change new b c) : b.Extends (fun _ => True) c := by
  cases h with
  | append change _ => exact (Extends.appendWith b _ change).mono fun _ _ h => h.elim
  | retarget hi hSame => exact (Extends.set hi hSame).mono fun _ _ _ => trivial
  | limits hInstructions hAddresses hPc hStack hLocals hHandlers =>
    exact (Extends.of_same hInstructions hAddresses hPc hStack hLocals hHandlers).mono
      fun _ _ h => h.elim

theorem Changes.extends (h : Changes new b c) : b.Extends (fun _ => True) c := by
  induction h with
  | refl => exact Extends.refl _ b
  | tail _ hLast ih => exact (ih.trans hLast.extends).mono fun _ _ _ => trivial

theorem Changes.setDepth (b : CodeBuffer) (depth : Int) : Changes new b (b.setDepth depth) :=
  .single (.limits rfl rfl rfl (le_max_left _ _) (UInt16.le_refl _) (List.prefix_refl _))

end CodeBuffer

namespace BufferM

variable {α β : Type} {x : BufferM α} {b : CodeBuffer}

theorem final_map (f : α → β) : final (f <$> x) b = x.final b := by
  show (match EStateM.map f x b with | .ok _ c | .error _ c => c) = _
  unfold EStateM.map final
  cases x b <;> rfl

theorem final_bind {f : α → BufferM β} {new : Instruction → Prop} (hx : CodeBuffer.Changes new b (x.final b))
    (hf : ∀ a c, x b = .ok a c → CodeBuffer.Changes new c ((f a).final c)) :
    CodeBuffer.Changes new b ((x >>= f).final b) := by
  unfold final at *
  simp only [bind, EStateM.bind]
  cases h : x b with
  | ok a c =>
    simp only [h] at hx
    exact hx.trans (hf a c h)
  | error e c => simpa only [h] using hx

theorem changes_map (f : α → β) {new : Instruction → Prop} (hx : CodeBuffer.Changes new b (x.final b)) :
    CodeBuffer.Changes new b (final (f <$> x) b) := by rwa [final_map]

end BufferM

namespace CodeBuffer

variable {new : Instruction → Prop}

theorem patch_changes (b : CodeBuffer) (index target : Nat) : Changes new b ((patch index target).final b) := by
  unfold BufferM.final
  obtain ⟨_, h⟩ | ⟨_, _, _, hAt, -, h⟩ := patch_cases b index target
  · simpa only [h] using .refl
  · simpa only [h] using .single (.retarget hAt rfl)

theorem patchAll_changes (b : CodeBuffer) (sites : List Nat) (target : Nat) :
    Changes new b ((patchAll sites target).final b) := by
  induction sites generalizing b with
  | nil => exact .refl
  | cons site sites ih => exact BufferM.final_bind (patch_changes b site target) fun _ c _ => ih c

theorem emit_changes (b : CodeBuffer) {i : Instruction} (hNew : new i) :
    Changes new b ((emit i).final b) := .single (.append _ hNew)

theorem emitGoto_changes (b : CodeBuffer) (target : Nat) (hNew : ∀ offset, new (.branch .goto offset)) :
    Changes new b ((emitGoto target).final b) :=
  BufferM.final_bind (emit_changes b (hNew 0)) fun site c _ =>
    BufferM.final_bind (patch_changes c site target) fun _ _ _ => .refl

theorem patchSwitch_changes (b : CodeBuffer) (index default : Nat) (targets : List Nat) :
    Changes new b ((patchSwitch index default targets).final b) := by
  unfold BufferM.final
  obtain ⟨_, h⟩ | ⟨_, _, hAt, hSame, h⟩ := patchSwitch_cases b index default targets
  · simpa only [h] using .refl
  · simpa only [h] using .single (.retarget hAt hSame)

theorem emitInvoke_changes (b : CodeBuffer) (kind : InvokeKind) (index : UInt16) (descriptor : String)
    (hNew : ∀ i : Instruction, i.isWellFormed → new i) :
    Changes new b ((emitInvoke kind index descriptor).final b) := by
  unfold BufferM.final
  obtain ⟨_, h⟩ | ⟨_, _, hForm, h⟩ := emitInvoke_cases b kind index descriptor
  · simpa only [h] using .refl
  · simpa only [h] using .single (.append _ (hNew _ hForm))

/-- Reserving locals moves the number of locals by as much. -/
theorem toNat_reserve {locals : UInt16} {size : Nat} (hFits : locals.toNat + size < 65536) :
    (locals.toNat + size).toUInt16.toNat = locals.toNat + size := by
  simpa using hFits

theorem allocate_changes (b : CodeBuffer) (size : Nat) : Changes new b ((allocate size).final b) := by
  unfold BufferM.final
  obtain ⟨_, h⟩ | ⟨hFits, h⟩ := allocate_cases b size
  · simpa only [h] using .refl
  · have hLe : b.maxLocals ≤ (b.maxLocals.toNat + size).toUInt16 := by
      rw [UInt16.le_iff_toNat_le, toNat_reserve hFits]
      omega
    simpa only [h] using .single (.limits rfl rfl rfl (UInt16.le_refl _) hLe (List.prefix_refl _))

theorem addHandler_changes (b : CodeBuffer) (start stop handler : Nat) (caught : UInt16) :
    Changes new b ((addHandler start stop handler caught).final b) := by
  unfold BufferM.final
  obtain ⟨_, h⟩ | ⟨_, h⟩ := addHandler_cases b start stop handler caught
  · simpa only [h] using .refl
  · simpa only [h] using .single (.limits rfl rfl rfl (UInt16.le_refl _) (UInt16.le_refl _) (by simp))

end CodeBuffer

namespace BufferOp

open CodeBuffer

theorem isWellFormed_loadSlot (kind : SlotKind) (slot : UInt16) : (Instruction.loadSlot kind slot).isWellFormed := by
  unfold Instruction.loadSlot
  split_ifs <;> rfl

theorem isWellFormed_storeSlot (kind : SlotKind) (slot : UInt16) : (Instruction.storeSlot kind slot).isWellFormed := by
  unfold Instruction.storeSlot
  split_ifs <;> rfl

theorem isWellFormed_returning (type : JavaType) : (Instruction.returning type).isWellFormed := by
  unfold Instruction.returning
  split_ifs <;> rfl

theorem isWellFormed_increment (slot : UInt16) (value : Int16) : (Instruction.increment slot value).isWellFormed := by
  unfold Instruction.increment
  split_ifs <;> rfl

/-- What an operation appends can be written if the operation says so. -/
theorem after_changes (op : BufferOp) (b : CodeBuffer) :
    Changes (fun i => op.isWellFormed → i.isWellFormed) b (op.after b) := by
  unfold after
  cases op with
  | emit i => exact BufferM.changes_map _ (emit_changes b id)
  | emitWith i change => exact .single (.append change id)
  | emitBranch branch => exact BufferM.changes_map _ (emit_changes b fun _ => rfl)
  | emitGoto target => exact BufferM.changes_map _ (emitGoto_changes b target fun _ _ => rfl)
  | patch index target => exact BufferM.changes_map _ (patch_changes b index target)
  | patchAll sites target => exact BufferM.changes_map _ (patchAll_changes b sites target)
  | emitSwitch keys =>
    refine BufferM.changes_map _ (emit_changes b fun hForm => ?_)
    simpa [Instruction.isWellFormed, isWellFormed] using hForm
  | patchSwitch index default targets => exact BufferM.changes_map _ (patchSwitch_changes b index default targets)
  | emitLoad type slot => exact BufferM.changes_map _ (emit_changes b fun _ => isWellFormed_loadSlot _ _)
  | emitStore type slot => exact BufferM.changes_map _ (emit_changes b fun _ => isWellFormed_storeSlot _ _)
  | emitIncrement slot value => exact BufferM.changes_map _ (emit_changes b fun _ => isWellFormed_increment _ _)
  | emitReturn type => exact BufferM.changes_map _ (emit_changes b fun _ => isWellFormed_returning _)
  | emitInvoke kind index descriptor =>
    exact BufferM.changes_map _ (emitInvoke_changes b kind index descriptor fun _ h _ => h)
  | emitField op index type => exact .single (.append _ fun _ => rfl)
  | emitMultiNewArray index dimensions => exact .single (.append _ fun _ => rfl)
  | allocate size => exact BufferM.changes_map _ (allocate_changes b size)
  | ensureLocals locals => exact .single (.limits rfl rfl rfl (UInt16.le_refl _) (le_max_left _ _) (List.prefix_refl _))
  | addHandler start stop handler caught => exact BufferM.changes_map _ (addHandler_changes b start stop handler caught)
  | setDepth depth => exact .setDepth b depth
  | growStack change => exact .setDepth b _

theorem after_extends (op : BufferOp) (b : CodeBuffer) : b.Extends (fun _ => True) (op.after b) :=
  (after_changes op b).extends

/-- A single step that is refused changes nothing. -/
theorem eq_of_refused {op : BufferOp} {b c : CodeBuffer} {fault : BufferFault} (hSingle : op.isSingle)
    (h : op.run b = .error fault c) : c = b := by
  cases op with
  | patch index target =>
    obtain ⟨_, hRun⟩ | ⟨_, _, _, -, -, hRun⟩ := patch_cases b index target
    all_goals simp_all [run, Functor.map, EStateM.map]
  | patchSwitch index default targets =>
    obtain ⟨_, hRun⟩ | ⟨_, _, -, -, hRun⟩ := patchSwitch_cases b index default targets
    all_goals simp_all [run, Functor.map, EStateM.map]
  | emitInvoke kind index descriptor =>
    obtain ⟨_, hRun⟩ | ⟨_, _, -, hRun⟩ := emitInvoke_cases b kind index descriptor
    all_goals simp_all [run, Functor.map, EStateM.map]
  | allocate size =>
    obtain ⟨_, hRun⟩ | ⟨-, hRun⟩ := allocate_cases b size
    all_goals simp_all [run, Functor.map, EStateM.map]
  | addHandler start stop handler caught =>
    obtain ⟨_, hRun⟩ | ⟨_, hRun⟩ := addHandler_cases b start stop handler caught
    all_goals simp_all [run, Functor.map, EStateM.map]
  | _ => cases hSingle

/-- Reserved locals are those from the number of locals before to the number after. -/
theorem reserves_cases (op : BufferOp) (b : CodeBuffer) :
    op.reserves b = [] ∨ ∃ size, op.reserves b = [(b.maxLocals.toNat, size)] ∧
      b.maxLocals.toNat + size = (op.after b).maxLocals.toNat := by
  cases op with
  | allocate size =>
    obtain ⟨_, hRun⟩ | ⟨hFits, hRun⟩ := allocate_cases b size
    · left
      simp [reserves, run, Functor.map, EStateM.map, hRun]
    · right
      refine ⟨size, by simp [reserves, run, Functor.map, EStateM.map, hRun], ?_⟩
      rw [after, run, BufferM.final_map, BufferM.final, hRun, toNat_reserve hFits]
  | _ => exact .inl rfl

end BufferOp

namespace CodeBuffer

theorem afterAll_extends (b : CodeBuffer) (ops : List BufferOp) : b.Extends (fun _ => True) (b.afterAll ops) := by
  induction ops generalizing b with
  | nil => exact Extends.refl _ b
  | cons op ops ih => exact ((op.after_extends b).trans (ih (op.after b))).mono fun _ _ _ => trivial

/-- Reserved locals lie between the number of locals at first and at last. -/
theorem reserved_bounds {b : CodeBuffer} {ops : List BufferOp} {range : Nat × Nat} (hMem : range ∈ b.reserved ops) :
    b.maxLocals.toNat ≤ range.1 ∧ range.1 + range.2 ≤ (b.afterAll ops).maxLocals.toNat := by
  induction ops generalizing b with
  | nil => cases hMem
  | cons op ops ih =>
    have hStep := UInt16.le_iff_toNat_le.1 (op.after_extends b).maxLocals_le
    have hRest := UInt16.le_iff_toNat_le.1 ((op.after b).afterAll_extends ops).maxLocals_le
    rcases List.mem_append.1 hMem with hHere | hLater
    · obtain hNone | ⟨size, hSome, hAfter⟩ := op.reserves_cases b
      · simp [hNone] at hHere
      · simp only [hSome, List.mem_singleton] at hHere
        subst hHere
        exact ⟨Nat.le_refl _, hAfter ▸ hRest⟩
    · exact ⟨Nat.le_trans hStep (ih hLater).1, (ih hLater).2⟩

theorem reserved_apart (b : CodeBuffer) (ops : List BufferOp) :
    (b.reserved ops).Pairwise fun range later => range.1 + range.2 ≤ later.1 := by
  induction ops generalizing b with
  | nil => exact .nil
  | cons op ops ih =>
    obtain hNone | ⟨size, hSome, hAfter⟩ := op.reserves_cases b
    · simpa [reserved, hNone] using ih (op.after b)
    · simp only [reserved, hSome, List.singleton_append, List.pairwise_cons]
      refine ⟨fun later hLater => ?_, ih (op.after b)⟩
      exact hAfter ▸ (reserved_bounds hLater).1

theorem afterAll_append (b : CodeBuffer) (ops more : List BufferOp) :
    b.afterAll (ops ++ more) = (b.afterAll ops).afterAll more := List.foldl_append

/-- Whatever operations a buffer has gone through, refused ones included: its instructions follow one
another from address zero without a gap; the number of locals never falls; reserved locals lie apart,
above those taken at first and below that number; a patched branch leads to its target, and all else
stays; a refused single step leaves the buffer as it was. -/
theorem buffer_operations_sound (locals : UInt16) (ops : List BufferOp) {b : CodeBuffer}
    (hb : (withLocals locals).afterAll ops = b) :
    b.Consistent ∧
    (∀ more, b.maxLocals ≤ ((withLocals locals).afterAll (ops ++ more)).maxLocals) ∧
    ((withLocals locals).reserved ops).Pairwise (fun range later => range.1 + range.2 ≤ later.1) ∧
    (∀ range ∈ (withLocals locals).reserved ops, locals.toNat ≤ range.1 ∧ range.1 + range.2 ≤ b.maxLocals.toNat) ∧
    (∀ index target after, patch index target b = .ok () after →
      ∃ branch old new, b.instructions[index]? = some (.branch branch old) ∧
        (b.address index : Int) + Int16.toInt new = target ∧
        after = { b with instructions := b.instructions.set! index (.branch branch new) }) ∧
    ∀ (op : BufferOp) fault after, op.isSingle → op.run b = .error fault after → after = b := by
  have hConsistent : b.Consistent :=
    hb ▸ ((withLocals locals).afterAll_extends ops).consistent (consistent_withLocals locals)
  refine ⟨hConsistent, fun more => ?_, reserved_apart _ ops, fun range hMem => hb ▸ reserved_bounds hMem,
    fun index target after hPatch => ?_, fun op fault after => BufferOp.eq_of_refused⟩
  · rw [afterAll_append, hb]
    exact (b.afterAll_extends more).maxLocals_le
  · obtain ⟨fault, hRun⟩ | ⟨branch, old, new, hAt, hTarget, hRun⟩ := patch_cases b index target
    · simp [hRun] at hPatch
    · have hLt : index < b.addresses.size := by
        rw [hConsistent.sizes]
        exact (Array.getElem?_eq_some_iff.1 hAt).1
      refine ⟨branch, old, new, hAt, hTarget _ ?_, ?_⟩
      · simp [address, hLt]
      · simpa [hRun] using hPatch.symm

/-- Two reservations around a branch that is patched, and a patch of an instruction that is not there. -/
theorem buffer_operations_sound_reservations :
    (withLocals 1).reserved [.emitBranch .goto, .allocate 2, .patch 0 3, .allocate 1, .patch 7 0] = [(1, 2), (3, 1)] ∧
    ((withLocals 1).afterAll
      [.emitBranch .goto, .allocate 2, .patch 0 3, .allocate 1, .patch 7 0]).instructions = #[.branch .goto 3] ∧
    ((withLocals 1).afterAll
      [.emitBranch .goto, .allocate 2, .patch 0 3, .allocate 1, .patch 7 0]).Consistent :=
  ⟨by decide, by decide, (buffer_operations_sound 1 _ rfl).1⟩

end CodeBuffer

end JavaFragment
