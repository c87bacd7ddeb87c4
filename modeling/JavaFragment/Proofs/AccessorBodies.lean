import JavaFragment.Proofs.AccessorHistory
import JavaFragment.Proofs.Carrying
import JavaFragment.Proofs.FinishedCode
import JavaFragment.Proofs.StackMarks
import Mathlib.Data.List.Forall2
/-!
What the bodies of accessors do. A body is read from its bytes and run. It loads what it is given in the order of its
parameters, reaches the member once with exactly these words on the stack, and returns what is left there. The words of
a member are counted in its descriptor, those of the accessor in the one that was put together from it, and a shadow
constructor is given one word that it does not pass on.
-/
namespace JavaFragment

/-! Running a finished body. -/

/-- A finished body as the machine runs it, if its bytes can be read. -/
def MethodCode.program? (body : MethodCode) (pool : ConstantPool) : Option Program :=
  match body.instructions with
  | .ok placed => some
    { pool := pool
      code :=
        { instructions := (placed.map Prod.snd).toArray
          addresses := (placed.map Prod.fst).toArray
          pc := body.code.length
          depth := 0
          maxStack := body.maxStack
          maxLocals := body.maxLocals
          handlers := body.handlers.toArray
          uses := [] } }
  | .error _ => none

/-- What is run is what was appended, if addresses count the bytes. -/
theorem CodeBuffer.Consistent.program?_finish {b : CodeBuffer} {body : MethodCode} (hb : b.Consistent)
    (hForm : b.AllWellFormed) (hCalls : ∀ i ∈ b.instructions, ¬ i.isInterfaceCall) (hFinish : b.finish = .ok body)
    (pool : ConstantPool) : body.program? pool = some ⟨{ b with depth := 0, uses := [] }, pool⟩ := by
  obtain ⟨hLength, hRead⟩ := hb.finish_decodes hForm hFinish
  have hNone : b.instructions.toList.countP Instruction.isInterfaceCall = 0 :=
    List.countP_eq_zero.2 fun i hi => hCalls i (Array.mem_toList_iff.1 hi)
  have hPlaced := hRead.2 fun i hi => hCalls i (Array.mem_toList_iff.1 (List.mem_of_mem_dropLast hi))
  have hSizes := hb.sizes
  rw [hNone, Nat.add_zero] at hLength
  rw [MethodCode.program?, hPlaced]
  unfold CodeBuffer.finish at hFinish
  split at hFinish
  · cases hFinish
  · cases hFinish
    simp only [hLength, recorded, Array.toArray_toList]
    rw [List.map_snd_zip (by simp [hSizes]), List.map_fst_zip (by simp [hSizes])]

namespace MachineState

variable {env : Environment}

def frame : MachineState env → MethodFrame env
  | .running f | .throwing _ f | .returned _ f | .uncaught _ f => f

end MachineState

/-- The first of the locals that an instruction reads, and their number. -/
def Instruction.read? : Instruction → Option (Nat × Nat)
  | .load kind slot => some (slot.toNat, kind.words)
  | .loadShort kind slot => some (slot.val, kind.words)
  | .loadWide kind slot => some (slot.toNat, kind.words)
  | .iinc slot _ | .iincWide slot _ => some (slot.toNat, 1)
  | _ => none

namespace Program

variable {env : Environment} {p : Program}

/-- Whether a frame keeps to the limits of its method: the stack is not higher than it may be, and no local is read
beyond those there are. -/
def Within (p : Program) (f : MethodFrame env) : Prop :=
  f.stack.length ≤ p.code.maxStack.toNat ∧ ∀ i, p.fetch f.pc = some i → ∀ slot words, i.read? = some (slot, words) →
    slot + words ≤ p.code.maxLocals.toNat

/-- Steps lead from one state to another, and all frames on the way keep to the limits. -/
inductive RunsWithin (p : Program) : MachineState env → MachineState env → Prop where
  | last {c : MachineState env} (within : p.Within c.frame) : RunsWithin p c c
  | step {c d e : MachineState env} (within : p.Within c.frame) (first : p.step c = some d)
      (rest : RunsWithin p d e) : RunsWithin p c e

end Program

/-! Loading words one after another. -/

/-- The words that values of some types take. -/
def JavaType.words (types : List JavaType) : Nat := types.foldr (fun t words => t.slots + words) 0

namespace JavaType

@[simp]
theorem words_nil : words [] = 0 := rfl

@[simp]
theorem words_cons (t : JavaType) (types : List JavaType) : words (t :: types) = t.slots + words types := rfl

@[simp]
theorem words_append (types others : List JavaType) : words (types ++ others) = words types + words others := by
  induction types with
  | nil => simp
  | cons t types ih => simp [ih, Nat.add_assoc]

@[simp]
theorem slots_ofClass (name : String) : (ofClass name).slots = 1 := rfl

@[simp]
theorem slots_void : void.slots = 0 := rfl

theorem words_slotKind {t : JavaType} (h : t.isVoid = false) : t.slotKind.words = t.slots := by
  obtain ⟨base, dims⟩ := t
  cases base with
  | null => cases dims <;> rfl
  | «class» name => cases dims <;> rfl
  | primitive p =>
    cases dims with
    | zero => cases p <;> first | rfl | cases h
    | succ dims => rfl

end JavaType

namespace Instruction

/-- Loads values of some types from consecutive locals. -/
def loads (slot : Nat) : List JavaType → List Instruction
  | [] => []
  | t :: rest => .loadSlot t.slotKind slot.toUInt16 :: loads (slot + t.slots) rest

theorem length_loads (slot : Nat) (types : List JavaType) : (loads slot types).length = types.length := by
  induction types generalizing slot with
  | nil => rfl
  | cons t types ih => simp [loads, ih]

theorem exists_of_mem_loads {slot : Nat} {types : List JavaType} {i : Instruction} (h : i ∈ loads slot types) :
    ∃ kind first, i = .loadSlot kind first := by
  induction types generalizing slot with
  | nil => cases h
  | cons t types ih =>
    rcases List.mem_cons.1 h with rfl | hRest
    · exact ⟨_, _, rfl⟩
    · exact ih hRest

theorem read?_loadSlot (kind : SlotKind) (slot : UInt16) :
    (loadSlot kind slot).read? = some (slot.toNat, kind.words) := by
  unfold loadSlot
  split
  · rfl
  · split
    · next hSmall =>
      have hSlot : slot.toUInt8.toNat = slot.toNat := by rw [UInt16.toNat_toUInt8, Nat.mod_eq_of_lt hSmall]
      simp [read?, hSlot]
    · rfl

theorem stackChange?_loadSlot (kind : SlotKind) (slot : UInt16) :
    (loadSlot kind slot).stackChange? = some (kind.words : Int) := by
  unfold loadSlot
  split_ifs <;> rfl

theorem size_loadSlot (kind : SlotKind) (slot : UInt16) (address : Nat) :
    (loadSlot kind slot).size address ≤ 4 ∧ (256 ≤ slot.toNat → (loadSlot kind slot).size address = 4) := by
  unfold loadSlot
  split
  · exact ⟨by simp [size], fun h => by omega⟩
  · split
    · exact ⟨by simp [size], fun h => by omega⟩
    · exact ⟨by simp [size], fun _ => rfl⟩

/-- Loads of two words have up to four bytes. From slot 256 on they have no less, so that many words need a long body. -/
theorem layOutEnd_loads {types : List JavaType} {slot address : Nat} (hSlot : 2 * slot ≤ address + 2 * min slot 258)
    (hWords : slot + JavaType.words types ≤ 65535) (rest : List Instruction) :
    ∃ stop, layOutEnd address (loads slot types ++ rest) = layOutEnd stop rest ∧ stop ≤ address + 4 * types.length ∧
      2 * (slot + JavaType.words types) ≤ stop + 516 := by
  induction types generalizing slot address with
  | nil => exact ⟨address, rfl, by simp, by simp; omega⟩
  | cons t types ih =>
    have hSlots : t.slots ≤ 2 := by
      unfold JavaType.slots
      split_ifs <;> omega
    rw [JavaType.words_cons, ← Nat.add_assoc] at hWords
    obtain ⟨hSmall, hWide⟩ := size_loadSlot t.slotKind slot.toUInt16 address
    have hNat : slot.toUInt16.toNat = slot := by simp; omega
    rw [hNat] at hWide
    obtain ⟨stop, hStop, hShort, hLong⟩ :=
      @ih (slot + t.slots) (address + (loadSlot t.slotKind slot.toUInt16).size address) (by omega) hWords
    refine ⟨stop, hStop, ?_, ?_⟩
    · rw [List.length_cons]
      omega
    · rw [JavaType.words_cons]
      omega

end Instruction

namespace CodeBuffer

theorem appendWith_depth (b : CodeBuffer) (i : Instruction) (change : Int) :
    (b.appendWith i change).depth = max (b.depth + change) 0 := rfl

theorem appendWith_mark (b : CodeBuffer) (i : Instruction) (change : Int) :
    ((b.appendWith i change).maxStack.toNat : Int) = max (b.maxStack.toNat : Int) (max (b.depth + change) 0 % 65536) :=
  toNat_mark { b with addresses := _, instructions := _, pc := _ } (b.depth + change)

/-- Loads append themselves, and the depth grows by the words that they push. -/
theorem foldl_loads {types : List JavaType} (hTypes : ∀ t ∈ types, t.isVoid = false) {b : CodeBuffer} {slot : Nat}
    (hDepth : 0 ≤ b.depth) (hMark : b.depth ≤ b.maxStack.toNat) (hWords : b.depth + JavaType.words types ≤ 65535) :
    let c := (Instruction.loads slot types).foldl append b
    c.instructions.toList = b.instructions.toList ++ Instruction.loads slot types ∧ (b.Consistent → c.Consistent) ∧
      c.maxLocals = b.maxLocals ∧ c.handlers = b.handlers ∧ c.depth = b.depth + JavaType.words types ∧
      c.depth ≤ c.maxStack.toNat := by
  induction types generalizing b slot with
  | nil => simpa [Instruction.loads] using hMark
  | cons t types ih =>
    obtain ⟨hVoid, hRest⟩ := List.forall_mem_cons.1 hTypes
    rw [JavaType.words_cons] at hWords
    let first := Instruction.loadSlot t.slotKind slot.toUInt16
    have hChange : first.stackChange?.getD 0 = t.slots := by
      rw [Instruction.stackChange?_loadSlot, JavaType.words_slotKind hVoid]
      rfl
    have hDepth' : (b.append first).depth = b.depth + t.slots := by
      rw [append, appendWith_depth, hChange]
      omega
    have hMark' : (b.append first).depth ≤ (b.append first).maxStack.toNat := by
      rw [hDepth', append, appendWith_mark, hChange]
      omega
    obtain ⟨hCode, hConsistent, hLocals, hHandlers, hLast, hTop⟩ :=
      @ih hRest (b.append first) (slot + t.slots) (by omega) hMark' (by omega)
    refine ⟨?_, fun hb => hConsistent (hb.appendWith ..), hLocals, hHandlers, ?_, hTop⟩
    · simpa [Instruction.loads, append, first] using hCode
    · rw [Instruction.loads, List.foldl_cons, hLast, hDepth', JavaType.words_cons]
      omega

/-- The code that loads words, gives them to an instruction and returns the result. -/
def passing (locals : UInt16) (types : List JavaType) (op : Instruction) (result : JavaType) : CodeBuffer :=
  (((Instruction.loads 0 types).foldl append (withLocals locals)).appendWith op
    (result.slots - JavaType.words types)).append (.returning result)

/-- The limits of such code hold for the words that it loads and for the result. It has at most four bytes for each load,
and many words need many bytes. -/
theorem passing_spec {types : List JavaType} (hTypes : ∀ t ∈ types, t.isVoid = false)
    (hWords : JavaType.words types ≤ 65535) (locals : UInt16) (op : Instruction) (hOp : ∀ address, op.size address = 3)
    (result : JavaType) :
    let b := passing locals types op result
    b.instructions.toList = Instruction.loads 0 types ++ [op, .returning result] ∧ b.Consistent ∧
      b.maxLocals = locals ∧ b.handlers = #[] ∧ JavaType.words types ≤ b.maxStack.toNat ∧
      result.slots ≤ b.maxStack.toNat ∧ 2 * JavaType.words types ≤ b.pc + 516 ∧ b.pc ≤ 4 * types.length + 4 := by
  have hLoaded := @foldl_loads types hTypes (withLocals locals) 0 (Int.le_refl 0) (by simp [withLocals])
    (by simpa [withLocals] using hWords)
  have hSlots : result.slots ≤ 2 := by
    unfold JavaType.slots
    split_ifs <;> omega
  have hSize (address : Nat) : (Instruction.returning result).size address = 1 := by
    unfold Instruction.returning
    split_ifs <;> rfl
  unfold passing
  generalize (Instruction.loads 0 types).foldl append (withLocals locals) = c at hLoaded ⊢
  obtain ⟨hCode, hConsistent, hLocals, hHandlers, hDepth, hMark⟩ := hLoaded
  have hZero : (withLocals locals).depth = 0 := rfl
  have hPassed := c.appendWith_mark op (result.slots - JavaType.words types)
  have hReturn := (c.appendWith op (result.slots - JavaType.words types)).appendWith_mark (.returning result)
    ((Instruction.returning result).stackChange?.getD 0)
  obtain ⟨stop, hStop, hShort, hLong⟩ :=
    @Instruction.layOutEnd_loads types 0 0 (by omega) (by omega) ([] : List Instruction)
  have hPc := (hConsistent (consistent_withLocals locals)).recorded_eq.2
  have hNone : (withLocals locals).instructions.toList = [] := rfl
  rw [hCode, hNone, List.nil_append, ← List.append_nil (Instruction.loads 0 types), hStop] at hPc
  refine ⟨by simp [append, hCode, hNone], ((hConsistent (consistent_withLocals locals)).appendWith ..).appendWith ..,
    hLocals, hHandlers, ?_⟩
  simp only [append, appendWith_pc, hOp, hSize, hPc, Instruction.layOutEnd]
  omega

end CodeBuffer

/-! Runs of such code. -/

theorem LocalWords.load_eq {locals : LocalWords} {kind : SlotKind} {slot : Nat} {words : List Word}
    (hLength : words.length = kind.words) (hWords : ∀ k w, words[k]? = some w → locals (slot + k) = w) :
    locals.load kind slot = words := by
  have hOne (h : words.length = 1) : [locals slot] = words := by
    obtain ⟨w, rfl⟩ := List.length_eq_one_iff.1 h
    rw [show locals slot = w from hWords 0 w rfl]
  have hTwo (h : words.length = 2) : [locals slot, locals (slot + 1)] = words := by
    obtain ⟨w, v, rfl⟩ := List.length_eq_two.1 h
    rw [show locals slot = w from hWords 0 w rfl, hWords 1 v rfl]
  cases kind with
  | int | float | ref => exact hOne hLength
  | long | double => exact hTwo hLength

/-- A frame in which a method begins: the first locals hold its arguments, each of as many words as its type takes. -/
structure MethodFrame.Enters {env : Environment} (types : List JavaType) (args : List (List Word))
    (f : MethodFrame env) : Prop where
  sizes : List.Forall₂ (fun words t => words.length = t.slots) args types
  pc : f.pc = 0
  stack : f.stack = []
  locals : ∀ k w, args.flatten[k]? = some w → f.locals k = w

namespace MethodFrame.Enters

variable {env : Environment} {types : List JavaType} {args : List (List Word)} {f : MethodFrame env}

theorem length_reverse (h : f.Enters types args) : args.reverse.flatten.length = JavaType.words types := by
  have hSizes := h.sizes
  clear h
  induction hSizes with
  | nil => rfl
  | cons hFirst _ ih => simp [ih, hFirst, Nat.add_comm]

/-- The last argument may be left out of account. -/
theorem dropLast (h : f.Enters types args) : f.Enters types.dropLast args.dropLast where
  sizes := by
    rw [List.dropLast_eq_take, List.dropLast_eq_take, h.sizes.length_eq]
    exact List.forall₂_take _ h.sizes
  pc := h.pc
  stack := h.stack
  locals k w hw := by
    refine h.locals k w ?_
    obtain ⟨last, hLast⟩ := args.dropLast_prefix
    rw [← hLast, List.flatten_append, List.getElem?_append_left (List.getElem?_eq_some_iff.1 hw).1, hw]

end MethodFrame.Enters

/-- Whether an instruction reaches a field or a method. -/
def Instruction.isMember : Instruction → Bool
  | .field _ _ | .invoke _ _ | .invokeInterface _ _ _ => true
  | _ => false

namespace Program

variable {env : Environment} {p : Program} {f : MethodFrame env}

theorem within_of_fetch {i : Instruction} (hFetch : p.fetch f.pc = some i) (hRead : i.read? = none)
    (hStack : f.stack.length ≤ p.code.maxStack.toNat) : p.Within f := by
  refine ⟨hStack, fun j hj slot words hSlot => ?_⟩
  obtain rfl : i = j := Option.some.inj (hFetch.symm.trans hj)
  rw [hRead] at hSlot
  cases hSlot

theorem step_of_isMember {i : Instruction} (hMember : i.isMember) (hFetch : p.fetch f.pc = some i) :
    p.step (.running f) = p.advance f i .outside := by
  cases i with
  | field | invoke | invokeInterface => rw [step, hFetch]; rfl
  | _ => cases hMember

/-- What is returned is all that there is on the stack. -/
theorem step_returning {t : JavaType} (hFetch : p.fetch f.pc = some (.returning t))
    (hLength : f.stack.length = t.slots) : p.step (.running f) = some (.returned f.stack f) := by
  rw [step, hFetch, Option.bind_some]
  unfold Instruction.returning
  split
  · next hVoid =>
    have hNone : f.stack = [] := List.eq_nil_of_length_eq_zero (by rw [hLength, JavaType.slots, if_pos hVoid])
    rw [execute, hNone]
  · next hVoid =>
    rw [← JavaType.words_slotKind (by simpa using hVoid)] at hLength
    rw [execute, if_pos (Nat.le_of_eq hLength.symm), ← hLength, List.take_length]

/-- Loads push the words that the locals hold, the last on top. -/
theorem runsWithin_loads (hp : p.code.Consistent) {types : List JavaType} {args : List (List Word)}
    (hArgs : List.Forall₂ (fun words t => words.length = t.slots) args types)
    (hTypes : ∀ t ∈ types, t.isVoid = false) {before after : List Instruction} {slot : Nat}
    (hCode : p.code.instructions.toList = before ++ Instruction.loads slot types ++ after)
    (hLocals : slot + JavaType.words types ≤ p.code.maxLocals.toNat)
    (hPc : f.pc = p.code.address before.length)
    (hStack : f.stack.length + JavaType.words types ≤ p.code.maxStack.toNat)
    (hGiven : ∀ k w, args.flatten[k]? = some w → f.locals (slot + k) = w) {last : MachineState env}
    (hRest : p.RunsWithin (.running
      { f with pc := p.code.address (before.length + types.length), stack := args.reverse.flatten ++ f.stack }) last) :
    p.RunsWithin (.running f) last := by
  induction hArgs generalizing before slot f with
  | nil => simpa [← hPc] using hRest
  | @cons words t args types hFirst _ ih =>
    obtain ⟨hVoid, hTypes⟩ := List.forall_mem_cons.1 hTypes
    rw [← JavaType.words_slotKind hVoid] at hFirst
    rw [JavaType.words_cons, ← JavaType.words_slotKind hVoid] at hLocals hStack
    have hSlot : slot.toUInt16.toNat = slot := by
      have := p.code.maxLocals.toNat_lt
      simp
      omega
    have hAt : p.code.instructions[before.length]? = some (.loadSlot t.slotKind slot.toUInt16) := by
      simp [← Array.getElem?_toList, hCode, Instruction.loads]
    have hFetch := hPc ▸ fetch_address hp hAt
    have hEffect := Instruction.effect_loadSlot p.pool t.slotKind slot.toUInt16 f.stack f.locals
    have hLoaded : f.locals.load t.slotKind slot = words := by
      refine LocalWords.load_eq hFirst fun k w hw => hGiven k w ?_
      rw [List.flatten_cons, List.getElem?_append_left (List.getElem?_eq_some_iff.1 hw).1, hw]
    rw [hSlot, hLoaded] at hEffect
    have hWithin : p.Within f := by
      refine ⟨by omega, fun i hi first count hRead => ?_⟩
      obtain rfl := Option.some.inj (hFetch.symm.trans hi)
      obtain ⟨rfl, rfl⟩ : slot = first ∧ t.slotKind.words = count := by
        simpa [Instruction.read?_loadSlot, hSlot] using hRead
      omega
    refine .step hWithin (step_of_done hFetch hEffect)
      (@ih _ hTypes (before ++ [.loadSlot t.slotKind slot.toUInt16]) (slot + t.slots) ?_ ?_ ?_ ?_ ?_ ?_)
    · simp [hCode, Instruction.loads]
    · rw [← JavaType.words_slotKind hVoid]
      omega
    · rw [hPc, List.length_append, List.length_singleton, hp.next _ _ hAt]
    · simp only [List.length_append, hFirst]
      omega
    · intro k w hw
      rw [Nat.add_assoc]
      refine hGiven _ w ?_
      rw [List.flatten_cons, List.getElem?_append_right (by rw [hFirst, JavaType.words_slotKind hVoid]; omega), hFirst,
        JavaType.words_slotKind hVoid, Nat.add_sub_cancel_left, hw]
    · simpa [Nat.add_assoc, Nat.add_comm 1] using hRest

/-- A program that loads the words in its first locals, gives them to an instruction and returns the result. -/
structure Passes (p : Program) (types : List JavaType) (op : Instruction) (result : JavaType) : Prop where
  nonvoid : ∀ t ∈ types, t.isVoid = false
  code : p.code.instructions.toList = Instruction.loads 0 types ++ [op, .returning result]
  consistent : p.code.Consistent
  handlers : p.code.handlers = #[]
  operands_le : JavaType.words types ≤ p.code.maxStack.toNat
  result_le : result.slots ≤ p.code.maxStack.toNat
  locals_le : JavaType.words types ≤ p.code.maxLocals.toNat

namespace Passes

variable {types : List JavaType} {op : Instruction} {result : JavaType} {args : List (List Word)} {world : env.World}

theorem fetch_op (h : p.Passes types op result) : p.fetch (p.code.address types.length) = some op := by
  refine fetch_address h.consistent ?_
  simp [← Array.getElem?_toList, h.code, ← Instruction.length_loads 0 types]

theorem fetch_returning (h : p.Passes types op result) :
    p.fetch (p.code.address types.length + op.size (p.code.address types.length)) = some (.returning result) := by
  have hAt : p.code.instructions[types.length]? = some op := by
    simp [← Array.getElem?_toList, h.code, ← Instruction.length_loads 0 types]
  rw [← h.consistent.next _ _ hAt]
  refine fetch_address h.consistent ?_
  simp [← Array.getElem?_toList, h.code, ← Instruction.length_loads 0 types]

theorem within_op (h : p.Passes types op result) (hOp : op.isMember) (hEnters : f.Enters types args) :
    p.Within { f with pc := p.code.address types.length, stack := args.reverse.flatten, world := world } := by
  refine within_of_fetch h.fetch_op (by cases op <;> first | rfl | cases hOp) ?_
  rw [hEnters.length_reverse]
  exact h.operands_le

/-- The instruction finds all words on the stack that were loaded, and no others. -/
theorem run (h : p.Passes types op result) (hEnters : f.Enters types args) {last : MachineState env}
    (hRest : p.RunsWithin (.running
      { f with pc := p.code.address types.length, stack := args.reverse.flatten }) last) :
    p.RunsWithin (.running f) last := by
  have hCode : p.code.instructions.toList = [] ++ Instruction.loads 0 types ++ [op, .returning result] := h.code
  refine runsWithin_loads h.consistent hEnters.sizes h.nonvoid hCode ?_ ?_ ?_ ?_ ?_
  · rw [Nat.zero_add]
    exact h.locals_le
  · rw [hEnters.pc, List.length_nil, h.consistent.first]
  · rw [hEnters.stack, List.length_nil, Nat.zero_add]
    exact h.operands_le
  · simpa using hEnters.locals
  · simpa [hEnters.stack] using hRest

theorem returns (h : p.Passes types op result) (hOp : op.isMember) (hEnters : f.Enters types args) {value : List Word}
    (hPerform : env.perform p.pool op args.reverse.flatten f.world = (.ok value, world))
    (hValue : value.length = result.slots) : ∃ pc, p.fetch pc = some (.returning result) ∧
      p.RunsWithin (.running f) (.returned value { f with pc := pc, stack := value, world := world }) := by
  refine ⟨_, h.fetch_returning, h.run hEnters ?_⟩
  have hWithin : p.Within { f with
      pc := p.code.address types.length + op.size (p.code.address types.length), stack := value, world := world } := by
    refine within_of_fetch h.fetch_returning ?_ (hValue ▸ h.result_le)
    unfold Instruction.returning
    split <;> rfl
  refine .step (h.within_op hOp hEnters) (d := .running _) ?_
    (.step hWithin (step_returning h.fetch_returning hValue) (.last hWithin))
  rw [step_of_isMember hOp h.fetch_op, advance, hPerform]

theorem throws (h : p.Passes types op result) (hOp : op.isMember) (hEnters : f.Enters types args) {object : Nat}
    (hPerform : env.perform p.pool op args.reverse.flatten f.world = (.error object, world)) :
    ∃ pc, p.fetch pc = some op ∧ p.RunsWithin (.running f)
      (.uncaught object { f with pc := pc, stack := args.reverse.flatten, world := world }) := by
  refine ⟨_, h.fetch_op, h.run hEnters ?_⟩
  have hWithin : p.Within { f with
      pc := p.code.address types.length, stack := args.reverse.flatten, world := world } := h.within_op hOp hEnters
  refine .step (h.within_op hOp hEnters) (d := .throwing object _) ?_ (.step hWithin ?_ (.last hWithin))
  · rw [step_of_isMember hOp h.fetch_op, advance, hPerform]
  · simp [step, dispatch, h.handlers]

end Passes

end Program

/-! The code of accessors. -/

theorem MethodType.of_readable {text : String} {m : MethodType} (h : ofDescriptor? text = some m)
    (hParams : ∀ t ∈ m.params, t.isReadable) : text = m.descriptor ∧ m.result.isDelimited := by
  rcases of_ofDescriptor? h with ⟨-, hResult, hText⟩ | hOverruns
  · exact ⟨hText, hResult⟩
  · cases hOverruns with
    | @intro earlier last result front _ _ _ _ hName =>
      refine (JavaType.close_not_mem_descriptor (hParams last (by simp)) ?_).elim
      simp [hName]

namespace SyntheticMethod

theorem accessField_eq {descriptor : String} {t : JavaType} (h : JavaType.ofDescriptor? descriptor = some t)
    (op : FieldOp) (owner name : String) (b : CodeBuffer) (pool : ConstantPool) :
    accessField op owner name descriptor b pool =
      (.ok (b.appendField op ((PoolRequest.field owner name descriptor).ask pool).1 t),
        ((PoolRequest.field owner name descriptor).ask pool).2) := by
  rw [accessField, h]
  rfl

theorem invokeMethod_eq {descriptor : String} {own : MethodType} (h : MethodType.ofDescriptor? descriptor = some own)
    (isStatic : Bool) (owner name : String) (b : CodeBuffer) (pool : ConstantPool) :
    invokeMethod (if isStatic then .static else .special) owner name descriptor b pool =
      (.ok (b.appendWith (.invoke (if isStatic then .static else .special)
        ((PoolRequest.method owner name descriptor).ask pool).1)
          (own.result.slots - JavaType.words own.params - if isStatic then 0 else 1)),
        ((PoolRequest.method owner name descriptor).ask pool).2) := by
  unfold invokeMethod CodeBuffer.emitInvoke
  rw [h]
  cases isStatic <;> rfl

/-- Parameters are loaded from the slot where they start. -/
theorem loadParams_eq (b : CodeBuffer) (slot : Nat) (types : List JavaType) :
    loadParams b slot.toUInt16 types = (Instruction.loads slot types).foldl CodeBuffer.append b := by
  induction types generalizing b slot with
  | nil => rfl
  | cons t types ih =>
    have hNext : slot.toUInt16 + t.slots.toUInt16 = (slot + t.slots).toUInt16 := (UInt16.ofNat_add ..).symm
    rw [loadParams, hNext, ih, Instruction.loads, List.foldl_cons]

end SyntheticMethod

namespace Access

variable {a : Access} {owner : String} {signature : MethodType} {pool : ConstantPool} {m : SyntheticMethod}

/-- The types of what an accessor is given: its parameters, and before them the new object if it is a constructor. -/
def given (owner : String) (signature : MethodType) : Access → List JavaType
  | .create _ => .ofClass owner :: signature.params
  | .get _ | .set _ | .call _ => signature.params

/-- What is passed on: all that is given but the marker of a shadow constructor. -/
def passed {α : Type} (given : List α) : Access → List α
  | .create _ => given.dropLast
  | .get _ | .set _ | .call _ => given

/-- The member that is reached, as it is asked for in the pool. -/
def member (owner : String) : Access → PoolRequest
  | .get f | .set f => .field owner f.name f.descriptor
  | .call m => .method owner m.name m.descriptor
  | .create m => .method owner constructorName m.descriptor

/-- The instruction that reaches the member with a number in the pool. -/
def operation (index : UInt16) : Access → Instruction
  | .get f => .field (if f.isStatic then .getStatic else .getField) index
  | .set f => .field (if f.isStatic then .putStatic else .putField) index
  | .call m => .invoke (if m.isStatic then .static else .special) index
  | .create _ => .invoke .special index

theorem isMember_operation (a : Access) (index : UInt16) : (a.operation index).isMember := by
  cases a <;> rfl

/-- The descriptor of an accessor is read back as its signature. -/
theorem HasType.read (h : a.HasType owner signature) (hParams : ∀ t ∈ signature.params, t.isReadable) :
    MethodType.ofDescriptor? (a.descriptor owner) = some signature := by
  have hRead (hSpelled : a.Spelled) (hResult : signature.result.isDelimited) :
      MethodType.ofDescriptor? (a.descriptor owner) = some signature := by
    rw [h.text hSpelled, MethodType.ofDescriptor?_of_isReadable hParams hResult]
  have hOwn {m : MethodModel} {own : MethodType} (hType : MethodType.ofDescriptor? m.descriptor = some own)
      (hSub : ∀ t ∈ own.params, t ∈ signature.params) : own.result.isDelimited ∧
        ∀ other, MethodType.ofDescriptor? m.descriptor = some other →
          m.descriptor = other.descriptor ∧ ∀ t ∈ other.params, ')' ∉ t.descriptor.toList := by
    have hReadable : ∀ t ∈ own.params, t.isReadable := fun t ht => hParams t (hSub t ht)
    obtain ⟨hText, hResult⟩ := MethodType.of_readable hType hReadable
    refine ⟨hResult, fun other hOther => ?_⟩
    obtain rfl := Option.some.inj (hType.symm.trans hOther)
    exact ⟨hText, fun t ht => JavaType.close_not_mem_descriptor (hReadable t ht)⟩
  cases h with
  | get hType => exact hRead trivial (JavaType.ofDescriptor?_eq_some_iff.1 (FieldModel.ofDescriptor?_of_type hType)).1
  | set => exact hRead trivial rfl
  | call hType =>
    obtain ⟨hResult, hSpelled⟩ := hOwn hType fun t ht => List.mem_append_right _ ht
    exact hRead hSpelled hResult
  | create hType =>
    obtain ⟨hResult, hSpelled⟩ := hOwn hType fun t ht => List.mem_append_left _ ht
    exact hRead hSpelled hResult

/-- The member is asked for in the pool, and its access leaves the words of the result in place of those that are
passed on. -/
theorem HasType.perform (h : a.HasType owner signature) (hBody : m.body = a.body)
    (b : CodeBuffer) : m.perform owner b pool = (.ok (b.appendWith (a.operation ((a.member owner).ask pool).1)
      (signature.result.slots - JavaType.words (a.passed (a.given owner signature)))), ((a.member owner).ask pool).2) := by
  rw [SyntheticMethod.perform, hBody]
  cases h with
  | @get f t hType =>
    refine (SyntheticMethod.accessField_eq (FieldModel.ofDescriptor?_of_type hType) ..).trans ?_
    cases hStatic : f.isStatic <;> simp [member, operation, given, passed, receiver, CodeBuffer.appendField, hStatic]
  | @set f t hType =>
    have hChange : -(1 + (t.slots : Int)) = -t.slots - 1 := by omega
    refine (SyntheticMethod.accessField_eq (FieldModel.ofDescriptor?_of_type hType) ..).trans ?_
    cases hStatic : f.isStatic <;>
      simp [member, operation, given, passed, receiver, CodeBuffer.appendField, hStatic, hChange]
  | @call n own hType =>
    refine (SyntheticMethod.invokeMethod_eq hType n.isStatic ..).trans ?_
    cases hStatic : n.isStatic <;>
      simp [member, operation, given, passed, receiver, hStatic, Int.sub_sub, Int.add_comm]
  | @create n own hType =>
    refine (SyntheticMethod.invokeMethod_eq hType false ..).trans ?_
    have hPassed : (JavaType.ofClass owner :: (own.params ++ [.ofClass constructorMarker])).dropLast =
        .ofClass owner :: own.params := by
      rw [← List.cons_append, List.dropLast_concat]
    simp [member, operation, given, passed, hPassed, Int.sub_sub, Int.add_comm]

theorem HasType.prepare (h : a.HasType owner signature) (hBody : m.body = a.body) :
    m.prepare owner signature = (Instruction.loads 0 (a.passed (a.given owner signature))).foldl CodeBuffer.append
      (.withLocals (JavaType.words (a.given owner signature)).toUInt16) := by
  cases h with
  | get | set | call =>
    have hShadow : m.isShadow = false := by rw [SyntheticMethod.isShadow, hBody]; rfl
    simp only [SyntheticMethod.prepare, hShadow, Bool.false_eq_true, if_false, UInt16.zero_add]
    exact SyntheticMethod.loadParams_eq _ 0 _
  | @create n own hType =>
    have hShadow : m.isShadow = true := by rw [SyntheticMethod.isShadow, hBody]; rfl
    have hWords : (1 : UInt16) + (MethodType.paramSlots ⟨own.params ++ [.ofClass constructorMarker], own.result⟩).toUInt16 =
        (1 + JavaType.words (own.params ++ [.ofClass constructorMarker])).toUInt16 := (UInt16.ofNat_add ..).symm
    simp only [SyntheticMethod.prepare, hShadow, if_true, hWords, List.dropLast_concat]
    refine (SyntheticMethod.loadParams_eq _ 1 _).trans ?_
    rw [passed, given, ← List.cons_append, List.dropLast_concat]
    rfl

/-- The code of an accessor passes on what it is given. -/
theorem HasType.code (h : a.HasType owner signature) (hParams : ∀ t ∈ signature.params, t.isReadable)
    (hBody : m.body = a.body) (hDescriptor : m.descriptor = a.descriptor owner)
    (pool : ConstantPool) : m.code owner pool = ((CodeBuffer.passing (JavaType.words (a.given owner signature)).toUInt16
      (a.passed (a.given owner signature)) (a.operation ((a.member owner).ask pool).1) signature.result).finish.mapError
        .buffer, ((a.member owner).ask pool).2) := by
  rw [SyntheticMethod.code, hDescriptor, h.read hParams]
  simp only [h.perform hBody, h.prepare hBody, bind, Except.bind]
  refine Prod.ext ?_ rfl
  dsimp only
  split
  all_goals
    next hFinish =>
    rw [CodeBuffer.passing, hFinish]
    rfl

/-- What a program does as the body of an accessor. -/
structure Forwards (a : Access) (owner : String) (signature : MethodType) (index : UInt16) (p : Program) : Prop where
  maxLocals : p.code.maxLocals.toNat = JavaType.words (a.given owner signature)
  once : p.code.instructions.toList.filter Instruction.isMember = [a.operation index]
  returns : ∀ (env : Environment) (f : MethodFrame env) (args : List (List Word)) (value : List Word)
    (world : env.World), f.Enters (a.given owner signature) args →
    env.perform p.pool (a.operation index) (a.passed args).reverse.flatten f.world = (.ok value, world) →
    value.length = signature.result.slots → ∃ pc, p.fetch pc = some (.returning signature.result) ∧
      p.RunsWithin (.running f) (.returned value { f with pc := pc, stack := value, world := world })
  throws : ∀ (env : Environment) (f : MethodFrame env) (args : List (List Word)) (object : Nat) (world : env.World),
    f.Enters (a.given owner signature) args →
    env.perform p.pool (a.operation index) (a.passed args).reverse.flatten f.world = (.error object, world) →
    ∃ pc, p.fetch pc = some (a.operation index) ∧ p.RunsWithin (.running f)
      (.uncaught object { f with pc := pc, stack := (a.passed args).reverse.flatten, world := world })

theorem nonvoid_passed (hTypes : ∀ t ∈ signature.params, t.isVoid = false) (a : Access) (owner : String) :
    ∀ t ∈ a.passed (a.given owner signature), t.isVoid = false := by
  intro t ht
  cases a with
  | get | set | call => exact hTypes t ht
  | create =>
    rcases List.mem_cons.1 (List.dropLast_subset _ ht) with rfl | hParam
    · rfl
    · exact hTypes t hParam

theorem HasType.words_passed (h : a.HasType owner signature) :
    JavaType.words (a.passed (a.given owner signature)) = signature.paramSlots ∧
      signature.paramSlots ≤ JavaType.words (a.given owner signature) ∧
      JavaType.words (a.given owner signature) ≤ signature.paramSlots + 1 := by
  cases h with
  | get | set | call => exact ⟨rfl, Nat.le_refl _, Nat.le_succ _⟩
  | @create n own =>
    have hSlots : MethodType.paramSlots ⟨own.params ++ [.ofClass constructorMarker], own.result⟩ =
        JavaType.words own.params + 1 := JavaType.words_append ..
    rw [passed, given, ← List.cons_append, List.dropLast_concat, hSlots]
    simp
    omega

theorem enters_passed {env : Environment} {f : MethodFrame env} {types : List JavaType} {args : List (List Word)}
    (h : f.Enters types args) (a : Access) : f.Enters (a.passed types) (a.passed args) := by
  cases a with
  | get | set | call => exact h
  | create => exact h.dropLast

theorem of_mem_code {types : List JavaType} {index : UInt16} {result : JavaType} {i : Instruction}
    (h : i ∈ Instruction.loads 0 types ++ [a.operation index, .returning result]) :
    i.isWellFormed ∧ ¬ i.isInterfaceCall := by
  rcases List.mem_append.1 h with hLoad | hLast
  · obtain ⟨kind, slot, rfl⟩ := Instruction.exists_of_mem_loads hLoad
    unfold Instruction.loadSlot
    split_ifs <;> exact ⟨rfl, nofun⟩
  · rcases List.mem_pair.1 hLast with rfl | rfl
    · cases a <;> exact ⟨rfl, nofun⟩
    · unfold Instruction.returning
      split_ifs <;> exact ⟨rfl, nofun⟩

/-- Of the instructions of an accessor, one reaches a member. -/
theorem filter_code (a : Access) (types : List JavaType) (index : UInt16) (result : JavaType) :
    (Instruction.loads 0 types ++ [a.operation index, .returning result]).filter Instruction.isMember =
      [a.operation index] := by
  have hLoads : (Instruction.loads 0 types).filter Instruction.isMember = [] := by
    refine List.filter_eq_nil_iff.2 fun i hi => ?_
    obtain ⟨kind, slot, rfl⟩ := Instruction.exists_of_mem_loads hi
    unfold Instruction.loadSlot
    split_ifs <;> nofun
  have hReturn : (Instruction.returning result).isMember = false := by
    unfold Instruction.returning
    split_ifs <;> rfl
  simp [List.filter_append, hLoads, a.isMember_operation, hReturn]

/-- The body of an accessor is refused for its length alone, and else it forwards. -/
theorem HasType.forwards (h : a.HasType owner signature) (hTypes : ∀ t ∈ signature.params, t.isVoid = false)
    (hWords : signature.paramSlots ≤ 65535) (index : UInt16) (pool : ConstantPool) :
    let b := CodeBuffer.passing (JavaType.words (a.given owner signature)).toUInt16
      (a.passed (a.given owner signature)) (a.operation index) signature.result
    (∃ body p, b.finish = .ok body ∧ body.program? pool = some p ∧ a.Forwards owner signature index p) ∨
      b.finish = .error (.bodyTooLong b.pc) ∧ CodeBuffer.longestBody < b.pc ∧
        b.pc ≤ 4 * (a.passed (a.given owner signature)).length + 4 := by
  have hPassed := nonvoid_passed hTypes a owner
  obtain ⟨hEqual, hFewer, hMarker⟩ := h.words_passed
  have hSpec := CodeBuffer.passing_spec hPassed (hEqual ▸ hWords) (JavaType.words (a.given owner signature)).toUInt16
    (a.operation index) (by cases a <;> exact fun _ => rfl) signature.result
  generalize CodeBuffer.passing _ _ _ _ = b at hSpec ⊢
  obtain ⟨hCode, hConsistent, hLocals, hHandlers, hOperands, hResult, hLong, hShort⟩ := hSpec
  rcases Nat.lt_or_ge CodeBuffer.longestBody b.pc with hTooLong | hFits
  · exact .inr ⟨if_pos hTooLong, hTooLong, hShort⟩
  left
  obtain ⟨body, hFinish⟩ : ∃ body, b.finish = .ok body := ⟨_, if_neg (Nat.not_lt.2 hFits)⟩
  have hMaxLocals : b.maxLocals.toNat = JavaType.words (a.given owner signature) := by
    -- A body that fits has far fewer words than would wrap around.
    unfold CodeBuffer.longestBody at hFits
    rw [hLocals]
    simp
    omega
  have hMem (i : Instruction) (hi : i ∈ b.instructions) :
      i ∈ Instruction.loads 0 (a.passed (a.given owner signature)) ++ [a.operation index, .returning signature.result] :=
    hCode ▸ Array.mem_toList_iff.2 hi
  have hProgram := hConsistent.program?_finish (fun i hi => (of_mem_code (hMem i hi)).1)
    (fun i hi => (of_mem_code (hMem i hi)).2) hFinish pool
  have hPasses : Program.Passes ⟨{ b with depth := 0, uses := [] }, pool⟩ (a.passed (a.given owner signature))
      (a.operation index) signature.result :=
    ⟨hPassed, hCode, ⟨hConsistent.sizes, hConsistent.first, hConsistent.next⟩, hHandlers, hOperands, hResult,
      by rw [hEqual]; exact hMaxLocals ▸ hFewer⟩
  refine ⟨body, _, hFinish, hProgram, hMaxLocals, hCode ▸ filter_code .., ?_, ?_⟩
  · intro env f args value world hEnters hPerform hValue
    exact hPasses.returns (a.isMember_operation index) (enters_passed hEnters a) hPerform hValue
  · intro env f args object world hEnters hPerform
    exact hPasses.throws (a.isMember_operation index) (enters_passed hEnters a) hPerform

/-- A request for a member that can be read is answered. -/
theorem HasType.request_eq (h : a.HasType owner signature) (t : AccessorTable) :
    a.request owner t = .ok (t.request a.key (a.make owner t)) := by
  rcases a.request_eq owner t with hAnswer | ⟨m, e, rfl, hOpen, -⟩
  · exact hAnswer
  · cases h with
    | create hType => exact (hOpen (MethodType.close_of_ofDescriptor? (hType ▸ rfl))).elim

/-- The accessor that is given on a request was made for it, if no other request was taken for it. -/
theorem HasType.answer (h : a.HasType owner signature) {history : List Access}
    (hOwn : ∀ b ∈ history, b.key = a.key → b = a) :
    ∃ before, (a.answer owner (answers owner .empty history).2).1 = some (a.make owner before) := by
  obtain ⟨hAsked, -, -⟩ := (AccessorTable.asked_empty owner (history ++ [a])).answers
    fun b (hb : b ∈ history) => List.mem_append_left _ hb
  have hAnswer := answer_of_ok (h.request_eq (answers owner .empty history).2)
  obtain ⟨hLater, -, hKnown⟩ := hAsked.answer (a := a) (by simp)
  have hLookup := hKnown _ (congrArg Prod.fst hAnswer)
  obtain ⟨b, hb, before, hEntry⟩ := hLater.asked _ (AccessorTable.mem_of_lookup hLookup)
  obtain ⟨hKey, hMade⟩ := Prod.mk.inj hEntry
  have hSame : b = a := by
    rcases List.mem_append.1 hb with hOld | hLast
    · exact hOwn b hOld hKey.symm
    · exact List.mem_singleton.1 hLast
  exact ⟨before, by rw [hAnswer, hMade, hSame]⟩

end Access

/-- The accessor that a class makes for a field, a method or a constructor of any types and any number of parameters, as
far as their words can be counted, does exactly the access that it stands for, unless its body is too long. It runs with
any arguments in its locals: the member is reached once, with the receiver and the arguments in their order, but for the
marker of a shadow constructor. Its value is returned by the instruction for its type, and nothing else is left on the
stack; what it throws is not caught. No run goes beyond the limits of the body, whose locals are the receiver and the
parameters. -/
theorem accessor_bodies_forward {owner : String} {history : List Access} {a : Access}
    (hOwn : ∀ b ∈ history, b.key = a.key → b = a) {signature : MethodType} (hType : a.HasType owner signature)
    (hTypes : ∀ t ∈ signature.params, t.isReadable ∧ t.isVoid = false) (hWords : signature.paramSlots ≤ 65535)
    (pool : ConstantPool) :
    ∃ m, (a.answer owner (Access.answers owner .empty history).2).1 = some m ∧ ∃ index pool',
      (a.member owner).ask pool = (index, pool') ∧
      (pool'.entries.size ≤ 65535 → pool'.request? index = some (a.member owner)) ∧
      ((∃ body p, m.code owner pool = (.ok body, pool') ∧ body.program? pool' = some p ∧
          a.Forwards owner signature index p) ∨
        ∃ size, m.code owner pool = (.error (.buffer (.bodyTooLong size)), pool') ∧ CodeBuffer.longestBody < size ∧
          size ≤ 4 * (a.passed (a.given owner signature)).length + 4) := by
  obtain ⟨before, hAnswer⟩ := hType.answer hOwn
  have hCode := hType.code (fun t ht => (hTypes t ht).1) (a.make_body owner before) (a.make_descriptor owner before)
    pool
  refine ⟨_, hAnswer, _, _, rfl, fun hSize => ((a.member owner).answers.held hSize).request?, ?_⟩
  rcases hType.forwards (fun t ht => (hTypes t ht).2) hWords ((a.member owner).ask pool).1
    ((a.member owner).ask pool).2 with ⟨body, p, hFinish, hProgram, hForwards⟩ | ⟨hFinish, hLong, hShort⟩
  · rw [hFinish] at hCode
    exact .inl ⟨body, p, hCode, hProgram, hForwards⟩
  · rw [hFinish] at hCode
    exact .inr ⟨_, hCode, hLong, hShort⟩

/-- A shadow constructor with parameters of one and two words, which was asked for before. -/
theorem accessor_bodies_forward_shadow : let x : FieldModel := ⟨"x", "I", .privateFlag, none⟩
    let new : MethodModel := ⟨constructorName, "(JI)V", .privateFlag⟩
    ∃ m body p index pool,
      ((Access.create new).answer "Box" (Access.answers "Box" .empty [.get x, .create new]).2).1 = some m ∧
      m.code "Box" .empty = (.ok body, pool) ∧ body.program? pool = some p ∧ p.code.maxLocals.toNat = 5 ∧
      (Access.create new).Forwards "Box" ⟨[.long, .int, .ofClass constructorMarker], .void⟩ index p := by
  intro x new
  have hSignature : MethodType.ofDescriptor? new.descriptor = some ⟨[.long, .int], .void⟩ := by decide +kernel
  have hOwn : ∀ b ∈ [Access.get x, .create new], b.key = (Access.create new).key → b = .create new := by
    intro b hb hKey
    rcases List.mem_pair.1 hb with rfl | rfl
    · exact absurd hKey (by decide +kernel)
    · rfl
  obtain ⟨m, hAnswer, index, pool, -, -, ⟨body, p, hCode, hProgram, hForwards⟩ | ⟨size, -, hLong, hShort⟩⟩ :=
    accessor_bodies_forward hOwn (.create hSignature) (by decide +kernel) (by decide +kernel) .empty
  · exact ⟨m, body, p, index, pool, hAnswer, hCode, hProgram, hForwards.maxLocals, hForwards⟩
  · simp [Access.passed, Access.given, CodeBuffer.longestBody] at hLong hShort
    omega

end JavaFragment
