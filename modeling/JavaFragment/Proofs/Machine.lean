import JavaFragment.Bytecode.Buffer
import JavaFragment.ConstantPool
/-!
The machine that runs emitted instructions. Integer arithmetic, moves, jumps, monitors and exceptions
are given in full. Objects, classes and floating point are left to an environment, about which nothing
is assumed: statements about runs hold whatever it does.
-/
namespace JavaFragment

/-- One word of the operand stack or of the local variables. A `long` or `double` takes two words, the
second of which is a filler. -/
inductive Word where
  | int (value : Int32)
  | long (value : Int64)
  | float (value : Binary32)
  | double (value : Binary64)
  | ref (object : Option Nat)
  | filler
deriving DecidableEq, Inhabited

/-- The words of the local variables, by slot. -/
abbrev LocalWords := Nat → Word

/-- What the machine leaves open. An instruction that works on objects, classes or floating point may
change the operand stack in any way or throw an object. -/
structure Environment where
  World : Type
  perform : ConstantPool → Instruction → List Word → World → Except Nat (List Word) × World
  /-- The object that a division by zero throws. -/
  arithmeticException : World → Nat × World
  /-- The object that a use of `null` throws. -/
  nullPointerException : World → Nat × World
  /-- Whether a handler for the class at a pool index takes an object. -/
  catches : ConstantPool → World → UInt16 → Nat → Bool

/-- A lock that is taken or given back. -/
inductive MonitorEvent where
  | enter (object : Nat)
  | exit (object : Nat)
deriving DecidableEq, Repr

/-- Emitted instructions with their pool. -/
structure Program where
  code : CodeBuffer
  pool : ConstantPool

/-- The state of one method. The locks taken and given back so far are kept, the last first. -/
structure MethodFrame (env : Environment) where
  pc : Nat
  stack : List Word
  locals : LocalWords
  world : env.World
  monitors : List MonitorEvent

inductive MachineState (env : Environment) where
  | running (f : MethodFrame env)
  /-- An object was thrown at the address in the frame and is not yet taken by a handler. -/
  | throwing (object : Nat) (f : MethodFrame env)
  | returned (value : List Word) (f : MethodFrame env)
  | uncaught (object : Nat) (f : MethodFrame env)

/-! Effects of single instructions. -/

def StackOp.apply : StackOp → List Word → Option (List Word)
  | .pop, _ :: st => some st
  | .pop2, _ :: _ :: st => some st
  | .dup, a :: st => some (a :: a :: st)
  | .dupX1, a :: b :: st => some (a :: b :: a :: st)
  | .dupX2, a :: b :: c :: st => some (a :: b :: c :: a :: st)
  | .dup2, a :: b :: st => some (a :: b :: a :: b :: st)
  | .dup2X1, a :: b :: c :: st => some (a :: b :: c :: a :: b :: st)
  | .dup2X2, a :: b :: c :: d :: st => some (a :: b :: c :: d :: a :: b :: st)
  | .swap, a :: b :: st => some (b :: a :: st)
  | _, _ => none

/-- Arithmetic on 32 bits. A division by zero has no value. -/
def ArithOp.onInts : ArithOp → Int32 → Int32 → Option Int32
  | .add, a, b => some (a + b)
  | .sub, a, b => some (a - b)
  | .mul, a, b => some (a * b)
  | .div, a, b => if b = 0 then none else some (a / b)
  | .rem, a, b => if b = 0 then none else some (a % b)

/-- Arithmetic on 64 bits. -/
def ArithOp.onLongs : ArithOp → Int64 → Int64 → Option Int64
  | .add, a, b => some (a + b)
  | .sub, a, b => some (a - b)
  | .mul, a, b => some (a * b)
  | .div, a, b => if b = 0 then none else some (a / b)
  | .rem, a, b => if b = 0 then none else some (a % b)

/-- Shifts of 32 bits by the lowest five bits of the count. -/
def ShiftOp.onInt (op : ShiftOp) (a count : Int32) : Int32 :=
  let places := count.toUInt32 &&& 31
  match op with
  | .left => (a.toUInt32 <<< places).toInt32
  | .right => a >>> places.toInt32
  | .unsignedRight => (a.toUInt32 >>> places).toInt32

/-- Shifts of 64 bits by the lowest six bits of the count. -/
def ShiftOp.onLong (op : ShiftOp) (a : Int64) (count : Int32) : Int64 :=
  let places := count.toInt64.toUInt64 &&& 63
  match op with
  | .left => (a.toUInt64 <<< places).toInt64
  | .right => a >>> places.toInt64
  | .unsignedRight => (a.toUInt64 >>> places).toInt64

def BitOp.onInts : BitOp → Int32 → Int32 → Int32
  | .and, a, b => a &&& b
  | .or, a, b => a ||| b
  | .xor, a, b => a ^^^ b

def BitOp.onLongs : BitOp → Int64 → Int64 → Int64
  | .and, a, b => a &&& b
  | .or, a, b => a ||| b
  | .xor, a, b => a ^^^ b

def Relation.holds : Relation → Int32 → Int32 → Bool
  | .eq, a, b => a == b
  | .ne, a, b => a != b
  | .lt, a, b => a < b
  | .ge, a, b => b ≤ a
  | .gt, a, b => b < a
  | .le, a, b => a ≤ b

/-- The outcome of a three-way comparison. -/
def compareLongs (a b : Int64) : Int32 := if a < b then -1 else if a = b then 0 else 1

/-- What an instruction does that neither jumps nor ends the method. -/
inductive Effect where
  | done (stack : List Word) (locals : LocalWords)
  | dividesByZero
  /-- Left to the environment. -/
  | outside
  /-- The operands are not what the instruction works on. -/
  | stuck

def LocalWords.set (locals : LocalWords) (slot : Nat) (word : Word) : LocalWords :=
  fun n => if n = slot then word else locals n

/-- The words that a load pushes. -/
def LocalWords.load (locals : LocalWords) (kind : SlotKind) (slot : Nat) : List Word :=
  match kind.words with
  | 1 => [locals slot]
  | _ => [locals slot, locals (slot + 1)]

/-- Stores the words on the stack. -/
def LocalWords.store (locals : LocalWords) (kind : SlotKind) (slot : Nat) (stack : List Word) : Effect :=
  match kind.words, stack with
  | 1, a :: st => .done st (locals.set slot a)
  | 2, a :: b :: st => .done st ((locals.set slot a).set (slot + 1) b)
  | _, _ => .stuck

def LocalWords.increase (locals : LocalWords) (slot : Nat) (amount : Int32) (stack : List Word) : Effect :=
  match locals slot with
  | .int a => .done stack (locals.set slot (.int (a + amount)))
  | _ => .stuck

def Conversion.effect (c : Conversion) (stack : List Word) (locals : LocalWords) : Effect :=
  match c, stack with
  | .intToLong, .int a :: st => .done (.long a.toInt64 :: .filler :: st) locals
  | .longToInt, .long a :: .filler :: st => .done (.int a.toInt32 :: st) locals
  | .intToByte, .int a :: st => .done (.int a.toInt8.toInt32 :: st) locals
  | .intToChar, .int a :: st => .done (.int a.toUInt32.toUInt16.toUInt32.toInt32 :: st) locals
  | .intToShort, .int a :: st => .done (.int a.toInt16.toInt32 :: st) locals
  | .intToLong, _ | .longToInt, _ | .intToByte, _ | .intToChar, _ | .intToShort, _ => .stuck
  | _, _ => .outside

def ArithOp.effect (op : ArithOp) (kind : NumberKind) (stack : List Word) (locals : LocalWords) : Effect :=
  match kind, stack with
  | .int, .int b :: .int a :: st => match op.onInts a b with
    | some c => .done (.int c :: st) locals
    | none => .dividesByZero
  | .long, .long b :: .filler :: .long a :: .filler :: st => match op.onLongs a b with
    | some c => .done (.long c :: .filler :: st) locals
    | none => .dividesByZero
  | .int, _ | .long, _ => .stuck
  | .float, _ | .double, _ => .outside

def negEffect (kind : NumberKind) (stack : List Word) (locals : LocalWords) : Effect :=
  match kind, stack with
  | .int, .int a :: st => .done (.int (-a) :: st) locals
  | .long, .long a :: .filler :: st => .done (.long (-a) :: .filler :: st) locals
  | .int, _ | .long, _ => .stuck
  | .float, _ | .double, _ => .outside

def ShiftOp.effect (op : ShiftOp) (kind : IntegerKind) (stack : List Word) (locals : LocalWords) : Effect :=
  match kind, stack with
  | .int, .int n :: .int a :: st => .done (.int (op.onInt a n) :: st) locals
  | .long, .int n :: .long a :: .filler :: st => .done (.long (op.onLong a n) :: .filler :: st) locals
  | _, _ => .stuck

def BitOp.effect (op : BitOp) (kind : IntegerKind) (stack : List Word) (locals : LocalWords) : Effect :=
  match kind, stack with
  | .int, .int b :: .int a :: st => .done (.int (op.onInts a b) :: st) locals
  | .long, .long b :: .filler :: .long a :: .filler :: st => .done (.long (op.onLongs a b) :: .filler :: st) locals
  | _, _ => .stuck

/-- The effect of an instruction that neither jumps nor ends the method. -/
def Instruction.effect (pool : ConstantPool) (i : Instruction) (stack : List Word) (locals : LocalWords) : Effect :=
  let push (words : List Word) : Effect := .done (words ++ stack) locals
  match i with
  | .nop => push []
  | .aconstNull => push [.ref none]
  | .iconst n => push [.int (Int32.ofInt (n.val - 1))]
  | .lconst n => push [.long (Int64.ofNat n.val), .filler]
  | .bipush v => push [.int v.toInt32]
  | .sipush v => push [.int v.toInt32]
  | .ldc index => match pool.get? index.toUInt16 with
    | some (.integer v) => push [.int v]
    | _ => .outside
  | .ldcW index => match pool.get? index with
    | some (.integer v) => push [.int v]
    | _ => .outside
  | .ldc2W index => match pool.get? index with
    | some (.long v) => push [.long v, .filler]
    | _ => .outside
  | .load kind slot => push (locals.load kind slot.toNat)
  | .loadShort kind slot => push (locals.load kind slot.val)
  | .loadWide kind slot => push (locals.load kind slot.toNat)
  | .store kind slot => locals.store kind slot.toNat stack
  | .storeShort kind slot => locals.store kind slot.val stack
  | .storeWide kind slot => locals.store kind slot.toNat stack
  | .stack op => match op.apply stack with
    | some stack => .done stack locals
    | none => .stuck
  | .arith op kind => op.effect kind stack locals
  | .neg kind => negEffect kind stack locals
  | .shift op kind => op.effect kind stack locals
  | .bitwise op kind => op.effect kind stack locals
  | .iinc slot value => locals.increase slot.toNat value.toInt32 stack
  | .iincWide slot value => locals.increase slot.toNat value.toInt32 stack
  | .convert c => c.effect stack locals
  | .compare .long => match stack with
    | .long b :: .filler :: .long a :: .filler :: st => .done (.int (compareLongs a b) :: st) locals
    | _ => .stuck
  | _ => .outside

/-- Whether an instruction goes on with the next one unless it throws, and touches no lock. -/
def Instruction.isPlain : Instruction → Bool
  | .branch _ _ | .lookupSwitch _ _ | .tableSwitch _ _ _ | .valueReturn _ | .voidReturn | .athrow
  | .monitorEnter | .monitorExit => false
  | _ => true

/-- The first of the locals that an instruction writes, and their number. -/
def Instruction.written? : Instruction → Option (Nat × Nat)
  | .store kind slot => some (slot.toNat, kind.words)
  | .storeShort kind slot => some (slot.val, kind.words)
  | .storeWide kind slot => some (slot.toNat, kind.words)
  | .iinc slot _ => some (slot.toNat, 1)
  | .iincWide slot _ => some (slot.toNat, 1)
  | _ => none

/-- Whether an instruction neither jumps nor writes a local. -/
def Instruction.isInert (i : Instruction) : Bool := i.isPlain && i.written?.isNone

theorem Instruction.isPlain_of_isInert {i : Instruction} (h : i.isInert) : i.isPlain := (Bool.and_eq_true_iff.1 h).1

theorem Instruction.written?_of_isInert {i : Instruction} (h : i.isInert) : i.written? = none :=
  Option.isNone_iff_eq_none.1 (Bool.and_eq_true_iff.1 h).2

/-- Whether a branch is taken, and the stack after its operands. -/
def Branch.test : Branch → List Word → Option (Bool × List Word)
  | .goto, st => some (true, st)
  | .ifZero r, .int a :: st => some (r.holds a 0, st)
  | .ifInts r, .int b :: .int a :: st => some (r.holds a b, st)
  | .ifNull, .ref o :: st => some (o == none, st)
  | .ifNonNull, .ref o :: st => some (o != none, st)
  | .ifSame, .ref b :: .ref a :: st => some (a == b, st)
  | .ifDistinct, .ref b :: .ref a :: st => some (a != b, st)
  | _, _ => none

/-- The offset that a switch takes for a key. -/
def Instruction.switchOffset : Instruction → Int32 → Option Int32
  | .lookupSwitch default pairs, key => some ((pairs.lookup key).getD default)
  | .tableSwitch default low offsets, key =>
    if low ≤ key then some (offsets.getD (key.toInt - low.toInt).toNat default) else some default
  | _, _ => none

/-! Steps. -/

namespace Program

variable {i : Instruction}

/-- The instruction at an address. -/
def fetch (p : Program) (pc : Nat) : Option Instruction :=
  (p.code.addresses.findIdx? (· == pc)).bind fun k => p.code.instructions[k]?

/-- Whether a row of the exception table takes an object that is thrown at an address. -/
def covers (p : Program) (env : Environment) (pc : Nat) (world : env.World) (object : Nat)
    (row : HandlerRange) : Bool :=
  decide (row.start.toNat ≤ pc) && decide (pc < row.stop.toNat) &&
    (row.caught == 0 || env.catches p.pool world row.caught object)

variable {env : Environment}

/-- Goes on at an address relative to the current one. -/
def jump (f : MethodFrame env) (stack : List Word) (offset : Int) : Option (MachineState env) :=
  match (f.pc : Int) + offset with
  | .ofNat target => some (.running { f with pc := target, stack := stack })
  | .negSucc _ => none

/-- Throws the object that the environment makes. -/
def throwNew (f : MethodFrame env) (make : env.World → Nat × env.World) : MachineState env :=
  .throwing (make f.world).1 { f with world := (make f.world).2 }

/-- Goes on with the next instruction, or throws what the environment throws. -/
def advance (p : Program) (f : MethodFrame env) (i : Instruction) : Effect → Option (MachineState env)
  | .done stack locals => some (.running { f with pc := f.pc + i.size f.pc, stack := stack, locals := locals })
  | .dividesByZero => some (throwNew f env.arithmeticException)
  | .outside => match env.perform p.pool i f.stack f.world with
    | (.ok stack, world) => some (.running { f with pc := f.pc + i.size f.pc, stack := stack, world := world })
    | (.error object, world) => some (.throwing object { f with world := world })
  | .stuck => none

/-- Takes or gives back a lock. A use of `null` throws. -/
def monitor (f : MethodFrame env) (i : Instruction) (event : Nat → MonitorEvent) : Option (MachineState env) :=
  match f.stack with
  | .ref (some object) :: st => some <| .running
    { f with pc := f.pc + i.size f.pc, stack := st, monitors := event object :: f.monitors }
  | .ref none :: _ => some (throwNew f env.nullPointerException)
  | _ => none

/-- Carries out one instruction. -/
def execute (p : Program) (f : MethodFrame env) (i : Instruction) : Option (MachineState env) :=
  match i with
  | .branch b offset => match b.test f.stack with
    | some (true, stack) => jump f stack offset.toInt
    | some (false, stack) => some (.running { f with pc := f.pc + i.size f.pc, stack := stack })
    | none => none
  | .lookupSwitch _ _ | .tableSwitch _ _ _ => match f.stack with
    | .int key :: st => (i.switchOffset key).bind fun offset => jump f st offset.toInt
    | _ => none
  | .valueReturn kind =>
    if kind.words ≤ f.stack.length then some (.returned (f.stack.take kind.words) f) else none
  | .voidReturn => some (.returned [] f)
  | .athrow => match f.stack with
    | .ref (some object) :: _ => some (.throwing object f)
    | .ref none :: _ => some (throwNew f env.nullPointerException)
    | _ => none
  | .monitorEnter => monitor f i .enter
  | .monitorExit => monitor f i .exit
  | i => advance p f i (i.effect p.pool f.stack f.locals)

/-- Hands a thrown object to the first row of the exception table that takes it. -/
def dispatch (p : Program) (object : Nat) (f : MethodFrame env) : MachineState env :=
  match p.code.handlers.find? (p.covers env f.pc f.world object) with
  | some row => .running { f with pc := row.handler.toNat, stack := [.ref (some object)] }
  | none => .uncaught object f

/-- One step. A method that has ended takes none, and neither does one that ran past its code. -/
def step (p : Program) : MachineState env → Option (MachineState env)
  | .running f => (p.fetch f.pc).bind (p.execute f)
  | .throwing object f => some (p.dispatch object f)
  | .returned _ _ | .uncaught _ _ => none

/-- An instruction with an effect neither jumps nor ends the method. -/
theorem execute_eq_advance (p : Program) (f : MethodFrame env) (hInside : i.effect p.pool f.stack f.locals ≠ .outside) :
    p.execute f i = p.advance f i (i.effect p.pool f.stack f.locals) := by
  cases i <;> first | rfl | exact (hInside rfl).elim

variable {p : Program} {f : MethodFrame env} {stack : List Word}

theorem step_of_done {locals : LocalWords} (hFetch : p.fetch f.pc = some i)
    (hEffect : i.effect p.pool f.stack f.locals = .done stack locals) :
    p.step (.running f) = some (.running { f with pc := f.pc + i.size f.pc, stack := stack, locals := locals }) := by
  have hExecute := p.execute_eq_advance f (i := i) (by rw [hEffect]; nofun)
  simp [step, hFetch, hExecute, hEffect, advance]

theorem step_of_dividesByZero (hFetch : p.fetch f.pc = some i)
    (hEffect : i.effect p.pool f.stack f.locals = .dividesByZero) :
    p.step (.running f) = some (throwNew f env.arithmeticException) := by
  have hExecute := p.execute_eq_advance f (i := i) (by rw [hEffect]; nofun)
  simp [step, hFetch, hExecute, hEffect, advance]

theorem jump_eq {offset : Int} {target : Nat} (hTarget : (f.pc : Int) + offset = target) :
    jump f stack offset = some (.running { f with pc := target, stack := stack }) := by
  simp [jump, hTarget]

theorem step_branch {b : Branch} {offset : Int16} {target : Nat}
    {taken : Bool} (hFetch : p.fetch f.pc = some (.branch b offset))
    (hTarget : (f.pc : Int) + offset.toInt = target) (hTest : b.test f.stack = some (taken, stack)) :
    p.step (.running f) = some (.running { f with pc := if taken then target else f.pc + 3, stack := stack }) := by
  cases taken <;> simp [step, hFetch, execute, hTest, jump_eq hTarget, Instruction.size]

/-- Exactly `steps` steps lead from one state to another. -/
inductive RunsFor (p : Program) : MachineState env → MachineState env → Nat → Prop where
  | zero (c : MachineState env) : RunsFor p c c 0
  | succ {c d e : MachineState env} {steps : Nat} (first : p.step c = some d)
      (rest : RunsFor p d e steps) : RunsFor p c e (steps + 1)

/-- Some number of steps leads from one state to another. -/
def Runs (p : Program) (c d : MachineState env) : Prop := ∃ steps, p.RunsFor c d steps

variable {c d : MachineState env}

theorem RunsFor.trans {e : MachineState env} {first second : Nat}
    (left : p.RunsFor c d first) (right : p.RunsFor d e second) :
    p.RunsFor c e (first + second) := by
  induction left with
  | zero => simpa using right
  | @succ c d' d steps hStep _ ih =>
    have hCount : steps + 1 + second = (steps + second) + 1 := by omega
    exact hCount ▸ RunsFor.succ hStep (ih right)

theorem RunsFor.single (hStep : p.step c = some d) : p.RunsFor c d 1 := .succ hStep (.zero d)

theorem Runs.single (hStep : p.step c = some d) : p.Runs c d := ⟨1, .single hStep⟩

end Program

end JavaFragment
