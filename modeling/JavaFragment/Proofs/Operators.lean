import JavaFragment.Proofs.Arithmetic
import JavaFragment.Proofs.Typing
/-!
Operators on values of given types: which type the typing rules give, how the operands are converted to
it, and what the instruction for it does.
-/
namespace JavaFragment

variable {p q r : Primitive} {op : BinaryOp} {t : JavaType} {a b : Value}

namespace Primitive

variable {p : Primitive}

/-- The type that a number has in arithmetic. -/
def promoted : Primitive → Primitive
  | .byte | .char | .short => .int
  | p => p

theorem promoted_isDiscrete (hp : p.isDiscrete) : p.promoted = .int ∨ p.promoted = .long ∨ p.promoted = .boolean := by
  cases p <;> simp_all [isDiscrete, promoted]

theorem promoted_numeric (hp : p.isDiscrete) (hNumber : (JavaType.prim p).isNumeric) :
    (p.promoted = .int ∨ p.promoted = .long) ∧ (JavaType.prim p).promoted? = some (.prim p.promoted) := by
  cases p <;> simp_all [isDiscrete, promoted, JavaType.isNumeric] <;> rfl

theorem not_void (hp : p.isDiscrete) : (JavaType.prim p).isVoid = false := by
  cases p <;> first | rfl | cases hp

end Primitive

theorem Value.isDiscrete_of_fits {v : Value} (h : v.fits p) : p.isDiscrete := by
  cases p with
  | void | float | double => cases v <;> cases h
  | _ => rfl

theorem Value.fits_promoted {v : Value} (h : v.fits p) : v.fits p.promoted := by
  cases v <;> cases p <;> first | rfl | cases h

namespace TypingContext

theorem unaryType_promoted (op : UnaryOp) (p : Primitive) :
    unaryType op (.prim p) = unaryType op (.prim p.promoted) := by
  cases p <;> rfl

theorem binaryType_promoted (op : BinaryOp) (p q : Primitive) :
    binaryType op (.prim p) (.prim q) = binaryType op (.prim p.promoted) (.prim q.promoted) := by
  cases p <;> cases q <;> rfl

end TypingContext

/-- The type to which the right operand of an operator is converted. -/
def BinaryOp.rightType (op : BinaryOp) (p : Primitive) : Primitive := if op.isShift then .int else p

theorem BinaryOp.rightType_eq (op : BinaryOp) (p : Primitive) :
    (if op.isShift then JavaType.int else .prim p) = .prim (op.rightType p) := by
  unfold rightType
  split <;> rfl

theorem BinaryOp.not_shift_of_bitwise (h : op.isBitwise) : op.isShift = false := by
  cases op <;> first | rfl | cases h

/-- The count of a shift may be cut down to 32 bits. -/
theorem toInt32_emod (b : Int64) {m : Int} (hm : m ∣ ((4294967296 : Nat) : Int)) :
    b.toInt32.toInt % m = b.toInt % m := by
  rw [Int64.toInt_toInt32, ← Int.emod_emod_of_dvd _ hm]
  show b.toInt.bmod 4294967296 % ((4294967296 : Nat) : Int) % m = _
  rw [Int.bmod_emod, Int.emod_emod_of_dvd _ hm]

/-- Only the lowest bits of the count of a shift matter. -/
theorem BinaryOp.exact_count (hShift : op.isShift) {bits : Nat} (a : Int) {b c : Int}
    (hSame : b % bits = c % bits) : op.exact bits a b = op.exact bits a c := by
  cases op <;> first | (simp [exact, hSame]; done) | cases hShift

/-- The type of an operator on operands that are integers or truth values. -/
inductive BinaryOp.Typed (op : BinaryOp) : Primitive → Primitive → Primitive → Prop where
  | truths {p q : Primitive} (hp : p.promoted = .boolean) (hq : q.promoted = .boolean)
      (hOp : op.isBitwise) : Typed op p q .boolean
  | ints {p q : Primitive} (hp : p.promoted = .int) (hq : q.promoted = .int) : Typed op p q .int
  | shiftedInt {p q : Primitive} (hp : p.promoted = .int) (hq : q.promoted = .long)
      (hOp : op.isShift) : Typed op p q .int
  | widened {p q : Primitive} (hp : p.promoted = .int) (hq : q.promoted = .long)
      (hOp : op.isShift = false) : Typed op p q .long
  | longs {p q : Primitive} (hp : p.promoted = .long) (hq : q.promoted = .int ∨ q.promoted = .long) : Typed op p q .long

theorem TypingContext.binaryType_discrete
    (hType : binaryType op (.prim p) (.prim q) = some t) (hp : p.isDiscrete) (hq : q.isDiscrete) :
    ∃ r, t = .prim r ∧ op.Typed p q r := by
  rw [binaryType_promoted] at hType
  rcases Primitive.promoted_isDiscrete hp with h | h | h <;>
    rcases Primitive.promoted_isDiscrete hq with h' | h' | h' <;>
    rw [h, h'] at hType <;> cases op <;> cases hType <;> refine ⟨_, rfl, ?_⟩
  all_goals first
    | exact .ints h h'
    | exact .shiftedInt h h' rfl
    | exact .widened h h' rfl
    | exact .longs h (.inl h')
    | exact .longs h (.inr h')
    | exact .truths h h' rfl

namespace Value

variable {v : Value} {p : Primitive}

theorem eq_int (hFits : v.fits p) (hp : p.promoted = .int) : ∃ a, v = .int a := by
  have hKind := fits_promoted hFits
  rw [hp] at hKind
  cases v with
  | int a => exact ⟨a, rfl⟩
  | _ => cases hKind

theorem eq_long (hFits : v.fits p) (hp : p.promoted = .long) : ∃ a, v = .long a := by
  have hKind := fits_promoted hFits
  rw [hp] at hKind
  cases v with
  | long a => exact ⟨a, rfl⟩
  | _ => cases hKind

theorem eq_bool (hFits : v.fits p) (hp : p.promoted = .boolean) : ∃ a, v = .bool a := by
  have hKind := fits_promoted hFits
  rw [hp] at hKind
  cases v with
  | bool a => exact ⟨a, rfl⟩
  | _ => cases hKind

theorem convert_int_long (a : Int32) : (Value.int a).convert .long = some (.long a.toInt64) := by
  simp [convert, number?]

theorem convert_long_int (a : Int64) : (Value.long a).convert .int = some (.int a.toInt32) := by simp [convert, number?]

end Value

namespace BinaryOp.Typed

variable {op : BinaryOp} {p q r : Primitive}

theorem left_truth (h : op.Typed p q r) : p = .boolean ↔ r = .boolean := by
  cases h <;> cases p <;> simp_all [Primitive.promoted]

theorem right_truth (h : op.Typed p q r) : q = .boolean ↔ op.rightType r = .boolean := by
  unfold rightType
  cases h with
  | truths hp hq hOp =>
    rw [not_shift_of_bitwise hOp]
    cases q <;> simp_all [Primitive.promoted]
  | ints hp hq | shiftedInt hp hq hOp | widened hp hq hOp => cases q <;> simp_all [Primitive.promoted]
  | longs hp hq => split <;> cases q <;> simp_all [Primitive.promoted]

theorem isDiscrete (h : op.Typed p q r) : r.isDiscrete := by cases h <;> rfl

theorem rightDiscrete (h : op.Typed p q r) : (op.rightType r).isDiscrete := by
  unfold rightType
  split
  · rfl
  · exact h.isDiscrete

/-- Converting the operands to the type of the operator does not change its outcome. -/
theorem converted (h : op.Typed p q r) {a b : Value} (ha : a.fits p) (hb : b.fits q) :
    ∃ a' b', a.convert r = some a' ∧ b.convert (op.rightType r) = some b' ∧
      Value.binary op a' b' = Value.binary op a b := by
  cases h with
  | truths hp hq hOp =>
    obtain ⟨a, rfl⟩ := Value.eq_bool ha hp
    obtain ⟨b, rfl⟩ := Value.eq_bool hb hq
    rw [rightType, not_shift_of_bitwise hOp]
    exact ⟨_, _, rfl, rfl, rfl⟩
  | ints hp hq =>
    obtain ⟨a, rfl⟩ := Value.eq_int ha hp
    obtain ⟨b, rfl⟩ := Value.eq_int hb hq
    refine ⟨_, _, Value.convert_of_fits rfl, ?_, rfl⟩
    rw [rightType, ite_self]
    exact Value.convert_of_fits rfl
  | shiftedInt hp hq hOp =>
    obtain ⟨a, rfl⟩ := Value.eq_int ha hp
    obtain ⟨b, rfl⟩ := Value.eq_long hb hq
    rw [rightType, if_pos hOp]
    refine ⟨_, _, Value.convert_of_fits rfl, Value.convert_long_int b, ?_⟩
    simp only [Value.binary, Value.onInts, hOp, if_true]
    rw [exact_count hOp _ (toInt32_emod b (by decide))]
  | widened hp hq hOp =>
    obtain ⟨a, rfl⟩ := Value.eq_int ha hp
    obtain ⟨b, rfl⟩ := Value.eq_long hb hq
    rw [rightType, hOp]
    refine ⟨_, _, Value.convert_int_long a, Value.convert_of_fits rfl, ?_⟩
    simp [Value.binary, hOp]
  | longs hp hq =>
    obtain ⟨a, rfl⟩ := Value.eq_long ha hp
    rcases hq with hq | hq
    · obtain ⟨b, rfl⟩ := Value.eq_int hb hq
      cases hOp : op.isShift with
      | true =>
        rw [rightType, if_pos hOp]
        exact ⟨_, _, Value.convert_of_fits rfl, Value.convert_of_fits rfl, rfl⟩
      | false =>
        rw [rightType, hOp]
        refine ⟨_, _, Value.convert_of_fits rfl, Value.convert_int_long b, ?_⟩
        simp [Value.binary]
    · obtain ⟨b, rfl⟩ := Value.eq_long hb hq
      cases hOp : op.isShift with
      | true =>
        rw [rightType, if_pos hOp]
        refine ⟨_, _, Value.convert_of_fits rfl, Value.convert_long_int b, ?_⟩
        simp only [Value.binary, Value.onLongs]
        rw [exact_count hOp _ (toInt32_emod b (by decide))]
      | false =>
        rw [rightType, hOp]
        exact ⟨_, _, Value.convert_of_fits rfl, Value.convert_of_fits rfl, rfl⟩

end BinaryOp.Typed

namespace Value

theorem onInts_fits {op : BinaryOp} {a b : Int} {c : Value} (h : onInts op a b = .ok c) : c.fits .int := by
  unfold onInts at h
  cases hExact : op.exact 32 a b with
  | ok n => rw [hExact] at h; cases h; rfl
  | error fault => rw [hExact] at h; cases h

theorem onLongs_fits {op : BinaryOp} {a b : Int} {c : Value} (h : onLongs op a b = .ok c) : c.fits .long := by
  unfold onLongs at h
  cases hExact : op.exact 64 a b with
  | ok n => rw [hExact] at h; cases h; rfl
  | error fault => rw [hExact] at h; cases h

end Value

/-- On given operands an instruction leaves the answer to a question, and divides by zero if there is
none. -/
structure Instruction.Answers (pool : ConstantPool) (i : Instruction) (taken : List Word)
    (result : Except Fault Value) : Prop where
  ok : ∀ v, result = .ok v → ∀ rest locals, i.effect pool (taken ++ rest) locals = .done (v.words ++ rest) locals
  error : ∀ fault, result = .error fault → fault = .divisionByZero ∧ ∀ rest locals,
    i.effect pool (taken ++ rest) locals = .dividesByZero

namespace Instruction.Answers

variable {pool : ConstantPool} {i : Instruction} {taken : List Word}

theorem of_ok {v : Value} (h : ∀ rest locals, i.effect pool (taken ++ rest) locals = .done (v.words ++ rest) locals) :
    i.Answers pool taken (.ok v) where
  ok w hw := by cases hw; exact h
  error fault h := by cases h

theorem arith_int (op : ArithOp) (a b : Int32) : (Instruction.arith op .int).Answers pool [.int b, .int a]
      (Value.onInts op.operator a.toInt b.toInt) := by
  rw [ArithOp.onInts_eq]
  cases h : op.onInts a b with
  | some c =>
    refine .of_ok fun rest locals => ?_
    show op.effect .int ([.int b, .int a] ++ rest) locals = _
    simp [ArithOp.effect, h, Value.words]
  | none =>
    refine ⟨fun _ hOk => (by cases hOk), fun fault hFault => ?_⟩
    cases hFault
    refine ⟨rfl, fun rest locals => ?_⟩
    show op.effect .int ([.int b, .int a] ++ rest) locals = _
    simp [ArithOp.effect, h]

theorem arith_long (op : ArithOp) (a b : Int64) :
    (Instruction.arith op .long).Answers pool [.long b, .filler, .long a, .filler]
      (Value.onLongs op.operator a.toInt b.toInt) := by
  rw [ArithOp.onLongs_eq]
  cases h : op.onLongs a b with
  | some c =>
    refine .of_ok fun rest locals => ?_
    show op.effect .long ([.long b, .filler, .long a, .filler] ++ rest) locals = _
    simp [ArithOp.effect, h, Value.words]
  | none =>
    refine ⟨fun _ hOk => (by cases hOk), fun fault hFault => ?_⟩
    cases hFault
    refine ⟨rfl, fun rest locals => ?_⟩
    show op.effect .long ([.long b, .filler, .long a, .filler] ++ rest) locals = _
    simp [ArithOp.effect, h]

theorem shift_int (op : ShiftOp) (a n : Int32) : (Instruction.shift op .int).Answers pool [.int n, .int a]
      (Value.onInts op.operator a.toInt n.toInt) := by
  rw [ShiftOp.onInts_eq op a n rfl]
  exact .of_ok fun _ _ => rfl

theorem shift_long (op : ShiftOp) (a : Int64) (n : Int32) :
    (Instruction.shift op .long).Answers pool [.int n, .long a, .filler]
      (Value.onLongs op.operator a.toInt n.toInt) := by
  rw [ShiftOp.onLongs_eq op a n rfl]
  exact .of_ok fun _ _ => rfl

theorem bitwise_int (op : BitOp) (a b : Int32) : (Instruction.bitwise op .int).Answers pool [.int b, .int a]
      (Value.onInts op.operator a.toInt b.toInt) := by
  rw [BitOp.onInts_eq op a b]
  exact .of_ok fun _ _ => rfl

theorem bitwise_long (op : BitOp) (a b : Int64) :
    (Instruction.bitwise op .long).Answers pool [.long b, .filler, .long a, .filler]
      (Value.onLongs op.operator a.toInt b.toInt) := by
  rw [BitOp.onLongs_eq op a b]
  exact .of_ok fun _ _ => rfl

theorem bitwise_truth (op : BitOp) (a b : Bool) :
    (Instruction.bitwise op .int).Answers pool ((Value.bool b).words ++ (Value.bool a).words)
      (Value.binary op.operator (.bool a) (.bool b)) := by
  obtain ⟨c, hc, hWord⟩ := op.onTruths_eq a b
  rw [hc]
  refine .of_ok fun rest locals => ?_
  show op.effect .int ((Value.bool b).words ++ (Value.bool a).words ++ rest) locals = _
  simp [BitOp.effect, Value.words, hWord]

end Instruction.Answers

/-- An operator is one of arithmetic, a shift or bitwise. -/
theorem BinaryOp.operator_cases (op : BinaryOp) : (∃ o : ArithOp, op = o.operator) ∨ (∃ o : ShiftOp, op = o.operator) ∨
      ∃ o : BitOp, op = o.operator := by
  cases op
  · exact .inl ⟨.add, rfl⟩
  · exact .inl ⟨.sub, rfl⟩
  · exact .inl ⟨.mul, rfl⟩
  · exact .inl ⟨.div, rfl⟩
  · exact .inl ⟨.rem, rfl⟩
  · exact .inr (.inl ⟨.left, rfl⟩)
  · exact .inr (.inl ⟨.right, rfl⟩)
  · exact .inr (.inl ⟨.unsignedRight, rfl⟩)
  · exact .inr (.inr ⟨.and, rfl⟩)
  · exact .inr (.inr ⟨.or, rfl⟩)
  · exact .inr (.inr ⟨.xor, rfl⟩)

theorem ArithOp.not_shift (o : ArithOp) : o.operator.isShift = false := by cases o <;> rfl

theorem ShiftOp.is_shift (o : ShiftOp) : o.operator.isShift = true := by cases o <;> rfl

theorem BitOp.not_shift (o : BitOp) : o.operator.isShift = false := by cases o <;> rfl

theorem BinaryOp.Typed.truth_operator (h : op.Typed p q .boolean) : ∃ o : BitOp, op = o.operator := by
  cases h with
  | truths _ _ hOp => cases op <;> first | exact ⟨.and, rfl⟩ | exact ⟨.or, rfl⟩ | exact ⟨.xor, rfl⟩ | cases hOp

theorem BinaryOp.Typed.kind (h : op.Typed p q r) : r = .int ∨ r = .long ∨ r = .boolean := by
  cases h <;> simp

/-- The instruction of an operator computes it on operands of its type. -/
theorem BinaryOp.Typed.instruction (h : op.Typed p q r)
    (pool : ConstantPool) (ha : a.fits r) (hb : b.fits (op.rightType r)) {i : Instruction}
    (hi : Emit.binaryInstruction op (.prim r) = .ok i) :
    i.Answers pool (b.words ++ a.words) (Value.binary op a b) := by
  unfold rightType at hb
  rcases h.kind with rfl | rfl | rfl
  · obtain ⟨a, rfl⟩ := Value.eq_int ha rfl
    obtain ⟨b, rfl⟩ := Value.eq_int (by simpa using hb) rfl
    rcases op.operator_cases with ⟨o, rfl⟩ | ⟨o, rfl⟩ | ⟨o, rfl⟩
    · obtain rfl : Instruction.arith o .int = i := by cases o <;> exact Except.ok.inj hi
      exact .arith_int o a b
    · obtain rfl : Instruction.shift o .int = i := by cases o <;> exact Except.ok.inj hi
      exact .shift_int o a b
    · obtain rfl : Instruction.bitwise o .int = i := by cases o <;> exact Except.ok.inj hi
      exact .bitwise_int o a b
  · obtain ⟨a, rfl⟩ := Value.eq_long ha rfl
    rcases op.operator_cases with ⟨o, rfl⟩ | ⟨o, rfl⟩ | ⟨o, rfl⟩
    · rw [o.not_shift] at hb
      obtain ⟨b, rfl⟩ := Value.eq_long hb rfl
      obtain rfl : Instruction.arith o .long = i := by cases o <;> exact Except.ok.inj hi
      exact .arith_long o a b
    · rw [o.is_shift] at hb
      obtain ⟨b, rfl⟩ := Value.eq_int hb rfl
      obtain rfl : Instruction.shift o .long = i := by cases o <;> exact Except.ok.inj hi
      exact .shift_long o a b
    · rw [o.not_shift] at hb
      obtain ⟨b, rfl⟩ := Value.eq_long hb rfl
      obtain rfl : Instruction.bitwise o .long = i := by cases o <;> exact Except.ok.inj hi
      exact .bitwise_long o a b
  · obtain ⟨a, rfl⟩ := Value.eq_bool ha rfl
    obtain ⟨o, rfl⟩ := h.truth_operator
    rw [o.not_shift] at hb
    obtain ⟨b, rfl⟩ := Value.eq_bool hb rfl
    obtain rfl : Instruction.bitwise o .int = i := by cases o <;> exact Except.ok.inj hi
    exact .bitwise_truth o a b

theorem BinaryOp.Typed.result_fits (h : op.Typed p q r)
    {c : Value} (ha : a.fits p) (hb : b.fits q) (hc : Value.binary op a b = .ok c) : c.fits r := by
  cases h with
  | truths hp hq hOp =>
    obtain ⟨a, rfl⟩ := Value.eq_bool ha hp
    obtain ⟨b, rfl⟩ := Value.eq_bool hb hq
    cases op <;> cases hc <;> rfl
  | ints hp hq =>
    obtain ⟨a, rfl⟩ := Value.eq_int ha hp
    obtain ⟨b, rfl⟩ := Value.eq_int hb hq
    exact Value.onInts_fits hc
  | shiftedInt hp hq hOp =>
    obtain ⟨a, rfl⟩ := Value.eq_int ha hp
    obtain ⟨b, rfl⟩ := Value.eq_long hb hq
    rw [Value.binary, if_pos hOp] at hc
    exact Value.onInts_fits hc
  | widened hp hq hOp =>
    obtain ⟨a, rfl⟩ := Value.eq_int ha hp
    obtain ⟨b, rfl⟩ := Value.eq_long hb hq
    rw [Value.binary, hOp] at hc
    exact Value.onLongs_fits hc
  | longs hp hq =>
    obtain ⟨a, rfl⟩ := Value.eq_long ha hp
    rcases hq with hq | hq
    · obtain ⟨b, rfl⟩ := Value.eq_int hb hq
      exact Value.onLongs_fits hc
    · obtain ⟨b, rfl⟩ := Value.eq_long hb hq
      exact Value.onLongs_fits hc

/-! Unary operators. -/

theorem TypingContext.unaryType_discrete {op : UnaryOp} (hType : unaryType op (.prim p) = some t) (hp : p.isDiscrete) :
    t = .prim p.promoted ∧ (p.promoted = .int ∨ p.promoted = .long) := by
  rw [unaryType_promoted] at hType
  rcases Primitive.promoted_isDiscrete hp with h | h | h <;> rw [h] at hType <;> cases op <;>
    cases hType <;> exact ⟨by rw [h]; rfl, by simp [h]⟩

/-- A unary operator on 32 bits. -/
def UnaryOp.onInt : UnaryOp → Int32 → Int32
  | .neg, a => -a
  | .plus, a => a
  | .bitNot, a => ~~~a

/-- A unary operator on 64 bits. -/
def UnaryOp.onLong : UnaryOp → Int64 → Int64
  | .neg, a => -a
  | .plus, a => a
  | .bitNot, a => ~~~a

theorem Value.unary_int (op : UnaryOp) (a : Int32) : unary op (.int a) = .ok (.int (op.onInt a)) := by
  refine congrArg (fun v => Except.ok (Value.int v)) ?_
  cases op <;> simp [UnaryOp.onInt, Int32.not_eq_neg_add]

theorem Value.unary_long (op : UnaryOp) (a : Int64) : unary op (.long a) = .ok (.long (op.onLong a)) := by
  refine congrArg (fun v => Except.ok (Value.long v)) ?_
  cases op <;> simp [UnaryOp.onLong, Int64.not_eq_neg_add]

/-! Comparisons. -/

/-- Numbers are compared in the type in which they are added. -/
theorem JavaType.promotedWith?_discrete (hType : (JavaType.prim p).promotedWith? (.prim q) = some t) (hp : p.isDiscrete)
    (hq : q.isDiscrete) :
    ∃ r, t = .prim r ∧ BinaryOp.add.Typed p q r ∧ (r = .int ∨ r = .long) := by
  have hAdd : TypingContext.binaryType .add (.prim p) (.prim q) = some t := hType
  obtain ⟨r, rfl, hTyped⟩ := TypingContext.binaryType_discrete hAdd hp hq
  refine ⟨r, rfl, hTyped, ?_⟩
  cases hTyped with
  | truths _ _ hOp => cases hOp
  | ints _ _ | shiftedInt _ _ _ => exact .inl rfl
  | widened _ _ _ | longs _ _ => exact .inr rfl

/-- What can be compared without being promoted is a truth value. -/
theorem TypingContext.comparable_truths {ctx : TypingContext} {op : CompareOp}
    (hComparable : ctx.isComparable op (.prim p) (.prim q))
    (hPromoted : (JavaType.prim p).promotedWith? (.prim q) = none) :
    p = .boolean ∧ q = .boolean ∧ (op = .eq ∨ op = .ne) := by
  have hReference : ∀ p, (JavaType.prim p).isReference = false := fun _ => rfl
  simp only [isComparable, hReference, Bool.false_and, Bool.or_false, Bool.or_eq_true,
    Bool.and_eq_true, decide_eq_true_eq] at hComparable
  rcases hComparable with ⟨hp, hq⟩ | ⟨hOp, hp, hq⟩
  · cases p <;> first | (cases hp; done) | skip
    all_goals cases q <;> first | (cases hq; done) | cases hPromoted
  · exact ⟨by simpa [JavaType.isBoolean] using hp, by simpa [JavaType.isBoolean] using hq, hOp⟩

/-- A choice between numbers is a number, and one between truth values is a truth value. -/
theorem TypingContext.branchType_discrete {ctx : TypingContext}
    (hType : ctx.branchType (.prim p) (.prim q) = some t) (hp : p.isDiscrete) (hq : q.isDiscrete) :
    ∃ r, t = .prim r ∧ r.isDiscrete ∧ (p = .boolean ↔ r = .boolean) ∧ (q = .boolean ↔ r = .boolean) := by
  unfold branchType at hType
  split at hType
  · rename_i hSame
    cases hType
    cases hSame
    exact ⟨p, rfl, hp, .rfl, .rfl⟩
  · split at hType
    · obtain ⟨r, rfl, hTyped, _⟩ := JavaType.promotedWith?_discrete hType hp hq
      exact ⟨r, rfl, hTyped.isDiscrete, hTyped.left_truth, hTyped.right_truth⟩
    · cases hType

/-- What is compared as an `int` was one on the left. -/
theorem BinaryOp.Typed.left_int (h : op.Typed p q .int) : p.promoted = .int := by
  cases h <;> assumption

/-- Conversion to a wider type keeps the number. -/
theorem BinaryOp.Typed.compare_converted (h : BinaryOp.add.Typed p q r)
    (op : CompareOp) (ha : a.fits p) (hb : b.fits q) :
    ∃ a' b' m n, a.convert r = some a' ∧ b.convert r = some b' ∧ a'.number? = some m ∧
      b'.number? = some n ∧ Value.compare op a b = .ok (Value.related op m n) := by
  cases h with
  | truths _ _ hOp => cases hOp
  | shiftedInt _ _ hOp => cases hOp
  | ints hp hq =>
    obtain ⟨a, rfl⟩ := Value.eq_int ha hp
    obtain ⟨b, rfl⟩ := Value.eq_int hb hq
    exact ⟨_, _, _, _, Value.convert_of_fits rfl, Value.convert_of_fits rfl, rfl, rfl, rfl⟩
  | widened hp hq _ =>
    obtain ⟨a, rfl⟩ := Value.eq_int ha hp
    obtain ⟨b, rfl⟩ := Value.eq_long hb hq
    exact ⟨_, _, _, _, Value.convert_int_long a, Value.convert_of_fits rfl, rfl, rfl, by rw [Int32.toInt_toInt64]; rfl⟩
  | longs hp hq =>
    obtain ⟨a, rfl⟩ := Value.eq_long ha hp
    rcases hq with hq | hq
    · obtain ⟨b, rfl⟩ := Value.eq_int hb hq
      exact ⟨_, _, _, _, Value.convert_of_fits rfl, Value.convert_int_long b, rfl, rfl,
        by rw [Int32.toInt_toInt64]; rfl⟩
    · obtain ⟨b, rfl⟩ := Value.eq_long hb hq
      exact ⟨_, _, _, _, Value.convert_of_fits rfl, Value.convert_of_fits rfl, rfl, rfl, rfl⟩

end JavaFragment
