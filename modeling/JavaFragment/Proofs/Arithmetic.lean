import JavaFragment.Proofs.Carrying
/-!
The machine's arithmetic on words agrees with arithmetic on whole numbers that is cut down to the width
of the words.
-/
namespace JavaFragment

variable {w : Nat}

/-! Shifts of bit vectors. -/

theorem two_pow_eq (k : Nat) : Int.pow 2 k = ((Nat.pow 2 k : Nat) : Int) := by
  induction k with
  | zero => rfl
  | succ k ih =>
    show Int.pow 2 k * 2 = ((Nat.pow 2 k * 2 : Nat) : Int)
    rw [ih]
    omega

theorem shiftLeft_eq_ofInt (x : BitVec w) (k : Nat) : x <<< k = BitVec.ofInt w (x.toInt * Int.pow 2 k) := by
  have hPow : BitVec.twoPow w k = BitVec.ofNat w (Nat.pow 2 k) :=
    BitVec.eq_of_toNat_eq (by rw [BitVec.toNat_twoPow, BitVec.toNat_ofNat]; rfl)
  rw [two_pow_eq, BitVec.ofInt_mul, BitVec.ofInt_toInt, BitVec.ofInt_natCast, ← hPow, BitVec.shiftLeft_eq_mul_twoPow]

theorem sshiftRight_eq_ofInt (x : BitVec w) (k : Nat) : x.sshiftRight k = BitVec.ofInt w (x.toInt / Int.pow 2 k) := by
  rw [two_pow_eq]
  exact congrArg _ (Int.shiftRight_eq_div_pow _ _)

theorem toInt_emod_two_pow (x : BitVec w) : x.toInt % ((Nat.pow 2 w : Nat) : Int) = x.toNat := by
  rw [BitVec.toInt_eq_toNat_bmod]
  show Int.bmod _ (2 ^ w) % ((2 ^ w : Nat) : Int) = _
  rw [Int.bmod_emod]
  exact Int.emod_eq_of_lt (by omega) (by exact_mod_cast x.isLt)

theorem ushiftRight_eq_ofInt (x : BitVec w) (k : Nat) :
    x >>> k = BitVec.ofInt w (x.toInt % Int.pow 2 w / Int.pow 2 k) := by
  rw [two_pow_eq, two_pow_eq, toInt_emod_two_pow, ← Int.natCast_ediv, BitVec.ofInt_natCast]
  apply BitVec.eq_of_toNat_eq
  rw [BitVec.toNat_ushiftRight, BitVec.toNat_ofNat, Nat.shiftRight_eq_div_pow]
  exact (Nat.mod_eq_of_lt (Nat.lt_of_le_of_lt (Nat.div_le_self _ _) x.isLt)).symm

/-- The lowest five bits of a count. -/
theorem places_eq (n : Int32) : (n.toUInt32 &&& 31).toBitVec = BitVec.ofNat 32 (n.toInt % 32).toNat := by
  have hMod := toInt_emod_two_pow n.toBitVec
  have hNat : n.toBitVec.toInt = n.toInt := rfl
  rw [hNat, show Nat.pow 2 32 = 4294967296 from rfl] at hMod
  apply BitVec.eq_of_toNat_eq
  show (n.toBitVec &&& 31#32).toNat = _
  rw [BitVec.toNat_and, show (31#32).toNat = 2 ^ 5 - 1 from rfl, Nat.and_two_pow_sub_one_eq_mod, BitVec.toNat_ofNat]
  omega

/-- The lowest six bits of a count. -/
theorem longPlaces_eq (n : Int64) : (n.toUInt64 &&& 63).toBitVec = BitVec.ofNat 64 (n.toInt % 64).toNat := by
  have hMod := toInt_emod_two_pow n.toBitVec
  have hNat : n.toBitVec.toInt = n.toInt := rfl
  rw [hNat, show Nat.pow 2 64 = 18446744073709551616 from rfl] at hMod
  apply BitVec.eq_of_toNat_eq
  show (n.toBitVec &&& 63#64).toNat = _
  rw [BitVec.toNat_and, show (63#64).toNat = 2 ^ 6 - 1 from rfl, Nat.and_two_pow_sub_one_eq_mod, BitVec.toNat_ofNat]
  omega

theorem smod_places : ∀ k < 32, (BitVec.ofNat 32 k).smod 32 = BitVec.ofNat 32 k := by decide

theorem smod_longPlaces : ∀ k < 64, (BitVec.ofNat 64 k).smod 64 = BitVec.ofNat 64 k := by decide

/-- The operator of a shift. -/
def ShiftOp.operator : ShiftOp → BinaryOp
  | .left => .shl
  | .right => .shr
  | .unsignedRight => .ushr

/-- A shift of an `int`. Counts that agree modulo the width shift alike. -/
theorem ShiftOp.onInts_eq (op : ShiftOp) (a n : Int32) {count : Int} (hCount : count % 32 = n.toInt % 32) :
    Value.onInts op.operator a.toInt count = .ok (.int (op.onInt a n)) := by
  have hLt : (n.toInt % 32).toNat < 32 := by omega
  have hMod : (BitVec.ofNat 32 (n.toInt % 32).toNat % 32).toNat = (n.toInt % 32).toNat := by
    rw [BitVec.toNat_umod, BitVec.toNat_ofNat]
    show _ % 32 = _
    omega
  have hBits : ∀ x : Int32, x.toBitVec.toInt = x.toInt := fun _ => rfl
  cases op
  all_goals
    refine congrArg (fun v => Except.ok (Value.int v)) (Int32.toBitVec.inj ?_)
    simp only [Int32.toBitVec_ofInt, ShiftOp.onInt, UInt32.toBitVec_toInt32, Int.cast_ofNat_Int]
    rw [hCount]
  · rw [UInt32.toBitVec_shiftLeft, places_eq, Int32.toBitVec_toUInt32, BitVec.shiftLeft_eq', hMod,
      shiftLeft_eq_ofInt, hBits]
  · rw [Int32.toBitVec_shiftRight, UInt32.toBitVec_toInt32, places_eq, smod_places _ hLt,
      BitVec.sshiftRight_eq', sshiftRight_eq_ofInt, hBits, BitVec.toNat_ofNat,
      Nat.mod_eq_of_lt (by omega)]
  · rw [UInt32.toBitVec_shiftRight, places_eq, Int32.toBitVec_toUInt32, BitVec.ushiftRight_eq', hMod,
      ushiftRight_eq_ofInt, hBits]

/-- A shift of a `long`. -/
theorem ShiftOp.onLongs_eq (op : ShiftOp) (a : Int64) (n : Int32) {count : Int} (hCount : count % 64 = n.toInt % 64) :
    Value.onLongs op.operator a.toInt count = .ok (.long (op.onLong a n)) := by
  have hLt : (n.toInt % 64).toNat < 64 := by omega
  have hMod : (BitVec.ofNat 64 (n.toInt % 64).toNat % 64).toNat = (n.toInt % 64).toNat := by
    rw [BitVec.toNat_umod, BitVec.toNat_ofNat]
    show _ % 64 = _
    omega
  have hBits : ∀ x : Int64, x.toBitVec.toInt = x.toInt := fun _ => rfl
  cases op
  all_goals
    refine congrArg (fun v => Except.ok (Value.long v)) (Int64.toBitVec.inj ?_)
    simp only [Int64.toBitVec_ofInt, ShiftOp.onLong, UInt64.toBitVec_toInt64, Int.cast_ofNat_Int]
    rw [hCount]
  · rw [UInt64.toBitVec_shiftLeft, longPlaces_eq, Int32.toInt_toInt64, Int64.toBitVec_toUInt64, BitVec.shiftLeft_eq', hMod,
      shiftLeft_eq_ofInt, hBits]
  · rw [Int64.toBitVec_shiftRight, UInt64.toBitVec_toInt64, longPlaces_eq, Int32.toInt_toInt64, smod_longPlaces _ hLt,
      BitVec.sshiftRight_eq', sshiftRight_eq_ofInt, hBits, BitVec.toNat_ofNat,
      Nat.mod_eq_of_lt (by omega)]
  · rw [UInt64.toBitVec_shiftRight, longPlaces_eq, Int32.toInt_toInt64, Int64.toBitVec_toUInt64, BitVec.ushiftRight_eq',
      hMod, ushiftRight_eq_ofInt, hBits]

/-! Arithmetic and bits. -/

/-- The operator of an arithmetic instruction. -/
def ArithOp.operator : ArithOp → BinaryOp
  | .add => .add
  | .sub => .sub
  | .mul => .mul
  | .div => .div
  | .rem => .rem

/-- An operation on `int`, which has no value only if it divides by zero. -/
theorem ArithOp.onInts_eq (op : ArithOp) (a b : Int32) : Value.onInts op.operator a.toInt b.toInt =
      match op.onInts a b with
      | some c => .ok (.int c)
      | none => .error .divisionByZero := by
  have hZero : b.toInt = 0 ↔ b = 0 := by rw [← Int32.toInt_inj]; rfl
  cases op with
  | add | sub | mul => simp [Value.onInts, operator, BinaryOp.exact, onInts, Except.map]
  | div =>
    have hDiv : Int32.ofInt (a.toInt.tdiv b.toInt) = a / b := Int32.toInt_inj.1 (by simp)
    by_cases hb : b = 0 <;>
      simp [Value.onInts, operator, BinaryOp.exact, onInts, Except.map, hZero, hb, hDiv]
  | rem =>
    have hMod : Int32.ofInt (a.toInt.tmod b.toInt) = a % b := by rw [← Int32.toInt_mod, Int32.ofInt_toInt]
    by_cases hb : b = 0 <;>
      simp [Value.onInts, operator, BinaryOp.exact, onInts, Except.map, hZero, hb, hMod]

/-- An operation on `long`. -/
theorem ArithOp.onLongs_eq (op : ArithOp) (a b : Int64) : Value.onLongs op.operator a.toInt b.toInt =
      match op.onLongs a b with
      | some c => .ok (.long c)
      | none => .error .divisionByZero := by
  have hZero : b.toInt = 0 ↔ b = 0 := by rw [← Int64.toInt_inj]; rfl
  cases op with
  | add | sub | mul => simp [Value.onLongs, operator, BinaryOp.exact, onLongs, Except.map]
  | div =>
    have hDiv : Int64.ofInt (a.toInt.tdiv b.toInt) = a / b := Int64.toInt_inj.1 (by simp)
    by_cases hb : b = 0 <;>
      simp [Value.onLongs, operator, BinaryOp.exact, onLongs, Except.map, hZero, hb, hDiv]
  | rem =>
    have hMod : Int64.ofInt (a.toInt.tmod b.toInt) = a % b := by rw [← Int64.toInt_mod, Int64.ofInt_toInt]
    by_cases hb : b = 0 <;>
      simp [Value.onLongs, operator, BinaryOp.exact, onLongs, Except.map, hZero, hb, hMod]

/-- The operator of a bitwise instruction. -/
def BitOp.operator : BitOp → BinaryOp
  | .and => .bitAnd
  | .or => .bitOr
  | .xor => .bitXor

theorem BitOp.onInts_eq (op : BitOp) (a b : Int32) :
    Value.onInts op.operator a.toInt b.toInt = .ok (.int (op.onInts a b)) := by
  have hBits : ∀ x : Int32, BitVec.ofInt 32 x.toInt = x.toBitVec := fun x => BitVec.ofInt_toInt
  cases op <;>
    exact congrArg (fun v => Except.ok (Value.int v))
      (Int32.toBitVec.inj (by rw [Int32.toBitVec_ofInt, BitVec.ofInt_toInt, hBits, hBits]; rfl))

theorem BitOp.onLongs_eq (op : BitOp) (a b : Int64) :
    Value.onLongs op.operator a.toInt b.toInt = .ok (.long (op.onLongs a b)) := by
  have hBits : ∀ x : Int64, BitVec.ofInt 64 x.toInt = x.toBitVec := fun x => BitVec.ofInt_toInt
  cases op <;>
    exact congrArg (fun v => Except.ok (Value.long v))
      (Int64.toBitVec.inj (by rw [Int64.toBitVec_ofInt, BitVec.ofInt_toInt, hBits, hBits]; rfl))

/-- Truth values are the numbers one and zero, on which the bitwise instructions work as on truth
values. -/
theorem BitOp.onTruths_eq (op : BitOp) (a b : Bool) :
    ∃ c, Value.binary op.operator (.bool a) (.bool b) = .ok (.bool c) ∧
      op.onInts (if a then 1 else 0) (if b then 1 else 0) = if c then 1 else 0 := by
  cases op <;> cases a <;> cases b <;> exact ⟨_, rfl, rfl⟩

/-! Conversions. -/

theorem toInt_bmod_range (n : Int) {m : Nat} (hPos : 0 < m) (hm : m ≤ 4294967296) :
    (Int32.ofInt (n.bmod m)).toInt = n.bmod m ∧ -(m / 2 : Int) ≤ n.bmod m ∧ n.bmod m < ((m : Int) + 1) / 2 := by
  have hLow := Int.le_bmod (x := n) hPos
  have hHigh := Int.bmod_lt (x := n) hPos
  exact ⟨Int32.toInt_ofInt_of_le (by omega) (by omega), hLow, hHigh⟩

theorem toInt_emod_range (n : Int) : (Int32.ofInt (n % 65536)).toInt = n % 65536 :=
  Int32.toInt_ofInt_of_le (by omega) (by omega)

namespace Value

variable {p : Primitive}

theorem convert_fits {v w : Value} (h : v.convert p = some w) : w.fits p := by
  cases p with
  | boolean =>
    cases v with
    | bool b => cases h; rfl
    | int a => cases h
    | long a => cases h
  | byte =>
    obtain ⟨n, -, rfl⟩ := Option.map_eq_some_iff.1 h
    obtain ⟨hSame, _, _⟩ := toInt_bmod_range n (m := 256) (by omega) (by omega)
    simp only [fits, hSame, Bool.and_eq_true, decide_eq_true_eq]
    omega
  | short =>
    obtain ⟨n, -, rfl⟩ := Option.map_eq_some_iff.1 h
    obtain ⟨hSame, _, _⟩ := toInt_bmod_range n (m := 65536) (by omega) (by omega)
    simp only [fits, hSame, Bool.and_eq_true, decide_eq_true_eq]
    omega
  | char =>
    obtain ⟨n, -, rfl⟩ := Option.map_eq_some_iff.1 h
    simp only [fits, toInt_emod_range, Bool.and_eq_true, decide_eq_true_eq]
    omega
  | int | long =>
    obtain ⟨n, -, rfl⟩ := Option.map_eq_some_iff.1 h
    rfl
  | void | float | double => cases h

/-- A value that lies in the range of a type is not changed by a conversion to it. -/
theorem convert_of_fits {v : Value} (h : v.fits p) : v.convert p = some v := by
  cases v with
  | bool b => cases p <;> first | rfl | cases h
  | long a => cases p <;> first | (simp [convert, number?]; done) | cases h
  | int a =>
    cases p with
    | byte =>
      simp only [fits, Bool.and_eq_true, decide_eq_true_eq] at h
      have hSame : a.toInt.bmod 256 = a.toInt := Int.bmod_eq_of_le (by omega) (by omega)
      simp [convert, number?, hSame]
    | short =>
      simp only [fits, Bool.and_eq_true, decide_eq_true_eq] at h
      have hSame : a.toInt.bmod 65536 = a.toInt := Int.bmod_eq_of_le (by omega) (by omega)
      simp [convert, number?, hSame]
    | char =>
      simp only [fits, Bool.and_eq_true, decide_eq_true_eq] at h
      have hSame : a.toInt % 65536 = a.toInt := Int.emod_eq_of_lt (by omega) (by omega)
      simp [convert, number?, hSame]
    | int => simp [convert, number?]
    | _ => cases h

/-- A conversion goes through `int` unless it leads to `long`. -/
theorem convert_through_int (a : Int64) (hp : p ≠ .long) :
    (Value.int a.toInt32).convert p = (Value.long a).convert p := by
  have hInt : a.toInt32.toInt = a.toInt.bmod 4294967296 := Int64.toInt_toInt32 a
  cases p with
  | long => exact (hp rfl).elim
  | byte =>
    have hSame : a.toInt32.toInt.bmod 256 = a.toInt.bmod 256 := by
      rw [hInt]
      exact Int.bmod_bmod_of_dvd (by decide)
    exact congrArg (fun n => some (Value.int (Int32.ofInt n))) hSame
  | short =>
    have hSame : a.toInt32.toInt.bmod 65536 = a.toInt.bmod 65536 := by
      rw [hInt]
      exact Int.bmod_bmod_of_dvd (by decide)
    exact congrArg (fun n => some (Value.int (Int32.ofInt n))) hSame
  | char =>
    have hSame : a.toInt32.toInt % 65536 = a.toInt % 65536 := by
      rw [hInt, ← Int.emod_emod_of_dvd _ (show (65536 : Int) ∣ ((4294967296 : Nat) : Int) by decide),
        Int.bmod_emod, Int.emod_emod_of_dvd _ (by decide)]
    exact congrArg (fun n => some (Value.int (Int32.ofInt n))) hSame
  | int => exact congrArg (fun v => some (Value.int v)) (Int32.ofInt_toInt _)
  | boolean | void | float | double => rfl

end Value

namespace Conversion

variable {a : Int32} {w : Value}

/-- An instruction takes one value to another, whatever lies below. -/
def Takes (c : Conversion) (v w : Value) : Prop :=
  ∀ rest locals, c.effect (v.words ++ rest) locals = .done (w.words ++ rest) locals

theorem toByte_eq (a : Int32) : a.toInt8.toInt32 = Int32.ofInt (a.toInt.bmod 256) := by
  rw [← Int32.ofInt_int8ToInt, Int32.toInt_toInt8]

theorem toShort_eq (a : Int32) : a.toInt16.toInt32 = Int32.ofInt (a.toInt.bmod 65536) := by
  rw [← Int32.ofInt_int16ToInt, Int32.toInt_toInt16]

theorem toChar_eq (a : Int32) : a.toUInt32.toUInt16.toUInt32.toInt32 = Int32.ofInt (a.toInt % 65536) := by
  have hMod := toInt_emod_two_pow a.toBitVec
  have hNat : a.toBitVec.toInt = a.toInt := rfl
  rw [hNat, show Nat.pow 2 32 = 4294967296 from rfl] at hMod
  have hBits : a.toUInt32.toUInt16.toUInt32.toInt32.toBitVec = (a.toBitVec.setWidth 16).setWidth 32 := rfl
  apply Int32.toBitVec.inj
  apply BitVec.eq_of_toNat_eq
  rw [hBits, Int32.toBitVec_ofInt, BitVec.toNat_ofInt, BitVec.toNat_setWidth, BitVec.toNat_setWidth]
  omega

theorem intToByte_takes (h : (Value.int a).convert .byte = some w) : intToByte.Takes (.int a) w := by
  obtain rfl : Value.int a.toInt8.toInt32 = w := by simpa [Value.convert, Value.number?, ← toByte_eq] using h
  exact fun _ _ => rfl

theorem intToShort_takes (h : (Value.int a).convert .short = some w) : intToShort.Takes (.int a) w := by
  obtain rfl : Value.int a.toInt16.toInt32 = w := by simpa [Value.convert, Value.number?, ← toShort_eq] using h
  exact fun _ _ => rfl

theorem intToChar_takes (h : (Value.int a).convert .char = some w) : intToChar.Takes (.int a) w := by
  obtain rfl : Value.int a.toUInt32.toUInt16.toUInt32.toInt32 = w := by
    simpa [Value.convert, Value.number?, ← toChar_eq] using h
  exact fun _ _ => rfl

theorem intToLong_takes (h : (Value.int a).convert .long = some w) : intToLong.Takes (.int a) w := by
  obtain rfl : Value.long a.toInt64 = w := by simpa [Value.convert, Value.number?] using h
  exact fun _ _ => rfl

theorem longToInt_takes (a : Int64) : longToInt.Takes (.long a) (.int a.toInt32) := fun _ _ => rfl

/-- Instructions take one value to another, one after the other. -/
def TakeAll : List Conversion → Value → Value → Prop
  | [], v, w => v = w
  | c :: rest, v, w => ∃ u, c.Takes v u ∧ TakeAll rest u w

/-- The instructions that convert between two types have the conversion as their effect. -/
theorem takeAll_conversions {p q : Primitive} (hq : q.isDiscrete)
    (hTruth : p = .boolean ↔ q = .boolean) {v : Value} (hFits : v.fits p) :
    ∃ w, v.convert q = some w ∧ TakeAll ((BaseType.primitive p).conversions (.primitive q)) v w := by
  -- Where no instruction is needed, the value lies in the range of the target.
  have hSame (hIn : v.fits q) (hNone : (BaseType.primitive p).conversions (.primitive q) = []) :
      ∃ w, v.convert q = some w ∧ TakeAll ((BaseType.primitive p).conversions (.primitive q)) v w :=
    ⟨v, Value.convert_of_fits hIn, by rw [hNone]; rfl⟩
  cases v with
  | bool b =>
    obtain rfl : p = .boolean := by cases p <;> first | rfl | cases hFits
    obtain rfl := hTruth.1 rfl
    exact hSame rfl rfl
  | long a =>
    obtain rfl : p = .long := by cases p <;> first | rfl | cases hFits
    have hInt : ∀ {c w}, c.Takes (.int a.toInt32) w → TakeAll [.longToInt, c] (.long a) w :=
      fun h => ⟨_, longToInt_takes a, _, h, rfl⟩
    cases q with
    | boolean => cases hTruth.2 rfl
    | byte => exact ⟨_, (Value.convert_through_int a (by decide)).symm, hInt (intToByte_takes rfl)⟩
    | short => exact ⟨_, (Value.convert_through_int a (by decide)).symm, hInt (intToShort_takes rfl)⟩
    | char => exact ⟨_, (Value.convert_through_int a (by decide)).symm, hInt (intToChar_takes rfl)⟩
    | int => exact ⟨_, rfl, _, longToInt_takes a, rfl⟩
    | long => exact hSame rfl rfl
    | void | float | double => cases hq
  | int a =>
    cases q with
    | boolean =>
      cases hTruth.2 rfl
      cases hFits
    | byte =>
      cases p with
      | byte => exact hSame hFits rfl
      | char | short | int => exact ⟨_, rfl, _, intToByte_takes rfl, rfl⟩
      | _ => cases hFits
    | short =>
      cases p with
      | byte =>
        refine hSame ?_ rfl
        simp only [Value.fits, Bool.and_eq_true, decide_eq_true_eq] at hFits ⊢
        omega
      | short => exact hSame hFits rfl
      | char | int => exact ⟨_, rfl, _, intToShort_takes rfl, rfl⟩
      | _ => cases hFits
    | char =>
      cases p with
      | char => exact hSame hFits rfl
      | byte | short | int => exact ⟨_, rfl, _, intToChar_takes rfl, rfl⟩
      | _ => cases hFits
    | int =>
      cases p with
      | byte | char | short | int => exact hSame rfl rfl
      | _ => cases hFits
    | long =>
      cases p with
      | byte | char | short | int => exact ⟨_, rfl, _, intToLong_takes rfl, rfl⟩
      | _ => cases hFits
    | void | float | double => cases hq

end Conversion

/-! Comparisons. -/

/-- The relation that a comparison tests. -/
theorem Relation.holds_eq (op : CompareOp) (a b : Int32) :
    (Emit.relation op).holds a b = Value.related op a.toInt b.toInt := by
  cases op <;>
    simp [Emit.relation, holds, Value.related, ← Int32.toInt_inj, Int32.lt_iff_toInt_lt,
      Int32.le_iff_toInt_le, bne, BEq.beq]

/-- A three-way comparison with a test against zero compares two numbers. -/
theorem compareLongs_eq (op : CompareOp) (a b : Int64) :
    (Emit.relation op).holds (compareLongs a b) 0 = Value.related op a.toInt b.toInt := by
  rw [Relation.holds_eq, compareLongs, show (0 : Int32).toInt = 0 from rfl]
  simp only [Int64.lt_iff_toInt_lt, ← Int64.toInt_inj]
  rcases Int.lt_trichotomy a.toInt b.toInt with hLt | hEq | hGt
  · rw [if_pos hLt, show (-1 : Int32).toInt = -1 from rfl, Bool.eq_iff_iff]
    cases op <;> simp [Value.related] <;> omega
  · rw [if_neg (by omega), if_pos hEq, show (0 : Int32).toInt = 0 from rfl, Bool.eq_iff_iff]
    cases op <;> simp [Value.related] <;> omega
  · rw [if_neg (by omega), if_neg (by omega), show (1 : Int32).toInt = 1 from rfl, Bool.eq_iff_iff]
    cases op <;> simp [Value.related] <;> omega

theorem CompareOp.related_negate (op : CompareOp) (a b : Int) :
    Value.related op.negate a b = !Value.related op a b := by
  cases op <;> simp only [negate, Value.related] <;> rw [Bool.eq_iff_iff] <;> simp

end JavaFragment
