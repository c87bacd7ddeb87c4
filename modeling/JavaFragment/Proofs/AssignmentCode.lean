import JavaFragment.Proofs.OperatorCode
/-!
The code of assignments to variables carries out their evaluation.
-/
namespace JavaFragment

open Emit Evaluation

namespace ExprCode

variable {α : Type} {n : Nat} {slot : UInt16} {k p : Primitive} {code : ExprCode} {value : Expr} {op : BinaryOp}

-- The code of a step is a long sequence.
set_option synthInstance.maxSize 2048

variable {types : Nat → Primitive} {z : EmitState} {ctx : TypingContext} {v : Variable}

/-- What is emitted for an assignment is added to the code, whatever its place is. -/
theorem assign_extending (ctx : TypingContext) (op : Option BinaryOp) (value : Expr) {code : Emit JavaType}
    {codeAs : JavaType → Emit Unit} (wanted : Bool) (hCode : Growing (some fun n => .prim (types n)) code)
    (hCodeAs : ∀ type, Extending (codeAs type)) (l : Location) :
    Extending (Emit.assign ctx op (pure l) value code codeAs wanted) := by
  unfold Emit.assign
  rw [pure_bind]
  dsimp only
  have hCompound op l := (Law.Holds.compound (L := growth ctx _) op False.elim value hCode (l := l)).extending
  split <;> infer_instance

theorem step_extending (ctx : TypingContext) (increases before : Bool) (target : Expr) (wanted : Bool)
    (l : Location) : Extending (step ctx increases before (pure l) target wanted) := by
  unfold step
  rw [pure_bind]
  dsimp only
  split
  · infer_instance
  · split <;> infer_instance

/-- What is emitted for a variable as a place. -/
theorem atLocal_does {β : Type} (hv : ctx.Knows types z v) {f : Location → Emit α} {taken : List Word}
    {ev : Evaluation β} {push : β → List Word} {post : α → β → Prop}
    (hRest : ∀ l, Extending (f l)) (hf : ∀ slot, z.slot? v.number = some slot →
      Does types z (f (.local slot (.prim (types v.number)))) taken ev push post) :
    Does types z ((ExprCode.ofVariable ctx v).location >>= f) taken ev push post := by
  simp only [ofVariable, ofLocation, bind_assoc, pure_bind]
  refine .lift fun type hType => ?_
  rw [hv.type] at hType
  cases hType
  exact .withSlot hv.number hf

/-- The value on the stack is stored, and kept if it is wanted. -/
theorem keepAndStore_does (hz : z.Sound types) (hSlot : z.slot? n = some slot)
    {w : Value} (hFits : w.fits (types n)) (wanted : Bool) (result : JavaType) :
    Does types z (do
        let l := Location.local slot (.prim (types n))
        if wanted then l.keepValue
        l.store ctx
        return result) w.words
      (write n w >>= fun _ => pure w) (fun r => if wanted then r.words else [])
      (fun t r => t = result ∧ r.fits (types n)) := by
  cases wanted with
  | true =>
    have hStore : Does types z (Location.store ctx (.local slot (.prim (types n)))) (w.words ++ w.words)
        (write n w) (fun _ => [] ++ w.words) fun _ _ => True := (Does.store hz hSlot hFits).above _
    refine .andThen (.keepValue hFits slot) fun _ _ => ?_
    refine .bind hStore fun _ _ _ => ?_
    exact .nothing rfl ⟨rfl, hFits⟩
  | false =>
    refine .bind (.store hz hSlot hFits) fun _ _ _ => ?_
    exact .nothing rfl ⟨rfl, hFits⟩

/-- The result of an assignment whose value is wanted. -/
theorem wanted_result {wanted : Bool} (t : JavaType) (r : Value)
    (h : t = (if wanted then .prim p else .void) ∧ r.fits p) (hWanted : wanted) :
    t = .prim p ∧ r.fits p := by
  rw [if_pos hWanted] at h
  exact h

theorem assign_eq (hv : ctx.Knows types z v) (x : Value) :
    Evaluation.assign ctx v x = expect .illTyped (x.convert (types v.number)) >>= fun w =>
      write v.number w >>= fun _ => pure w := by
  rw [Evaluation.assign, hv.type]
  rfl

theorem eval_assign (hv : ctx.Knows types z v) (value : Expr) : eval ctx (.assign none (.var v) value) =
      (eval ctx value >>= fun x => expect .illTyped (x.convert (types v.number))) >>= fun w =>
        write v.number w >>= fun _ => pure w := by
  rw [eval, bind_assoc]
  exact congrArg _ (funext fun x => assign_eq hv x)

theorem Evaluates.ofAssign (hz : z.Sound types) (hv : ctx.Knows types z v) (hCode : code.Evaluates types z ctx value p)
    (hTruth : p = .boolean ↔ types v.number = .boolean)
    (hLiteral : ∀ a kind, value = .int a kind → (JavaType.prim (types v.number)).isIntFamily →
      (Value.int a.toInt32).fits (types v.number))
    (hKnown : Foreseen ctx (.assign none (.var v) value)) :
    (ofAssign ctx none (.var v) value (ExprCode.ofVariable ctx v) code).Evaluates types z ctx
      (.assign none (.var v) value) (types v.number) := by
  have hLocation := (Grows.ofVariable hv.agrees).location
  have hExtends type := (hCode.grows.valueAs type).extending
  refine .ofEffect hKnown (fun wanted =>
    Law.Holds.assign (L := growth ctx _) none value wanted hLocation hCode.grows.value hCode.grows.valueAs)
    fun wanted => ?_
  refine atLocal_does hv (assign_extending ctx none value wanted hCode.grows.value hExtends) fun slot hSlot => ?_
  rw [eval_assign hv]
  exact .bind (hCode.valueAs _ hv.discrete hTruth hLiteral) fun _ w hFits =>
    (keepAndStore_does hz hSlot hFits wanted _).mono wanted_result

/-! Compound assignments. -/

theorem compound_does (hv : ctx.Knows types z v) (hSlot : z.slot? v.number = some slot) {q : Primitive}
    (hCode : code.Evaluates types z ctx value q)
    (hValue : ctx.typeOf value = .ok (.prim q))
    (hType : TypingContext.binaryType op (.prim (types v.number)) (.prim q) = some (.prim k))
    (hTyped : op.Typed (types v.number) q k) :
    Does types z (Emit.compound ctx op (.local slot (.prim (types v.number))) value code.value) []
      (read v.number >>= fun old => eval ctx value >>= fun b => answer (Value.binary op old b) >>=
        fun c => expect .illTyped (c.convert (types v.number)))
      Value.words (fun _ w => w.fits (types v.number)) := by
  have hString : (op = .add && (JavaType.prim (types v.number)).isString) = false := Bool.and_false _
  have hWords : (Location.local slot (.prim (types v.number))).copyWords = pure () := rfl
  simp only [Emit.compound, Location.type, hString, hWords, pure_bind, Bool.false_eq_true, if_false]
  have := hCode.extending
  refine @Does.bind _ _ _ _ _ _ _ _ _ _ _ _ _ _ _ _
    (fun _ => @Extending.bind _ _ _ _ _ fun source => ?_) (.load hSlot) fun _ old hOld => ?_
  · split <;> infer_instance
  · refine .lift fun source hSource => ?_
    rw [hValue] at hSource
    cases hSource
    rw [hType]
    refine operate_does hTyped hOld hCode.value fun c hc => ?_
    obtain ⟨w, hConvert, -⟩ := Conversion.takeAll_conversions hv.discrete hTyped.left_truth.symm hc
    rw [hConvert]
    exact (Does.coerce hv.discrete hTyped.left_truth.symm hc hConvert).mono fun _ _ hSame =>
      hSame ▸ Value.convert_fits hConvert

/-- A compound assignment to a variable, by its operator. -/
theorem eval_compound (hv : ctx.Knows types z v) (op : BinaryOp) (value : Expr) :
    eval ctx (.assign (some op) (.var v) value) =
      (read v.number >>= fun old => eval ctx value >>= fun b => answer (Value.binary op old b) >>=
        fun c => expect .illTyped (c.convert (types v.number))) >>= fun w => write v.number w >>= fun _ => pure w := by
  simp only [eval, bind_assoc]
  congr 1; funext old; congr 1; funext b; congr 1; funext c
  exact assign_eq hv c

/-! Additions in one instruction. -/

/-- What an `int` variable is after an addition. -/
def increased (n : Nat) (amount : Int32) : Evaluation Value := increase n amount >>= fun a => pure (.int (a + amount))

/-- What is read decides what follows. -/
theorem read_bind (n : Nat) (f : Value → Evaluation α) (σ : Store) : (read n >>= f) σ = match σ n with
      | some v => f v σ
      | none => .error .unassigned σ := by
  show (expect .unassigned (σ n) >>= f) σ = _
  cases σ n <;> rfl

theorem write_read (n : Nat) (w : Value) : (write n w >>= fun _ => read n) = write n w >>= fun _ => pure w := by
  funext σ
  show expect .unassigned (if n = n then some w else σ n) _ = _
  rw [if_pos rfl]
  rfl

/-- Two ways to go on from what is read agree if they do so for the values in range. -/
theorem read_congr {f g : Value → Evaluation α} {σ : Store} (hInt : types n = .int)
    (hFits : ∀ n v, σ n = some v → v.fits (types n))
    (hSame : ∀ a, σ n = some (.int a) → f (.int a) σ = g (.int a) σ) :
    (read n >>= f) σ = (read n >>= g) σ := by
  rw [read_bind, read_bind]
  cases hOld : σ n with
  | none => rfl
  | some v =>
    obtain ⟨a, rfl⟩ := Value.eq_int (hFits n v hOld) (by rw [hInt]; rfl)
    exact hSame a hOld

theorem increment_does (hz : z.Sound types) (hSlot : z.slot? n = some slot)
    (hInt : types n = .int) (amount : Int16) (wanted : Bool) (result : JavaType) :
    Does types z (do
        increment slot amount
        if wanted then load (.prim (types n)) slot
        return result) []
      (increased n amount.toInt32) (fun r => if wanted then r.words else [])
      (fun t r => t = result ∧ r.fits (types n)) := by
  cases wanted with
  | true =>
    have hLoad : Does types z (increment slot amount >>= fun _ =>
        load (.prim (types n)) slot >>= fun _ => pure result) []
        (increase n amount.toInt32 >>= fun _ => read n) Value.words
        (fun t r => t = result ∧ r.fits (types n)) :=
      .bind (.increment hz hSlot hInt amount) fun _ _ _ => (Does.load hSlot).andReturn fun _ _ hFits => ⟨rfl, hFits⟩
    refine hLoad.congr fun σ hFits => ?_
    simp only [increased, increase, bind_assoc]
    refine read_congr hInt hFits fun a hOld => ?_
    simp only [bind_assoc, pure_bind, write_read]
  | false =>
    refine .bind (.increment hz hSlot hInt amount) fun _ a _ => ?_
    exact .nothing rfl ⟨rfl, by rw [hInt]; rfl⟩

/-- A compound assignment that is done in one instruction adds a literal. -/
theorem incrementAmount?_eq_some {type : JavaType} {amount : Int16} (h : incrementAmount? op type value = some amount) :
    type = .int ∧ ∃ a kind, value = .int a kind ∧ ∀ n, op.exact 32 n a.toInt32.toInt = .ok (n + amount.toInt) := by
  have hAmount {n : Int} (h : incrementAmount?.amount type n = some amount) :
      type = .int ∧ amount.toInt = n ∧ -32768 ≤ n ∧ n < 32768 := by
    unfold incrementAmount?.amount at h
    split at h
    · next hRange =>
      cases h
      exact ⟨hRange.1, Int16.toInt_ofInt_of_le hRange.2.1 hRange.2.2, hRange.2⟩
    · cases h
  have hSmall {a : Int64} (hLow : -32768 ≤ a.toInt) (hHigh : a.toInt ≤ 32768) : a.toInt32.toInt = a.toInt := by
    rw [Int64.toInt_toInt32]
    exact Int.bmod_eq_of_le (by omega) (by omega)
  unfold incrementAmount? at h
  split at h
  · obtain ⟨rfl, hSame, hLow, hHigh⟩ := hAmount h
    refine ⟨rfl, _, _, rfl, fun n => ?_⟩
    rw [hSame, hSmall hLow (by omega)]
    rfl
  · obtain ⟨rfl, hSame, hLow, hHigh⟩ := hAmount h
    refine ⟨rfl, _, _, rfl, fun n => ?_⟩
    rw [hSame, hSmall (by omega) (by omega), ← Int.sub_eq_add_neg]
    rfl
  · cases h

theorem assign_increased (hv : ctx.Knows types z v) (hInt : types v.number = .int)
    {b amount : Int32} (hAmount : ∀ n, op.exact 32 n b.toInt = .ok (n + amount.toInt)) (a : Int32) :
    (answer (Value.binary op (.int a) (.int b)) >>= Evaluation.assign ctx v) =
      write v.number (.int (a + amount)) >>= fun _ => pure (.int (a + amount)) := by
  have hSum : Value.binary op (.int a) (.int b) = .ok (.int (a + amount)) := by
    show (op.exact 32 a.toInt b.toInt).map _ = _
    rw [hAmount]
    show Except.ok (Value.int (Int32.ofInt (a.toInt + amount.toInt))) = _
    rw [Int32.ofInt_add, Int32.ofInt_toInt, Int32.ofInt_toInt]
  rw [hSum]
  show Evaluation.assign ctx v _ = _
  rw [assign_eq hv, hInt, Value.convert_of_fits rfl]
  rfl

theorem Evaluates.ofCompound (hz : z.Sound types) (hv : ctx.Knows types z v) {q : Primitive}
    (hCode : code.Evaluates types z ctx value q)
    (hValue : ctx.typeOf value = .ok (.prim q))
    (hType : TypingContext.binaryType op (.prim (types v.number)) (.prim q) = some (.prim k))
    (hTyped : op.Typed (types v.number) q k) (hKnown : Foreseen ctx (.assign (some op) (.var v) value)) :
    (ExprCode.ofAssign ctx (some op) (.var v) value (ExprCode.ofVariable ctx v) code).Evaluates types z ctx
      (.assign (some op) (.var v) value) (types v.number) := by
  have hLocation := (Grows.ofVariable hv.agrees).location
  refine .ofEffect hKnown (fun wanted =>
    Law.Holds.assign (L := growth ctx _) (some op) value wanted hLocation hCode.grows.value hCode.grows.valueAs)
    fun wanted => ?_
  refine atLocal_does hv (assign_extending ctx (some op) value wanted hCode.grows.value
    fun type => (hCode.grows.valueAs type).extending) fun slot hSlot => ?_
  cases hAmount : incrementAmount? op (.prim (types v.number)) value with
  | none =>
    simp only [Option.bind_some, Location.type, hAmount]
    rw [eval_compound hv]
    have hExtends l := (Law.Holds.compound (L := growth ctx _) op False.elim value hCode.grows.value (l := l)).extending
    exact .bind (compound_does hv hSlot hCode hValue hType hTyped)
      fun _ w hFits => (keepAndStore_does hz hSlot hFits wanted _).mono wanted_result
  | some amount =>
    obtain ⟨hInt, a, kind, rfl, hExact⟩ := incrementAmount?_eq_some hAmount
    have hInt : types v.number = .int := JavaType.prim_inj hInt
    simp only [Option.bind_some, Location.type, hAmount]
    refine ((increment_does hz hSlot hInt amount wanted _).congr fun σ hFits => ?_).mono wanted_result
    have hExact' (n : Int) : op.exact 32 n a.toInt32.toInt = .ok (n + amount.toInt32.toInt) := by
      rw [Int16.toInt_toInt32]
      exact hExact n
    simp only [eval, pure_bind, increased, increase, bind_assoc]
    refine read_congr hInt hFits fun b _ => ?_
    simp only [assign_increased hv hInt hExact', bind_assoc, pure_bind]

/-! Steps up and down. -/

/-- The operator of a step. -/
def stepOp (increases : Bool) : BinaryOp := if increases then .add else .sub

/-- The result of code may be another one than that of what it carries out. -/
theorem resulting {β γ : Type} {x : Emit α} {taken : List Word} {ev : Evaluation β}
    {push : β → List Word} {post : α → β → Prop} [Extending x] (hx : Does types z x taken ev push post)
    {f : β → γ} {push' : γ → List Word}
    {post' : α → γ → Prop} (hPush : ∀ r, push' (f r) = push r) (hPost : ∀ a r, post a r → post' a (f r)) :
    Does types z x taken (ev >>= fun r => pure (f r)) push' post' := by
  have hAll : Does types z (x >>= pure) taken (ev >>= fun r => pure (f r)) push' post' :=
    hx.bind fun a r hr => .nothing (hPush r) (hPost a r hr)
  rwa [bind_pure] at hAll

/-- One is pushed in the type that the other operand is promoted to. -/
theorem pushOne_does (types : Nat → Primitive) (z : EmitState)
    (hKind : p.promoted = .int ∨ p.promoted = .long) (increases : Bool) {old : Value}
    (hOld : old.fits p) :
    ∃ one, Value.binary (stepOp increases) old one = Value.binary (stepOp increases) old (.int 1) ∧
      (stepOp increases).Typed p p.promoted p.promoted ∧
      Does types z (pushOne (.prim p.promoted) >>= fun _ => pure (JavaType.prim p.promoted)) [] (pure one)
        Value.words fun t w => t = .prim p.promoted ∧ w.fits p.promoted := by
  rcases hKind with hKind | hKind
  · rw [hKind]
    exact ⟨.int 1, rfl, .ints hKind rfl, .andReturn (.value fun _ _ => rfl) fun _ _ h => ⟨rfl, h ▸ rfl⟩⟩
  · rw [hKind]
    obtain ⟨a, rfl⟩ := Value.eq_long hOld hKind
    exact ⟨.long 1, rfl, .longs hKind (.inr rfl), .andReturn (.value fun _ _ => rfl) fun _ _ h => ⟨rfl, h ▸ rfl⟩⟩

/-- What a value on the stack is after a step is converted, stored and kept if that is wanted. -/
theorem convertAndStore_does (hz : z.Sound types) (hv : ctx.Knows types z v)
    (hSlot : z.slot? v.number = some slot) (hTruth : k = .boolean ↔ types v.number = .boolean)
    {c : Value} (hFits : c.fits k) (wanted : Bool) (result : JavaType) :
    Does types z (do
        coerce (.prim k) (.prim (types v.number))
        let l := Location.local slot (.prim (types v.number))
        if wanted then l.keepValue
        l.store ctx
        return result) c.words (Evaluation.assign ctx v c) (fun r => if wanted then r.words else [])
      (fun t r => t = result ∧ r.fits (types v.number)) := by
  obtain ⟨w, hConvert, -⟩ := Conversion.takeAll_conversions hv.discrete hTruth hFits
  rw [assign_eq hv, hConvert]
  refine .bind (Does.coerce hv.discrete hTruth hFits hConvert) ?_
  rintro _ _ rfl
  exact keepAndStore_does hz hSlot (Value.convert_fits hConvert) wanted result

/-- The step of a value on the stack. -/
theorem stepStacked_does (hz : z.Sound types) (hv : ctx.Knows types z v) (hSlot : z.slot? v.number = some slot)
    (hKind : (types v.number).promoted = .int ∨ (types v.number).promoted = .long) (increases : Bool)
    {old : Value} (hOld : old.fits (types v.number)) (wanted : Bool) (result : JavaType) :
    Does types z (do
        let promoted := JavaType.prim (types v.number).promoted
        coerce (.prim (types v.number)) promoted
        pushOne promoted
        emit (← binaryInstruction (stepOp increases) promoted)
        coerce promoted (.prim (types v.number))
        let l := Location.local slot (.prim (types v.number))
        if wanted then l.keepValue
        l.store ctx
        return result) old.words
      (answer (Value.binary (stepOp increases) old (.int 1)) >>= Evaluation.assign ctx v)
      (fun r => if wanted then r.words else [])
      (fun t r => t = result ∧ r.fits (types v.number)) := by
  obtain ⟨one, hBinary, hTyped, hOne⟩ := pushOne_does types z hKind increases hOld
  have hCoerce : coerce (.prim (types v.number).promoted)
      (if (stepOp increases).isShift then .int else .prim (types v.number).promoted) = pure () := by
    rcases hKind with hKind | hKind <;> rw [hKind] <;> cases increases <;> rfl
  have hAll := operate_does hTyped hOld hOne fun c hc =>
    convertAndStore_does hz hv hSlot hTyped.left_truth.symm hc wanted result
  simp only [bind_assoc, pure_bind, hCoerce, hBinary] at hAll
  exact hAll

theorem eval_incDec (increases before : Bool) :
    eval ctx (.incDec increases before (.var v)) = read v.number >>= fun old =>
      (answer (Value.binary (stepOp increases) old (.int 1)) >>= Evaluation.assign ctx v) >>= fun new =>
        pure (if before then new else old) := by
  simp only [eval, bind_assoc]
  rfl

theorem eval_incDec_int (hv : ctx.Knows types z v) (hInt : types v.number = .int)
    {increases before : Bool} {amount : Int32}
    (hAmount : ∀ n, (stepOp increases).exact 32 n (1 : Int32).toInt = .ok (n + amount.toInt))
    {σ : Store} (hFits : ∀ n v, σ n = some v → v.fits (types n)) :
    eval ctx (.incDec increases before (.var v)) σ =
      (increase v.number amount >>= fun a => pure (.int (if before then a + amount else a))) σ := by
  rw [eval_incDec]
  unfold increase
  rw [bind_assoc]
  refine read_congr hInt hFits fun a _ => ?_
  rw [assign_increased hv hInt hAmount]
  cases before <;> simp only [bind_assoc, pure_bind] <;> rfl

/-- The step of an `int` variable. -/
theorem stepInt_does (hz : z.Sound types) (hv : ctx.Knows types z v)
    (hSlot : z.slot? v.number = some slot) (hInt : types v.number = .int) (increases before wanted : Bool)
    (result : JavaType) :
    Does types z (do
        if wanted && !before then load (.prim (types v.number)) slot
        increment slot (if increases then 1 else -1)
        if wanted && before then load (.prim (types v.number)) slot
        return result) []
      (eval ctx (.incDec increases before (.var v))) (fun r => if wanted then r.words else [])
      (fun t r => t = result ∧ r.fits (types v.number)) := by
  have hAmount (n : Int) : (stepOp increases).exact 32 n (1 : Int32).toInt =
      .ok (n + (if increases then 1 else -1 : Int16).toInt32.toInt) := by
    cases increases <;> rfl
  generalize (if increases then 1 else -1 : Int16) = amount at hAmount ⊢
  cases before with
  | true =>
    simp only [Bool.not_true, Bool.and_false, Bool.and_true, Bool.false_eq_true, if_false]
    exact (increment_does hz hSlot hInt amount wanted result).congr fun σ hFits => eval_incDec_int hv hInt hAmount hFits
  | false =>
    simp only [Bool.not_false, Bool.and_false, Bool.and_true, Bool.false_eq_true, if_false]
    have hIncrement := Does.increment hz hSlot hInt amount
    cases wanted with
    | true =>
      have hBoth : Does types z (load (.prim (types v.number)) slot >>= fun _ =>
          increment slot amount >>= fun _ => pure result) []
          (read v.number >>= fun old => increase v.number amount.toInt32 >>= fun _ => pure old)
          Value.words (fun t r => t = result ∧ r.fits (types v.number)) :=
        .bind (.load hSlot) fun _ old hOld => .bind (hIncrement.onTop old.words) fun _ _ _ => .nothing rfl ⟨rfl, hOld⟩
      refine hBoth.congr fun σ hFits => ?_
      rw [eval_incDec_int hv hInt hAmount hFits]
      simp only [increase, bind_assoc]
      refine read_congr hInt hFits fun a hOld => ?_
      rw [read_bind, hOld]
      simp only [bind_assoc, pure_bind]
      rfl
    | false =>
      refine Does.congr (.bind hIncrement fun _ a _ =>
        .nothing rfl ⟨rfl, by rw [hInt]; rfl⟩) fun σ hFits => eval_incDec_int hv hInt hAmount hFits

/-- The step of a variable of another type. -/
theorem stepOther_does (hz : z.Sound types) (hv : ctx.Knows types z v) (hSlot : z.slot? v.number = some slot)
    (hKind : (types v.number).promoted = .int ∨ (types v.number).promoted = .long)
    (increases before wanted : Bool) (result : JavaType) :
    Does types z (do
        let l := Location.local slot (.prim (types v.number))
        let promoted := JavaType.prim (types v.number).promoted
        l.copyWords
        l.load ctx
        if wanted && !before then l.keepValue
        coerce (.prim (types v.number)) promoted
        pushOne promoted
        emit (← binaryInstruction (stepOp increases) promoted)
        coerce promoted (.prim (types v.number))
        if wanted && before then l.keepValue
        l.store ctx
        return result) []
      (eval ctx (.incDec increases before (.var v))) (fun r => if wanted then r.words else [])
      (fun t r => t = result ∧ r.fits (types v.number)) := by
  have hStep (keep : Bool) {old : Value} (hOld : old.fits (types v.number)) :=
    stepStacked_does hz hv hSlot hKind increases hOld keep result
  have hWords : (Location.local slot (.prim (types v.number))).copyWords = pure () := rfl
  rw [eval_incDec]
  dsimp only at *
  rw [hWords, pure_bind]
  refine .bind (.load hSlot) fun _ old hOld => ?_
  cases before with
  | true =>
    simp only [Bool.not_true, Bool.and_false, Bool.and_true, Bool.false_eq_true, if_false, if_true, bind_pure]
    exact hStep wanted hOld
  | false =>
    simp only [Bool.not_false, Bool.and_false, Bool.and_true, Bool.false_eq_true, if_false]
    cases wanted with
    | true =>
      refine .andThen (.keepValue hOld slot) fun _ _ => ?_
      exact resulting ((hStep false hOld).above old.words) (fun _ => rfl) fun _ _ h => ⟨h.1, hOld⟩
    | false => exact resulting (hStep false hOld) (fun _ => rfl) fun _ _ h => ⟨h.1, hOld⟩

theorem Evaluates.ofIncDec (hz : z.Sound types) (hv : ctx.Knows types z v) {increases before : Bool}
    (hNumber : (JavaType.prim (types v.number)).isNumeric)
    (hKnown : Foreseen ctx (.incDec increases before (.var v))) :
    (ExprCode.ofIncDec ctx increases before (.var v) (ExprCode.ofVariable ctx v)).Evaluates types z ctx
      (.incDec increases before (.var v)) (types v.number) := by
  have hLocation := (Grows.ofVariable hv.agrees).location
  refine .ofEffect hKnown (fun wanted =>
    Law.Holds.step (L := growth ctx _) increases before (.var v) wanted hLocation) fun wanted => ?_
  refine atLocal_does hv (step_extending ctx increases before (.var v) wanted) fun slot hSlot => ?_
  by_cases hInt : types v.number = .int
  · have hDecide : decide (JavaType.prim (types v.number) = .int) = true := by rw [hInt]; rfl
    dsimp only [Location.type]
    rw [hDecide]
    exact (stepInt_does hz hv hSlot hInt increases before wanted _).mono wanted_result
  · have hDecide : decide (JavaType.prim (types v.number) = .int) = false :=
      decide_eq_false fun h => hInt (JavaType.prim_inj h)
    dsimp only [Location.type]
    rw [hDecide]
    obtain ⟨hKind, hPromoted⟩ := Primitive.promoted_numeric hv.discrete hNumber
    dsimp only
    rw [hPromoted]
    exact (stepOther_does hz hv hSlot hKind increases before wanted _).mono wanted_result

end ExprCode

end JavaFragment
