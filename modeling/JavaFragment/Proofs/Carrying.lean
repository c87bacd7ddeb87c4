import JavaFragment.Proofs.Emission
import JavaFragment.Proofs.Evaluation
/-!
When code carries out an evaluation. The locals of the machine stand for the values of the variables,
and a run of the code ends where the evaluation ends, with its result on the operand stack. Code for the
parts of an evaluation is put together by the rules of this module.
-/
namespace JavaFragment

namespace Evaluation

/-- Adds to an `int`. The result is what it was before. -/
def increase (n : Nat) (amount : Int32) : Evaluation Int32 := do
  match ← read n with
  | .int a => write n (.int (a + amount)); return a
  | _ => throw .illTyped

end Evaluation

/-- The words of a value, that on top of the stack first. -/
def Value.words : Value → List Word
  | .int v => [.int v]
  | .long v => [.long v, .filler]
  | .bool b => [.int (if b then 1 else 0)]

/-- Whether the locals from a slot on hold a value. -/
def LocalWords.Holds (locals : LocalWords) (slot : Nat) : Value → Prop
  | .int v => locals slot = .int v
  | .long v => locals slot = .long v ∧ locals (slot + 1) = .filler
  | .bool b => locals slot = .int (if b then 1 else 0)

namespace EmitState

/-- The locals hold the values of the variables that have a slot, and the values are in range. -/
structure Represents (types : Nat → Primitive) (z : EmitState) (σ : Store) (locals : LocalWords) : Prop where
  fits : ∀ n v, σ n = some v → v.fits (types n)
  holds : ∀ n v slot, σ n = some v → z.slot? n = some slot → locals.Holds slot.toNat v

/-- The locals outside the slots of variables are the same. -/
def Untouched (types : Nat → Primitive) (z : EmitState) (before after : LocalWords) : Prop :=
  ∀ k, (∀ n slot, z.slot? n = some slot →
    k < slot.toNat ∨ slot.toNat + (JavaType.prim (types n)).slots ≤ k) → after k = before k

/-- The state in which a run stands when an evaluation has ended. It comes from a frame; the result of
the evaluation, if it has one, decides where the run stands, what is on the stack and how many steps it
took at least. Faults happen at given addresses. -/
def Ends {α : Type} (types : Nat → Primitive) (z : EmitState) (inside : Nat → Prop)
    {env : Environment} (f : MethodFrame env) (rest : List Word) (stop : α → Nat)
    (push : α → List Word) (least : α → Nat) (post : α → Prop) : EStateM.Result Fault Store α → Prop
  | .ok r σ => post r ∧ ∃ locals steps, z.Represents types σ locals ∧
      z.Untouched types f.locals locals ∧ least r ≤ steps ∧ z.program.RunsFor (.running f)
        (.running { f with pc := stop r, stack := push r ++ rest, locals := locals }) steps
  | .error .divisionByZero σ => ∃ pc stack locals, inside pc ∧
      z.Represents types σ locals ∧ z.Untouched types f.locals locals ∧
      z.program.Runs (.running f) (Program.throwNew
        { f with pc := pc, stack := stack, locals := locals } env.arithmeticException)
  | .error .unassigned _ => True
  | .error .illTyped _ => False

/-- The code at an address carries out an evaluation. It takes given words off the stack, and it does so
in every environment, on every stack and for all values of the variables. A division by zero throws;
nothing is said of runs that read a variable without value. -/
def Carries {α : Type} (types : Nat → Primitive) (z : EmitState) (inside : Nat → Prop) (start : Nat)
    (taken : List Word) (x : Evaluation α) (stop : α → Nat) (push : α → List Word) (least : α → Nat)
    (post : α → Prop) : Prop :=
  ∀ (env : Environment) (f : MethodFrame env) (rest : List Word) (σ : Store),
    f.pc = start → f.stack = taken ++ rest → z.Represents types σ f.locals →
      z.Ends types inside f rest stop push least post (x σ)

variable {α β : Type} {types : Nat → Primitive} {z : EmitState} {inside : Nat → Prop} {env : Environment}
  {f : MethodFrame env} {rest : List Word} {least stop : α → Nat} {push : α → List Word} {post : α → Prop}
  {result : EStateM.Result Fault Store α}

theorem Untouched.trans {a b c : LocalWords} (hab : z.Untouched types a b)
    (hbc : z.Untouched types b c) : z.Untouched types a c :=
  fun k hk => (hbc k hk).trans (hab k hk)

theorem Untouched.refl (a : LocalWords) : z.Untouched types a a := fun _ _ => rfl

/-- What is known of the result may be weakened, and the stack may be read in another way. -/
theorem Ends.imp {rest' : List Word} {stop' : α → Nat} {push' : α → List Word} {post' : α → Prop}
    (h : z.Ends types inside f rest stop push least post result)
    (hPost : ∀ r, post r → post' r ∧ stop' r = stop r ∧ push' r ++ rest' = push r ++ rest) :
    z.Ends types inside f rest' stop' push' least post' result := by
  cases result with
  | ok r τ =>
    obtain ⟨hOld, locals, steps, hRep, hSame, hSteps, hRun⟩ := h
    obtain ⟨hNew, hStop, hPush⟩ := hPost r hOld
    refine ⟨hNew, locals, steps, hRep, hSame, hSteps, ?_⟩
    rw [hStop, hPush]
    exact hRun
  | error fault τ => cases fault <;> exact h

/-- Fewer steps may be asked for. -/
theorem Ends.fewer {least' : α → Nat}
    (h : z.Ends types inside f rest stop push least post result) (hLe : ∀ r, least' r ≤ least r) :
    z.Ends types inside f rest stop push least' post result := by
  cases result with
  | ok r τ =>
    obtain ⟨hPost, locals, steps, hRep, hSame, hSteps, hRun⟩ := h
    exact ⟨hPost, locals, steps, hRep, hSame, Nat.le_trans (hLe r) hSteps, hRun⟩
  | error fault τ => cases fault <;> exact h

/-- What a run reaches after some steps, it reaches from the start. -/
theorem Ends.after {pc : Nat} {stack : List Word} {locals : LocalWords} {steps : Nat}
    (h : z.Ends types inside { f with pc := pc, stack := stack, locals := locals } rest stop push
      (fun r => least r - steps) post result)
    (hSame : z.Untouched types f.locals locals)
    (hRun : z.program.RunsFor (.running f)
      (.running { f with pc := pc, stack := stack, locals := locals }) steps) :
    z.Ends types inside f rest stop push least post result := by
  cases result with
  | ok r τ =>
    obtain ⟨hPost, locals', steps', hRep, hSame', hSteps, hRun'⟩ := h
    have hAll : least r ≤ steps + steps' := Nat.sub_le_iff_le_add'.1 hSteps
    exact ⟨hPost, locals', _, hRep, hSame.trans hSame', hAll, hRun.trans hRun'⟩
  | error fault τ =>
    cases fault with
    | divisionByZero =>
      obtain ⟨pc', stack', locals', hInside, hRep, hSame', steps', hRun'⟩ := h
      exact ⟨pc', stack', locals', hInside, hRep, hSame.trans hSame', _, hRun.trans hRun'⟩
    | unassigned => trivial
    | illTyped => exact h

namespace Carries

variable {start : Nat} {taken : List Word} {x : Evaluation α} {r : α}

/-- Code for one evaluation, followed by code for what depends on its result. -/
theorem bind {y : α → Evaluation β} {stop' : β → Nat} {push' : β → List Word} {least' : β → Nat}
    {post' : β → Prop} (hx : z.Carries types inside start taken x stop push least post)
    (hy : ∀ r, post r → z.Carries types inside (stop r) (push r) (y r) stop' push'
      (fun r' => least' r' - least r) post') :
    z.Carries types inside start taken (x >>= y) stop' push' least' post' := by
  intro env f rest σ hPc hStack hRep
  have hFirst := hx env f rest σ hPc hStack hRep
  show z.Ends types inside f rest stop' push' least' post' (EStateM.bind x y σ)
  unfold EStateM.bind
  cases hResult : x σ with
  | ok r τ =>
    rw [hResult] at hFirst
    obtain ⟨hPost, locals, steps, hRep', hSame, hSteps, hRun⟩ := hFirst
    have hSecond := hy r hPost env { f with pc := stop r, stack := push r ++ rest, locals := locals }
      rest τ rfl rfl hRep'
    exact (hSecond.fewer fun r' => by omega).after hSame hRun
  | error fault τ =>
    rw [hResult] at hFirst
    cases fault <;> exact hFirst

/-- Words below those that code takes stay where they are. -/
theorem above (words : List Word) (hx : z.Carries types inside start taken x stop push least post) :
    z.Carries types inside start (taken ++ words) x stop (fun r => push r ++ words) least post := by
  intro env f rest σ hPc hStack hRep
  refine (hx env f (words ++ rest) σ hPc (by rw [hStack, List.append_assoc]) hRep).imp ?_
  exact fun r hr => ⟨hr, rfl, List.append_assoc ..⟩

theorem mono {stop' : α → Nat} {push' : α → List Word} {post' : α → Prop}
    (hx : z.Carries types inside start taken x stop push least post)
    (hPost : ∀ r, post r → post' r ∧ stop' r = stop r ∧ push' r = push r) :
    z.Carries types inside start taken x stop' push' least post' := by
  intro env f rest σ hPc hStack hRep
  refine (hx env f rest σ hPc hStack hRep).imp fun r hr => ?_
  obtain ⟨hNew, hStop, hPush⟩ := hPost r hr
  exact ⟨hNew, hStop, by rw [hPush]⟩

/-- Fewer steps may be asked for. -/
theorem fewer {least' : α → Nat} (hx : z.Carries types inside start taken x stop push least post)
    (hLe : ∀ r, least' r ≤ least r) : z.Carries types inside start taken x stop push least' post :=
  fun env f rest σ hPc hStack hRep => (hx env f rest σ hPc hStack hRep).fewer hLe

/-- No code carries out what has a result already. -/
theorem nothing (hStop : stop r = start) (hPush : push r = taken) (hLeast : least r = 0)
    (hPost : post r) : z.Carries types inside start taken (pure r) stop push least post := by
  intro env f rest σ hPc hStack hRep
  refine ⟨hPost, f.locals, 0, hRep, .refl _, Nat.le_of_eq hLeast, ?_⟩
  rw [hStop, hPush, ← hPc, ← hStack]
  exact .zero _

/-- The result of an evaluation that has it already is that one. -/
theorem exactly (hx : z.Carries types inside start taken (pure r) stop push least post) :
    z.Carries types inside start taken (pure r) stop push least (fun r' => post r' ∧ r' = r) := by
  intro env f rest σ hPc hStack hRep
  obtain ⟨hPost, hRun⟩ := hx env f rest σ hPc hStack hRep
  exact ⟨⟨hPost, rfl⟩, hRun⟩

/-- Evaluations that agree on values in range are carried out by the same code. -/
theorem congr {y : Evaluation α} (hx : z.Carries types inside start taken x stop push least post)
    (hSame : ∀ σ : Store, (∀ n v, σ n = some v → v.fits (types n)) → y σ = x σ) :
    z.Carries types inside start taken y stop push least post := by
  intro env f rest σ hPc hStack hRep
  rw [hSame σ hRep.fits]
  exact hx env f rest σ hPc hStack hRep

/-! Single instructions. -/

theorem instruction {i : Instruction} (hFetch : z.program.fetch start = some i)
    (hEffect : ∀ rest locals, i.effect z.pool (taken ++ rest) locals = .done (push r ++ rest) locals)
    (hPost : post r) :
    z.Carries types inside start taken (pure r) (fun _ => start + i.size start) push (fun _ => 0)
      post := by
  intro env f rest σ hPc hStack hRep
  refine ⟨hPost, f.locals, 1, hRep, .refl _, Nat.zero_le _, .single ?_⟩
  rw [← hPc] at hFetch ⊢
  exact Program.step_of_done hFetch (by rw [hStack]; exact hEffect rest f.locals)

/-- An instruction that has the answer to a question as its effect, and divides by zero if there is
none. -/
theorem answer {i : Instruction} {result : Except Fault α} (hFetch : z.program.fetch start = some i)
    (hInside : inside start) (hOk : ∀ r, result = .ok r → post r ∧ ∀ rest locals,
      i.effect z.pool (taken ++ rest) locals = .done (push r ++ rest) locals)
    (hError : ∀ fault, result = .error fault → fault = .divisionByZero ∧ ∀ rest locals,
      i.effect z.pool (taken ++ rest) locals = .dividesByZero) :
    z.Carries types inside start taken (Evaluation.answer result) (fun _ => start + i.size start) push
      (fun _ => 0) post := by
  cases result with
  | ok r => exact .instruction hFetch (hOk r rfl).2 (hOk r rfl).1
  | error fault =>
    obtain ⟨rfl, hEffect⟩ := hError fault rfl
    intro env f rest σ hPc hStack hRep
    rw [← hPc] at hFetch hInside
    refine ⟨f.pc, f.stack, f.locals, hInside, hRep, .refl _, .single ?_⟩
    exact Program.step_of_dividesByZero hFetch (by rw [hStack]; exact hEffect rest f.locals)

/-- A branch that is taken if a truth is the wanted one. -/
theorem branch {b : Branch} {offset : Int16} {target : Nat} {truth wanted : Bool}
    {post : Bool → Prop} (hFetch : z.program.fetch start = some (.branch b offset))
    (hTarget : (start : Int) + offset.toInt = target)
    (hTest : ∀ rest, b.test (taken ++ rest) = some (truth == wanted, rest)) (hPost : post truth) :
    z.Carries types inside start taken (pure truth)
      (fun c => if c = wanted then target else start + 3) (fun _ => [])
      (fun c => if c = wanted then 1 else 0) post := by
  intro env f rest σ hPc hStack hRep
  refine ⟨hPost, f.locals, 1, hRep, .refl _, by dsimp only; split <;> decide, .single ?_⟩
  rw [← hPc] at hFetch hTarget ⊢
  have hStep := Program.step_branch hFetch hTarget (by rw [hStack]; exact hTest rest)
  simpa using hStep

/-- Code that ends with a jump. -/
theorem thenGoto {offset : Int16} {middle target : Nat}
    (hx : z.Carries types inside start taken x (fun _ => middle) push (fun _ => 0) post)
    (hFetch : z.program.fetch middle = some (.branch .goto offset))
    (hTarget : (middle : Int) + offset.toInt = target) :
    z.Carries types inside start taken x (fun _ => target) push (fun _ => 0) post := by
  have hJump (r : α) (hr : post r) :
      z.Carries types inside middle (push r) (pure r) (fun _ => target) push (fun _ => 0) post := by
    intro env f rest σ hPc hStack hRep
    refine ⟨hr, f.locals, 1, hRep, .refl _, Nat.zero_le _, .single ?_⟩
    rw [← hPc] at hFetch hTarget
    rw [← hStack]
    exact Program.step_branch hFetch hTarget rfl
  have hAll := hx.bind hJump
  rwa [bind_pure] at hAll

end Carries

end EmitState

/-! Variables. -/

theorem Instruction.effect_loadSlot (pool : ConstantPool) (kind : SlotKind) (slot : UInt16)
    (stack : List Word) (locals : LocalWords) :
    (Instruction.loadSlot kind slot).effect pool stack locals =
      .done (locals.load kind slot.toNat ++ stack) locals := by
  unfold Instruction.loadSlot
  split
  · rfl
  · split
    · rename_i hSmall
      have hSlot : slot.toUInt8.toNat = slot.toNat := by rw [UInt16.toNat_toUInt8, Nat.mod_eq_of_lt hSmall]
      show Effect.done (locals.load kind slot.toUInt8.toNat ++ stack) locals = _
      rw [hSlot]
    · rfl

theorem Instruction.effect_storeSlot (pool : ConstantPool) (kind : SlotKind) (slot : UInt16)
    (stack : List Word) (locals : LocalWords) :
    (Instruction.storeSlot kind slot).effect pool stack locals = locals.store kind slot.toNat stack := by
  unfold Instruction.storeSlot
  split
  · rfl
  · split
    · rename_i hSmall
      have hSlot : slot.toUInt8.toNat = slot.toNat := by rw [UInt16.toNat_toUInt8, Nat.mod_eq_of_lt hSmall]
      show locals.store kind slot.toUInt8.toNat stack = _
      rw [hSlot]
    · rfl

theorem Instruction.effect_increment (pool : ConstantPool) {slot : UInt16} (amount : Int16)
    (stack : List Word) (locals : LocalWords) {a : Int32} (hOld : locals slot.toNat = .int a) :
    (Instruction.increment slot amount).effect pool stack locals =
      .done stack (locals.set slot.toNat (.int (a + amount.toInt32))) := by
  unfold Instruction.increment
  split
  · rename_i hSmall
    have hSlot : slot.toUInt8.toNat = slot.toNat := by rw [UInt16.toNat_toUInt8, Nat.mod_eq_of_lt hSmall.1]
    have hAmount : amount.toInt8.toInt32 = amount.toInt32 := by
      rw [← Int32.toInt_inj, Int8.toInt_toInt32, Int16.toInt_toInt8, Int16.toInt_toInt32]
      exact Int.bmod_eq_of_le (by omega) (by omega)
    show locals.increase slot.toUInt8.toNat amount.toInt8.toInt32 stack = _
    rw [hSlot, hAmount, LocalWords.increase, hOld]
  · show locals.increase slot.toNat amount.toInt32 stack = _
    rw [LocalWords.increase, hOld]

namespace Value

/-- The locals from a slot on, with a value in them. -/
def putAt (v : Value) (locals : LocalWords) (slot : Nat) : LocalWords :=
  match v with
  | .int a => locals.set slot (.int a)
  | .bool b => locals.set slot (.int (if b then 1 else 0))
  | .long a => (locals.set slot (.long a)).set (slot + 1) .filler

theorem putAt_holds (v : Value) (locals : LocalWords) (slot : Nat) : (v.putAt locals slot).Holds slot v := by
  cases v <;> simp [putAt, LocalWords.Holds, LocalWords.set]

theorem putAt_of_outside (v : Value) (locals : LocalWords) (slot : Nat) {k : Nat}
    (hk : k < slot ∨ slot + v.words.length ≤ k) : v.putAt locals slot k = locals k := by
  cases v <;> simp only [putAt, LocalWords.set, words, List.length_cons, List.length_nil] at hk ⊢
  · rw [if_neg (by omega)]
  · rw [if_neg (by omega), if_neg (by omega)]
  · rw [if_neg (by omega)]

theorem holds_of_same {v : Value} {locals locals' : LocalWords} {slot : Nat} (h : locals.Holds slot v)
    (hSame : ∀ k, slot ≤ k → k < slot + v.words.length → locals' k = locals k) :
    locals'.Holds slot v := by
  cases v <;> simp only [LocalWords.Holds, words, List.length_cons, List.length_nil] at h hSame ⊢
  · rw [hSame slot (by omega) (by omega), h]
  · exact ⟨by rw [hSame slot (by omega) (by omega), h.1], by rw [hSame _ (by omega) (by omega), h.2]⟩
  · rw [hSame slot (by omega) (by omega), h]

section

variable {v : Value} {p : Primitive} (hFits : v.fits p)
include hFits

theorem slots_eq : (JavaType.prim p).slots = v.words.length := by
  cases v <;> cases p <;> simp_all [fits] <;> rfl

theorem load_of_holds {locals : LocalWords} {slot : Nat} (hHolds : locals.Holds slot v) :
    locals.load (JavaType.prim p).slotKind slot = v.words := by
  cases v <;> cases p <;> simp_all [fits, LocalWords.Holds, LocalWords.load, words] <;> rfl

theorem store_words (locals : LocalWords) (slot : Nat) (rest : List Word) :
    locals.store (JavaType.prim p).slotKind slot (v.words ++ rest) = .done rest (v.putAt locals slot) := by
  cases v <;> cases p <;> simp_all [fits] <;> rfl

end

end Value

namespace EmitState

variable {types : Nat → Primitive} {z : EmitState} {inside : Nat → Prop} {start n : Nat} {slot : UInt16}

/-- Writing a variable keeps the values of the others. -/
theorem Represents.write {σ : Store} {locals : LocalWords} (h : z.Represents types σ locals)
    (hApart : z.SlotsApart fun n => .prim (types n)) (hSlot : z.slot? n = some slot) {v : Value}
    (hFits : v.fits (types n)) :
    z.Represents types (fun m => if m = n then some v else σ m) (v.putAt locals slot.toNat) where
  fits m w hm := by
    split at hm
    · rename_i hSame
      cases hm
      rw [hSame]
      exact hFits
    · exact h.fits m w hm
  holds m w a hm ha := by
    split at hm
    · rename_i hSame
      cases hm
      rw [hSame, hSlot] at ha
      cases ha
      exact v.putAt_holds locals _
    · rename_i hNe
      have hFar := hApart.apart n m slot a (Ne.symm hNe) hSlot ha
      rw [Value.slots_eq hFits, Value.slots_eq (h.fits m w hm)] at hFar
      exact Value.holds_of_same (h.holds m w a hm ha) fun k _ _ => v.putAt_of_outside locals _ (by omega)

theorem Untouched.write (locals : LocalWords) (hSlot : z.slot? n = some slot) {v : Value}
    (hFits : v.fits (types n)) : z.Untouched types locals (v.putAt locals slot.toNat) := by
  intro k hk
  have hFar := hk n slot hSlot
  rw [Value.slots_eq hFits] at hFar
  exact v.putAt_of_outside locals _ hFar

namespace Carries

theorem load (hSlot : z.slot? n = some slot)
    (hFetch : z.program.fetch start = some (.loadSlot (JavaType.prim (types n)).slotKind slot)) :
    z.Carries types inside start [] (Evaluation.read n)
      (fun _ => start + (Instruction.loadSlot (JavaType.prim (types n)).slotKind slot).size start)
      Value.words (fun _ => 0) (fun v => v.fits (types n)) := by
  intro env f rest σ hPc hStack hRep
  show z.Ends types inside f rest _ _ _ _ (Evaluation.expect .unassigned (σ n) σ)
  cases hValue : σ n with
  | none => trivial
  | some v =>
    have hFits := hRep.fits n v hValue
    refine ⟨hFits, f.locals, 1, hRep, .refl _, Nat.zero_le _, .single ?_⟩
    rw [← hPc] at hFetch ⊢
    rw [← Value.load_of_holds hFits (hRep.holds n v slot hValue hSlot)]
    exact Program.step_of_done hFetch (by rw [hStack]; exact Instruction.effect_loadSlot ..)

theorem store (hApart : z.SlotsApart fun n => .prim (types n)) (hSlot : z.slot? n = some slot)
    {v : Value} (hFits : v.fits (types n))
    (hFetch : z.program.fetch start = some (.storeSlot (JavaType.prim (types n)).slotKind slot)) :
    z.Carries types inside start v.words (Evaluation.write n v)
      (fun _ => start + (Instruction.storeSlot (JavaType.prim (types n)).slotKind slot).size start)
      (fun _ => []) (fun _ => 0) (fun _ => True) := by
  intro env f rest σ hPc hStack hRep
  refine ⟨trivial, v.putAt f.locals slot.toNat, 1, hRep.write hApart hSlot hFits,
    .write _ hSlot hFits, Nat.zero_le _, .single ?_⟩
  rw [← hPc] at hFetch ⊢
  refine Program.step_of_done hFetch ?_
  rw [hStack, Instruction.effect_storeSlot]
  exact Value.store_words hFits _ _ _

theorem increment (hApart : z.SlotsApart fun n => .prim (types n)) (hSlot : z.slot? n = some slot)
    (hInt : types n = .int) {amount : Int16}
    (hFetch : z.program.fetch start = some (.increment slot amount)) :
    z.Carries types inside start [] (Evaluation.increase n amount.toInt32)
      (fun _ => start + (Instruction.increment slot amount).size start) (fun _ => []) (fun _ => 0)
      (fun _ => True) := by
  intro env f rest σ hPc hStack hRep
  have hStart : Evaluation.increase n amount.toInt32 σ = (Evaluation.expect .unassigned (σ n) >>=
      fun v => match v with
        | .int a => Evaluation.write n (.int (a + amount.toInt32)) >>= fun _ => pure a
        | _ => throw .illTyped) σ := rfl
  rw [hStart]
  cases hValue : σ n with
  | none => trivial
  | some v =>
    have hFits := hRep.fits n v hValue
    cases v with
    | int a =>
      have hNew : (Value.int (a + amount.toInt32)).fits (types n) := by rw [hInt]; rfl
      refine ⟨trivial, _, 1, hRep.write hApart hSlot hNew, .write _ hSlot hNew, Nat.zero_le _, .single ?_⟩
      rw [← hPc] at hFetch ⊢
      refine Program.step_of_done hFetch ?_
      rw [hStack]
      exact Instruction.effect_increment _ _ _ _ (hRep.holds n _ slot hValue hSlot)
    | _ => rw [hInt] at hFits; cases hFits

end Carries

end EmitState

end JavaFragment
