import JavaFragment.Proofs.StatementLaws
import JavaFragment.Session.Basic
/-!
Words that are on the operand stack before a fragment is compiled. Its code does not depend on them. But where the paths
of a statement come together the depth of the stack is set anew, and there the words are forgotten.
-/
namespace JavaFragment

/-! Runs side by side. -/

/-- Two runs end alike: with the same result, or refused for the same reason. -/
inductive Alike {ε σ α : Type} (E Q : σ → σ → Prop) : EStateM.Result ε σ α → EStateM.Result ε σ α → Prop
  | ok {s t : σ} (a : α) (h : Q s t) : Alike E Q (.ok a s) (.ok a t)
  | error {s t : σ} (e : ε) (h : E s t) : Alike E Q (.error e s) (.error e t)

/-- Runs of two computations from related states end alike. -/
structure Parallel {ε σ α : Type} (E P Q : σ → σ → Prop) (x y : EStateM ε σ α) : Prop where
  alike : ∀ s t, P s t → Alike E Q (x s) (y t)

namespace Parallel

variable {ε σ α β : Type} {E P Q R : σ → σ → Prop} {x y : EStateM ε σ α} {f : α → EStateM ε σ β}

theorem pure (a : α) : Parallel E P P (pure a : EStateM ε σ α) (pure a) := ⟨fun _ _ h => .ok a h⟩

theorem throw (e : ε) : Parallel E E Q (throw e : EStateM ε σ α) (throw e) := ⟨fun _ _ h => .error e h⟩

theorem bindOf {g : α → EStateM ε σ β} (hx : Parallel E P Q x y)
    (hf : ∀ s a s', x s = .ok a s' → Parallel E Q R (f a) (g a)) : Parallel E P R (x >>= f) (y >>= g) := by
  refine ⟨fun s t h => ?_⟩
  have hFirst := hx.alike s t h
  simp only [Bind.bind, EStateM.bind]
  cases hs : x s with
  | ok a s' =>
    rw [hs] at hFirst
    generalize y t = result at hFirst
    cases hFirst with
    | ok _ h' => exact (hf s a s' hs).alike s' _ h'
  | error e s' =>
    rw [hs] at hFirst
    generalize y t = result at hFirst
    cases hFirst with
    | error _ h' => exact .error e h'

theorem bind {g : α → EStateM ε σ β} (hx : Parallel E P Q x y) (hf : ∀ a, Parallel E Q R (f a) (g a)) :
    Parallel E P R (x >>= f) (y >>= g) := .bindOf hx fun _ a _ _ => hf a

/-- The states may be asked for something. -/
theorem get {f g : σ → EStateM ε σ β} (hf : ∀ s t, P s t → Parallel E P Q (f s) (g t)) :
    Parallel E P Q (MonadState.get >>= f) (MonadState.get >>= g) := ⟨fun s t h => (hf s t h).alike s t h⟩

theorem modify {f g : σ → σ} (hf : ∀ s t, P s t → Q (f s) (g t)) :
    Parallel E P Q (modify f : EStateM ε σ PUnit) (modify g) := ⟨fun s t h => .ok _ (hf s t h)⟩

theorem ite {c : Prop} [Decidable c] {x' y' : EStateM ε σ α} (hx : Parallel E P Q x y) (hx' : Parallel E P Q x' y') :
    Parallel E P Q (if c then x else x') (if c then y else y') := by
  split
  · exact hx
  · exact hx'

/-- A refusal unless a condition fails. -/
theorem refuseIf {c : Prop} [Decidable c] {e : ε} {k : EStateM ε σ β} (hk : Parallel E E Q k k) :
    Parallel E E Q (if c then MonadExcept.throw e >>= f else k) (if c then MonadExcept.throw e >>= f else k) :=
  .ite ⟨fun _ _ h => .error e h⟩ hk

theorem forM {xs : List α} {f : α → EStateM ε σ PUnit} (hf : ∀ a, Parallel E P P (f a) (f a)) :
    Parallel E P P (xs.forM f) (xs.forM f) := by
  induction xs with
  | nil => exact .pure _
  | cons a xs ih => exact .bind (hf a) fun _ => ih

theorem mono {E' : σ → σ → Prop} (h : Parallel E P Q x y) (hE : ∀ s t, E s t → E' s t) : Parallel E' P Q x y := by
  refine ⟨fun s t hst => ?_⟩
  have hRun := h.alike s t hst
  generalize x s = first, y t = second at hRun
  cases hRun with
  | ok a h => exact .ok a h
  | error e h => exact .error e (hE _ _ h)

end Parallel

/-! Buffers. -/

namespace CodeBuffer

/-- Buffers that differ in what they say of the operand stack alone: one says that it is deeper, by so many words at
most. -/
def Deeper (k : Nat) (b c : CodeBuffer) : Prop :=
  ∃ depth mark, c = { b with depth := depth, maxStack := mark } ∧ b.depth ≤ depth ∧ depth ≤ b.depth + k

variable {k n : Nat} {b c : CodeBuffer}

theorem Deeper.mono (h : b.Deeper k c) (hLe : k ≤ n) : b.Deeper n c := by
  obtain ⟨depth, mark, rfl, hLow, hHigh⟩ := h
  exact ⟨depth, mark, rfl, hLow, by omega⟩

theorem Deeper.setDepth (h : b.Deeper k c) {d e : Int} (hLow : d ≤ e) (hHigh : e ≤ d + n) :
    (b.setDepth d).Deeper n (c.setDepth e) := by
  obtain ⟨_, _, rfl, -, -⟩ := h
  refine ⟨max e 0, _, rfl, ?_, ?_⟩
  · show max d 0 ≤ max e 0
    omega
  · show max e 0 ≤ max d 0 + n
    omega

theorem Deeper.appendWith (h : b.Deeper k c) (i : Instruction) (change : Int) :
    (b.appendWith i change).Deeper k (c.appendWith i change) := by
  obtain ⟨depth, mark, rfl, hLow, hHigh⟩ := h
  refine ⟨max (depth + change) 0, _, rfl, ?_, ?_⟩
  · show max (b.depth + change) 0 ≤ max (depth + change) 0
    omega
  · show max (depth + change) 0 ≤ max (b.depth + change) 0 + k
    omega

/-- An operation on a buffer that does not ask for the depth. -/
abbrev Steady {α : Type} (k : Nat) (x : BufferM α) : Prop := Parallel (Deeper k) (Deeper k) (Deeper k) x x

theorem emit_steady (i : Instruction) : Steady k (emit i) := by
  refine ⟨fun b c h => ?_⟩
  have hNext := h.appendWith i (i.stackChange?.getD 0)
  obtain ⟨_, _, rfl, -, -⟩ := h
  exact .ok _ hNext

/-- What a buffer holds besides the depth may be asked for. -/
theorem get_steady {α : Type} {f : CodeBuffer → BufferM α} (hf : ∀ b, Steady k (f b))
    (hSame : ∀ (b : CodeBuffer) depth mark, f { b with depth := depth, maxStack := mark } = f b := by intros; rfl) :
    Steady k (get >>= f) := by
  refine .get fun b c h => ?_
  obtain ⟨depth, mark, rfl, -, -⟩ := h
  rw [hSame b depth mark]
  exact hf b

theorem modify_steady {f : CodeBuffer → CodeBuffer} (hSame : ∀ (b : CodeBuffer) depth mark,
      f { b with depth := depth, maxStack := mark } = { f b with depth := depth, maxStack := mark } := by intros; rfl)
    (hDepth : ∀ b, (f b).depth = b.depth := by intros; rfl) : Steady k (modify f) := by
  refine .modify fun b c h => ?_
  obtain ⟨depth, mark, rfl, hLow, hHigh⟩ := h
  exact ⟨depth, mark, hSame .., (hDepth b).trans_le hLow, by rwa [hDepth b]⟩

theorem addressOf_steady (index : Nat) : Steady k (addressOf index) := by
  refine get_steady fun b => ?_
  split
  · exact .pure _
  · exact .throw _

theorem patch_steady (index target : Nat) : Steady k (patch index target) := by
  refine .bind (addressOf_steady index) fun source => .refuseIf (get_steady fun b => ?_)
  split
  · exact .throw _
  · exact modify_steady
  · exact .throw _

theorem patchAll_steady (sites : List Nat) (target : Nat) : Steady k (patchAll sites target) :=
  .forM fun site => patch_steady site target

theorem emitGoto_steady (target : Nat) : Steady k (emitGoto target) :=
  .bind (emit_steady _) fun _ => .bind (patch_steady _ _) fun _ => .pure _

theorem patchSwitch_steady (index default : Nat) (targets : List Nat) :
    Steady k (patchSwitch index default targets) := by
  refine .bind (addressOf_steady index) fun source => get_steady fun b => ?_
  split
  · exact .throw _
  · exact .refuseIf modify_steady
  · exact .throw _

theorem emitInvoke_steady (kind : InvokeKind) (index : UInt16) (descriptor : String) :
    Steady k (emitInvoke kind index descriptor) := by
  unfold emitInvoke
  split
  · exact .throw _
  · exact .modify fun _ _ h => h.appendWith ..

theorem reserve_steady (purpose : LocalPurpose) (type : JavaType) : Steady k (reserve purpose type) := by
  refine .bind (get_steady fun b => ?_) fun _ => .bind modify_steady fun _ => .pure _
  exact .ite (.bind modify_steady fun _ => .pure _) (.throw _)

theorem addHandler_steady (start stop handler : Nat) (caught : UInt16) :
    Steady k (addHandler start stop handler caught) := by
  have hAddress (address : Nat) : Steady k (tableAddress address) := .ite (.pure _) (.throw _)
  exact .bind (hAddress _) fun _ => .bind (hAddress _) fun _ => .bind (hAddress _) fun _ => modify_steady

end CodeBuffer

/-! Emission. -/

/-- States of emission whose buffers differ in what they say of the operand stack alone. -/
def EmitState.Deeper (k : Nat) (s t : EmitState) : Prop := ∃ c, t = { s with code := c } ∧ s.code.Deeper k c

theorem EmitState.Deeper.mono {k n : Nat} {s t : EmitState} (h : s.Deeper k t) (hLe : k ≤ n) : s.Deeper n t := by
  obtain ⟨c, rfl, hc⟩ := h
  exact ⟨c, rfl, hc.mono hLe⟩

namespace Emit

open EmitState (Deeper)

variable {α β : Type} {k n : Nat}

/-- Emission that does not depend on the words that are on the operand stack before. -/
abbrev Steady (k : Nat) (x y : Emit α) : Prop := Parallel (Deeper k) (Deeper k) (Deeper k) x y

theorem onBuffer_parallel {x y : BufferM α}
    (h : Parallel (CodeBuffer.Deeper k) (CodeBuffer.Deeper k) (CodeBuffer.Deeper n) x y) :
    Parallel (Deeper k) (Deeper k) (Deeper n) (liftM x : Emit α) (liftM y : Emit α) := by
  refine ⟨fun s t hst => ?_⟩
  obtain ⟨c, rfl, hc⟩ := hst
  show Alike _ _ (onBuffer x s) (onBuffer y { s with code := c })
  have hRun := h.alike _ _ hc
  simp only [onBuffer, EStateM.run]
  generalize x s.code = first, y c = second at hRun
  cases hRun with
  | ok a h => exact .ok a ⟨_, rfl, h⟩
  | error e h => exact .error _ ⟨_, rfl, h⟩

theorem lift_steady (x : Except CompileError α) : Steady k (liftM x : Emit α) (liftM x : Emit α) := by
  cases x with
  | ok a => exact .pure a
  | error e => exact .throw e

theorem pool_steady (x : StateM ConstantPool α) : Steady k (liftM x : Emit α) (liftM x : Emit α) := by
  refine ⟨fun s t h => ?_⟩
  obtain ⟨c, rfl, hc⟩ := h
  exact .ok _ ⟨c, rfl, hc⟩

theorem emit_steady (i : Instruction) : Steady k (emit i) (emit i) :=
  onBuffer_parallel (.modify fun _ _ h => h.appendWith ..)

theorem branch_steady (b : Branch) : Steady k (branch b) (branch b) := onBuffer_parallel (CodeBuffer.emit_steady _)

theorem here_steady : Steady k here here := by
  refine .get fun s t h => ?_
  obtain ⟨_, rfl, _, _, rfl, -, -⟩ := h
  exact .pure _

theorem patchAll_steady (sites : List Nat) (target : Nat) : Steady k (patchAll sites target) (patchAll sites target) :=
  onBuffer_parallel (CodeBuffer.patchAll_steady sites target)

theorem land_steady (sites : List Nat) : Steady k (land sites) (land sites) :=
  .bind here_steady fun _ => patchAll_steady ..

/-- A depth that is set leaves as much of a difference as there is in the depths. -/
theorem setDepth_parallel {d e : Int} (hLow : d ≤ e) (hHigh : e ≤ d + n) :
    Parallel (Deeper k) (Deeper k) (Deeper n) (setDepth d) (setDepth e) :=
  onBuffer_parallel (.modify fun _ _ h => h.setDepth hLow hHigh)

theorem setDepth_steady (d : Int) : Steady k (setDepth d) (setDepth d) := setDepth_parallel (by omega) (by omega)

/-- The depth may be asked for by what differs as little for two depths. -/
theorem depth_steady {f : Int → Emit α} (hf : ∀ d e : Int, d ≤ e → e ≤ d + k → Steady k (f d) (f e)) :
    Steady k (depth >>= f) (depth >>= f) := by
  refine ⟨fun s t h => ?_⟩
  obtain ⟨_, rfl, depth, mark, rfl, hLow, hHigh⟩ := h
  exact (hf _ _ hLow hHigh).alike _ _ ⟨_, rfl, depth, mark, rfl, hLow, hHigh⟩

theorem reserve_steady (purpose : LocalPurpose) (type : JavaType) :
    Steady k (reserve purpose type) (reserve purpose type) :=
  onBuffer_parallel (CodeBuffer.reserve_steady purpose type)

/-- What a state holds besides its buffer may be asked for. -/
theorem get_steady {f : EmitState → Emit α} (hf : ∀ s, Steady k (f s) (f s))
    (hSame : ∀ (s : EmitState) c, f { s with code := c } = f s := by intros; rfl) :
    Steady k (get >>= f) (get >>= f) := by
  refine .get fun s t h => ?_
  obtain ⟨c, rfl, -⟩ := h
  rw [hSame s c]
  exact hf s

theorem modify_steady {f : EmitState → EmitState}
    (hSame : ∀ (s : EmitState) c, f { s with code := c } = { f s with code := c } := by intros; rfl)
    (hCode : ∀ s, (f s).code = s.code := by intros; rfl) :
    Steady k (modify f) (modify f) := by
  refine .modify fun s t h => ?_
  obtain ⟨c, rfl, hc⟩ := h
  exact ⟨c, hSame .., by rwa [hCode s]⟩

theorem slotOf_steady (ctx : TypingContext) (v : Variable) : Steady k (slotOf ctx v) (slotOf ctx v) := by
  refine get_steady fun s => ?_
  split
  · exact .pure _
  · exact .bind (lift_steady _) fun _ => .bind (reserve_steady ..) fun _ => .bind modify_steady fun _ => .pure _

theorem accessor_steady (owner : String)
    (request : AccessorTable → Except CompileError (SyntheticMethod × AccessorTable)) :
    Steady k (accessor owner request) (accessor owner request) :=
  get_steady fun _ => .bind (lift_steady _) fun _ => .bind modify_steady fun _ => .pure _

/-- Not to depend on the words that are on the operand stack, as a law. -/
def steadiness (k : Nat) : Law where
  Holds x := Steady k x x
  allowed _ := True
  strict := False
  lenient _ _ := trivial
  liberal _ _ := trivial
  ofPure := .pure
  ofThrow _ := .throw _
  ofBind := .bindOf
  ofAppend _ _ := onBuffer_parallel (.modify fun _ _ h => h.appendWith ..)
  ofPool _ := pool_steady _
  ofInvoke _ _ _ _ := onBuffer_parallel (CodeBuffer.emitInvoke_steady _ _ _)
  ofAccessor _ hf := .bind (accessor_steady ..) fun m => hf m False.elim

end Emit

open Emit

/-- Not to depend on the words that are on the operand stack, as a law for statements. -/
def independence (ctx : TypingContext) (k : Nat) : StatementLaw ctx where
  toLaw := steadiness k
  known _ := True
  fair := .of_all fun _ => trivial
  safe := False.elim
  ofSlot _ := slotOf_steady ..
  Jumps _ x := Steady k x x
  jumpNone _ := .pure _
  jumpThrow _ := .throw _
  jumpAfter := .bind
  jumpBranch := branch_steady
  jumpReturn _ hx _ := .bind hx fun _ => .pure _
  jumpBoth hx hy := .bind hx fun _ => .bind hy fun _ => .pure _
  jumpSkip hx hy := .bind hx fun _ => .bind hy fun _ => .bind (land_steady _) fun _ => .pure _
  ofTruth hJump := depth_steady fun _ _ hLow hHigh => .bind hJump fun _ => .bind (emit_steady _) fun _ =>
    .ite (.pure _) <| .bind (branch_steady _) fun _ => .bind (land_steady _) fun _ =>
      .bind (setDepth_parallel hLow hHigh) fun _ => .bind (emit_steady _) fun _ => .bind (land_steady _) fun _ =>
        .pure _
  ofChoice _ hTest hx hf hy hg := depth_steady fun _ _ hLow hHigh => .bind hTest fun _ => .bind hx fun _ =>
    .bind (hf _) fun _ => .bind (branch_steady _) fun _ => .bind (land_steady _) fun _ =>
      .bind (setDepth_parallel hLow hHigh) fun _ => .bind hy fun _ => .bind (hg _) fun _ =>
        .bind (land_steady _) fun _ => .pure _
  Places x := Steady k x x
  Writes _ _ x := Steady k x x
  placeThrow _ := .throw _
  placeAfter := .bind
  placeSlot _ _ := .bind (slotOf_steady ..) fun _ => .pure _
  placeField _ := .pure _
  placeElement _ := .pure _
  ofPlace hx hf := .bind hx fun l => hf l False.elim
  writeNone := id
  writeAfter := .bind
  writeLocal _ _ hk := .bind (emit_steady _) hk
  Runs _ _ _ x := Steady k x x
  runPure _ := .pure _
  runBind := .bind
  runHolds := id
  runJumps := id
  runPatch _ _ := patchAll_steady ..
  runSwitch _ hBody hf := .bind (onBuffer_parallel (CodeBuffer.emit_steady _)) fun _ =>
    .bind (setDepth_steady _) fun _ => .bind hBody fun _ => .bind here_steady fun _ =>
      .bind (onBuffer_parallel (CodeBuffer.patchSwitch_steady _ _ _)) fun _ => hf _ _
  runResults hSame hf := get_steady hf fun _ _ => hSame _ _ rfl
  ofResults _ := modify_steady
  ofHere := here_steady
  ofDepth := setDepth_steady
  ofGoto _ := onBuffer_parallel (CodeBuffer.emitGoto_steady _)
  ofHandler _ _ _ _ := onBuffer_parallel (CodeBuffer.addHandler_steady _ _ _ _)
  ofInstruction := emit_steady
  ofReserve _ _ := reserve_steady ..

theorem independence_covers (ctx : TypingContext) (k : Nat) : (independence ctx k).Covers :=
  ⟨fun _ _ _ _ => trivial, fun _ _ _ _ => ⟨False.elim, fun _ _ => trivial⟩⟩

section

variable {ctx : TypingContext} {k : Nat}

theorem jump_steady (e : Expr) (wanted : Bool) : Steady k ((ctx.compile e).jump wanted) ((ctx.compile e).jump wanted) :=
  (compile_follows (independence_covers ctx k) False.elim fun _ _ => trivial).jump wanted

theorem compileStmt_steady (s : Stmt) (flow : Flow) : Steady k (compileStmt ctx s flow) (compileStmt ctx s flow) :=
  compileStmt_follows (L := independence ctx k) (fun _ _ _ _ => trivial) s
    ⟨fun _ => (independence_covers ctx k).forwardCode, False.elim, fun _ _ => trivial⟩ flow []

/-- The code of statements does not depend on the words that are on the operand stack before. -/
theorem compileBlock_steady (body : List Stmt) (flow : Flow) :
    Steady k (compileBlock ctx body flow) (compileBlock ctx body flow) :=
  compileBlock_follows (L := independence ctx k) (fun _ _ _ _ => trivial) body
    ⟨fun _ => (independence_covers ctx k).forwardCode, False.elim, fun _ _ => trivial⟩ flow []

end

/-! Statements that set the depth anew. -/

namespace Emit

open EmitState (Deeper)

variable {α β : Type}

/-- Emission at whose end the operand stack is said to be empty. -/
def Empties (x : Emit α) : Prop := ∀ s a t, x s = .ok a t → t.code.depth = 0

namespace Empties

variable {x : Emit α}

theorem throw (e : CompileError) : Empties (throw e : Emit α) := fun _ _ _ h => (not_throw_ok h).elim

theorem after {f : α → Emit β} (hf : ∀ a, Empties (f a)) : Empties (x >>= f) := by
  intro s b t h
  obtain ⟨a, r, -, hRest⟩ := bind_ok.1 h
  exact hf a r b t hRest

theorem ite {c : Prop} [Decidable c] {y : Emit α} (hx : Empties x) (hy : Empties y) : Empties (if c then x else y) := by
  split
  · exact hx
  · exact hy

/-- A part that is left out unless a condition holds. -/
theorem onlyIf {c : Prop} [Decidable c] {k : Emit β} (hk : Empties k) :
    Empties (if c then x >>= fun _ => k else k) := .ite (.after fun _ => hk) hk

theorem giving (hx : Empties x) (f : α → β) : Empties (x >>= fun a => pure (f a)) := by
  intro s b t h
  obtain ⟨a, r, hFirst, hRest⟩ := bind_ok.1 h
  obtain ⟨-, rfl⟩ := pure_ok.1 hRest
  exact hx s a r hFirst

theorem depth : Empties (setDepth 0) := by
  intro s u t h
  obtain rfl := setDepth_ok.1 h
  rfl

theorem land (hx : Empties x) (sites : List Nat) : Empties (x >>= fun _ => Emit.land sites) := by
  intro s u t h
  obtain ⟨a, r, hFirst, hRest⟩ := bind_ok.1 h
  obtain ⟨-, -, _, rfl⟩ := patchAll_ok (land_ok.1 hRest)
  exact hx s a r hFirst

end Empties

/-- Emission after which the words that were on the operand stack before no longer count. -/
def Forgets (x : Emit α) : Prop := ∀ k, Parallel (Deeper k) (Deeper k) (Deeper 0) x x

namespace Forgets

variable {x : Emit α}

theorem first {f : α → Emit β} (hx : Forgets x) (hf : ∀ a, Steady 0 (f a) (f a)) : Forgets (x >>= f) :=
  fun k => .bind (hx k) fun a => (hf a).mono fun _ _ h => h.mono (Nat.zero_le k)

theorem after {f : α → Emit β} (hx : ∀ k, Steady k x x) (hf : ∀ a, Forgets (f a)) : Forgets (x >>= f) :=
  fun k => .bind (hx k) fun a => hf a k

theorem setDepth (depth : Int) : Forgets (setDepth depth) := fun _ => setDepth_parallel (by omega) (by omega)

theorem of_empties (hx : ∀ k, Steady k x x) (hEmpties : Empties x) : Forgets x := by
  refine fun k => ⟨fun s t h => ?_⟩
  have hRun := (hx k).alike s t h
  cases hs : x s with
  | ok a s' =>
    cases ht : x t with
    | ok b t' =>
      rw [hs, ht] at hRun
      cases hRun with
      | ok _ hDeeper =>
        obtain ⟨_, rfl, depth, mark, rfl, -, -⟩ := hDeeper
        have hLeft : s'.code.depth = 0 := hEmpties s a s' hs
        have hRight : depth = 0 := hEmpties t a _ ht
        exact .ok a ⟨_, rfl, depth, mark, rfl, by omega, by omega⟩
    | error e t' =>
      rw [hs, ht] at hRun
      cases hRun
  | error e s' =>
    rw [hs] at hRun
    generalize x t = second at hRun
    cases hRun with
    | error _ h => exact .error e h

end Forgets

/-- The end of a statement at which its paths come together. -/
theorem Empties.last (a : α) : Empties (do
    Emit.setDepth 0
    return a) := Empties.depth.giving fun _ => a

theorem jumpOut_empties (flow : Flow) (exit : Exit) : Empties (jumpOut flow exit) := by
  refine .after fun depth => ?_
  split
  · exact .onlyIf (.after fun _ => .last _)
  · exact .after fun _ => .last _

theorem returnThrough_empties (result : JavaType) (hooks : List Hook) : Empties (returnThrough result hooks) := by
  induction hooks with
  | nil => exact .after fun _ => .last _
  | cons hook rest ih =>
    cases hook with
    | monitor slot => exact .after fun _ => .after fun _ => ih
    | lastPart frame => exact .ite (.after fun _ => .after fun _ => .after fun _ => .last _) (.after fun _ => .last _)

end Emit

namespace StmtCode

variable {ctx : TypingContext} {test : Expr} {body : StmtCode} (flow : Flow)

theorem whileLoop_empties : Empties (whileLoop ctx test body flow) :=
  .after fun _ => .after fun _ => .after fun _ => .onlyIf <| .after fun _ => .after fun _ => .after fun _ => .last _

theorem doLoop_empties : Empties (doLoop ctx body test flow) :=
  .after fun _ => .after fun _ => .after fun _ => .ite
    (.after fun _ => .after fun _ => .after fun _ => .last _) (.after fun _ => .last _)

theorem forLoop_empties {init : StmtCode} {test : Option Expr} {update : List Expr} :
    Empties (forLoop ctx init test update body flow) := by
  refine .after fun _ => .after fun _ => ?_
  cases test with
  | none | some =>
    exact .after fun _ => .after fun _ => .after fun _ => .ite
      (.after fun _ => .after fun _ => .after fun _ => .after fun _ => .last _)
      (.after fun _ => .after fun _ => .last _)

theorem switch_empties {labels : List (List Expr)} {groups : List (Bool × StmtCode)} :
    Empties (switch ctx test labels groups flow) :=
  .after fun _ => .after fun _ => .after fun _ => .after fun _ => .after fun _ => .after fun _ => .after fun _ =>
    .after fun _ => .after fun _ => .last _

theorem ret_empties {value : Option Expr} : Empties (ret ctx value flow) := by
  have hLeave : Empties (do return (⟨false, ← returnThrough ctx.result flow.hooks⟩ : Outcome)) :=
    .giving (returnThrough_empties _ _) _
  cases value with
  | none => exact .onlyIf hLeave
  | some value => exact .after fun _ => .ite (.after fun _ => hLeave) (.after fun _ => hLeave)

theorem raise_empties : Empties (raise ctx test flow) := .after fun _ => .after fun _ => .last _

theorem jump_empties (exit : Exit) : Empties (jump exit flow) := .giving (jumpOut_empties flow exit) _

theorem tryBlock_empties {catches : List (Variable × StmtCode)} {last : Option StmtCode} :
    Empties (tryBlock ctx body catches last flow) := by
  refine .after fun _ => .after fun _ => .after fun _ => .after fun _ => .after fun _ => .onlyIf <| .after fun _ =>
    .after fun _ => ?_
  cases last with
  | none => exact .after fun _ => .after fun _ => .last _
  | some =>
    exact .after fun _ => .after fun _ => .after fun _ => .after fun _ => .after fun _ => .after fun _ => .last _

theorem synchronized_empties : Empties (synchronized ctx test body flow) := by
  refine .after fun _ => .onlyIf <| .after fun _ => .after fun _ => .after fun _ => .after fun _ => .after fun _ =>
    .after fun _ => .ite (.after fun _ => .after fun _ => ?_) ?_
  all_goals
    refine .after fun _ => .ite (.after fun _ => ?_) (.after fun _ => ?_) <;>
      exact .after fun _ => .after fun _ => .after fun _ => .after fun _ => .after fun _ => .after fun _ =>
        .after fun _ => .after fun _ => .onlyIf ((Empties.depth.land _).giving fun _ => _)

end StmtCode

mutual

/-- Whether the code of a statement always sets the depth of the operand stack anew. -/
def Stmt.resets : Stmt → Bool
  | .block body => Stmt.resetsAny body
  | .ifThen _ body | .labeled _ body => body.resets
  | .decl _ | .expr _ | .empty => false
  | .ifElse .. | .whileLoop .. | .doLoop .. | .forLoop .. | .switch .. | .tryCatch .. | .tryFinally ..
  | .synchronized .. | .ret _ | .raise _ | .breakTo _ | .continueTo _ => true

def Stmt.resetsAny : List Stmt → Bool
  | [] => false
  | s :: rest => s.resets || Stmt.resetsAny rest

end

section

variable {ctx : TypingContext}

mutual

/-- The code of a statement that sets the depth anew forgets the words that were on the operand stack before. -/
theorem compileStmt_forgets : (s : Stmt) → s.resets = true → ∀ flow, Forgets (compileStmt ctx s flow)
  | .block body, hs, flow => by
    rw [compileStmt]
    exact compileBlock_forgets body (by simpa [Stmt.resets] using hs) flow
  | .ifThen test body, hs, flow => by
    rw [compileStmt]
    exact .after (fun _ => jump_steady test false) fun _ =>
      .first (compileStmt_forgets body (by simpa [Stmt.resets] using hs) flow) fun _ => .bind (land_steady _) fun _ =>
        .pure _
  | .labeled _ body, hs, flow => by
    rw [compileStmt]
    exact compileStmt_forgets body (by simpa [Stmt.resets] using hs) flow
  | .ifElse test body otherwise, _, flow => by
    rw [compileStmt]
    have hRest (sites done : List Nat) (f : Outcome → Outcome) : Forgets (do
        land sites
        setDepth 0
        let b ← compileStmt ctx otherwise flow
        land done
        return f b) :=
      .after (fun _ => land_steady _) fun _ => .first (.setDepth 0) fun _ => .bind (compileStmt_steady otherwise flow)
        fun _ => .bind (land_steady _) fun _ => .pure _
    refine .after (fun _ => jump_steady test false) fun _ => .after (fun _ => compileStmt_steady body flow) fun a => ?_
    dsimp only
    split
    · exact .after (fun _ => map_eq_pure_bind (m := Emit) _ goto ▸ .bind (branch_steady _) fun _ => .pure _) fun _ =>
        hRest _ _ _
    · exact hRest _ _ _
  | .whileLoop test body, _, flow => .of_empties (fun _ => compileStmt_steady _ flow) (by
    rw [compileStmt]
    exact StmtCode.whileLoop_empties flow)
  | .doLoop body test, _, flow => .of_empties (fun _ => compileStmt_steady _ flow) (by
    rw [compileStmt]
    exact StmtCode.doLoop_empties flow)
  | .forLoop init test update body, _, flow => .of_empties (fun _ => compileStmt_steady _ flow) (by
    rw [compileStmt]
    exact StmtCode.forLoop_empties flow)
  | .switch selector cases, _, flow => .of_empties (fun _ => compileStmt_steady _ flow) (by
    rw [compileStmt]
    exact StmtCode.switch_empties flow)
  | .tryCatch body catches, _, flow => .of_empties (fun _ => compileStmt_steady _ flow) (by
    rw [compileStmt]
    exact StmtCode.tryBlock_empties flow)
  | .tryFinally body catches last, _, flow => .of_empties (fun _ => compileStmt_steady _ flow) (by
    rw [compileStmt]
    exact StmtCode.tryBlock_empties flow)
  | .synchronized lock body, _, flow => .of_empties (fun _ => compileStmt_steady _ flow) (by
    rw [compileStmt]
    exact StmtCode.synchronized_empties flow)
  | .ret value, _, flow => .of_empties (fun _ => compileStmt_steady _ flow) (StmtCode.ret_empties flow)
  | .raise value, _, flow => .of_empties (fun _ => compileStmt_steady _ flow) (StmtCode.raise_empties flow)
  | .breakTo none, _, flow | .continueTo none, _, flow =>
    .of_empties (fun _ => compileStmt_steady _ flow) (StmtCode.jump_empties flow _)
  | .breakTo (some _), _, flow | .continueTo (some _), _, flow =>
    .of_empties (fun _ => compileStmt_steady _ flow) (.throw _)

theorem compileBlock_forgets : (body : List Stmt) → Stmt.resetsAny body = true → ∀ flow,
    Forgets (compileBlock ctx body flow)
  | s :: rest, hBody, flow => by
    rw [compileBlock]
    rw [Stmt.resetsAny, Bool.or_eq_true] at hBody
    rcases hBody with hs | hRest
    · exact .first (compileStmt_forgets s hs flow) fun _ => .bind (compileBlock_steady rest flow) fun _ => .pure _
    · exact .after (fun _ => compileStmt_steady s flow) fun _ =>
        .first (compileBlock_forgets rest hRest flow) fun _ => .pure _

end

end

/-! Sessions. -/

namespace Session

variable {α : Type}

/-- Sessions whose open buffers differ in what they say of the operand stack alone. -/
def Deeper (k : Nat) (s t : Session) : Prop := ∃ c, t = { s with code := c } ∧ s.code.Deeper k c

/-- The statements of a source text as they are compiled. -/
def statements (source : String) : SessionM (List Stmt) := do
  let body ← read readStatements source
  let ctx := (← get).context
  checked ctx.checkBlock body

/-- Whether a source text has statements that always set the depth of the operand stack anew. -/
def resets (s : Session) (source : String) : Bool :=
  match statements source s with
  | .ok body _ => Stmt.resetsAny body
  | .error _ _ => false

variable {k n : Nat}

/-- What a session holds besides its buffer may be asked for. -/
theorem get_parallel {f : Session → SessionM α} (hf : ∀ s, Parallel (Deeper k) (Deeper k) (Deeper k) (f s) (f s))
    (hSame : ∀ (s : Session) c, f { s with code := c } = f s := by intros; rfl) :
    Parallel (Deeper k) (Deeper k) (Deeper k) (get >>= f) (get >>= f) := by
  refine .get fun s t h => ?_
  obtain ⟨c, rfl, -⟩ := h
  rw [hSame s c]
  exact hf s

theorem read_parallel (reader : Reader α) (source : String) :
    Parallel (Deeper k) (Deeper k) (Deeper k) (read reader source) (read reader source) := by
  refine .get fun s t h => ?_
  obtain ⟨c, rfl, hc⟩ := h
  refine .bind (Q := Deeper k) ⟨fun _ _ _ => .ok _ ⟨c, rfl, hc⟩⟩ fun _ => ?_
  dsimp only
  split
  · exact .pure _
  · exact .throw _

theorem checked_parallel {β : Type} (check : α → Checked α β) (tree : α) :
    Parallel (Deeper k) (Deeper k) (Deeper k) (checked check tree) (checked check tree) := by
  refine get_parallel fun s => .ite (.bind ?_ fun _ => .pure _) (.pure _)
  show Parallel _ _ _ (ofExcept _) (ofExcept _)
  cases (check tree).outcome with
  | ok b => exact .pure b
  | error e => exact .throw e

theorem emit_parallel {x : Emit α} (h : Parallel (EmitState.Deeper k) (EmitState.Deeper k) (EmitState.Deeper n) x x) :
    Parallel (Deeper k) (Deeper k) (Deeper n) (emit x) (emit x) := by
  refine ⟨fun s t hst => ?_⟩
  obtain ⟨c, rfl, hc⟩ := hst
  have hRun := h.alike ⟨s.code, s.pool, s.locals.slots, s.accessors, #[]⟩ ⟨c, s.pool, s.locals.slots, s.accessors, #[]⟩
    ⟨c, rfl, hc⟩
  simp only [emit, emitInto, EStateM.run]
  generalize x ⟨s.code, s.pool, s.locals.slots, s.accessors, #[]⟩ = first,
    x ⟨c, s.pool, s.locals.slots, s.accessors, #[]⟩ = second at hRun
  cases hRun with
  | ok a h =>
    obtain ⟨_, rfl, h⟩ := h
    exact .ok a ⟨_, rfl, h⟩
  | error e h =>
    obtain ⟨_, rfl, h⟩ := h
    exact .error e ⟨_, rfl, h⟩

/-- Statements are read and checked before their code is emitted. -/
theorem compileStatements_eq (source : String) (s : Session) :
    compileStatements source s = match statements source s with
      | .ok body r => emit (do let _ ← compileBlock r.context body .top) r
      | .error e r => .error e r := by
  simp only [compileStatements, statements, bind, EStateM.bind]
  cases read readStatements source s with
  | error e r => rfl
  | ok body r =>
    simp only [get, getThe, MonadStateOf.get, EStateM.get, checked, bind, EStateM.bind]
    cases r.options.typeCheck with
    | false => rfl
    | true => cases (r.context.checkBlock body).outcome <;> rfl

/-- Statements are compiled alike whatever is on the operand stack before, and so are the sessions after them: the depth
differs by no more words than before. It does not differ at all if some statement sets it anew, so all words that
expressions left there are forgotten. -/
theorem compileStatements_deeper {s t : Session} (h : s.Deeper k t) (source : String) :
    Alike (Deeper k) (Deeper (if s.resets source then 0 else k)) (compileStatements source s)
      (compileStatements source t) := by
  have hRead : Parallel (Deeper k) (Deeper k) (Deeper k) (statements source) (statements source) :=
    .bind (read_parallel _ _) fun _ => get_parallel fun _ => checked_parallel _ _
  have hStatements := hRead.alike s t h
  rw [compileStatements_eq, compileStatements_eq, resets]
  generalize statements source s = first, statements source t = second at hStatements
  cases hStatements with
  | error e h => exact .error e h
  | ok body h =>
    obtain ⟨c, rfl, hc⟩ := h
    dsimp only
    split
    · next hResets =>
      refine (emit_parallel ?_).alike _ _ ⟨c, rfl, hc⟩
      exact (compileBlock_forgets body hResets .top).first (fun _ => .pure _) k
    · exact (emit_parallel (.bind (compileBlock_steady body .top) fun _ => .pure _)).alike _ _ ⟨c, rfl, hc⟩

theorem depth_of_alike {x : SessionM Unit} {s t : Session} {d : Int} (h : Alike (Deeper k) (Deeper 0) (x s) (x t))
    (hRun : EStateM.run' (do
      x
      return (← get).code.depth) s = some d) : ∃ r, x t = .ok () r ∧ r.code.depth = d := by
  simp only [EStateM.run', EStateM.run, bind, EStateM.bind] at hRun
  generalize x s = first, x t = second at h hRun
  cases h with
  | error e h => cases hRun
  | ok u h =>
    obtain ⟨_, rfl, depth, mark, rfl, hLow, hHigh⟩ := h
    cases hRun
    exact ⟨_, rfl, Int.le_antisymm (by simpa using hHigh) hLow⟩

/-- The expression `1` leaves its value on the stack. A loop without effect forgets the word. -/
theorem compileStatements_deeper_loop :
    ∃ s, compileExpression "1" (start ⟨[]⟩ "A" default .empty) = .ok .int s ∧ s.code.depth = 1 ∧
      ∃ t, compileStatements "do ; while (false);" s = .ok () t ∧ t.code.depth = 0 := by
  let empty := start ⟨[]⟩ "A" default .empty
  let s : Session := { empty with code := empty.code.append (.iconst ⟨2, by decide⟩) }
  refine ⟨s, rfl, rfl, ?_⟩
  let bare : Session := { s with code := { s.code with depth := 0, maxStack := 0 } }
  have hDeeper : bare.Deeper 1 s := ⟨_, rfl, 1, 1, rfl, by decide, by decide⟩
  have hAlike := compileStatements_deeper hDeeper "do ; while (false);"
  rw [show bare.resets "do ; while (false);" = true by decide +kernel, if_pos rfl] at hAlike
  exact depth_of_alike hAlike (by decide +kernel)

end Session

end JavaFragment
