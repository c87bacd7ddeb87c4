import JavaFragment.Proofs.MethodBodies
/-!
The code arrays of statements and methods. Control does not come to the end of a statement that does not
complete, and a method whose body was given its return does not run past its last instruction. Code that
nothing leads to may end otherwise.
-/
namespace JavaFragment

open Emit

theorem CodeBuffer.pc_le_of_finish {b : CodeBuffer} {code : MethodCode} (h : b.finish = .ok code) :
    b.pc ≤ longestBody := by
  unfold finish at h
  split at h
  · cases h
  · omega

/-- Control that starts a statement which does not complete leaves it by exits that wait only. -/
theorem compileStmt_end_unreached {ctx : TypingContext} {stmt : Stmt} {flow : Flow} {s t : EmitState}
    {o : Outcome} (hs : s.code.Consistent) (h : compileStmt ctx stmt flow s = .ok o t)
    (hPc : t.code.pc < 2147483648) (hStops : o.completes = false) :
    ¬ t.code.Reaches s.next t.next (pendingAt o.pending) (Added s t) s.code.pc t.code.pc := by
  intro hReaches
  have hStretch : Paths.Stretch False s t _ _ _ := (compileStmt_flows stmt flow s o t h).stretch
  have ht := hStretch.later.consistent hs
  obtain ⟨reached, hStart, -, -, hEnd, hClosed⟩ := hStretch.flow hs hPc
  have hPlace : t.code.address s.next = s.code.pc :=
    (hStretch.later.code.address_eq s.next (Nat.le_of_eq hs.sizes.symm)).trans hs.address_size
  rw [← hPlace] at hReaches
  obtain ⟨k, hk, hLast⟩ := hClosed.reaches_on ht hStart hReaches
  have hSame : t.next = k := ht.address_inj (Nat.le_refl _) (hClosed.within k hk).2
    (ht.address_size.trans hLast)
  rw [← hSame] at hk
  rcases hEnd hk with hNo | hYes
  · exact hNo
  · rw [hStops] at hYes
    cases hYes

/-- What is reached in the body of a method that is given its return. -/
structure BodyPaths (whole : Prop) (b : CodeBuffer) (reached : Nat → Prop) : Prop where
  start : reached 0
  all : whole → ∀ k, k < b.instructions.size → reached k
  last : reached b.instructions.size → whole
  closed : Paths.Closed b 0 (fun _ => False) (· ∈ b.handlers.toList) reached

theorem methodBody_paths {source : String} {s r : Session} {z : EmitState} (whole : Prop)
    (h : Session.methodBody source s = .ok (some z) r) (hReturn : s.options.appendReturn = true)
    (hPc : z.code.pc < 2147483648) :
    z.code.Consistent ∧ ∃ reached, BodyPaths whole z.code reached := by
  have hOptions := Session.methodBody_options h
  obtain ⟨decl, _, result, params, _, locals, tree, -, -, -, -, -, -, hEmit⟩ := Session.methodBody_ok h
  rw [hOptions, hReturn] at hEmit
  have hStretch : Paths.Stretch whole _ z _ _ _ := emitMethod_stretch hEmit
  have hFirst := CodeBuffer.consistent_withLocals locals
  obtain ⟨reached, hStart, -, hAll, hEnd, hClosed⟩ := hStretch.flow hFirst hPc
  exact ⟨hStretch.later.consistent hFirst, reached, hStart, fun hWhole k => hAll hWhole k (Nat.zero_le k),
    fun hReached => (hEnd hReached).resolve_right nofun, hClosed⟩

/-- Addresses at which instructions start. -/
def CodeBuffer.Starts (b : CodeBuffer) (pc : Nat) : Prop := ∃ k, k < b.instructions.size ∧ b.address k = pc

theorem CodeBuffer.Starts.fetch {p : Program} (hp : p.code.Consistent) {pc : Nat} (h : p.code.Starts pc) :
    (p.fetch pc).isSome := by
  obtain ⟨k, hLt, rfl⟩ := h
  rw [Program.fetch_address hp (Array.getElem?_eq_getElem hLt)]
  rfl

/-- What control comes to in a body, from its first instruction on. -/
abbrev CodeBuffer.Enters (b : CodeBuffer) : Nat → Prop :=
  b.Reaches 0 b.instructions.size (fun _ => False) (· ∈ b.handlers.toList) 0

namespace BodyPaths

variable {whole : Prop} {b : CodeBuffer} {reached : Nat → Prop}

/-- Control that starts a body stays in it. -/
theorem starts_of_enters (h : BodyPaths False b reached) (hb : b.Consistent) {pc : Nat}
    (hEnters : b.Enters pc) : b.Starts pc := by
  have hFrom : b.Reaches 0 b.instructions.size (fun _ => False) (· ∈ b.handlers.toList) (b.address 0) pc := by
    rw [hb.first]
    exact hEnters
  obtain ⟨k, hk, rfl⟩ := h.closed.reaches_on hb h.start hFrom
  refine ⟨k, Nat.lt_of_le_of_ne (h.closed.within k hk).2 fun hEnd => ?_, rfl⟩
  rw [hEnd] at hk
  exact h.last hk

theorem target_of_whole (h : BodyPaths whole b reached) (hWhole : whole) {k : Nat} {i : Instruction}
    {offset : Int} (hAt : b.instructions[k]? = some i) (hOffset : offset ∈ i.offsets) :
    ∃ j, j ≤ b.instructions.size ∧ (b.address k : Int) + offset = b.address j := by
  have hLt := (Array.getElem?_eq_some_iff.1 hAt).1
  obtain ⟨i', hAt', -, hJumps⟩ := h.closed.goes k (h.all hWhole k hLt) hLt
  rw [hAt] at hAt'
  cases hAt'
  obtain ⟨j, hj, hTarget⟩ := hJumps id offset hOffset
  exact ⟨j, (h.closed.within j hj).2, hTarget⟩

end BodyPaths

/-- A run of a body stays where control can come to. -/
theorem confines_enters {p : Program} (hp : ∀ pc, p.code.Enters pc → p.code.Starts pc) : p.Confines p.code.Enters where
  address := hp
  goes _ _ hEnters hGoes := hEnters.tail hGoes

/-- A computation that succeeds, by running it. -/
theorem Emit.exists_ok {α σ : Type} (x : EStateM CompileError σ α) (s : σ) (test : α → σ → Bool)
    (h : (match x s with | .ok a t => test a t | .error _ _ => false) = true) :
    ∃ a t, x s = .ok a t ∧ test a t = true := by
  cases hRun : x s with
  | ok a t => exact ⟨a, t, rfl, by rwa [hRun] at h⟩
  | error e t =>
    rw [hRun] at h
    cases h

theorem Session.exists_method (source : String) (s : Session) (code : MethodCode)
    (h : (match compileMember source s with | .ok (.method m) _ => m.code | _ => none) = some code) :
    ∃ m s', compileMember source s = .ok (.method m) s' ∧ m.code = some code := by
  split at h
  · next m s' hRun => exact ⟨m, s', hRun, h⟩
  · cases h

/-- The body of a method that is given its return, as a code array. Branches and switches lead to
instructions, and rows of the exception table cover instructions. The last instruction is terminal, unless
nothing leads to it. A branch that nothing leads to may go to the end of the code. -/
theorem code_array_valid {source : String} {s s' : Session} {m : CompiledMethod} {code : MethodCode}
    (hReturn : s.options.appendReturn = true) (h : Session.compileMember source s = .ok (.method m) s')
    (hCode : m.code = some code) :
    ∃ z r, Session.methodBody source s = .ok (some z) r ∧ z.code.finish = .ok code ∧
      (∀ k i offset, z.code.instructions[k]? = some i → offset ∈ i.offsets →
        ∃ j, (z.code.address k : Int) + offset = z.code.address j ∧ j ≤ z.code.instructions.size ∧
          (z.code.Enters (z.code.address k) → j < z.code.instructions.size)) ∧
      (∀ row ∈ z.code.handlers.toList, row.start < row.stop ∧ z.code.Starts row.start.toNat ∧
        z.code.Starts row.handler.toNat ∧
        (z.code.Starts row.stop.toNat ∨ row.stop.toNat = z.code.pc)) ∧
      ∀ k i, z.code.instructions[k]? = some i → k + 1 = z.code.instructions.size →
        z.code.Enters (z.code.address k) → i.isTerminal = true := by
  obtain ⟨z, r, hBody, hFinish, -⟩ := Session.methodBody_of_compileMember h hCode
  have hPc := Nat.lt_of_le_of_lt (CodeBuffer.pc_le_of_finish hFinish) (by decide : 65535 < 2147483648)
  obtain ⟨hz, _, hAll⟩ := methodBody_paths True hBody hReturn hPc
  obtain ⟨-, _, hEntered⟩ := methodBody_paths False hBody hReturn hPc
  have hInside {k : Nat} (hk : k ≤ z.code.instructions.size) (hEnters : z.code.Enters (z.code.address k)) :
      k < z.code.instructions.size := by
    obtain ⟨j, hj, hSame⟩ := hEntered.starts_of_enters hz hEnters
    rwa [hz.address_inj hk (Nat.le_of_lt hj) hSame.symm]
  refine ⟨z, r, hBody, hFinish, ?_, ?_, ?_⟩
  · intro k i offset hAt hOffset
    obtain ⟨j, hj, hTarget⟩ := hAll.target_of_whole trivial hAt hOffset
    have hLt := (Array.getElem?_eq_some_iff.1 hAt).1
    exact ⟨j, hTarget, hj, fun hEnters => hInside hj (hEnters.tail (.jump (Nat.zero_le k) hLt hAt hOffset id hTarget))⟩
  · intro row hRow
    obtain ⟨first, last, handler, hAt, -⟩ := hAll.closed.guards row hRow
    have hLast := hAt.last_le
    refine ⟨?_, ⟨first, Nat.lt_of_lt_of_le hAt.nonempty hLast, hAt.start_eq.symm⟩,
      ⟨handler, hAt.handler_lt, hAt.handler_eq.symm⟩, ?_⟩
    · rw [UInt16.lt_iff_toNat_lt, hAt.start_eq, hAt.stop_eq]
      exact hz.address_lt hAt.nonempty hLast
    · rcases Nat.lt_or_eq_of_le hLast with hInside | rfl
      · exact .inl ⟨last, hInside, hAt.stop_eq.symm⟩
      · exact .inr (hAt.stop_eq.trans hz.address_size)
  · intro k i hAt hSize hEnters
    cases hTerminal : i.isTerminal with
    | true => rfl
    | false =>
      have hPast : z.code.Enters (z.code.address (k + 1)) :=
        hEnters.tail (.next (Nat.zero_le k) (by omega) hAt hTerminal)
      have := hInside (Nat.le_of_eq hSize) hPast
      omega

/-- What follows a statement that cannot complete need not end with a terminal instruction. -/
theorem code_array_valid_dead_branch : let source := "static void f(int x) { if (true) return; else x = 2; }"
    let start : Session := .start default "A" default default
    start.options.appendReturn = true ∧ start.options.typeCheck = true ∧
      ∃ m s', Session.compileMember source start = .ok (.method m) s' ∧
        m.code = some ⟨[177, 5, 59], 1, 1, []⟩ ∧
        ∃ z r, Session.methodBody source start = .ok (some z) r ∧
          z.code.finish = .ok ⟨[177, 5, 59], 1, 1, []⟩ ∧
          ∀ k i, z.code.instructions[k]? = some i → k + 1 = z.code.instructions.size →
            z.code.Enters (z.code.address k) → i.isTerminal = true := by
  intro source start
  obtain ⟨m, s', hMethod, hCode⟩ := Session.exists_method source start ⟨[177, 5, 59], 1, 1, []⟩
    (by decide +kernel)
  obtain ⟨z, r, hBody, hFinish, -, -, hLast⟩ := code_array_valid rfl hMethod hCode
  exact ⟨rfl, rfl, m, s', hMethod, hCode, z, r, hBody, hFinish, hLast⟩

end JavaFragment
