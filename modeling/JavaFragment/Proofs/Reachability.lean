import JavaFragment.Proofs.StatementFlow
import Mathlib.Logic.Relation
/-!
What emitted code can reach. Control goes from an instruction to the next one, to the targets of branches
and switches and to handlers. The machine goes nowhere else. The end of a statement that does not count as
passed is out of reach of its start.
-/
namespace JavaFragment

open Emit

/-- Where control can go from an address in a part of the code, which holds the instructions from one index
up to another. Some branches lead out of the part. -/
inductive CodeBuffer.Goes (b : CodeBuffer) (first last : Nat) (out : Nat → Prop)
    (rows : HandlerRange → Prop) : Nat → Nat → Prop
  /-- On to the next instruction. -/
  | next {k : Nat} {i : Instruction} (hFirst : first ≤ k) (hLast : k < last)
      (hAt : b.instructions[k]? = some i) (hFalls : i.isTerminal = false) :
      Goes b first last out rows (b.address k) (b.address (k + 1))
  /-- To a target of a branch or a switch. -/
  | jump {k target : Nat} {i : Instruction} {offset : Int} (hFirst : first ≤ k) (hLast : k < last)
      (hAt : b.instructions[k]? = some i) (hOffset : offset ∈ i.offsets) (hInside : ¬ out k)
      (hTarget : (b.address k : Int) + offset = target) :
      Goes b first last out rows (b.address k) target
  /-- To a handler that covers the instruction. -/
  | handle {k : Nat} {row : HandlerRange} (hFirst : first ≤ k) (hLast : k < last) (hRow : rows row)
      (hStart : row.start.toNat ≤ b.address k) (hStop : b.address k < row.stop.toNat) :
      Goes b first last out rows (b.address k) row.handler.toNat

/-- What control can come to in a part of the code. -/
def CodeBuffer.Reaches (b : CodeBuffer) (first last : Nat) (out : Nat → Prop)
    (rows : HandlerRange → Prop) : Nat → Nat → Prop :=
  Relation.ReflTransGen (b.Goes first last out rows)

/-- The addresses that a row covers are those of the instructions that it covers. -/
theorem HandlerRange.At.covers {b : CodeBuffer} {row : HandlerRange} {first last handler k : Nat}
    (h : row.At b first last handler) (hb : b.Consistent) (hk : k ≤ b.instructions.size)
    (hStart : row.start.toNat ≤ b.address k) (hStop : b.address k < row.stop.toNat) : first ≤ k ∧ k < last := by
  constructor
  · rw [h.start_eq] at hStart
    rcases Nat.lt_or_ge k first with hBefore | hGe
    · have hLe := h.nonempty
      have := hb.address_lt hBefore (Nat.le_trans (Nat.le_of_lt hLe) h.last_le)
      omega
    · exact hGe
  · rw [h.stop_eq] at hStop
    rcases Nat.lt_or_ge k last with hBefore | hGe
    · exact hBefore
    · have := hb.address_mono hGe hk
      omega

namespace Paths.Closed

variable {b : CodeBuffer} {start : Nat} {opened reached : Nat → Prop} {rows : HandlerRange → Prop}

/-- Control does not leave what is closed. -/
theorem goes_on (h : Closed b start opened rows reached) (hb : b.Consistent) {k target : Nat} (hReached : reached k)
    (hGoes : b.Goes start b.instructions.size opened rows (b.address k) target) :
    ∃ j, reached j ∧ target = b.address j := by
  have hk := (h.within k hReached).2
  generalize hSource : b.address k = source at hGoes
  cases hGoes with
  | @next j i hFirst hLast hAt hFalls =>
    obtain rfl := hb.address_inj hk (Nat.le_of_lt hLast) hSource
    obtain ⟨i', hAt', hNext, -⟩ := h.goes k hReached hLast
    rw [hAt] at hAt'
    cases hAt'
    exact ⟨k + 1, hNext hFalls, rfl⟩
  | @jump j target i offset hFirst hLast hAt hOffset hInside hTarget =>
    obtain rfl := hb.address_inj hk (Nat.le_of_lt hLast) hSource
    obtain ⟨i', hAt', -, hJumps⟩ := h.goes k hReached hLast
    rw [hAt] at hAt'
    cases hAt'
    obtain ⟨j, hj, hSame⟩ := hJumps hInside offset hOffset
    exact ⟨j, hj, by omega⟩
  | @handle j row hFirst hLast hRow hStart hStop =>
    obtain rfl := hb.address_inj hk (Nat.le_of_lt hLast) hSource
    obtain ⟨first, last, handler, hAt, -, -, hCaught⟩ := h.guards row hRow
    obtain ⟨hFirst, hLast⟩ := hAt.covers hb hk hStart hStop
    exact ⟨handler, hCaught k hReached hFirst hLast, hAt.handler_eq⟩

/-- Control does not leave what is closed, however far it goes. -/
theorem reaches_on (h : Closed b start opened rows reached) (hb : b.Consistent) {k target : Nat} (hReached : reached k)
    (hReaches : b.Reaches start b.instructions.size opened rows (b.address k) target) :
    ∃ j, reached j ∧ target = b.address j := by
  induction hReaches with
  | refl => exact ⟨k, hReached, rfl⟩
  | tail _ hGoes ih =>
    obtain ⟨j, hj, rfl⟩ := ih
    exact h.goes_on hb hj hGoes

end Paths.Closed

/-! The machine. -/

namespace Program

variable {env : Environment} {p : Program} {f g : MethodFrame env} {i : Instruction} {object : Nat}

/-- An instruction is fetched at its address only. -/
theorem exists_of_fetch (hp : p.code.Consistent) {pc : Nat} (h : p.fetch pc = some i) :
    ∃ k, k < p.code.instructions.size ∧ p.code.instructions[k]? = some i ∧ p.code.address k = pc := by
  unfold fetch at h
  obtain ⟨k, hIndex, hAt⟩ := Option.bind_eq_some_iff.1 h
  obtain ⟨hLt, hSame, -⟩ := Array.findIdx?_eq_some_iff_getElem.1 hIndex
  refine ⟨k, by rw [← hp.sizes]; exact hLt, hAt, ?_⟩
  simpa [CodeBuffer.address, hLt] using hSame

theorem execute_of_isPlain (h : i.isPlain) : p.execute f i = p.advance f i (i.effect p.pool f.stack f.locals) := by
  cases i <;> first | rfl | cases h

theorem advance_running {e : Effect} (h : p.advance f i e = some (.running g)) : g.pc = f.pc + i.size f.pc := by
  unfold advance at h
  split at h
  · cases h; rfl
  · cases h
  · split at h
    · cases h; rfl
    · cases h
  · cases h

theorem advance_throwing {e : Effect} (h : p.advance f i e = some (.throwing object g)) : g.pc = f.pc := by
  unfold advance throwNew at h
  split at h
  · cases h
  · cases h; rfl
  · split at h
    · cases h
    · cases h; rfl
  · cases h

theorem jump_running {stack : List Word} {offset : Int} {c : MachineState env}
    (h : jump f stack offset = some c) : ∃ g, c = .running g ∧ (f.pc : Int) + offset = g.pc := by
  unfold jump at h
  split at h
  · next target hTarget =>
    cases h
    exact ⟨_, rfl, hTarget⟩
  · cases h

theorem monitor_running {event : Nat → MonitorEvent}
    (h : monitor f i event = some (.running g)) : g.pc = f.pc + i.size f.pc := by
  unfold monitor throwNew at h
  split at h <;> cases h
  rfl

theorem monitor_throwing {event : Nat → MonitorEvent}
    (h : monitor f i event = some (.throwing object g)) : g.pc = f.pc := by
  unfold monitor throwNew at h
  split at h <;> cases h
  rfl

/-- A switch takes one of its offsets. -/
theorem mem_offsets_of_switchOffset {key offset : Int32}
    (h : i.switchOffset key = some offset) : offset.toInt ∈ i.offsets := by
  cases i with
  | lookupSwitch default pairs =>
    obtain rfl : (pairs.lookup key).getD default = offset := Option.some.inj h
    cases hFound : pairs.lookup key with
    | none => exact List.mem_map_of_mem (List.mem_cons_self ..)
    | some found =>
      obtain ⟨before, after, hSplit, -⟩ := List.lookup_eq_some_iff.1 hFound
      refine List.mem_map_of_mem (List.mem_cons_of_mem _ (List.mem_map.2 ⟨(key, found), ?_, rfl⟩))
      rw [hSplit]
      simp
  | tableSwitch default low offsets =>
    simp only [Instruction.switchOffset] at h
    split at h
    · cases h
      rw [List.getD_eq_getElem?_getD]
      cases hFound : offsets[(key.toInt - low.toInt).toNat]? with
      | none => exact List.mem_map_of_mem (List.mem_cons_self ..)
      | some found => exact List.mem_map_of_mem (List.mem_cons_of_mem _ (List.mem_of_getElem? hFound))
    · cases h
      exact List.mem_map_of_mem (List.mem_cons_self ..)
  | _ => cases h

/-- Where the machine goes on in running code. -/
theorem execute_running (h : p.execute f i = some (.running g)) :
    i.isTerminal = false ∧ g.pc = f.pc + i.size f.pc ∨ ∃ offset ∈ i.offsets, (f.pc : Int) + offset = g.pc := by
  cases i with
  | branch b offset =>
    simp only [execute] at h
    split at h
    · obtain ⟨g', hSame, hTarget⟩ := jump_running h
      cases hSame
      exact .inr ⟨_, List.mem_singleton_self _, hTarget⟩
    · next hTest =>
      cases h
      refine .inl ⟨?_, rfl⟩
      cases b <;> first | rfl | cases hTest
    · cases h
  | lookupSwitch default pairs | tableSwitch default low offsets =>
    simp only [execute] at h
    split at h
    · obtain ⟨offset, hOffset, hJump⟩ := Option.bind_eq_some_iff.1 h
      obtain ⟨g', hSame, hTarget⟩ := jump_running hJump
      cases hSame
      exact .inr ⟨_, mem_offsets_of_switchOffset hOffset, hTarget⟩
    · cases h
  | valueReturn kind =>
    simp only [execute] at h
    split at h <;> cases h
  | voidReturn => cases h
  | athrow =>
    simp only [execute, throwNew] at h
    split at h <;> cases h
  | monitorEnter | monitorExit => exact .inl ⟨rfl, monitor_running h⟩
  | _ =>
    rw [execute_of_isPlain rfl] at h
    exact .inl ⟨rfl, advance_running h⟩

theorem execute_throwing (h : p.execute f i = some (.throwing object g)) : g.pc = f.pc := by
  cases i with
  | branch b offset =>
    simp only [execute] at h
    split at h
    · obtain ⟨g', hSame, -⟩ := jump_running h
      cases hSame
    · cases h
    · cases h
  | lookupSwitch default pairs | tableSwitch default low offsets =>
    simp only [execute] at h
    split at h
    · obtain ⟨offset, -, hJump⟩ := Option.bind_eq_some_iff.1 h
      obtain ⟨g', hSame, -⟩ := jump_running hJump
      cases hSame
    · cases h
  | valueReturn kind =>
    simp only [execute] at h
    split at h <;> cases h
  | voidReturn => cases h
  | athrow =>
    simp only [execute, throwNew] at h
    split at h <;> cases h <;> rfl
  | monitorEnter | monitorExit => exact monitor_throwing h
  | _ =>
    rw [execute_of_isPlain rfl] at h
    exact advance_throwing h

/-- The machine goes where control can go. -/
theorem goes_of_step (hp : p.code.Consistent) (h : p.step (.running f) = some (.running g)) :
    p.code.Goes 0 p.code.instructions.size (fun _ => False) (· ∈ p.code.handlers.toList) f.pc g.pc := by
  obtain ⟨i, hFetch, hRun⟩ := Option.bind_eq_some_iff.1 h
  obtain ⟨k, hLt, hAt, hPc⟩ := exists_of_fetch hp hFetch
  rcases execute_running hRun with ⟨hFalls, hNext⟩ | ⟨offset, hOffset, hTarget⟩
  · rw [hNext, ← hPc, ← hp.next k i hAt]
    exact .next (Nat.zero_le k) hLt hAt hFalls
  · rw [← hPc] at hTarget ⊢
    exact .jump (Nat.zero_le k) hLt hAt hOffset id hTarget

/-- An object that is thrown at an instruction goes to a handler that covers it. -/
theorem goes_of_dispatch {k : Nat} (hLt : k < p.code.instructions.size)
    (hPc : p.code.address k = f.pc) (h : p.dispatch object f = .running g) :
    p.code.Goes 0 p.code.instructions.size (fun _ => False) (· ∈ p.code.handlers.toList) f.pc g.pc := by
  unfold dispatch at h
  split at h
  · next row hRow =>
    cases h
    have hCovers := Array.find?_some hRow
    simp only [covers, Bool.and_eq_true, decide_eq_true_eq] at hCovers
    rw [← hPc] at hCovers ⊢
    exact .handle (Nat.zero_le k) hLt (Array.mem_toList_iff.2 (Array.mem_of_find?_eq_some hRow))
      hCovers.1.1 hCovers.1.2
  · cases h

end Program

/-- The machine is at an address with a property, unless the method has ended. -/
def MachineState.At {env : Environment} (inside : Nat → Prop) : MachineState env → Prop
  | .running f => inside f.pc
  | .throwing _ f => inside f.pc
  | .returned _ _ | .uncaught _ _ => True

namespace Program

variable {env : Environment} {p : Program} {inside : Nat → Prop}

/-- Addresses of instructions that control does not leave. -/
structure Confines (p : Program) (inside : Nat → Prop) : Prop where
  address : ∀ pc, inside pc → ∃ k, k < p.code.instructions.size ∧ p.code.address k = pc
  goes : ∀ pc target, inside pc → p.code.Goes 0 p.code.instructions.size (fun _ => False)
    (· ∈ p.code.handlers.toList) pc target → inside target

theorem Confines.step (h : p.Confines inside) (hp : p.code.Consistent) {c d : MachineState env}
    (hc : c.At inside) (hStep : p.step c = some d) : d.At inside := by
  cases c with
  | running f =>
    cases d with
    | running g => exact h.goes _ _ hc (goes_of_step hp hStep)
    | throwing object g =>
      obtain ⟨i, -, hRun⟩ := Option.bind_eq_some_iff.1 hStep
      show inside g.pc
      rw [execute_throwing hRun]
      exact hc
    | returned _ _ | uncaught _ _ => trivial
  | throwing object f =>
    obtain ⟨k, hLt, hPc⟩ := h.address _ hc
    have hDispatch : p.dispatch object f = d := Option.some.inj hStep
    cases d with
    | running g => exact h.goes _ _ hc (goes_of_dispatch hLt hPc hDispatch)
    | throwing object' g =>
      unfold dispatch at hDispatch
      split at hDispatch <;> cases hDispatch
    | returned _ _ | uncaught _ _ => trivial
  | returned _ _ | uncaught _ _ => cases hStep

/-- A run does not leave what control does not leave. -/
theorem Confines.runs (h : p.Confines inside) (hp : p.code.Consistent) {c d : MachineState env}
    (hc : c.At inside) (hRuns : p.Runs c d) : d.At inside := by
  obtain ⟨steps, hSteps⟩ := hRuns
  induction hSteps with
  | zero => exact hc
  | succ hStep _ ih => exact ih (h.step hp hc hStep)

end Program

end JavaFragment
