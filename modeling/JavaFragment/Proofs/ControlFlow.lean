import JavaFragment.Proofs.Growth
import JavaFragment.Proofs.StatementEmission
/-!
Where control goes in emitted code: from instruction to instruction along the next instruction, branches, switches and
handlers. Code is put together from parts, and whether the end of the whole is reached follows from whether the ends of
the parts are.
-/
namespace JavaFragment

open Emit

namespace Instruction

/-- The offsets at which a branch or a switch goes on. -/
def offsets : Instruction → List Int
  | .branch _ offset => [offset.toInt]
  | .tableSwitch default _ offsets => (default :: offsets).map Int32.toInt
  | .lookupSwitch default pairs => (default :: pairs.map Prod.snd).map Int32.toInt
  | _ => []

theorem offsets_of_isPlain {i : Instruction} (h : i.isPlain) : i.offsets = [] := by
  cases i <;> first | rfl | cases h

theorem isTerminal_outline (i : Instruction) : i.outline.isTerminal = i.isTerminal := by
  cases i with
  | branch b _ => cases b <;> rfl
  | _ => rfl

theorem isTerminal_eq_of_outline {i j : Instruction} (h : j.outline = i.outline) : j.isTerminal = i.isTerminal := by
  rw [← j.isTerminal_outline, h, i.isTerminal_outline]

end Instruction

/-- A row of the exception table, by the indices of the instructions it covers and of its handler. -/
structure HandlerRange.At (row : HandlerRange) (b : CodeBuffer) (first last handler : Nat) : Prop where
  nonempty : first < last
  last_le : last ≤ b.instructions.size
  handler_lt : handler < b.instructions.size
  start_eq : row.start.toNat = b.address first
  stop_eq : row.stop.toNat = b.address last
  handler_eq : row.handler.toNat = b.address handler

theorem HandlerRange.At.later {row : HandlerRange} {b c : CodeBuffer} {first last handler : Nat}
    {changed : Nat → Prop} (h : row.At b first last handler) (hb : b.Consistent)
    (hbc : b.Extends changed c) : row.At c first last handler where
  nonempty := h.nonempty
  last_le := Nat.le_trans h.last_le hbc.size_le
  handler_lt := Nat.lt_of_lt_of_le h.handler_lt hbc.size_le
  start_eq := by
    have := h.nonempty
    have := h.last_le
    rw [h.start_eq, hbc.address_eq _ (by rw [hb.sizes]; omega)]
  stop_eq := by rw [h.stop_eq, hbc.address_eq _ (by rw [hb.sizes]; exact h.last_le)]
  handler_eq := by
    rw [h.handler_eq, hbc.address_eq _ (by rw [hb.sizes]; exact Nat.le_of_lt h.handler_lt)]

namespace Paths

/-- Instructions of a buffer from an index on that control does not leave. Every instruction among them leads to such
again, but for the targets of branches that are open still. -/
structure Closed (b : CodeBuffer) (start : Nat) (opened : Nat → Prop) (rows : HandlerRange → Prop)
    (reached : Nat → Prop) : Prop where
  within : ∀ k, reached k → start ≤ k ∧ k ≤ b.instructions.size
  goes : ∀ k, reached k → k < b.instructions.size → ∃ i, b.instructions[k]? = some i ∧
    (i.isTerminal = false → reached (k + 1)) ∧
    (¬ opened k → ∀ offset ∈ i.offsets, ∃ j, reached j ∧ (b.address k : Int) + offset = b.address j)
  guards : ∀ row, rows row → ∃ first last handler, row.At b first last handler ∧ start ≤ first ∧
    start ≤ handler ∧ ∀ k, reached k → first ≤ k → k < last → reached handler

namespace Closed

variable {b c : CodeBuffer} {start : Nat} {opened opened' : Nat → Prop} {rows rows' : HandlerRange → Prop}
  {reached more : Nat → Prop}

/-- One part of the code after another. What comes out of the first goes into the second. -/
theorem append (h : Closed b start opened rows reached) (h' : Closed c b.instructions.size opened' rows' more)
    (hb : b.Consistent) (hbc : b.Extends (fun _ => False) c) (hStart : start ≤ b.instructions.size)
    (hMeet : reached b.instructions.size → more b.instructions.size) :
    Closed c start (fun k => opened k ∨ opened' k) (fun row => rows row ∨ rows' row)
      (fun k => reached k ∨ more k) where
  within k := by
    rintro (hOld | hNew)
    · exact ⟨(h.within k hOld).1, Nat.le_trans (h.within k hOld).2 hbc.size_le⟩
    · exact ⟨Nat.le_trans hStart (h'.within k hNew).1, (h'.within k hNew).2⟩
  goes k hReached hLt := by
    have hCase : reached k ∧ k < b.instructions.size ∨ more k := by
      rcases hReached with hOld | hNew
      · rcases Nat.lt_or_eq_of_le (h.within k hOld).2 with hBefore | rfl
        · exact .inl ⟨hOld, hBefore⟩
        · exact .inr (hMeet hOld)
      · exact .inr hNew
    rcases hCase with ⟨hOld, hBefore⟩ | hNew
    · obtain ⟨i, hAt, hNext, hJumps⟩ := h.goes k hOld hBefore
      refine ⟨i, hbc.kept k i (fun hNo => hNo) hAt, fun hFalls => .inl (hNext hFalls), ?_⟩
      intro hClosed offset hOffset
      obtain ⟨j, hj, hTarget⟩ := hJumps (fun hOpen => hClosed (.inl hOpen)) offset hOffset
      refine ⟨j, .inl hj, ?_⟩
      rw [hbc.address_eq k (by rw [hb.sizes]; omega),
        hbc.address_eq j (by rw [hb.sizes]; exact (h.within j hj).2), hTarget]
    · obtain ⟨i, hAt, hNext, hJumps⟩ := h'.goes k hNew hLt
      refine ⟨i, hAt, fun hFalls => .inr (hNext hFalls), fun hClosed offset hOffset => ?_⟩
      obtain ⟨j, hj, hTarget⟩ := hJumps (fun hOpen => hClosed (.inr hOpen)) offset hOffset
      exact ⟨j, .inr hj, hTarget⟩
  guards row := by
    rintro (hRow | hRow)
    · obtain ⟨i, j, handler, hAt, hi, hHandler, hCaught⟩ := h.guards row hRow
      refine ⟨i, j, handler, hAt.later hb hbc, hi, hHandler, ?_⟩
      rintro k (hOld | hNew) hLe hLt
      · exact .inl (hCaught k hOld hLe hLt)
      · have := (h'.within k hNew).1
        have := hAt.last_le
        omega
    · obtain ⟨i, j, handler, hAt, hi, hHandler, hCaught⟩ := h'.guards row hRow
      refine ⟨i, j, handler, hAt, Nat.le_trans hStart hi, Nat.le_trans hStart hHandler, ?_⟩
      rintro k (hOld | hNew) hLe hLt
      · obtain rfl : k = b.instructions.size := by
          have := (h.within k hOld).2
          omega
        exact .inr (hCaught _ (hMeet hOld) hLe hLt)
      · exact .inr (hCaught k hNew hLe hLt)

/-- Nothing is reached if a condition fails. -/
theorem restrict (h : Closed b start opened rows reached) (condition : Prop) :
    Closed b start opened rows (fun k => condition ∧ reached k) where
  within k hReached := h.within k hReached.2
  goes k hReached hLt := by
    obtain ⟨i, hAt, hNext, hJumps⟩ := h.goes k hReached.2 hLt
    refine ⟨i, hAt, fun hFalls => ⟨hReached.1, hNext hFalls⟩, fun hClosed offset hOffset => ?_⟩
    obtain ⟨j, hj, hTarget⟩ := hJumps hClosed offset hOffset
    exact ⟨j, ⟨hReached.1, hj⟩, hTarget⟩
  guards row hRow := by
    obtain ⟨i, j, handler, hAt, hi, hHandler, hCaught⟩ := h.guards row hRow
    exact ⟨i, j, handler, hAt, hi, hHandler, fun k hReached hLe hLt => ⟨hReached.1, hCaught k hReached.2 hLe hLt⟩⟩

/-- The end of the code may be reached otherwise. -/
theorem withEnd (h : Closed b start opened rows reached) (hStart : start ≤ b.instructions.size) :
    Closed b start opened rows (fun k => reached k ∨ k = b.instructions.size) where
  within k := by
    rintro (hReached | rfl)
    · exact h.within k hReached
    · exact ⟨hStart, Nat.le_refl _⟩
  goes k hReached hLt := by
    have hOld : reached k := hReached.resolve_right fun hEnd => by omega
    obtain ⟨i, hAt, hNext, hJumps⟩ := h.goes k hOld hLt
    refine ⟨i, hAt, fun hFalls => .inl (hNext hFalls), fun hClosed offset hOffset => ?_⟩
    obtain ⟨j, hj, hTarget⟩ := hJumps hClosed offset hOffset
    exact ⟨j, .inl hj, hTarget⟩
  guards row hRow := by
    obtain ⟨i, j, handler, hAt, hi, hHandler, hCaught⟩ := h.guards row hRow
    refine ⟨i, j, handler, hAt, hi, hHandler, ?_⟩
    rintro k (hReached | rfl) hLe hLt
    · exact .inl (hCaught k hReached hLe hLt)
    · exact (Nat.not_lt_of_le hAt.last_le hLt).elim

/-- Branches and switches get their targets. -/
theorem patched (h : Closed b start opened rows reached) (hb : b.Consistent) {sites : List Nat}
    (hbc : b.Extends (· ∈ sites) c) (hSize : c.instructions.size = b.instructions.size)
    (hTargets : ∀ site ∈ sites, ∃ i, c.instructions[site]? = some i ∧ ∀ offset ∈ i.offsets,
      ∃ j, reached j ∧ (b.address site : Int) + offset = b.address j) :
    Closed c start (fun k => opened k ∧ k ∉ sites) rows reached where
  within k hReached := by
    rw [hSize]
    exact h.within k hReached
  goes k hReached hLt := by
    rw [hSize] at hLt
    obtain ⟨i, hAt, hNext, hJumps⟩ := h.goes k hReached hLt
    have hAddress : ∀ j, j ≤ b.instructions.size → c.address j = b.address j :=
      fun j hj => hbc.address_eq j (by rw [hb.sizes]; exact hj)
    obtain ⟨i', hAt', hSame⟩ := hbc.outline_eq k i hAt
    refine ⟨i', hAt', ?_, ?_⟩
    · rw [Instruction.isTerminal_eq_of_outline hSame]
      exact hNext
    · intro hClosed offset hOffset
      rw [hAddress k (Nat.le_of_lt hLt)]
      by_cases hSite : k ∈ sites
      · obtain ⟨i'', hAt'', hAll⟩ := hTargets k hSite
        rw [hAt'] at hAt''
        cases hAt''
        obtain ⟨j, hj, hTarget⟩ := hAll offset hOffset
        exact ⟨j, hj, by rw [hAddress j (h.within j hj).2, hTarget]⟩
      · rw [hbc.kept k i hSite hAt] at hAt'
        cases hAt'
        obtain ⟨j, hj, hTarget⟩ := hJumps (fun hOpen => hClosed ⟨hOpen, hSite⟩) offset hOffset
        exact ⟨j, hj, by rw [hAddress j (h.within j hj).2, hTarget]⟩
  guards row hRow := by
    obtain ⟨i, j, handler, hAt, hi, hHandler, hCaught⟩ := h.guards row hRow
    exact ⟨i, j, handler, hAt.later hb hbc, hi, hHandler, hCaught⟩

/-- Rows may be added whose handlers are reached. -/
theorem withRows (h : Closed b start opened rows reached)
    (hRows : ∀ row, rows' row → rows row ∨ ∃ first last handler, row.At b first last handler ∧
      start ≤ first ∧ start ≤ handler ∧ reached handler) : Closed b start opened rows' reached :=
  { h with
    guards := fun row hRow => by
      rcases hRows row hRow with hOld | ⟨i, j, handler, hAt, hi, hHandler, hCaught⟩
      · exact h.guards row hOld
      · exact ⟨i, j, handler, hAt, hi, hHandler, fun _ _ _ _ => hCaught⟩ }

/-- Only the instructions and their addresses count. -/
theorem of_same (h : Closed b start opened rows reached) (hInstructions : c.instructions = b.instructions)
    (hAddress : ∀ k, c.address k = b.address k) : Closed c start opened rows reached where
  within := by
    rw [hInstructions]
    exact h.within
  goes := by
    simp only [hInstructions, hAddress]
    exact h.goes
  guards row hRow := by
    obtain ⟨i, j, handler, hAt, hRest⟩ := h.guards row hRow
    refine ⟨i, j, handler, ?_, hRest⟩
    exact
      { nonempty := hAt.nonempty
        last_le := by rw [hInstructions]; exact hAt.last_le
        handler_lt := by rw [hInstructions]; exact hAt.handler_lt
        start_eq := by rw [hAddress, hAt.start_eq]
        stop_eq := by rw [hAddress, hAt.stop_eq]
        handler_eq := by rw [hAddress, hAt.handler_eq] }

/-- More branches may count as open. -/
theorem weaken (h : Closed b start opened rows reached) (hOpen : ∀ k, opened k → opened' k) :
    Closed b start opened' rows reached :=
  { h with
    goes := fun k hReached hLt => by
      obtain ⟨i, hAt, hNext, hJumps⟩ := h.goes k hReached hLt
      exact ⟨i, hAt, hNext, fun hClosed => hJumps fun hOld => hClosed (hOpen k hOld)⟩ }

end Closed

/-- Code that is emitted between two states, as control sees it. It has branches of its own, of which it leaves some
open, can be entered in its middle, and is covered by rows of its own. Either what is reached from its start counts, or
the whole code does. -/
structure Spans (whole : Prop) (s t : EmitState) (leads opened entered : Nat → Prop) (rows : HandlerRange → Prop)
    (ends : Prop) : Prop where
  later : s.Later (fun _ => False) t
  sites : ∀ k, leads k → s.next ≤ k ∧ k < t.next
  flow : s.code.Consistent → t.code.pc < 2147483648 → ∃ reached : Nat → Prop, reached s.next ∧
    (∀ k, entered k → reached k) ∧ (whole → ∀ k, s.next ≤ k → k < t.next → reached k) ∧
    (reached t.next → whole ∨ ends) ∧ Closed t.code s.next opened rows reached

namespace Spans

variable {whole : Prop} {s r t : EmitState} {leads leads' opened opened' entered entered' : Nat → Prop}
  {rows rows' : HandlerRange → Prop} {ends ends' : Prop} {sites : List Nat}

/-- Less may be said about code. -/
theorem weaken (h : Spans whole s t leads opened entered rows ends) (hLeads : ∀ k, leads' k → leads k)
    (hOpen : ∀ k, opened k → opened' k) (hEntered : ∀ k, entered' k → entered k)
    (hRows : ∀ row, rows' row → rows row) (hEnds : ends → ends') :
    Spans whole s t leads' opened' entered' rows' ends' :=
  { h with
    sites := fun k hLead => h.sites k (hLeads k hLead)
    flow := fun hs hPc => by
      obtain ⟨reached, hStart, hIn, hWhole, hEnd, hClosed⟩ := h.flow hs hPc
      exact ⟨reached, hStart, fun k hEnter => hIn k (hEntered k hEnter), hWhole,
        fun hReached => (hEnd hReached).imp_right hEnds,
        (hClosed.weaken hOpen).withRows fun row hRow => .inl (hRows row hRow)⟩ }

/-- One part after another. The second counts as entered if the first can be passed, and may count so
anyway. -/
theorem follow (h : Spans whole s r leads opened entered rows ends)
    (h' : Spans whole r t leads' opened' entered' rows' ends') (passed : Prop) (hPassed : ends → passed) :
    Spans whole s t (fun k => leads k ∨ leads' k) (fun k => opened k ∨ opened' k)
      (fun k => entered k ∨ passed ∧ (entered' k ∨ k = r.next)) (fun row => rows row ∨ rows' row)
      (passed ∧ ends') where
  later := (h.later.trans h'.later).mono (by simp)
  sites k := by
    rintro (hFirst | hSecond)
    · have := h.sites k hFirst
      have := h'.later.next_le
      omega
    · have := h'.sites k hSecond
      have := h.later.next_le
      omega
  flow hs hPc := by
    obtain ⟨reached, hStart, hIn, hWhole, hEnd, hClosed⟩ := h.flow hs (Nat.lt_of_le_of_lt h'.later.code.pc_le hPc)
    obtain ⟨more, hStart', hIn', hWhole', hEnd', hClosed'⟩ := h'.flow (h.later.consistent hs) hPc
    have hMeet : reached r.next → (whole ∨ passed) ∧ more r.next := fun hReached =>
      ⟨(hEnd hReached).imp_right hPassed, hStart'⟩
    refine ⟨fun k => reached k ∨ (whole ∨ passed) ∧ more k, .inl hStart, ?_, ?_, ?_,
      hClosed.append (hClosed'.restrict (whole ∨ passed)) (h.later.consistent hs) h'.later.code
        h.later.next_le hMeet⟩
    · rintro k (hEnter | ⟨hYes, hEnter | rfl⟩)
      · exact .inl (hIn k hEnter)
      · exact .inr ⟨.inr hYes, hIn' k hEnter⟩
      · exact .inr ⟨.inr hYes, hStart'⟩
    · intro hAll k hLe hLt
      rcases Nat.lt_or_ge k r.next with hOld | hNew
      · exact .inl (hWhole hAll k hLe hOld)
      · exact .inr ⟨.inl hAll, hWhole' hAll k hNew hLt⟩
    · intro hReached
      have hNew : (whole ∨ passed) ∧ more t.next := by
        refine hReached.elim (fun hOld => ?_) id
        -- What the first part leaves at its end is at the end of the whole only if the second is empty.
        have hSame : t.next = r.next := Nat.le_antisymm (hClosed.within _ hOld).2 h'.later.next_le
        rw [hSame] at hOld ⊢
        exact hMeet hOld
      rcases hNew.1 with hAll | hYes
      · exact .inl hAll
      · exact (hEnd' hNew.2).imp_right fun hLast => ⟨hYes, hLast⟩

/-- One part after another. The end of the whole is reached if both can be passed. -/
theorem append (h : Spans whole s r leads opened entered rows ends)
    (h' : Spans whole r t leads' opened' entered' rows' ends') :
    Spans whole s t (fun k => leads k ∨ leads' k) (fun k => opened k ∨ opened' k) entered
      (fun row => rows row ∨ rows' row) (ends ∧ ends') :=
  (h.follow h' ends id).weaken (fun _ => id) (fun _ => id) (fun _ => .inl) (fun _ => id) id

/-- One part after another that is entered in any case. -/
theorem join (h : Spans whole s r leads opened entered rows ends)
    (h' : Spans whole r t leads' opened' entered' rows' ends') :
    Spans whole s t (fun k => leads k ∨ leads' k) (fun k => opened k ∨ opened' k)
      (fun k => entered k ∨ entered' k ∨ k = r.next) (fun row => rows row ∨ rows' row) ends' :=
  (h.follow h' True fun _ => trivial).weaken (fun _ => id) (fun _ => id)
    (fun _ => Or.imp_right fun hEnter => ⟨trivial, hEnter⟩) (fun _ => id) And.right

/-- A step that adds no code. -/
theorem quiet (hLater : s.Later (fun _ => False) t) (hNext : t.next = s.next) :
    Spans whole s t (fun _ => False) (fun _ => False) (fun _ => False) (fun _ => False) True where
  later := hLater
  sites _ hLead := hLead.elim
  flow _ _ := by
    refine ⟨(· = s.next), rfl, fun _ => False.elim, fun _ k hLe hLt => by omega, fun _ => .inr trivial, ?_⟩
    exact
      { within := fun k hReached => ⟨Nat.le_of_eq hReached.symm, by
          show k ≤ t.next
          omega⟩
        goes := fun k hReached (hLt : k < t.next) => by omega
        guards := fun _ => False.elim }

/-- The depth that is kept is set at the end of the code. -/
theorem setDepth {n : Int} (h : Spans whole s r leads opened entered rows ends)
    (hSet : Emit.setDepth n r = .ok () t) : Spans whole s t leads opened entered rows ends := by
  obtain rfl := setDepth_ok.1 hSet
  exact
    { later := (h.later.trans (.of_code (.setDepth r.code n))).mono (by simp)
      sites := h.sites
      flow := fun hs hPc => by
        obtain ⟨reached, hStart, hIn, hWhole, hEnd, hClosed⟩ := h.flow hs hPc
        exact ⟨reached, hStart, hIn, hWhole, hEnd, hClosed.of_same rfl fun _ => rfl⟩ }

/-- Emission of one instruction, whose targets are open if it has any. -/
theorem instruction {i : Instruction} (h : emit i s = .ok () t) (hOpen : ¬ opened s.next → i.offsets = []) :
    Spans whole s t (· = s.next) opened (fun _ => False) (fun _ => False) (i.isTerminal = false) := by
  obtain rfl := emit_ok.1 h
  have hNext : { s with code := s.code.append i }.next = s.next + 1 := emit_next h
  refine
    { later := .of_code (.appendWith ..)
      sites := fun k hLead => by omega
      flow := fun hs _ => ?_ }
  refine ⟨fun k => k = s.next ∨ k = s.next + 1 ∧ i.isTerminal = false, .inl rfl, fun _ => False.elim,
    fun _ k hLe hLt => .inl (by omega), ?_, ?_⟩
  · rintro (hEnd | ⟨-, hFalls⟩)
    · omega
    · exact .inr hFalls
  · refine { within := ?_, goes := ?_, guards := fun _ => False.elim }
    · intro k hReached
      show s.next ≤ k ∧ k ≤ { s with code := s.code.append i }.next
      omega
    · intro k hReached (hLt : k < { s with code := s.code.append i }.next)
      obtain rfl : k = s.next := by omega
      refine ⟨i, by simp [EmitState.next, CodeBuffer.append, CodeBuffer.appendWith, CodeBuffer.growStack,
        CodeBuffer.setDepth], fun hFalls => .inr ⟨rfl, hFalls⟩, fun hClosed offset hOffset => ?_⟩
      rw [hOpen hClosed] at hOffset
      cases hOffset

/-- Emission of a branch or a switch that leads nowhere yet. -/
theorem jumping {i : Instruction} (h : emit i s = .ok () t) :
    Spans whole s t (· = s.next) (· = s.next) (fun _ => False) (fun _ => False) (i.isTerminal = false) :=
  instruction h fun hClosed => (hClosed rfl).elim

/-- Code is entered at its start. -/
theorem atStart (h : Spans whole s t leads opened entered rows ends) :
    Spans whole s t leads opened (fun k => entered k ∨ k = s.next) rows ends :=
  { h with
    flow := fun hs hPc => by
      obtain ⟨reached, hStart, hIn, hRest⟩ := h.flow hs hPc
      refine ⟨reached, hStart, ?_, hRest⟩
      rintro k (hEnter | rfl)
      · exact hIn k hEnter
      · exact hStart }

/-- The end of code may count as reached. -/
theorem atEnd (h : Spans whole s t leads opened entered rows ends) :
    Spans whole s t leads opened (fun k => entered k ∨ k = t.next) rows True :=
  { h with
    flow := fun hs hPc => by
      obtain ⟨reached, hStart, hIn, hWhole, -, hClosed⟩ := h.flow hs hPc
      exact ⟨_, .inl hStart, fun k => Or.imp_left (hIn k), fun hAll k hLe hLt => .inl (hWhole hAll k hLe hLt),
        fun _ => .inr trivial, hClosed.withEnd h.later.next_le⟩ }

/-- Rows may be added whose handlers are entered. -/
theorem withRows (h : Spans whole s t leads opened entered rows ends)
    (hRows : s.code.Consistent → ∀ row, rows' row → rows row ∨ ∃ first last handler,
      row.At t.code first last handler ∧ s.next ≤ first ∧ s.next ≤ handler ∧ entered handler) :
    Spans whole s t leads opened entered rows' ends :=
  { h with
    flow := fun hs hPc => by
      obtain ⟨reached, hStart, hIn, hWhole, hEnd, hClosed⟩ := h.flow hs hPc
      refine ⟨reached, hStart, hIn, hWhole, hEnd, hClosed.withRows fun row hRow => ?_⟩
      refine (hRows hs row hRow).imp_right ?_
      rintro ⟨first, last, handler, hAt, hFirst, hHandler, hEnter⟩
      exact ⟨first, last, handler, hAt, hFirst, hHandler, hIn _ hEnter⟩ }

/-- Branches and switches get their targets, which are entered. -/
theorem patched (h : Spans whole s r leads opened entered rows ends)
    (hLater : r.Later (· ∈ sites) t) (hSites : ∀ site ∈ sites, leads site) (hNext : t.next = r.next)
    (hTargets : s.code.Consistent → t.code.pc < 2147483648 → ∀ site ∈ sites, ∃ i,
      t.code.instructions[site]? = some i ∧ ∀ offset ∈ i.offsets, ∃ j, entered j ∧
        (r.code.address site : Int) + offset = r.code.address j) :
    Spans whole s t leads (fun k => opened k ∧ k ∉ sites) entered rows ends where
  later := (h.later.trans hLater).mono fun k hLt hChanged => by
    have := h.sites k (hSites k (hChanged.resolve_left fun hNo => hNo))
    omega
  sites k hLead := by
    rw [hNext]
    exact h.sites k hLead
  flow hs hPc := by
    obtain ⟨reached, hStart, hIn, hWhole, hEnd, hClosed⟩ := h.flow hs (Nat.lt_of_le_of_lt hLater.code.pc_le hPc)
    refine ⟨reached, hStart, hIn, hNext ▸ hWhole, hNext ▸ hEnd,
      hClosed.patched (h.later.consistent hs) hLater.code hNext fun site hSite => ?_⟩
    obtain ⟨i, hAt, hAll⟩ := hTargets hs hPc site hSite
    refine ⟨i, hAt, fun offset hOffset => ?_⟩
    obtain ⟨j, hEnter, hTarget⟩ := hAll offset hOffset
    exact ⟨j, hIn j hEnter, hTarget⟩

/-- Branches are pointed to a place that is entered. -/
theorem patchAll {target index : Nat} (h : Spans whole s r leads opened entered rows ends)
    (hPatch : Emit.patchAll sites target r = .ok () t) (hSites : ∀ site ∈ sites, leads site)
    (hEnter : entered index) (hTarget : s.code.Consistent → target = r.code.address index) :
    Spans whole s t leads (fun k => opened k ∧ k ∉ sites) entered rows ends := by
  obtain ⟨hLater, hTargets, _, hSame⟩ := patchAll_ok hPatch
  refine h.patched hLater hSites (patchAll_next hPatch) fun hs _ site hSite => ?_
  obtain ⟨branch, offset, hAt, hOffset⟩ := hTargets (h.later.consistent hs) site hSite
  refine ⟨_, hAt, fun x hx => ⟨index, hEnter, ?_⟩⟩
  have hAddress : t.code.address site = r.code.address site := by rw [hSame]; rfl
  rw [List.mem_singleton.1 hx, ← hTarget hs, ← hOffset, hAddress]

/-- Branches are pointed back to the start of the code. -/
theorem toStart (h : Spans whole s r leads opened entered rows ends)
    (hPatch : Emit.patchAll sites s.code.pc r = .ok () t) (hSites : ∀ site ∈ sites, leads site) :
    Spans whole s t leads (fun k => opened k ∧ k ∉ sites) entered rows ends := by
  refine (h.atStart.patchAll hPatch hSites (.inr rfl) fun hs => ?_).weaken (fun _ => id) (fun _ => id)
    (fun _ => .inl) (fun _ => id) id
  exact hs.address_size.symm.trans (h.later.code.address_eq s.next (Nat.le_of_eq hs.sizes.symm)).symm

/-- Branches are pointed to the end of the code, which is reached through them. -/
theorem land (h : Spans whole s r leads opened entered rows ends)
    (hLand : Emit.land sites r = .ok () t) (hSites : ∀ site ∈ sites, leads site) :
    Spans whole s t leads (fun k => opened k ∧ k ∉ sites) entered rows (ends ∨ sites ≠ []) := by
  have hPatch := land_ok.1 hLand
  cases sites with
  | nil =>
    obtain rfl := patchAll_nil.1 hPatch
    exact h.weaken (fun _ => id) (by simp) (fun _ => id) (fun _ => id) .inl
  | cons site sites =>
    exact (h.atEnd.patchAll hPatch hSites (.inr rfl) fun hs =>
      (h.later.consistent hs).address_size.symm).weaken (fun _ => id) (fun _ => id) (fun _ => .inl)
      (fun _ => id) fun _ => .inr (by simp)

/-- A switch is pointed to places that are entered. -/
theorem patchSwitch {site default : Nat} {targets : List Nat} (h : Spans whole s r leads opened entered rows ends)
    (hPatch : (liftM (CodeBuffer.patchSwitch site default targets) : Emit Unit) r = .ok () t)
    (hSite : leads site)
    (hTargets : s.code.Consistent → ∀ target ∈ default :: targets,
      ∃ j, entered j ∧ j ≤ r.next ∧ target = r.code.address j) :
    Spans whole s t leads (fun k => opened k ∧ k ≠ site) entered rows ends := by
  obtain ⟨source, old, pairs, hSource, hOld, hLength, hSame⟩ := patchSwitch_ok hPatch
  have hLt : site < r.code.instructions.size := (Array.getElem?_eq_some_iff.1 hOld).1
  have hLater : r.Later (· ∈ [site]) t := by
    rw [hSame]
    refine .of_code ((CodeBuffer.Extends.set hOld ?_).mono (by simp))
    exact congrArg (Instruction.lookupSwitch 0) (switchPairs_keys hLength)
  refine (h.patched hLater (fun k hk => List.mem_singleton.1 hk ▸ hSite) (by rw [hSame]; simp [EmitState.next])
    fun hs hPc k hk => ?_).weaken (fun _ => id) (by simp) (fun _ => id) (fun _ => id) id
  obtain rfl := List.mem_singleton.1 hk
  have hr := h.later.consistent hs
  have hPc : r.code.pc < 2147483648 := Nat.lt_of_le_of_lt hLater.code.pc_le hPc
  have hBound {j : Nat} (hj : j ≤ r.next) : r.code.address j < 2147483648 :=
    Nat.lt_of_le_of_lt (hr.address_size ▸ hr.address_mono hj (Nat.le_refl _)) hPc
  obtain rfl : r.code.address k = source := by simp [CodeBuffer.address, hSource]
  have hNew : t.code.instructions[k]? = some (.lookupSwitch (switchOffset (r.code.address k) default)
      (switchPairs (r.code.address k) pairs targets)) := by
    rw [hSame, Array.set!_eq_setIfInBounds]
    exact Array.getElem?_setIfInBounds_self_of_lt hLt
  refine ⟨_, hNew, fun offset hOffset => ?_⟩
  obtain ⟨target, hTarget, rfl⟩ : ∃ target ∈ default :: targets,
      (switchOffset (r.code.address k) target).toInt = offset := by
    obtain ⟨word, hWord, rfl⟩ := List.mem_map.1 hOffset
    rcases List.mem_cons.1 hWord with rfl | hOther
    · exact ⟨default, List.mem_cons_self .., rfl⟩
    · obtain ⟨pair, hPair, rfl⟩ := List.mem_map.1 hOther
      obtain ⟨target, hTarget, hSwitch⟩ := mem_switchPairs hPair
      exact ⟨target, List.mem_cons_of_mem _ hTarget, by rw [hSwitch]⟩
  obtain ⟨j, hEnter, hj, rfl⟩ := hTargets hs target hTarget
  exact ⟨j, hEnter, toInt_switchOffset (hBound (Nat.le_of_lt hLt)) (hBound hj)⟩

end Spans

end Paths

end JavaFragment
