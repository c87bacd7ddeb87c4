import JavaFragment.Proofs.ControlFlow
/-!
Parts of the code of statements as control passes them. A part has the rows of the exception table with it
that were added while it was emitted, and is entered at its start only.
-/
namespace JavaFragment

open Emit

variable {first second : Nat → Prop} {r s t : EmitState} {row : HandlerRange}

/-- Rows that were added to the exception table between two states. -/
def Added (s t : EmitState) (row : HandlerRange) : Prop :=
  row ∈ t.code.handlers.toList.drop s.code.handlers.toList.length

theorem Added.split (h : Added s t row) (hsr : s.Later first r) (hrt : r.Later second t) :
    Added s r row ∨ Added r t row := by
  obtain ⟨early, hEarly⟩ := hsr.code.handlers
  obtain ⟨late, hLate⟩ := hrt.code.handlers
  have hAll : t.code.handlers.toList.drop s.code.handlers.toList.length = early ++ late := by
    rw [← hLate, ← hEarly, List.append_assoc, List.drop_left]
  have hFirst : r.code.handlers.toList.drop s.code.handlers.toList.length = early := by rw [← hEarly, List.drop_left]
  have hSecond : t.code.handlers.toList.drop r.code.handlers.toList.length = late := by rw [← hLate, List.drop_left]
  unfold Added at h ⊢
  rw [hAll] at h
  rw [hFirst, hSecond]
  exact List.mem_append.1 h

theorem Added.congr {s' t' : EmitState} (h : Added s t row)
    (hStart : s.code.handlers = s'.code.handlers) (hEnd : t.code.handlers = t'.code.handlers) :
    Added s' t' row := by
  unfold Added at h ⊢
  rw [← hStart, ← hEnd]
  exact h

theorem not_added_of_handlers (h : t.code.handlers = s.code.handlers) (row : HandlerRange) : ¬ Added s t row := by
  unfold Added
  rw [h, List.drop_length]
  exact List.not_mem_nil

theorem mem_of_added_addRows {rows : List HandlerRange} (h : Added s (s.addRows rows) row) : row ∈ rows := by
  simpa [Added, EmitState.addRows] using h

/-- A range of addresses that starts and stops at instructions which are emitted between two states. -/
def Between (s t : EmitState) (range : Nat × Nat) : Prop :=
  s.code.Consistent → ∃ first last, s.next ≤ first ∧ first ≤ last ∧ last ≤ t.next ∧
    range = (t.code.address first, t.code.address last)

theorem Between.later {range : Nat × Nat}
    (h : Between s r range) (hsr : s.Later first r) (hrt : r.Later second t) : Between s t range := by
  intro hs
  obtain ⟨i, j, hi, hij, hj, rfl⟩ := h hs
  have hSame (k : Nat) (hk : k ≤ r.next) : t.code.address k = r.code.address k :=
    hrt.code.address_eq k (by rw [(hsr.consistent hs).sizes]; exact hk)
  exact ⟨i, j, hi, hij, Nat.le_trans hj hrt.next_le, by rw [hSame i (by omega), hSame j hj]⟩

theorem Between.of_later (hsr : s.Later first r) (hrt : r.Later second t) : Between s t (r.code.pc, t.code.pc) := by
  intro hs
  have hr := hsr.consistent hs
  refine ⟨r.next, t.next, hsr.next_le, hrt.next_le, Nat.le_refl _, ?_⟩
  rw [hrt.code.address_eq r.next (Nat.le_of_eq hr.sizes.symm)]
  exact Prod.ext hr.address_size.symm (hrt.consistent hr).address_size.symm

namespace Paths

/-- Code between two states that has its rows with it and is entered at its start only. -/
abbrev Stretch (whole : Prop) (s t : EmitState) (leads opened : Nat → Prop) (ends : Prop) : Prop :=
  Spans whole s t leads opened (fun _ => False) (Added s t) ends

namespace Stretch

variable {whole : Prop} {s r t : EmitState} {leads leads' opened opened' : Nat → Prop} {ends ends' : Prop}
  {sites : List Nat} {n : Int}

theorem mono (h : Stretch whole s t leads opened ends) (hLeads : ∀ k, leads' k → leads k)
    (hOpen : ∀ k, opened k → opened' k) (hEnds : ends → ends') : Stretch whole s t leads' opened' ends' :=
  Spans.weaken h hLeads hOpen (fun _ => id) (fun _ => id) hEnds

theorem append (h : Stretch whole s r leads opened ends) (h' : Stretch whole r t leads' opened' ends') :
    Stretch whole s t (fun k => leads k ∨ leads' k) (fun k => opened k ∨ opened' k) (ends ∧ ends') :=
  (Spans.append h h').weaken (fun _ => id) (fun _ => id) (fun _ => id)
    (fun _ hRow => hRow.split h.later h'.later) id

theorem land (h : Stretch whole s r leads opened ends)
    (hLand : Emit.land sites r = .ok () t) (hSites : ∀ site ∈ sites, leads site) :
    Stretch whole s t leads (fun k => opened k ∧ k ∉ sites) (ends ∨ sites ≠ []) := by
  refine (Spans.land h hLand hSites).weaken (fun _ => id) (fun _ => id) (fun _ => id) ?_ id
  obtain ⟨-, -, _, rfl⟩ := patchAll_ok (land_ok.1 hLand)
  exact fun _ => id

theorem toStart (h : Stretch whole s r leads opened ends)
    (hPatch : Emit.patchAll sites s.code.pc r = .ok () t) (hSites : ∀ site ∈ sites, leads site) :
    Stretch whole s t leads (fun k => opened k ∧ k ∉ sites) ends := by
  refine (Spans.toStart h hPatch hSites).weaken (fun _ => id) (fun _ => id) (fun _ => id) ?_ id
  obtain ⟨-, -, _, rfl⟩ := patchAll_ok hPatch
  exact fun _ => id

theorem setDepth (h : Stretch whole s r leads opened ends)
    (hSet : Emit.setDepth n r = .ok () t) : Stretch whole s t leads opened ends := by
  refine (Spans.setDepth h hSet).weaken (fun _ => id) (fun _ => id) (fun _ => id) ?_ id
  obtain rfl := setDepth_ok.1 hSet
  exact fun _ => id

/-- A step that adds neither code nor rows. -/
theorem quiet (hLater : s.Later (fun _ => False) t) (hNext : t.next = s.next)
    (hHandlers : t.code.handlers = s.code.handlers) :
    Stretch whole s t (fun _ => False) (fun _ => False) True :=
  (Spans.quiet hLater hNext).weaken (fun _ => id) (fun _ => id) (fun _ => id)
    (fun row hRow => (not_added_of_handlers hHandlers row hRow).elim) id

theorem refl (s : EmitState) : Stretch whole s s (fun _ => False) (fun _ => False) True := quiet (.refl _ s) rfl rfl

theorem emit {i : Instruction} (hPlain : i.offsets = []) (h : Emit.emit i s = .ok () t) :
    Stretch whole s t (fun _ => False) (fun _ => False) (i.isTerminal = false) := by
  refine (Spans.instruction h fun _ => hPlain).weaken (fun _ => False.elim) (fun _ => id) (fun _ => id) ?_ id
  obtain rfl := emit_ok.1 h
  exact fun row hRow => (not_added_of_handlers rfl row hRow).elim

theorem goto {site : Nat} (h : Emit.goto s = .ok site t) : Stretch whole s t (· = site) (· = site) False := by
  obtain ⟨rfl, hEmit⟩ := branch_ok.1 h
  refine (Spans.jumping (i := .branch .goto 0) (emit_ok.2 hEmit)).weaken
    (fun _ => id) (fun _ => id) (fun _ => id) ?_ nofun
  subst hEmit
  exact fun row hRow => (not_added_of_handlers rfl row hRow).elim

/-- A jump on a condition. -/
theorem jumped {c : Bool} (h : Jumped c sites s t) : Stretch whole s t (· ∈ sites) (· ∈ sites) (c = false) := by
  cases c with
  | true =>
    obtain ⟨site, hGoto, rfl⟩ := h
    exact (goto hGoto).mono (fun _ => List.mem_singleton.1) (fun _ => List.mem_singleton.2) nofun
  | false =>
    obtain ⟨rfl, rfl⟩ := h
    exact (refl s).mono nofun nofun fun _ => rfl

/-- The handler of rows follows what they cover. The rows may be added before it or after it. -/
theorem withHandler {z u : EmitState} {rows : HandlerRange → Prop}
    (h : Stretch whole z s leads opened False) (hLater : s.Later (fun _ => False) r) (hNext : r.next = s.next)
    (hDepth : Emit.setDepth n r = .ok () u)
    (hPart : Spans whole u t leads' opened' (fun _ => False) rows ends) (hSome : u.next < t.next)
    (hRows : ∀ row, Added z t row → Added z s row ∨ rows row ∨
      ∃ range, Between z s range ∧ range.1 < range.2 ∧ row.Covers range s.code.pc) :
    Stretch whole z t (fun k => leads k ∨ leads' k) (fun k => opened k ∨ opened' k) ends := by
  have hStart := (Spans.append h (Spans.quiet hLater hNext)).setDepth hDepth
  have hu : u.next = s.next := by
    obtain rfl := setDepth_ok.1 hDepth
    exact hNext
  have hst : s.Later (fun _ => False) t := by
    obtain rfl := setDepth_ok.1 hDepth
    exact ((hLater.trans (.of_code (.setDepth r.code n))).trans hPart.later).mono (by simp)
  refine ((hStart.join hPart).withRows fun hz row hRow => ?_).weaken ?_ ?_ nofun (fun _ => id) id
  · rcases hRows row hRow with hOld | hNew | ⟨range, hBetween, hLt, hCovers⟩
    · exact .inl (.inl (.inl hOld))
    · exact .inl (.inr hNew)
    · obtain ⟨first, last, hFirst, hLe, hLast, rfl⟩ := hBetween hz
      have hs := h.later.consistent hz
      have hAddress (k : Nat) (hk : k ≤ s.next) : t.code.address k = s.code.address k :=
        hst.code.address_eq k (by rw [hs.sizes]; exact hk)
      refine .inr ⟨first, last, u.next, ?_, hFirst, ?_, .inr (.inr rfl)⟩
      · have hNe : first ≠ last := fun hEq => by
          rw [hEq] at hLt
          exact Nat.lt_irrefl _ hLt
        exact
          { nonempty := by omega
            last_le := Nat.le_trans hLast hst.next_le
            handler_lt := hSome
            start_eq := by rw [hAddress first (by omega), hCovers.1]
            stop_eq := by rw [hAddress last hLast, hCovers.2.1]
            handler_eq := by rw [hu, hAddress s.next (Nat.le_refl _), hCovers.2.2]; exact hs.address_size.symm }
      · have := h.later.next_le
        omega
  · exact fun k => Or.imp_left .inl
  · rintro k ((hOpen | hNo) | hOpen)
    · exact .inl hOpen
    · exact hNo.elim
    · exact .inr hOpen

/-- The handler of rows that were added just before it. -/
theorem handler {z u : EmitState} (h : Stretch whole z s leads opened False)
    (hLater : s.Later (fun _ => False) r) (hNext : r.next = s.next)
    (hRows : ∀ row, Added s r row → ∃ range, Between z s range ∧ range.1 < range.2 ∧ row.Covers range s.code.pc)
    (hDepth : Emit.setDepth n r = .ok () u) (hPart : Stretch whole u t leads' opened' ends)
    (hSome : u.next < t.next) :
    Stretch whole z t (fun k => leads k ∨ leads' k) (fun k => opened k ∨ opened' k) ends := by
  have hDeepened : r.Later (fun _ => False) u ∧ r.code.handlers = u.code.handlers := by
    obtain rfl := setDepth_ok.1 hDepth
    exact ⟨.of_code (.setDepth ..), rfl⟩
  have hRest := hDeepened.1.trans hPart.later
  refine h.withHandler hLater hNext hDepth hPart hSome fun row hRow => ?_
  rcases hRow.split h.later (hLater.trans hRest) with hOld | hNew
  · exact .inl hOld
  · rcases hNew.split hLater hRest with hHere | hThere
    · exact .inr (.inr (hRows row hHere))
    · exact .inr (.inl (hThere.congr hDeepened.2 rfl))

end Stretch

end Paths

end JavaFragment
