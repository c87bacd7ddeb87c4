import JavaFragment.Syntax.Grammar
import Mathlib.Data.List.Basic
/-!
What reading does to its state. It uses up tokens, declares variables under the next numbers and opens
scopes, which it closes again unless it stops at a fault. No malformed token is ever used up, and neither is the end of
input. Whatever was read, the scopes that are still open lead back to the one at the start.
-/
namespace JavaFragment

variable {v : Variable} {P : Variable → Prop} {s : Scope}

/-! Scopes with more variables. -/

/-- The variables of a scope satisfy a condition. -/
def Scope.All (P : Variable → Prop) (s : Scope) : Prop := ∀ frame ∈ s.own :: s.around, ∀ entry ∈ frame, P entry.2

theorem Frame.mem_of_lookup {name : String} {frame : Frame}
    (h : frame.lookup name = some v) : ∃ entry ∈ frame, entry.2 = v := by
  obtain ⟨before, after, hSplit, -⟩ := List.lookup_eq_some_iff.1 h
  exact ⟨(name, v), by simp [hSplit], rfl⟩

theorem Scope.All.of_lookup {name : String} (h : s.All P) (hLookup : s.lookup name = some v) : P v := by
  obtain ⟨frame, hFrame, hLookup⟩ := List.exists_of_findSome?_eq_some hLookup
  obtain ⟨entry, hEntry, rfl⟩ := Frame.mem_of_lookup hLookup
  exact h frame hFrame entry hEntry

theorem Scope.All.exit (h : s.All P) : s.exit.All P := by
  obtain ⟨own, around⟩ := s
  cases around with
  | nil => simp [Scope.exit, Scope.All, Scope.empty]
  | cons frame around => exact (List.forall_mem_cons.1 h).2

theorem Scope.All.enter (h : s.All P) : s.enter.All P :=
  List.forall_mem_cons.2 ⟨fun _ hNone => absurd hNone List.not_mem_nil, h⟩

theorem Scope.All.declare (h : s.All P) (hv : P v) : (s.declare v).All P := by
  intro frame hFrame entry hEntry
  rcases List.mem_cons.1 hFrame with rfl | hAround
  · rcases List.mem_cons.1 hEntry with rfl | hOwn
    · exact hv
    · exact h s.own List.mem_cons_self entry hOwn
  · exact h frame (List.mem_cons_of_mem _ hAround) entry hEntry

namespace Scope

variable {s t u : Scope} {vs ws : List Variable}

/-- A scope with variables declared in it one after another, under names that it did not declare. -/
inductive Extended : Scope → List Variable → Scope → Prop
  | refl (s : Scope) : Extended s [] s
  | declare {s t : Scope} {v : Variable} {vs : List Variable} (hNew : s.declares v.name = false)
      (h : Extended (s.declare v) vs t) : Extended s (v :: vs) t

namespace Extended

theorem trans (h : s.Extended vs t) (h' : t.Extended ws u) : s.Extended (vs ++ ws) u := by
  induction h with
  | refl => exact h'
  | declare hNew _ ih => exact .declare hNew (ih h')

theorem eq_of_nil (h : s.Extended [] t) : t = s := by
  cases h
  rfl

/-- The scopes around stay the same. -/
theorem around_eq (h : s.Extended vs t) : t.around = s.around := by
  induction h with
  | refl => rfl
  | declare _ _ ih => exact ih

/-- Old names keep their variables, and the new ones lead to what was declared. -/
theorem lookup_eq (h : s.Extended vs t) (name : String) :
    t.own.lookup name = (s.own.lookup name).or (vs.find? fun v => v.name == name) := by
  induction h with
  | refl s => simp
  | @declare s t v vs hNew _ ih =>
    have hFresh : s.own.lookup v.name = none := by simpa [declares] using hNew
    rw [ih, Scope.declare, List.lookup_cons, List.find?_cons]
    by_cases hName : name = v.name
    · simp [hName, hFresh]
    · have hOther : (name == v.name) = false := by simpa using hName
      have hOther' : (v.name == name) = false := by simpa using Ne.symm hName
      simp [hOther, hOther']

/-- Closing a scope drops what was declared in it. -/
theorem exit_eq (h : s.enter.Extended vs t) : t.exit = s := by
  have hAround : t.around = s.own :: s.around := h.around_eq
  rw [exit, hAround]

end Extended

theorem exits_succ (depth : Nat) (s : Scope) : s.exits (depth + 1) = (s.exits depth).exit := by
  induction depth generalizing s with
  | zero => rfl
  | succ depth ih => exact ih s.exit

end Scope

/-! Moves. -/

/-- A token that can be used up: neither malformed nor the end of input. -/
def Token.isPlain : Token → Bool
  | .bad _ | .eof => false
  | _ => true

/-- What is left of some tokens when plain ones are taken from the front. -/
def Leaving (ahead rest : List PlacedToken) : Prop :=
  ∃ taken, ahead = taken ++ rest ∧ ∀ placed ∈ taken, placed.token.isPlain = true

namespace Leaving

variable {ahead middle rest : List PlacedToken}

theorem refl : Leaving ahead ahead := ⟨[], rfl, List.forall_mem_nil _⟩

theorem cons {placed : PlacedToken} (hPlain : placed.token.isPlain = true) (h : Leaving ahead rest) :
    Leaving (placed :: ahead) rest := by
  obtain ⟨taken, rfl, hTaken⟩ := h
  exact ⟨placed :: taken, rfl, List.forall_mem_cons.2 ⟨hPlain, hTaken⟩⟩

theorem trans (h : Leaving ahead middle) (h' : Leaving middle rest) : Leaving ahead rest := by
  obtain ⟨taken, rfl, hTaken⟩ := h
  obtain ⟨taken', rfl, hTaken'⟩ := h'
  exact ⟨taken ++ taken', (List.append_assoc ..).symm, List.forall_mem_append.2 ⟨hTaken, hTaken'⟩⟩

theorem suffix (h : Leaving ahead rest) : rest <:+ ahead := by
  obtain ⟨taken, rfl, -⟩ := h
  exact List.suffix_append taken rest

end Leaving

/-- The state inside a scope that is opened in it. -/
abbrev ReaderState.opened (s : ReaderState) : ReaderState := { s with scope := s.scope.enter, depth := s.depth + 1 }

/-- Moves from one state to another, with the variables that are declared on the way. Moves that have ended
closed every scope that they opened. Where the scope at the start is still, variables are declared in scopes
inside of it only. -/
inductive ReaderState.Moves : Bool → Prop → ReaderState → List Variable → ReaderState → Prop
  | tokens {ended : Bool} {still : Prop} {s : ReaderState} {ahead : List PlacedToken} (h : Leaving s.ahead ahead) :
      Moves ended still s [] { s with ahead := ahead }
  | declare {ended : Bool} {still : Prop} {s : ReaderState} {v : Variable} (hOpen : ¬ still)
      (hNew : s.scope.declares v.name = false) (hNumber : v.number = s.next) :
      Moves ended still s [v] { s with scope := s.scope.declare v, next := s.next + 1 }
  | closed {ended : Bool} {still : Prop} {s t : ReaderState} {vs : List Variable}
      (h : Moves true False s.opened vs t) :
      Moves ended still s vs { t with scope := t.scope.exit, depth := t.depth - 1 }
  | inside {still : Prop} {s t : ReaderState} {vs : List Variable} (h : Moves false False s.opened vs t) :
      Moves false still s vs t
  | trans {ended : Bool} {still : Prop} {s r t : ReaderState} {vs ws : List Variable}
      (h : Moves true still s vs r) (h' : Moves ended still r ws t) : Moves ended still s (vs ++ ws) t

namespace ReaderState.Moves

variable {ended : Bool} {still : Prop} {s t : ReaderState} {vs : List Variable}

theorem refl : s.Moves ended still [] s := .tokens .refl

/-- What holds of scopes whatever is declared in them holds of the scope at the end. -/
theorem keeps {I : Scope → Prop} {P : Variable → Prop} (hEnter : ∀ {s}, I s → I s.enter) (hExit : ∀ {s}, I s → I s.exit)
    (hDeclare : ∀ {s v}, I s → P v → I (s.declare v)) (h : s.Moves ended still vs t) (hs : I s.scope)
    (hvs : ∀ v ∈ vs, P v) : I t.scope := by
  induction h with
  | tokens => exact hs
  | declare => exact hDeclare hs (hvs _ List.mem_cons_self)
  | closed _ ih => exact hExit (ih (hEnter hs) hvs)
  | inside _ ih => exact ih (hEnter hs) hvs
  | trans _ _ ih ih' =>
    rw [List.forall_mem_append] at hvs
    exact ih' (ih hs hvs.1) hvs.2

theorem all {P : Variable → Prop} (h : s.Moves ended still vs t) (hs : s.scope.All P) (hvs : ∀ v ∈ vs, P v) :
    t.scope.All P :=
  h.keeps Scope.All.enter Scope.All.exit Scope.All.declare hs hvs

/-- Tokens are used up from the front, and no other than plain ones. -/
theorem leaving (h : s.Moves ended still vs t) : Leaving s.ahead t.ahead := by
  induction h with
  | tokens h => exact h
  | declare => exact .refl
  | closed _ ih => exact ih
  | inside _ ih => exact ih
  | trans _ _ ih ih' => exact ih.trans ih'

/-- Moves lead back to the scope at the start, which gets variables only if it is not still. -/
theorem leads (h : s.Moves ended still vs t) : (ended = true → t.depth = s.depth) ∧ s.depth ≤ t.depth ∧
      ∃ ws, (still → ws = []) ∧ s.scope.Extended ws (t.scope.exits (t.depth - s.depth)) := by
  induction h with
  | tokens => exact ⟨fun _ => rfl, Nat.le_refl _, [], fun _ => rfl, by simpa [Scope.exits] using .refl _⟩
  | @declare _ _ s v hOpen hNew _ =>
    refine ⟨fun _ => rfl, Nat.le_refl _, [v], fun hStill => absurd hStill hOpen, ?_⟩
    simpa [Scope.exits] using .declare hNew (.refl _)
  | closed _ ih =>
    obtain ⟨hDepth, -, ws, -, hScope⟩ := ih
    simp only [hDepth rfl, Nat.sub_self, Scope.exits] at hScope
    refine ⟨fun _ => ?_, ?_, [], fun _ => rfl, ?_⟩
    · simp [hDepth rfl]
    · simp [hDepth rfl]
    · simpa [hDepth rfl, Scope.exits, hScope.exit_eq] using .refl _
  | @inside _ s t _ _ ih =>
    obtain ⟨-, hDepth, ws, -, hScope⟩ := ih
    have hInner : s.depth + 1 ≤ t.depth := hDepth
    have hOne : t.depth - s.depth = t.depth - (s.depth + 1) + 1 := by omega
    refine ⟨nofun, Nat.le_of_succ_le hInner, [], fun _ => rfl, ?_⟩
    rw [hOne, Scope.exits_succ, hScope.exit_eq]
    exact .refl _
  | trans _ _ ih ih' =>
    obtain ⟨hSame, -, ws, hStill, hScope⟩ := ih
    obtain ⟨hSame', hDepth', ws', hStill', hScope'⟩ := ih'
    simp only [hSame rfl, Nat.sub_self, Scope.exits] at hSame' hDepth' hScope hScope'
    refine ⟨hSame', hDepth', ws ++ ws', fun h => ?_, hScope.trans hScope'⟩
    rw [hStill h, hStill' h, List.append_nil]

/-- Moves that have ended give back the scopes that they began in. -/
theorem extended (h : s.Moves true still vs t) : ∃ ws, (still → ws = []) ∧ s.scope.Extended ws t.scope := by
  obtain ⟨hDepth, -, ws, hStill, hScope⟩ := h.leads
  simp only [hDepth rfl, Nat.sub_self, Scope.exits] at hScope
  exact ⟨ws, hStill, hScope⟩

theorem scope_eq (h : s.Moves true True vs t) : t.scope = s.scope := by
  obtain ⟨ws, hNone, hScope⟩ := h.extended
  rw [hNone trivial] at hScope
  exact hScope.eq_of_nil

/-- Where nothing is declared, it does not matter whether something may be. -/
theorem loosen (h : s.Moves ended True vs t) (still : Prop) : s.Moves ended still vs t := by
  generalize hTrue : True = start at h
  induction h with
  | tokens h => exact .tokens h
  | declare hOpen => exact absurd (hTrue ▸ trivial) hOpen
  | closed h => exact .closed h
  | inside h => exact .inside h
  | trans _ _ ih ih' => exact .trans (ih hTrue) (ih' hTrue)

end ReaderState.Moves

end JavaFragment
