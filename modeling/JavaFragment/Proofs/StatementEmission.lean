import JavaFragment.Proofs.Emission
/-!
What the steps of the code of statements do that those of expressions do not: jumps on a condition, switches and their
keys, rows of the exception table, and the slots in which results wait.
-/
namespace JavaFragment

open Emit

namespace Emit

variable {s t : EmitState} {source : Nat} {targets : List Nat}

/-- A jump was emitted if a condition holds. -/
def Jumped (c : Bool) (sites : List Nat) (s t : EmitState) : Prop :=
  if c then ∃ site, goto s = .ok site t ∧ sites = [site] else sites = [] ∧ s = t

theorem gotoIf_ok {β : Type} {c : Bool} {f : List Nat → Emit β} {b : β}
    (h : (if c then ((fun site => [site]) <$> goto) >>= f else pure [] >>= f) s = .ok b t) :
    ∃ sites r, Jumped c sites s r ∧ f sites r = .ok b t := by
  cases c with
  | true =>
    obtain ⟨sites, r, hMap, h⟩ := bind_ok.1 h
    obtain ⟨site, hGoto, rfl⟩ := map_ok.1 hMap
    exact ⟨_, r, ⟨site, hGoto, rfl⟩, h⟩
  | false => exact ⟨[], s, ⟨rfl, rfl⟩, h⟩

/-- A new switch leads nowhere yet. -/
theorem emitSwitch_ok {keys : List Int32} {site : Nat}
    (h : (liftM (CodeBuffer.emitSwitch keys) : Emit Nat) s = .ok site t) :
    site = s.next ∧ emit (.lookupSwitch 0 (keys.map fun key => (key, 0))) s = .ok () t := by
  obtain ⟨c, hEmit, rfl⟩ := onBuffer_ok.1 h
  cases hEmit
  exact ⟨rfl, rfl⟩

/-- The offset from a switch to a target. -/
def switchOffset (source target : Nat) : Int32 := Int32.ofNat target - Int32.ofNat source

theorem toInt_switchOffset {target : Nat} (hSource : source < 2147483648)
    (hTarget : target < 2147483648) : (source : Int) + (switchOffset source target).toInt = target := by
  have hBound (n : Nat) (hn : n < 2147483648) : (Int32.ofNat n).toInt = n := Int32.toInt_ofNat_of_lt hn
  unfold switchOffset
  rw [Int32.toInt_sub, hBound _ hSource, hBound _ hTarget, Int.bmod_eq_of_le (by omega) (by omega)]
  omega

/-- The keys of a switch with the offsets of its targets. -/
def switchPairs (source : Nat) (pairs : List (Int32 × Int32)) (targets : List Nat) : List (Int32 × Int32) :=
  pairs.zipWith (fun pair target => (pair.1, switchOffset source target)) targets

theorem switchPairs_keys {pairs : List (Int32 × Int32)}
    (h : pairs.length = targets.length) : ((switchPairs source pairs targets).map fun pair =>
      (pair.1, (0 : Int32))) = pairs.map fun pair => (pair.1, 0) := by
  induction pairs generalizing targets with
  | nil => rfl
  | cons pair pairs ih =>
    cases targets with
    | nil => cases h
    | cons target targets => exact congrArg (List.cons (pair.1, 0)) (ih (Nat.succ.inj h))

theorem mem_switchPairs {pairs : List (Int32 × Int32)}
    {pair : Int32 × Int32} (h : pair ∈ switchPairs source pairs targets) :
    ∃ target ∈ targets, pair.2 = switchOffset source target := by
  induction pairs generalizing targets with
  | nil => cases h
  | cons first pairs ih =>
    cases targets with
    | nil => cases h
    | cons target targets =>
      rcases List.mem_cons.1 h with rfl | hRest
      · exact ⟨target, List.mem_cons_self .., rfl⟩
      · obtain ⟨found, hFound, hOffset⟩ := ih hRest
        exact ⟨found, List.mem_cons_of_mem _ hFound, hOffset⟩

/-- Patching a switch gives it the offsets of its targets. -/
theorem patchSwitch_ok {site default : Nat}
    (h : (liftM (CodeBuffer.patchSwitch site default targets) : Emit Unit) s = .ok () t) :
    ∃ source old pairs, s.code.addresses[site]? = some source ∧
      s.code.instructions[site]? = some (.lookupSwitch old pairs) ∧ pairs.length = targets.length ∧
      t = { s with code := { s.code with instructions := (s.code.instructions.set! site
        (.lookupSwitch (switchOffset source default) (switchPairs source pairs targets))) } } := by
  obtain ⟨c, hPatch, rfl⟩ := onBuffer_ok.1 h
  unfold CodeBuffer.patchSwitch CodeBuffer.addressOf at hPatch
  obtain ⟨source, c₁, hAddress, hPatch⟩ := bind_ok.1 hPatch
  obtain ⟨c₂, _, hGet, hAddress⟩ := bind_ok.1 hAddress
  obtain ⟨rfl, rfl⟩ := get_ok.1 hGet
  cases hAt : s.code.addresses[site]? with
  | none => rw [hAt] at hAddress; exact (not_throw_ok hAddress).elim
  | some a =>
    rw [hAt] at hAddress
    obtain ⟨rfl, rfl⟩ := pure_ok.1 hAddress
    dsimp only at hPatch
    obtain ⟨c₂, _, hGet, hPatch⟩ := bind_ok.1 hPatch
    obtain ⟨rfl, rfl⟩ := get_ok.1 hGet
    cases hOld : s.code.instructions[site]? with
    | none => rw [hOld] at hPatch; exact (not_throw_ok hPatch).elim
    | some i =>
      rw [hOld] at hPatch
      cases i with
      | lookupSwitch old pairs =>
        dsimp only at hPatch
        split at hPatch
        · obtain ⟨_, _, hThrow, _⟩ := bind_ok.1 hPatch
          exact (not_throw_ok hThrow).elim
        · next hLength =>
          obtain rfl := modify_ok.1 hPatch
          exact ⟨_, old, pairs, rfl, rfl, by simpa using hLength, rfl⟩
      | _ => exact (not_throw_ok hPatch).elim

end Emit

/-- More rows in the exception table. -/
def EmitState.addRows (s : EmitState) (rows : List HandlerRange) : EmitState :=
  { s with code := { s.code with handlers := s.code.handlers ++ rows } }

theorem EmitState.addRows_later (s : EmitState) (rows : List HandlerRange) :
    s.Later (fun _ => False) (s.addRows rows) :=
  .of_code (.of_same rfl rfl rfl (UInt16.le_refl _) (UInt16.le_refl _) (by simp))

/-- A row from one address up to another with a handler. -/
def HandlerRange.Covers (row : HandlerRange) (range : Nat × Nat) (handler : Nat) : Prop :=
  row.start.toNat = range.1 ∧ row.stop.toNat = range.2 ∧ row.handler.toNat = handler

namespace Emit

variable {s t : EmitState}

/-- A row of the exception table holds the addresses that it is given. -/
theorem addHandler_ok {start stop handler : Nat} {caught : UInt16} {u : Unit}
    (h : (liftM (CodeBuffer.addHandler start stop handler caught) : Emit Unit) s = .ok u t) :
    ∃ row : HandlerRange, row.Covers (start, stop) handler ∧ row.caught = caught ∧ t = s.addRows [row] := by
  obtain ⟨c, hAdd, rfl⟩ := onBuffer_ok.1 h
  have hTable {address : Nat} {a : UInt16} {b d : CodeBuffer}
      (h : CodeBuffer.tableAddress address b = .ok a d) : a.toNat = address ∧ b = d := by
    unfold CodeBuffer.tableAddress at h
    split at h
    · next hLt =>
      obtain ⟨rfl, rfl⟩ := pure_ok.1 h
      exact ⟨by simp [Nat.mod_eq_of_lt hLt], rfl⟩
    · exact (not_throw_ok h).elim
  obtain ⟨first, _, hFirst, hAdd⟩ := bind_ok.1 hAdd
  obtain ⟨rfl, rfl⟩ := hTable hFirst
  obtain ⟨last, _, hLast, hAdd⟩ := bind_ok.1 hAdd
  obtain ⟨rfl, rfl⟩ := hTable hLast
  obtain ⟨place, _, hPlace, hAdd⟩ := bind_ok.1 hAdd
  obtain ⟨rfl, rfl⟩ := hTable hPlace
  obtain rfl := modify_ok.1 hAdd
  exact ⟨⟨first, last, place, caught⟩, ⟨rfl, rfl, rfl⟩, rfl, by simp [EmitState.addRows]⟩

/-- The index of a class is found in the pool. -/
theorem classIndex_ok {type : JavaType} {index : UInt16} (h : classIndex type s = .ok index t) :
    s.Later (fun _ => False) t ∧ t.code = s.code ∧ t.accessors = s.accessors := by
  obtain ⟨-, rfl⟩ := onPool_ok.1 h
  exact ⟨{ EmitState.Later.refl _ s with pool := (PoolGrowing.ofClass _).entries s.pool }, rfl, rfl⟩

theorem emit_next {i : Instruction} {u : Unit} (h : emit i s = .ok u t) : t.next = s.next + 1 := by
  obtain rfl := emit_ok.1 h
  simp [EmitState.next, CodeBuffer.append]

/-- One row for each of some ranges. -/
theorem addHandlers_ok {ranges : List (Nat × Nat)} {handler : Nat} {caught : UInt16} {u : PUnit}
    (h : (ranges.forM fun range =>
      (liftM (CodeBuffer.addHandler range.1 range.2 handler caught) : Emit Unit)) s = .ok u t) :
    ∃ rows : List HandlerRange, (∀ row ∈ rows, ∃ range ∈ ranges, row.Covers range handler) ∧ t = s.addRows rows := by
  induction ranges generalizing s with
  | nil =>
    obtain ⟨-, rfl⟩ := pure_ok.1 h
    exact ⟨[], by simp, by simp [EmitState.addRows]⟩
  | cons range ranges ih =>
    obtain ⟨_, r, hFirst, hRest⟩ := bind_ok.1 h
    obtain ⟨row, hRow, -, rfl⟩ := addHandler_ok hFirst
    obtain ⟨rows, hRows, rfl⟩ := ih hRest
    refine ⟨row :: rows, ?_, by simp [EmitState.addRows]⟩
    intro other hOther
    rcases List.mem_cons.1 hOther with rfl | hLater
    · exact ⟨range, List.mem_cons_self .., hRow⟩
    · obtain ⟨found, hFound, hCovers⟩ := hRows other hLater
      exact ⟨found, List.mem_cons_of_mem _ hFound, hCovers⟩

end Emit

namespace StmtCode

variable {ctx : TypingContext} {flow : Flow} {s t : EmitState} {o : Outcome} {labels : List (List Expr)}
  {groups : List (Bool × StmtCode)} {c : CaseOutcome} {label : Expr} {found : List (Int32 × Nat)}

/-! Switches. -/

/-- The keys of a switch with the numbers of their cases, in the order of the keys. -/
def sortedKeys (found : List (Int32 × Nat)) : List (Int32 × Nat) := found.mergeSort fun a b => decide (a.1 ≤ b.1)

theorem switch_ok {selector : Expr} (h : switch ctx selector labels groups flow s = .ok o t) :
    ∃ type s₁ s₂ found site s₃ s₄ c s₅ s₆ s₇,
      (ctx.compile selector).value s = .ok type s₁ ∧ coerce type .int s₁ = .ok () s₂ ∧
      caseKeys ctx 0 [] labels = .ok found ∧
      (liftM (CodeBuffer.emitSwitch ((sortedKeys found).map Prod.fst)) : Emit Nat) s₂ = .ok site s₃ ∧
      setDepth 0 s₃ = .ok () s₄ ∧ cases flow.intoSwitch groups s₄ = .ok c s₅ ∧
      (liftM (CodeBuffer.patchSwitch site (c.defaultStart.getD s₅.code.pc)
        ((sortedKeys found).map fun key => c.starts.getD key.2 s₅.code.pc)) : Emit Unit) s₅ = .ok () s₆ ∧
      patchAll (c.outcome.sites .breaking) s₅.code.pc s₆ = .ok () s₇ ∧ setDepth 0 s₇ = .ok () t ∧
      o = ⟨c.outcome.completes || c.defaultStart.isNone || !(c.outcome.sites .breaking).isEmpty,
        c.outcome.without [.breaking]⟩ := by
  obtain ⟨type, s₁, hSelector, h⟩ := bind_ok.1 h
  obtain ⟨_, s₂, hCoerce, h⟩ := bind_ok.1 h
  obtain ⟨found, _, hLift, h⟩ := bind_ok.1 h
  obtain ⟨hKeys, rfl⟩ := lift_ok.1 hLift
  obtain ⟨site, s₃, hSwitch, h⟩ := bind_ok.1 h
  obtain ⟨_, s₄, hDepth, h⟩ := bind_ok.1 h
  obtain ⟨c, s₅, hCases, h⟩ := bind_ok.1 h
  obtain ⟨stop, _, hHere, h⟩ := bind_ok.1 h
  obtain ⟨rfl, rfl⟩ := here_ok.1 hHere
  obtain ⟨_, s₆, hPatch, h⟩ := bind_ok.1 h
  obtain ⟨_, s₇, hBreaks, h⟩ := bind_ok.1 h
  obtain ⟨_, s₈, hDepth', h⟩ := bind_ok.1 h
  obtain ⟨rfl, rfl⟩ := pure_ok.1 h
  exact ⟨type, s₁, s₂, found, site, s₃, s₄, c, s₅, s₆, s₇, hSelector, hCoerce, hKeys, hSwitch, hDepth,
    hCases, hPatch, hBreaks, hDepth', rfl⟩

theorem cases_nil (h : cases flow [] s = .ok c t) : c = ⟨[], none, ⟨true, []⟩⟩ ∧ s = t := by
  obtain ⟨rfl, rfl⟩ := pure_ok.1 h
  exact ⟨rfl, rfl⟩

theorem cases_cons {isDefault : Bool} {body : StmtCode} {rest : List (Bool × StmtCode)}
    (h : cases flow ((isDefault, body) :: rest) s = .ok c t) :
    ∃ a r others, body flow s = .ok a r ∧ cases flow rest r = .ok others t ∧
      c = ⟨s.code.pc :: others.starts,
        others.defaultStart.or (if isDefault then some s.code.pc else none),
        ⟨if rest.isEmpty then a.completes else others.outcome.completes, a.pending ++ others.outcome.pending⟩⟩ := by
  obtain ⟨start, _, hHere, h⟩ := bind_ok.1 h
  obtain ⟨rfl, rfl⟩ := here_ok.1 hHere
  obtain ⟨a, r, hBody, h⟩ := bind_ok.1 h
  obtain ⟨others, r', hRest, h⟩ := bind_ok.1 h
  obtain ⟨rfl, rfl⟩ := pure_ok.1 h
  exact ⟨a, r, others, hBody, hRest, rfl⟩

/-- Every case has a start. -/
theorem cases_starts_length (h : cases flow groups s = .ok c t) : c.starts.length = groups.length := by
  induction groups generalizing s c with
  | nil => rw [(cases_nil h).1]; rfl
  | cons group rest ih =>
    obtain ⟨a, r, others, -, hRest, rfl⟩ := cases_cons h
    simp [ih hRest]

/-- The default case is one of the cases. -/
theorem cases_defaultStart {start : Nat} (h : cases flow groups s = .ok c t) (hDefault : c.defaultStart = some start) :
    start ∈ c.starts := by
  induction groups generalizing s c with
  | nil => rw [(cases_nil h).1] at hDefault; cases hDefault
  | cons group rest ih =>
    obtain ⟨a, r, others, -, hRest, rfl⟩ := cases_cons h
    cases hOthers : others.defaultStart with
    | some found =>
      obtain rfl : found = start := by simpa [hOthers] using hDefault
      exact List.mem_cons_of_mem _ (ih hRest hOthers)
    | none =>
      obtain ⟨-, rfl⟩ : group.1 = true ∧ s.code.pc = start := by simpa [hOthers] using hDefault
      exact List.mem_cons_self ..

/-- The labels of the cases of a switch, each with the number of its case. -/
def numberedLabels (number : Nat) (labels : List (List Expr)) : List (Expr × Nat) :=
  (labels.zipIdx number).flatMap fun own => own.1.map fun label => (label, own.2)

theorem mem_numberedLabels {n : Nat} :
    (label, n) ∈ numberedLabels 0 labels ↔ ∃ own, labels[n]? = some own ∧ label ∈ own := by
  simp only [numberedLabels, List.mem_flatMap, List.mem_map, Prod.exists, Prod.mk.injEq]
  constructor
  · rintro ⟨own, _, hOwn, _, hLabel, rfl, rfl⟩
    exact ⟨own, List.mk_mem_zipIdx_iff_getElem?.1 hOwn, hLabel⟩
  · rintro ⟨own, hOwn, hLabel⟩
    exact ⟨own, n, List.mk_mem_zipIdx_iff_getElem?.2 hOwn, label, hLabel, rfl, rfl⟩

theorem caseKeys_eq (number : Nat) (found : List (Int32 × Nat)) (labels : List (List Expr)) :
    caseKeys ctx number found labels = (numberedLabels number labels).foldlM
      (fun found label => caseKeys.addKey ctx label.2 found label.1) found := by
  induction labels generalizing number found with
  | nil => rfl
  | cons own rest ih =>
    rw [caseKeys, numberedLabels, List.zipIdx_cons, List.flatMap_cons, List.foldlM_append, List.foldlM_map]
    exact congrArg _ (funext fun found => ih (number + 1) found)

/-- A label whose key is known adds it, unless it was found before. -/
theorem addKey_of_key {number : Nat} {key : Int32}
    (hKey : caseKey ctx label = .ok key) : caseKeys.addKey ctx number found label =
      if found.any fun entry => entry.1 == key then .error (.code (.duplicateCase key))
      else .ok (found ++ [(key, number)]) := by
  rw [caseKeys.addKey, hKey]
  rfl

theorem addKey_ok {number : Nat} {result : List (Int32 × Nat)}
    (h : caseKeys.addKey ctx number found label = .ok result) :
    ∃ key, caseKey ctx label = .ok key ∧ key ∉ found.map Prod.fst ∧ result = found ++ [(key, number)] := by
  cases hKey : caseKey ctx label with
  | error e =>
    rw [caseKeys.addKey, hKey] at h
    cases h
  | ok key =>
    rw [addKey_of_key hKey] at h
    split at h
    · cases h
    · next hNew =>
        cases h
        exact ⟨key, rfl, by simpa using hNew, rfl⟩

/-- Labels add their keys in order, and no key comes twice. -/
theorem foldlM_addKey_ok {labels : List (Expr × Nat)} {result : List (Int32 × Nat)}
    (h : labels.foldlM (fun found label => caseKeys.addKey ctx label.2 found label.1) found = .ok result)
    (hFound : (found.map Prod.fst).Nodup) : (result.map Prod.fst).Nodup ∧ ∃ added, result = found ++ added ∧
      labels.map (fun label => (caseKey ctx label.1, label.2)) = added.map fun entry => (.ok entry.1, entry.2) := by
  induction labels generalizing found with
  | nil =>
    cases h
    exact ⟨hFound, [], by simp, rfl⟩
  | cons label rest ih =>
    rw [List.foldlM_cons] at h
    cases hFirst : caseKeys.addKey ctx label.2 found label.1 with
    | error e =>
      rw [hFirst] at h
      cases h
    | ok next =>
      rw [hFirst] at h
      obtain ⟨key, hKey, hNew, rfl⟩ := addKey_ok hFirst
      have hNext : ((found ++ [(key, label.2)]).map Prod.fst).Nodup := by
        rw [List.map_append, List.nodup_append]
        refine ⟨hFound, by simp, fun old hOld other hOther => ?_⟩
        obtain rfl := List.mem_singleton.1 hOther
        exact fun hSame => hNew (hSame ▸ hOld)
      obtain ⟨hNodup, added, rfl, hAdded⟩ := ih h hNext
      exact ⟨hNodup, (key, label.2) :: added, by simp, by simp [hKey, hAdded]⟩

/-- The keys of a switch are those of its labels, and no two are the same. -/
theorem caseKeys_ok (h : caseKeys ctx 0 [] labels = .ok found) : (found.map Prod.fst).Nodup ∧
      (numberedLabels 0 labels).map (fun label => (caseKey ctx label.1, label.2)) =
        found.map fun entry => (.ok entry.1, entry.2) := by
  rw [caseKeys_eq] at h
  obtain ⟨hNodup, added, rfl, hAdded⟩ := foldlM_addKey_ok h .nil
  exact ⟨hNodup, hAdded⟩

/-- A key with the number of a case comes from a label of that case. -/
theorem caseKeys_mem {key : Int32} {n : Nat} (h : caseKeys ctx 0 [] labels = .ok found) :
    (key, n) ∈ found ↔ ∃ own, labels[n]? = some own ∧ ∃ label ∈ own, caseKey ctx label = .ok key := by
  have hMem : (key, n) ∈ found ↔
      (Except.ok key, n) ∈ (numberedLabels 0 labels).map fun label => (caseKey ctx label.1, label.2) := by
    rw [(caseKeys_ok h).2]
    simp
  rw [hMem]
  simp only [List.mem_map, Prod.exists, Prod.mk.injEq, mem_numberedLabels]
  constructor
  · rintro ⟨label, _, ⟨own, hOwn, hLabel⟩, hKey, rfl⟩
    exact ⟨own, hOwn, label, hLabel, hKey⟩
  · rintro ⟨own, hOwn, label, hLabel, hKey⟩
    exact ⟨label, n, ⟨own, hOwn, hLabel⟩, hKey, rfl⟩

/-- The keys of a switch belong to its cases. -/
theorem caseKeys_number (h : caseKeys ctx 0 [] labels = .ok found) : ∀ entry ∈ found, entry.2 < labels.length := by
  intro entry hEntry
  obtain ⟨own, hOwn, -⟩ := (caseKeys_mem h).1 hEntry
  exact (List.getElem?_eq_some_iff.1 hOwn).1

end StmtCode

/-! Results that wait. -/

namespace Emit

variable {s t : EmitState}

/-- A result keeps the slot in which it waits, and gets new locals if it has none. -/
theorem resultSlot_ok {frame : Nat} {type : JavaType} {slot : UInt16} (h : resultSlot frame type s = .ok slot t) :
    s.resultSlot? frame = some slot ∧ s = t ∨
      s.resultSlot? frame = none ∧ ∃ r, reserve .result type s = .ok slot r ∧
        t = { r with resultSlots := r.resultSlots.set! frame (some slot) } := by
  unfold resultSlot at h
  obtain ⟨_, _, hGet, h⟩ := bind_ok.1 h
  obtain ⟨rfl, rfl⟩ := get_ok.1 hGet
  cases hSlot : s.resultSlot? frame with
  | some found =>
    rw [show (s.resultSlots[frame]?).join = some found from hSlot] at h
    obtain ⟨rfl, rfl⟩ := pure_ok.1 h
    exact .inl ⟨rfl, rfl⟩
  | none =>
    rw [show (s.resultSlots[frame]?).join = none from hSlot] at h
    obtain ⟨_, r, hReserve, h⟩ := bind_ok.1 h
    obtain ⟨_, _, hModify, h⟩ := bind_ok.1 h
    obtain ⟨rfl, rfl⟩ := pure_ok.1 h
    obtain rfl := modify_ok.1 hModify
    exact .inr ⟨rfl, r, hReserve, rfl⟩

theorem resultSlot?_set (s : EmitState) (n m : Nat) (slot : UInt16) :
    { s with resultSlots := s.resultSlots.set! n (some slot) }.resultSlot? m =
      if n = m ∧ m < s.resultSlots.size then some slot else s.resultSlot? m := by
  simp only [EmitState.resultSlot?, Array.set!_eq_setIfInBounds, Array.getElem?_setIfInBounds]
  by_cases hSame : n = m
  · subst hSame
    by_cases hLt : n < s.resultSlots.size <;> simp [hLt]
  · simp [hSame]

theorem resultSlot_later {frame : Nat} {type : JavaType} {slot : UInt16}
    (h : resultSlot frame type s = .ok slot t) : s.Later (fun _ => False) t := by
  rcases resultSlot_ok h with ⟨_, rfl⟩ | ⟨hNone, r, hReserve, rfl⟩
  · exact .refl _ s
  have hLater := reserve_later hReserve
  obtain ⟨rfl, _, rfl⟩ := reserve_ok hReserve
  have hSlot := resultSlot?_set s frame
  exact
    { hLater with
      result_size := by simp
      result_kept := fun n slot hn =>
        (hSlot n _).trans (by rw [if_neg (by rintro ⟨rfl, _⟩; rw [hNone] at hn; cases hn), hn])
      result_fresh := fun n slot hn => by
        have hn := (hSlot n _).symm.trans hn
        split at hn
        · cases hn
          exact .inr (UInt16.le_refl _)
        · exact .inl hn }

end Emit

namespace StmtCode

/-- A new place for a result is empty. -/
theorem resultSlot?_push (s : EmitState) (frame : Nat) :
    { s with resultSlots := s.resultSlots.push none }.resultSlot? frame = s.resultSlot? frame := by
  unfold EmitState.resultSlot?
  rw [Array.getElem?_push]
  split
  · next hSame => simp [hSame]
  · rfl

theorem push_later (s : EmitState) : s.Later (fun _ => False) { s with resultSlots := s.resultSlots.push none } :=
  { EmitState.Later.refl _ s with
    result_size := by simp
    result_kept := fun frame slot hSlot => (resultSlot?_push s frame).trans hSlot
    result_fresh := fun frame slot hSlot => .inl ((resultSlot?_push s frame).symm.trans hSlot) }

end StmtCode

end JavaFragment
