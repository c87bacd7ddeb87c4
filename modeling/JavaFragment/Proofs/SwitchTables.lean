import JavaFragment.Proofs.CodeArrays
/-!
The tables of switches. The keys of a table stand in strictly increasing order and are the values of the
labels, and each leads to the case that carries its label. The table is emitted before the cases and gets its
offsets after them, so what is shown is about the instruction that stands in the finished code of the switch.
-/
namespace JavaFragment

open Emit

/-- The value of a label is an `int`. -/
def TypingContext.HasKey (ctx : TypingContext) (label : Expr) (key : Int32) : Prop :=
  ∃ kind, ctx.constant label = some (.int key kind)

theorem TypingContext.HasKey.unique {ctx : TypingContext} {label : Expr} {first second : Int32}
    (hFirst : ctx.HasKey label first) (hSecond : ctx.HasKey label second) : first = second := by
  obtain ⟨_, hFirst⟩ := hFirst
  obtain ⟨_, hSecond⟩ := hSecond
  cases hFirst.symm.trans hSecond
  rfl

/-- An offset leads from one address to another: it is their distance as a signed word, and the distance
itself in code of less than 2 ^ 31 bytes. -/
def Leads (size source : Nat) (offset : Int32) (target : Nat) : Prop :=
  offset.toInt = ((target : Int) - source).bmod 4294967296 ∧
    (size < 2147483648 → (source : Int) + offset.toInt = target)

namespace Emit

theorem leads_switchOffset {size source target : Nat} (hSource : source ≤ size) (hTarget : target ≤ size) :
    Leads size source (switchOffset source target) target := by
  refine ⟨?_, fun hSize => toInt_switchOffset (by omega) (by omega)⟩
  rw [switchOffset, Int32.toInt_sub, Int32.toInt_ofNat', Int32.toInt_ofNat']
  exact (Int.sub_bmod ..).symm

theorem switchPairs_map {α : Type} (source : Nat) (key : α → Int32) (target : α → Nat) (entries : List α) :
    switchPairs source (entries.map fun e => (key e, 0)) (entries.map target) =
      entries.map fun e => (key e, switchOffset source (target e)) := by
  simp [switchPairs, List.zipWith_map, List.zipWith_self]

/-- Patching branches leaves every other instruction as it is. -/
theorem patchAll_keeps {sites : List Nat} {target k : Nat} {u : Unit} {s t : EmitState} {i : Instruction}
    (hOther : ∀ b offset, i ≠ .branch b offset) (h : patchAll sites target s = .ok u t)
    (hAt : s.code.instructions[k]? = some i) : t.code.instructions[k]? = some i := by
  induction sites generalizing s with
  | nil =>
    obtain rfl := patchAll_nil.1 h
    exact hAt
  | cons site sites ih =>
    obtain ⟨r, hFirst, hRest⟩ := patchAll_cons.1 h
    obtain ⟨b, old, new, hOld, -, rfl⟩ := patch_ok hFirst
    refine ih hRest ?_
    have hNe : site ≠ k := by
      rintro rfl
      exact hOther b old (Option.some.inj (hAt.symm.trans hOld))
    rw [Array.set!_eq_setIfInBounds, Array.getElem?_setIfInBounds_ne hNe]
    exact hAt

end Emit

namespace StmtCode

variable {ctx : TypingContext} {flow : Flow} {s t : EmitState} {label : Expr} {key : Int32} {found : List (Int32 × Nat)}
  {list : List SwitchCase}

/-! Keys. -/

theorem hasKey_of_caseKey (h : caseKey ctx label = .ok key) : ctx.HasKey label key := by
  unfold caseKey at h
  dsimp only at h
  split at h
  · next found hFound =>
      cases h
      split at hFound
      · next v kind =>
          split at hFound
          · cases hFound
            exact ⟨kind, by rw [TypingContext.constant, constantWith]⟩
          · cases hFound
      · split at hFound
        · next v kind hValue => exact ⟨kind, by rw [hValue, Option.some.inj hFound]⟩
        · cases hFound
  · cases h

theorem numberedLabels_fst (number : Nat) (labels : List (List Expr)) :
    (numberedLabels number labels).map Prod.fst = labels.flatten := by
  induction labels generalizing number with
  | nil => rfl
  | cons own rest ih =>
    rw [numberedLabels, List.zipIdx_cons, List.flatMap_cons, List.map_append, List.map_map, List.flatten_cons]
    exact congrArg₂ _ (List.map_id _) (ih (number + 1))

/-- Accepted labels have different keys. -/
theorem caseKey_ne_of_sublist {labels : List (List Expr)} {first second : Expr}
    (h : caseKeys ctx 0 [] labels = .ok found) (hBoth : [first, second].Sublist labels.flatten) :
    caseKey ctx first ≠ caseKey ctx second := by
  obtain ⟨hNodup, hKeys⟩ := caseKeys_ok h
  have hSame : labels.flatten.map (caseKey ctx) = (found.map Prod.fst).map .ok := by
    have hFirst := congrArg (List.map Prod.fst) hKeys
    rw [← numberedLabels_fst 0]
    simpa [Function.comp_def] using hFirst
  have hDistinct : (labels.flatten.map (caseKey ctx)).Nodup := by
    rw [hSame]
    exact List.Pairwise.map _ (fun _ _ hNe hEq => hNe (Except.ok.inj hEq)) hNodup
  have hPair := hDistinct.sublist (hBoth.map (caseKey ctx))
  simpa using hPair

/-- Every label of an accepted switch has a key. -/
theorem exists_caseKey {case : SwitchCase}
    (h : caseKeys ctx 0 [] (list.map SwitchCase.labels) = .ok found) (hCase : case ∈ list)
    (hLabel : label ∈ case.labels) : ∃ key, caseKey ctx label = .ok key := by
  obtain ⟨i, hi⟩ := List.mem_iff_getElem?.1 hCase
  have hNumbered : (label, i) ∈ numberedLabels 0 (list.map SwitchCase.labels) :=
    mem_numberedLabels.2 ⟨case.labels, by simp [hi], hLabel⟩
  have hEntry := List.mem_map_of_mem (f := fun label => (caseKey ctx label.1, label.2)) hNumbered
  rw [(caseKeys_ok h).2] at hEntry
  obtain ⟨entry, -, hEq⟩ := List.mem_map.1 hEntry
  exact ⟨entry.1, (congrArg Prod.fst hEq).symm⟩

theorem caseKey_of_hasKey {case : SwitchCase} (h : caseKeys ctx 0 [] (list.map SwitchCase.labels) = .ok found)
    (hCase : case ∈ list) (hLabel : label ∈ case.labels) (hKey : ctx.HasKey label key) :
    caseKey ctx label = .ok key := by
  obtain ⟨own, hOwn⟩ := exists_caseKey h hCase hLabel
  rw [hOwn, (hasKey_of_caseKey hOwn).unique hKey]

/-- Labels with keys are refused for a key that two of them have. The labels before are those of the keys
found so far. -/
theorem foldlM_addKey_error {before labels : List (Expr × Nat)} {e : CompileError}
    (hBefore : before.map (fun label => caseKey ctx label.1) = found.map fun entry => .ok entry.1)
    (hKeys : ∀ label ∈ labels, ∃ key, caseKey ctx label.1 = .ok key)
    (h : labels.foldlM (fun found label => caseKeys.addKey ctx label.2 found label.1) found = .error e) :
    ∃ key first second, e = .code (.duplicateCase key) ∧
      [first, second].Sublist ((before ++ labels).map Prod.fst) ∧
      caseKey ctx first = .ok key ∧ caseKey ctx second = .ok key := by
  induction labels generalizing before found with
  | nil => cases h
  | cons label rest ih =>
    obtain ⟨key, hKey⟩ := hKeys label (List.mem_cons_self ..)
    rw [List.foldlM_cons, addKey_of_key hKey] at h
    split at h
    · next hFound =>
        cases h
        obtain ⟨entry, hEntry, hSame⟩ := List.any_eq_true.1 hFound
        have hMem : Except.ok key ∈ before.map fun label => caseKey ctx label.1 := by
          rw [hBefore]
          exact List.mem_map.2 ⟨entry, hEntry, by rw [eq_of_beq hSame]⟩
        obtain ⟨earlier, hEarlier, hOther⟩ := List.mem_map.1 hMem
        refine ⟨key, earlier.1, label.1, rfl, ?_, hOther, hKey⟩
        rw [List.map_append, List.map_cons]
        exact (List.singleton_sublist.2 (List.mem_map_of_mem hEarlier)).append
          (List.singleton_sublist.2 (List.mem_cons_self ..))
    · have hNext := @ih _ (before ++ [label]) (by simp [hBefore, hKey])
        (fun other hOther => hKeys other (List.mem_cons_of_mem _ hOther)) h
      simpa using hNext

/-- The keys of a table are strictly increasing. -/
theorem sortedKeys_increasing (h : (found.map Prod.fst).Nodup) :
    ((sortedKeys found).map Prod.fst).Pairwise (· < ·) := by
  have hSorted : (sortedKeys found).Pairwise fun a b => decide (a.1 ≤ b.1) = true :=
    List.pairwise_mergeSort (fun a b c hab hbc => by simp_all [Int32.le_iff_toInt_le]; omega)
      (fun a b => by simp [Int32.le_iff_toInt_le]; omega) found
  have hDistinct : ((sortedKeys found).map Prod.fst).Nodup := ((List.mergeSort_perm ..).map Prod.fst).nodup_iff.2 h
  refine List.pairwise_map.2 ((hSorted.and (List.pairwise_map.1 hDistinct)).imp ?_)
  rintro a b ⟨hLe, hNe⟩
  have hInt : a.1.toInt ≠ b.1.toInt := fun hSame => hNe (Int32.toInt_inj.1 hSame)
  simp only [decide_eq_true_eq, Int32.le_iff_toInt_le] at hLe
  rw [Int32.lt_iff_toInt_lt]
  omega

/-! Cases. -/

/-- The cases of a switch are coded one after another, each from the state that the one before it leaves. -/
inductive CasesFrom (ctx : TypingContext) (flow : Flow) :
    List SwitchCase → EmitState → List EmitState → EmitState → Prop where
  | nil (s : EmitState) : CasesFrom ctx flow [] s [] s
  | cons {case : SwitchCase} {rest : List SwitchCase} {s r t : EmitState} {starts : List EmitState}
      {o : Outcome} (hBody : compileBlock ctx case.body flow s = .ok o r)
      (hRest : CasesFrom ctx flow rest r starts t) : CasesFrom ctx flow (case :: rest) s (s :: starts) t

theorem CasesFrom.later {cases : List SwitchCase} {starts : List EmitState} (h : CasesFrom ctx flow cases s starts t) :
    s.Later (fun _ => False) t ∧ ∀ start ∈ starts, start.code.pc ≤ t.code.pc := by
  induction h with
  | nil s => exact ⟨.refl _ s, by simp⟩
  | @cons case rest s r t starts o hBody hRest ih =>
    have hStretch : Paths.Stretch False s r _ _ _ := (compileBlock_flows case.body flow s o r hBody).stretch
    have hLater : s.Later (fun _ => False) t := (hStretch.later.trans ih.1).mono (by simp)
    exact ⟨hLater, by simpa using ⟨hLater.code.pc_le, ih.2⟩⟩

/-- The recorded starts are those of the cases. The last default case is the one that counts. -/
theorem casesFrom_of_cases {c : CaseOutcome} (h : cases flow (compileCases ctx list) s = .ok c t) :
    ∃ starts, CasesFrom ctx flow list s starts t ∧ c.starts = starts.map (·.code.pc) ∧
      (list.all (!·.isDefault) → c.defaultStart = none) ∧
      ∀ i case start, list[i]? = some case → starts[i]? = some start → case.isDefault = true →
        (list.drop (i + 1)).all (!·.isDefault) → c.defaultStart = some start.code.pc := by
  induction list generalizing s c with
  | nil =>
    obtain ⟨rfl, rfl⟩ := cases_nil h
    exact ⟨[], .nil s, rfl, fun _ => rfl, by simp⟩
  | cons first rest ih =>
    obtain ⟨labels, isDefault, body⟩ := first
    rw [compileCases] at h
    obtain ⟨a, r, others, hBody, hRest, rfl⟩ := cases_cons h
    obtain ⟨starts, hFrom, hStarts, hNone, hSome⟩ := ih hRest
    refine ⟨s :: starts, .cons hBody hFrom, by simp [hStarts], fun hAll => ?_, ?_⟩
    · obtain ⟨hFirst, hOthers⟩ : isDefault = false ∧ rest.all (!·.isDefault) := by
        simpa [SwitchCase.isDefault] using hAll
      simp [hNone hOthers, hFirst]
    · intro i case start hCase hStart hDefault hLast
      cases i with
      | zero =>
        cases hCase
        cases hStart
        have hFirst : isDefault = true := hDefault
        simp [hNone hLast, hFirst]
      | succ i => simp [hSome i case start hCase hStart hDefault hLast]

/-! Tables. -/

/-- The table of a switch with given cases, which are coded from given states on. The offsets count from the
address of the table, and the cases end with the code of the switch. -/
structure Tabulates (ctx : TypingContext) (cases : List SwitchCase) (starts : List EmitState)
    (source stop : Nat) (default : Int32) (pairs : List (Int32 × Int32)) : Prop where
  increasing : (pairs.map Prod.fst).Pairwise (· < ·)
  valued : ∀ case ∈ cases, ∀ label ∈ case.labels, ∃ key, ctx.HasKey label key
  key_iff : ∀ key, key ∈ pairs.map Prod.fst ↔ ∃ case ∈ cases, ∃ label ∈ case.labels, ctx.HasKey label key
  case_leads : ∀ (i : Nat) case start label key offset, cases[i]? = some case → starts[i]? = some start →
    label ∈ case.labels → ctx.HasKey label key → (key, offset) ∈ pairs →
    Leads stop source offset start.code.pc
  default_leads : ∀ (i : Nat) case start, cases[i]? = some case → starts[i]? = some start →
    case.isDefault = true → (cases.drop (i + 1)).all (!·.isDefault) → Leads stop source default start.code.pc
  otherwise_leads : cases.all (!·.isDefault) → Leads stop source default stop

theorem tabulates_of_cases {starts : List EmitState}
    {c : CaseOutcome} {source : Nat} (hKeys : caseKeys ctx 0 [] (list.map SwitchCase.labels) = .ok found)
    (hFrom : CasesFrom ctx flow list s starts t) (hStarts : c.starts = starts.map (·.code.pc))
    (hNone : list.all (!·.isDefault) → c.defaultStart = none)
    (hSome : ∀ i case start, list[i]? = some case → starts[i]? = some start → case.isDefault = true →
      (list.drop (i + 1)).all (!·.isDefault) → c.defaultStart = some start.code.pc)
    (hSource : source ≤ t.code.pc) :
    Tabulates ctx list starts source t.code.pc (switchOffset source (c.defaultStart.getD t.code.pc))
      ((sortedKeys found).map fun e => (e.1, switchOffset source (c.starts.getD e.2 t.code.pc))) := by
  have hPcs := hFrom.later.2
  have hNodup := (caseKeys_ok hKeys).1
  have hMem (key : Int32) (n : Nat) : (key, n) ∈ sortedKeys found ↔
      ∃ case, list[n]? = some case ∧ ∃ label ∈ case.labels, caseKey ctx label = .ok key := by
    rw [sortedKeys, List.mem_mergeSort, caseKeys_mem hKeys]
    simp
  refine ⟨?_, ?_, ?_, ?_, ?_, ?_⟩
  · rw [List.map_map]
    exact sortedKeys_increasing hNodup
  · exact fun case hCase label hLabel => (exists_caseKey hKeys hCase hLabel).imp fun _ hKey => hasKey_of_caseKey hKey
  · intro key
    simp only [List.map_map, List.mem_map, Function.comp_apply, Prod.exists]
    constructor
    · rintro ⟨_, n, hEntry, rfl⟩
      obtain ⟨case, hCase, label, hLabel, hKey⟩ := (hMem _ n).1 hEntry
      exact ⟨case, List.mem_of_getElem? hCase, label, hLabel, hasKey_of_caseKey hKey⟩
    · rintro ⟨case, hCase, label, hLabel, hKey⟩
      obtain ⟨n, hn⟩ := List.mem_iff_getElem?.1 hCase
      exact ⟨key, n, (hMem key n).2 ⟨case, hn, label, hLabel, caseKey_of_hasKey hKeys hCase hLabel hKey⟩, rfl⟩
  · intro i case start label key offset hCase hStart hLabel hKey hPair
    obtain ⟨⟨same, n⟩, hEntry, hEq⟩ := List.mem_map.1 hPair
    obtain ⟨rfl, rfl⟩ := Prod.mk.inj hEq
    have hOwn : (same, i) ∈ sortedKeys found :=
      (hMem same i).2 ⟨case, hCase, label, hLabel, caseKey_of_hasKey hKeys (List.mem_of_getElem? hCase) hLabel hKey⟩
    -- A key occurs once, so its entry is the one of this label.
    obtain rfl : n = i := by
      have hOnce : ((sortedKeys found).map Prod.fst).Nodup :=
        (sortedKeys_increasing hNodup).imp fun h => by rintro rfl; exact Int32.lt_irrefl h
      exact congrArg Prod.snd (List.inj_on_of_nodup_map hOnce hEntry hOwn rfl)
    have hTarget : c.starts.getD n t.code.pc = start.code.pc := by
      rw [hStarts]
      simp [hStart]
    rw [hTarget]
    exact leads_switchOffset hSource (hPcs start (List.mem_of_getElem? hStart))
  · intro i case start hCase hStart hDefault hLast
    rw [hSome i case start hCase hStart hDefault hLast]
    exact leads_switchOffset hSource (hPcs start (List.mem_of_getElem? hStart))
  · intro hAll
    rw [hNone hAll]
    exact leads_switchOffset hSource (Nat.le_refl _)

/-- Where the parts of a switch stand. Its table is the instruction right before the code of its cases, and
nothing follows that code. What is done after the cases changes the targets of instructions only. -/
structure Contains (ctx : TypingContext) (flow : Flow) (cases : List SwitchCase) (s t : EmitState) (site : Nat)
    (default : Int32) (pairs : List (Int32 × Int32)) (starts : List EmitState) (first last : EmitState) :
    Prop where
  within : s.next ≤ site
  table : t.code.instructions[site]? = some (.lookupSwitch default pairs)
  before : s.Later (fun _ => False) first
  adjacent : first.next = site + 1
  bodies : CasesFrom ctx flow.intoSwitch cases first starts last
  after : last.Later (fun _ => True) t
  next_eq : last.next = t.next
  pc_eq : last.code.pc = t.code.pc

/-- Pointing a switch to its targets changes these alone. -/
theorem patchSwitch_later {site target : Nat} {targets : List Nat}
    (h : (liftM (CodeBuffer.patchSwitch site target targets) : Emit Unit) s = .ok () t) :
    s.Later (· = site) t ∧ t.next = s.next ∧ t.code.pc = s.code.pc := by
  obtain ⟨source, old, pairs, -, hOld, hLength, rfl⟩ := patchSwitch_ok h
  refine ⟨.of_code (CodeBuffer.Extends.set hOld ?_), by simp [EmitState.next], rfl⟩
  exact congrArg (Instruction.lookupSwitch 0) (switchPairs_keys hLength)

/-- A switch that is coded has its table right before its cases. -/
theorem switch_table {selector : Expr} {o : Outcome} (hs : s.code.Consistent)
    (h : compileStmt ctx (.switch selector list) flow s = .ok o t) :
    ∃ site default pairs starts first last,
      Contains ctx flow list s t site default pairs starts first last ∧
      Tabulates ctx list starts (t.code.address site) t.code.pc default pairs := by
  rw [compileStmt] at h
  obtain ⟨type, s₁, s₂, found, site, s₃, s₄, c, s₅, s₆, s₇, hValue, hCoerce, hKeys, hSwitch, hDepth, hCases,
    hPatch, hBreaks, hDepth', -⟩ := switch_ok h
  obtain ⟨rfl, hEmit⟩ := emitSwitch_ok hSwitch
  have hHead : s.Later (fun _ => False) s₂ :=
    ((Growing.bind (compile_grows_untyped ctx selector).value fun _ => .coerce ..).grows s () s₂
      (bind_ok.2 ⟨type, s₁, hValue, hCoerce⟩)).later
  obtain ⟨hTable, hNext, hStart⟩ : s₄.code.instructions[s₂.next]? =
      some (.lookupSwitch 0 ((sortedKeys found).map fun e => (e.1, 0))) ∧ s₄.next = s₂.next + 1 ∧
      s₂.Later (fun _ => False) s₄ := by
    obtain rfl := setDepth_ok.1 hDepth
    obtain rfl := emit_ok.1 hEmit
    refine ⟨?_, ?_, .of_code (((CodeBuffer.Extends.appendWith ..).trans (.setDepth ..)).mono (by simp))⟩
    all_goals simp [EmitState.next, CodeBuffer.append, CodeBuffer.appendWith, CodeBuffer.growStack,
      CodeBuffer.setDepth, Function.comp_def]
  obtain ⟨starts, hFrom, hStarts, hNone, hSome⟩ := casesFrom_of_cases hCases
  have hBefore : s.Later (fun _ => False) s₄ := (hHead.trans hStart).mono (by simp)
  have hKept := hFrom.later.1.code.kept s₂.next _ id hTable
  obtain ⟨hPatchLater, hPatchNext, hPatchPc⟩ := patchSwitch_later hPatch
  obtain ⟨hBreaksLater, -, _, hSame⟩ := patchAll_ok hBreaks
  have hDone := setDepth_ok.1 hDepth'
  have hAfter : s₅.Later (fun _ => True) t := by
    rw [← hDone]
    exact ((hPatchLater.trans hBreaksLater).trans (.of_code (.setDepth ..))).mono fun _ _ _ => trivial
  obtain ⟨source, old, pairs, hSource, hOld, -, hSet⟩ := patchSwitch_ok hPatch
  obtain ⟨rfl, rfl⟩ := Instruction.lookupSwitch.inj (Option.some.inj (hOld.symm.trans hKept))
  have hPatched : s₆.code.instructions[s₂.next]? =
      some (.lookupSwitch (switchOffset source (c.defaultStart.getD s₅.code.pc))
        ((sortedKeys found).map fun e => (e.1, switchOffset source (c.starts.getD e.2 s₅.code.pc)))) := by
    rw [hSet, ← switchPairs_map, Array.set!_eq_setIfInBounds]
    exact Array.getElem?_setIfInBounds_self_of_lt (Array.getElem?_eq_some_iff.1 hOld).1
  have hUnbroken := patchAll_keeps (by simp) hBreaks hPatched
  have hPc : s₅.code.pc = t.code.pc := by
    rw [← hDone, hSame]
    exact hPatchPc.symm
  -- The table stands at an address of the finished code, which is not past its end.
  have h₅ := (hBefore.trans hFrom.later.1).consistent hs
  have hLt : s₂.next < s₅.code.instructions.size := (Array.getElem?_eq_some_iff.1 hOld).1
  obtain rfl : t.code.address s₂.next = source := by
    rw [hAfter.code.address_eq s₂.next (by rw [h₅.sizes]; exact Nat.le_of_lt hLt)]
    simp [CodeBuffer.address, hSource]
  have hLe : t.code.address s₂.next ≤ s₅.code.pc := by
    rw [hAfter.code.address_eq s₂.next (by rw [h₅.sizes]; exact Nat.le_of_lt hLt), ← h₅.address_size]
    exact h₅.address_mono (Nat.le_of_lt hLt) (Nat.le_refl _)
  refine ⟨s₂.next, _, _, starts, s₄, s₅,
    ⟨hHead.next_le, ?_, hBefore, hNext, hFrom, hAfter, ?_, hPc⟩, hPc ▸
      tabulates_of_cases hKeys hFrom hStarts hNone hSome hLe⟩
  · rw [← hPc, ← hDone]
    rw [← hDone] at hUnbroken
    exact hUnbroken
  · rw [← hPatchNext, ← patchAll_next hBreaks, ← hDone]
    rfl

/-- A switch whose labels are refused is refused after the code of its selector. -/
theorem switch_of_refused {selector : Expr} {type : JavaType} {r z : EmitState}
    {e : CompileError} (hValue : (ctx.compile selector).value s = .ok type r)
    (hCoerce : coerce type .int r = .ok () z)
    (hKeys : caseKeys ctx 0 [] (list.map SwitchCase.labels) = .error e) :
    compileStmt ctx (.switch selector list) flow s = .error e z := by
  rw [compileStmt]
  unfold switch
  simp only [bind, EStateM.bind, hValue, hCoerce, hKeys]
  rfl

/-- Labels that share a value are never accepted. -/
theorem caseKeys_ne_ok {first second : Expr}
    (hBoth : [first, second].Sublist (list.flatMap SwitchCase.labels)) (hFirst : ctx.HasKey first key)
    (hSecond : ctx.HasKey second key) : caseKeys ctx 0 [] (list.map SwitchCase.labels) ≠ .ok found := by
  intro h
  have hKey {label : Expr} (hLabel : label ∈ list.flatMap SwitchCase.labels) (hValue : ctx.HasKey label key) :
      caseKey ctx label = .ok key := by
    obtain ⟨case, hCase, hOwn⟩ := List.mem_flatMap.1 hLabel
    exact caseKey_of_hasKey h hCase hOwn hValue
  refine caseKey_ne_of_sublist h (List.flatMap_def ▸ hBoth) ?_
  rw [hKey (hBoth.subset (by simp)) hFirst, hKey (hBoth.subset (by simp)) hSecond]

/-- The table of every switch that is coded is sorted and faithful. Labels that share a value, however they
are written, make a switch refused. If nothing else is wrong with the selector and the labels, the fault names
a value that two labels share, and no table is emitted. -/
theorem switch_tables_faithful (ctx : TypingContext) (selector : Expr) (list : List SwitchCase) (flow : Flow) :
    (∀ (s t : EmitState) (o : Outcome), s.code.Consistent →
      compileStmt ctx (.switch selector list) flow s = .ok o t →
      ∃ site default pairs starts first last,
        Contains ctx flow list s t site default pairs starts first last ∧
        Tabulates ctx list starts (t.code.address site) t.code.pc default pairs) ∧
    ∀ first second key, [first, second].Sublist (list.flatMap SwitchCase.labels) →
      ctx.HasKey first key → ctx.HasKey second key →
      (∀ s o t, compileStmt ctx (.switch selector list) flow s ≠ .ok o t) ∧
      ∀ s type r z, (ctx.compile selector).value s = .ok type r → coerce type .int r = .ok () z →
        (∀ label ∈ list.flatMap SwitchCase.labels, ∃ key, caseKey ctx label = .ok key) →
        ∃ shared one other, [one, other].Sublist (list.flatMap SwitchCase.labels) ∧
          ctx.HasKey one shared ∧ ctx.HasKey other shared ∧
          compileStmt ctx (.switch selector list) flow s = .error (.code (.duplicateCase shared)) z := by
  refine ⟨fun s t o hs h => switch_table hs h, fun first second key hBoth hFirst hSecond => ⟨?_, ?_⟩⟩
  · intro s o t h
    rw [compileStmt] at h
    obtain ⟨_, _, _, found, _, _, _, _, _, _, _, -, -, hKeys, -⟩ := switch_ok h
    exact caseKeys_ne_ok hBoth hFirst hSecond hKeys
  · intro s type r z hValue hCoerce hAll
    cases hKeys : caseKeys ctx 0 [] (list.map SwitchCase.labels) with
    | ok found => exact (caseKeys_ne_ok hBoth hFirst hSecond hKeys).elim
    | error e =>
      have hFold := hKeys
      rw [caseKeys_eq] at hFold
      have hLabels : (numberedLabels 0 (list.map SwitchCase.labels)).map Prod.fst = list.flatMap SwitchCase.labels := by
        rw [numberedLabels_fst, List.flatMap_def]
      obtain ⟨shared, one, other, rfl, hPair, hOne, hOther⟩ :=
        @foldlM_addKey_error ctx [] [] _ _ rfl (fun label hLabel =>
          hAll label.1 (hLabels ▸ List.mem_map_of_mem hLabel)) hFold
      exact ⟨shared, one, other, hLabels ▸ hPair, hasKey_of_caseKey hOne, hasKey_of_caseKey hOther,
        switch_of_refused hValue hCoerce hKeys⟩

/-- A table for the labels 7, 1 - 6 and 2, with the default case in the middle. The labels 2 and 1 + 1 are not
taken together. -/
theorem switch_tables_faithful_unsorted : let ctx : TypingContext := { (default : TypingContext) with result := .void }
    let x : Expr := .var ⟨0, "x", .primitive .int⟩
    let below : Expr := .binary .sub (.int 1 .int) (.int 6 .int)
    let two : Expr := .binary .add (.int 1 .int) (.int 1 .int)
    let list : List SwitchCase :=
      [.mk [.int 7 .int, below] false [.breakTo none], .mk [] true [], .mk [.int 2 .int] false [.breakTo none]]
    let twice : List SwitchCase := [.mk [.int 2 .int] false [], .mk [two] false []]
    let s : EmitState := ⟨.withLocals 1, default, #[some 0], [], #[]⟩
    (∃ o t, compileStmt ctx (.switch x list) .top s = .ok o t ∧
      t.code.instructions[1]? = some (.lookupSwitch 38 [(-5, 35), (2, 38), (7, 35)]) ∧
      ∃ site default pairs starts first last,
        Contains ctx .top list s t site default pairs starts first last ∧
        Tabulates ctx list starts (t.code.address site) t.code.pc default pairs) ∧
    (∀ o t, compileStmt ctx (.switch x twice) .top s ≠ .ok o t) ∧
    ∃ shared one other z, [one, other].Sublist [.int 2 .int, two] ∧ ctx.HasKey one shared ∧
      ctx.HasKey other shared ∧
      compileStmt ctx (.switch x twice) .top s = .error (.code (.duplicateCase shared)) z := by
  intro ctx x below two list twice s
  obtain ⟨o, t, hRun, hResult⟩ := Emit.exists_ok (compileStmt ctx (.switch x list) .top) s
    (fun _ t => t.code.instructions[1]? == some (.lookupSwitch 38 [(-5, 35), (2, 38), (7, 35)])) (by cbv)
  obtain ⟨type, z, hHead, hType⟩ := Emit.exists_ok (ctx.compile x).value s (fun type _ => type == .int) (by cbv)
  obtain rfl := eq_of_beq hType
  have hTwo : caseKey ctx two = .ok 2 := by cbv
  have hPlain : caseKey ctx (.int 2 .int) = .ok 2 := by cbv
  have hRejected := (switch_tables_faithful ctx x twice .top).2 (.int 2 .int) two 2 (.refl _)
    (hasKey_of_caseKey hPlain) (hasKey_of_caseKey hTwo)
  have hAll : ∀ label ∈ twice.flatMap SwitchCase.labels, ∃ key, caseKey ctx label = .ok key := by
    simp only [twice, List.flatMap_cons, List.flatMap_nil, SwitchCase.labels, List.cons_append, List.nil_append,
      List.forall_mem_cons]
    exact ⟨⟨2, hPlain⟩, ⟨2, hTwo⟩, by simp⟩
  obtain ⟨shared, one, other, hPair, hOne, hOther, hError⟩ := hRejected.2 s .int z z hHead rfl hAll
  exact ⟨⟨o, t, hRun, eq_of_beq hResult, (switch_tables_faithful ctx x list .top).1 s t o
    (CodeBuffer.consistent_withLocals 1) hRun⟩, hRejected.1 s, shared, one, other, z, hPair, hOne, hOther, hError⟩

end StmtCode

end JavaFragment
