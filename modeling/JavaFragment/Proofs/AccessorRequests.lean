import JavaFragment.Proofs.AccessorSignatures
import Mathlib.Data.List.Nodup
import Mathlib.Data.List.TakeWhile
/-!
Requests for the accessors of a class, in any order and number. One member is always given the same accessor for one
use, different uses or members are given accessors that can be told apart, and the list of accessors only grows.
-/
namespace JavaFragment

theorem eraseDups_of_nodup {α : Type} [BEq α] [LawfulBEq α] {xs : List α} (h : xs.Nodup) : xs.eraseDups = xs := by
  induction xs with
  | nil => rfl
  | cons x xs ih =>
    obtain ⟨hFresh, hRest⟩ := List.nodup_cons.1 h
    have hKept : xs.filter (fun y => !y == x) = xs := by
      refine List.filter_eq_self.2 fun y hy => ?_
      simpa using fun hSame : y = x => hFresh (hSame ▸ hy)
    rw [List.eraseDups_cons, hKept, ih hRest]

theorem MethodType.close_of_ofDescriptor? {text : String} (h : (ofDescriptor? text).isSome) : ')' ∈ text.toList := by
  obtain ⟨m, hm⟩ := Option.isSome_iff_exists.1 h
  rcases of_ofDescriptor? hm with ⟨-, -, rfl⟩ | hOverruns
  · simp [toList_descriptor]
  · cases hOverruns with
    | @intro earlier last result front _ _ _ _ hName => simp [String.toList_join, hName]

namespace Access

variable {a : Access}

/-- What an accessor is for. -/
inductive Use where
  | get
  | set
  | call
  | create
deriving DecidableEq

/-- What a request asks for: a use, and the member by name and descriptor. -/
def subject : Access → Use × String × String
  | .get f => (.get, f.name, f.descriptor)
  | .set f => (.set, f.name, f.descriptor)
  | .call m => (.call, m.name, m.descriptor)
  | .create m => (.create, m.name, m.descriptor)

/-- Whether the member of a request has a well-formed descriptor and a name without a colon. What is created is asked
for by a constructor. -/
def IsProper : Access → Prop
  | .get f | .set f => ':' ∉ f.name.toList ∧ (JavaType.ofDescriptor? f.descriptor).isSome
  | .call m => ':' ∉ m.name.toList ∧ (MethodType.ofDescriptor? m.descriptor).isSome
  | .create m => m.name = constructorName ∧ (MethodType.ofDescriptor? m.descriptor).isSome

instance : (a : Access) → Decidable a.IsProper
  | .get _ | .set _ | .call _ | .create _ => inferInstanceAs (Decidable (_ ∧ _))

theorem colon_append_inj {a b a' b' : List Char} (h : a ++ ':' :: b = a' ++ ':' :: b') (ha : ':' ∉ a)
    (ha' : ':' ∉ a') : a = a' ∧ b = b' := by
  rcases List.append_eq_append_iff.1 h with ⟨c, rfl, hRest⟩ | ⟨c, rfl, hRest⟩
  · cases c with
    | nil => simpa using hRest
    | cons x c =>
      injection hRest with hColon
      simp [← hColon] at ha'
  · cases c with
    | nil => simpa using hRest.symm
    | cons x c =>
      injection hRest with hColon
      simp [← hColon] at ha

/-- The first part of the text of a request. -/
def Use.text : Use → List Char
  | .get => ['g', 'e', 't']
  | .set => ['s', 'e', 't']
  | .call => ['c', 'a', 'l', 'l']
  | .create => ['n', 'e', 'w']

/-- The text of a request after its use. Constructors need no name. -/
def memberText (use : Use) (name descriptor : String) : List Char :=
  if use = .create then descriptor.toList else name.toList ++ ':' :: descriptor.toList

theorem toList_key (a : Access) : a.key.toList =
    a.subject.1.text ++ ':' :: memberText a.subject.1 a.subject.2.1 a.subject.2.2 := by
  cases a <;> simp [key, subject, Use.text, memberText]

theorem IsProper.name (h : a.IsProper) : ':' ∉ a.subject.2.1.toList ∧
    (a.subject.1 = .create → a.subject.2.1 = constructorName) := by
  have hConstructor : ':' ∉ constructorName.toList := by decide +kernel
  cases a with
  | get | set | call => exact ⟨h.1, nofun⟩
  | create m => exact ⟨fun hMem => hConstructor (h.1 ▸ hMem), fun _ => h.1⟩

/-- The text of a request says what it asks for. -/
theorem key_eq_iff {b : Access} (ha : a.IsProper) (hb : b.IsProper) : a.key = b.key ↔ a.subject = b.subject := by
  refine ⟨fun h => ?_, fun h => by rw [← String.toList_inj, toList_key, toList_key, h]⟩
  have hText (use : Use) : ':' ∉ use.text := by cases use <;> decide
  rw [← String.toList_inj, toList_key, toList_key] at h
  obtain ⟨hUse, hMember⟩ := colon_append_inj h (hText _) (hText _)
  have hUse : a.subject.1 = b.subject.1 := by
    revert hUse
    cases a.subject.1 <;> cases b.subject.1 <;> simp [Use.text]
  refine Prod.ext hUse ?_
  rw [hUse, memberText, memberText] at hMember
  split at hMember
  · next hCreate =>
    refine Prod.ext ?_ (String.toList_inj.1 hMember)
    rw [ha.name.2 (hUse.trans hCreate), hb.name.2 hCreate]
  · obtain ⟨hSame, hDescriptor⟩ := colon_append_inj hMember ha.name.1 hb.name.1
    exact Prod.ext (String.toList_inj.1 hSame) (String.toList_inj.1 hDescriptor)

/-- The marker as it stands among parameters. -/
def markerText : List Char := 'L' :: (constructorMarker.toList ++ [';'])

theorem toList_create (m : MethodModel) (owner : String) : ((create m).descriptor owner).toList =
    m.descriptor.toList.takeWhile (· != ')') ++ markerText ++ m.descriptor.toList.dropWhile (· != ')') := by
  simp [descriptor, markerText]

/-- The marker stands right before the first closing parenthesis. -/
theorem takeWhile_create (m : MethodModel) (owner : String) :
    ((create m).descriptor owner).toList.takeWhile (· != ')') =
      m.descriptor.toList.takeWhile (· != ')') ++ markerText := by
  have hMarker : ∀ c ∈ markerText, (c != ')') = true := by simp [markerText, constructorMarker]
  have hRest : (m.descriptor.toList.dropWhile (· != ')')).takeWhile (· != ')') = [] := by
    have hHead := List.head?_dropWhile_not (· != ')') m.descriptor.toList
    cases hDrop : m.descriptor.toList.dropWhile (· != ')') with
    | nil => rfl
    | cons c rest => simp_all
  rw [toList_create, List.takeWhile_append_of_pos, hRest, List.append_nil]
  exact List.forall_mem_append.2 ⟨fun c hc => List.mem_takeWhile_imp (p := (· != ')')) hc, hMarker⟩

/-- The descriptor of a shadow constructor says which constructor it stands for. -/
theorem create_descriptor_inj {owner : String} {m n : MethodModel}
    (h : (create m).descriptor owner = (create n).descriptor owner) : m.descriptor = n.descriptor := by
  have hParams := takeWhile_create m owner
  rw [h, takeWhile_create] at hParams
  have hText := congrArg String.toList h
  rw [toList_create, toList_create, hParams] at hText
  rw [← String.toList_inj, ← List.takeWhile_append_dropWhile (p := (· != ')')) (l := m.descriptor.toList),
    ← List.append_cancel_right hParams, List.append_cancel_left hText, List.takeWhile_append_dropWhile]

theorem make_name (a : Access) (owner : String) (t : AccessorTable) :
    (a.make owner t).name = if a.subject.1 = .create then constructorName else t.nextName := by
  cases a <;> rfl

/-- A proper request is answered. -/
theorem IsProper.request_eq (ha : a.IsProper) (owner : String) (t : AccessorTable) :
    a.request owner t = .ok (t.request a.key (a.make owner t)) := by
  rcases a.request_eq owner t with hAnswer | ⟨m, e, rfl, hOpen, -⟩
  · exact hAnswer
  · exact (hOpen (MethodType.close_of_ofDescriptor? ha.2)).elim

end Access

namespace AccessorTable

variable {owner : String} {t : AccessorTable} {m : SyntheticMethod} {t' : AccessorTable} {a : Access}

/-- The number of static accessors. -/
def taken (t : AccessorTable) : Nat := (t.methods.filter fun m => m.name != constructorName).length

theorem nextName_eq (t : AccessorTable) : t.nextName = "access$" ++ toString t.taken := rfl

/-- How the accessors of a class are made. Static ones are numbered, a shadow constructor has the descriptor that
belongs to its text, and no two have the same name and descriptor. -/
structure Orderly (owner : String) (t : AccessorTable) : Prop where
  made : ∀ entry ∈ t.entries, (∃ k < t.taken, entry.2.name = "access$" ++ toString k) ∨
    ∃ m : MethodModel, entry.1 = (Access.create m).key ∧ entry.2.name = constructorName ∧
      entry.2.descriptor = (Access.create m).descriptor owner
  apart : (t.methods.map fun m => (m.name, m.descriptor)).Nodup

theorem orderly_empty (owner : String) : empty.Orderly owner := ⟨nofun, .nil⟩

theorem mem_of_lookup {key : String} (h : t.entries.lookup key = some m) : (key, m) ∈ t.entries := by
  obtain ⟨before, after, hSplit, -⟩ := List.lookup_eq_some_iff.1 h
  simp [hSplit]

theorem lookup_of_isPrefix {key : String}
    (h : t.entries <+: t'.entries) (hKnown : t.entries.lookup key = some m) : t'.entries.lookup key = some m := by
  obtain ⟨added, hAdded⟩ := h
  rw [← hAdded, List.lookup_append, hKnown, Option.some_or]

theorem numbered_inj {k n : Nat} (h : "access$" ++ toString k = "access$" ++ toString n) : k = n := by
  have hText : String.ofList (Nat.toDigits 10 k) = String.ofList (Nat.toDigits 10 n) := by
    simpa [Nat.repr_eq_ofList_toDigits] using (String.append_right_inj _).1 h
  rw [← Nat.ofDigitChars_ten_toDigits (n := k), String.ofList_injective hText, Nat.ofDigitChars_ten_toDigits]

theorem name_ne_constructor (k : Nat) : "access$" ++ toString k ≠ constructorName := by
  intro h
  rw [← String.toList_inj] at h
  simp [constructorName] at h

theorem taken_append (h : t'.methods = t.methods ++ [m]) :
    t'.taken = t.taken + if m.name = constructorName then 0 else 1 := by
  rw [taken, h, List.filter_append, List.length_append, ← taken]
  split <;> simp_all

/-- What is made for a text that is new can be told from all that was made before. -/
theorem Orderly.signature_ne (h : t.Orderly owner) (hNew : t.entries.lookup a.key = none)
    {entry : String × SyntheticMethod} (hEntry : entry ∈ t.entries) :
    (entry.2.name, entry.2.descriptor) ≠ ((a.make owner t).name, (a.make owner t).descriptor) := by
  intro hSame
  obtain ⟨hSameName, hSameDescriptor⟩ := Prod.mk.inj hSame
  have hName := a.make_name owner t
  split at hName
  · next hCreate =>
    rcases h.made entry hEntry with ⟨k, -, hNumber⟩ | ⟨c, hKey, -, hOld⟩
    · exact name_ne_constructor k (hNumber.symm.trans (hSameName.trans hName))
    · cases a with
      | create n =>
        have hConstructor := Access.create_descriptor_inj (hOld.symm.trans hSameDescriptor)
        have hOther := List.lookup_eq_none_iff.1 hNew entry hEntry
        simp [hKey, Access.key, hConstructor] at hOther
      | get | set | call => cases hCreate
  · rw [nextName_eq] at hName
    rcases h.made entry hEntry with ⟨k, hk, hNumber⟩ | ⟨c, -, hConstructor, -⟩
    · have hCount : k = t.taken := numbered_inj (hNumber.symm.trans (hSameName.trans hName))
      omega
    · exact name_ne_constructor _ (hName.symm.trans (hSameName.symm.trans hConstructor))

theorem Orderly.extend (h : t.Orderly owner) (hNew : t.entries.lookup a.key = none) :
    Orderly owner ⟨t.entries ++ [(a.key, a.make owner t)]⟩ := by
  have hMethods : methods ⟨t.entries ++ [(a.key, a.make owner t)]⟩ = t.methods ++ [a.make owner t] := by simp [methods]
  have hTaken := taken_append hMethods
  have hStatic (hOther : a.subject.1 ≠ .create) : (a.make owner t).name ≠ constructorName := by
    rw [a.make_name, if_neg hOther, nextName_eq]
    exact name_ne_constructor _
  refine ⟨fun entry hEntry => ?_, ?_⟩
  · rcases List.mem_append.1 hEntry with hOld | hLast
    · refine (h.made entry hOld).imp_left ?_
      rintro ⟨k, hk, hNumber⟩
      exact ⟨k, by omega, hNumber⟩
    · obtain rfl := List.mem_singleton.1 hLast
      cases a with
      | create c => exact .inr ⟨c, rfl, rfl, rfl⟩
      | get | set | call =>
        rw [if_neg (hStatic (by simp [Access.subject]))] at hTaken
        exact .inl ⟨t.taken, by omega, nextName_eq t⟩
  · rw [hMethods, List.map_append, List.nodup_append]
    refine ⟨h.apart, List.nodup_singleton _, fun signature hSignature other hOther => ?_⟩
    obtain ⟨old, hOld, rfl⟩ := List.mem_map.1 hSignature
    obtain ⟨entry, hEntry, rfl⟩ := List.mem_map.1 hOld
    obtain rfl := List.mem_singleton.1 hOther
    exact h.signature_ne hNew hEntry

theorem Orderly.request (h : t.Orderly owner)
    (hAnswer : a.request owner t = .ok (m, t')) : t'.Orderly owner ∧ t.entries <+: t'.entries ∧
      t'.entries.lookup a.key = some m ∧ (m ∈ t.methods ∧ t' = t ∨ t'.methods = t.methods ++ [m]) := by
  rcases Access.request_ok hAnswer with ⟨hKnown, rfl⟩ | ⟨hNew, rfl, rfl⟩
  · have hMem : m ∈ t'.methods := List.mem_map.2 ⟨_, mem_of_lookup hKnown, rfl⟩
    exact ⟨h, List.prefix_refl _, hKnown, .inl ⟨hMem, rfl⟩⟩
  · refine ⟨h.extend hNew, List.prefix_append .., ?_, .inr (by simp [methods])⟩
    rw [List.lookup_append, hNew, Option.none_or, List.lookup_cons_self]

end AccessorTable

namespace Access

variable {owner : String} {t : AccessorTable}

/-- Asks a class for accessors, one after another. -/
def requestAll (owner : String) (t : AccessorTable) :
    List Access → Except CompileError (List SyntheticMethod × AccessorTable)
  | [] => .ok ([], t)
  | a :: rest => do
    let (m, t) ← a.request owner t
    let (others, t) ← requestAll owner t rest
    return (m :: others, t)

theorem requestAll_cons {a : Access} {rest : List Access} {m : SyntheticMethod} {others : List SyntheticMethod}
    {t₁ t₂ : AccessorTable} (hFirst : a.request owner t = .ok (m, t₁))
    (hRest : requestAll owner t₁ rest = .ok (others, t₂)) : requestAll owner t (a :: rest) = .ok (m :: others, t₂) := by
  rw [requestAll, hFirst]
  show (requestAll owner t₁ rest >>= fun answer => _) = _
  rw [hRest]
  rfl

theorem requestAll_append (owner : String) (t : AccessorTable) (earlier later : List Access) :
    requestAll owner t (earlier ++ later) = do
      let (first, t) ← requestAll owner t earlier
      let (second, t) ← requestAll owner t later
      return (first ++ second, t) := by
  induction earlier generalizing t with
  | nil =>
    cases hLater : requestAll owner t later <;>
      simp [requestAll, hLater, bind, Except.bind, pure, Except.pure]
  | cons a rest ih =>
    rw [List.cons_append, requestAll, requestAll]
    cases a.request owner t with
    | error e => rfl
    | ok answer =>
      obtain ⟨m, t⟩ := answer
      simp only [bind, Except.bind, ih]
      cases requestAll owner t rest with
      | error e => rfl
      | ok answers => cases hLater : requestAll owner answers.2 later <;> simp [hLater, pure, Except.pure]

end Access

/-- Requests in any number are all answered. The table holds the answer to each of them, and its methods are those from
before and the answers, each of them once. -/
theorem AccessorTable.Orderly.requestAll {owner : String} {t : AccessorTable} (h : t.Orderly owner)
    {requests : List Access} (hProper : ∀ a ∈ requests, a.IsProper) :
    ∃ answers t', Access.requestAll owner t requests = .ok (answers, t') ∧ t'.Orderly owner ∧
      t.entries <+: t'.entries ∧ List.Forall₂ (fun a m => t'.entries.lookup a.key = some m) requests answers ∧
      t'.methods = (t.methods ++ answers).eraseDups := by
  induction requests generalizing t with
  | nil =>
    have hDistinct : t.methods.Nodup := h.apart.of_map _
    exact ⟨[], t, rfl, h, List.prefix_refl _, .nil, by rw [List.append_nil, eraseDups_of_nodup hDistinct]⟩
  | cons a rest ih =>
    rcases hPair : t.request a.key (a.make owner t) with ⟨m, t₁⟩
    have hRequest := ((hProper a (by simp)).request_eq owner t).trans (congrArg Except.ok hPair)
    obtain ⟨hOrderly, hGrows, hAnswer, hMethods⟩ := h.request hRequest
    obtain ⟨others, t₂, hRest, hOrderly', hGrows', hAnswers, hMethods'⟩ :=
      ih hOrderly fun b hb => hProper b (by simp [hb])
    refine ⟨m :: others, t₂, Access.requestAll_cons hRequest hRest, hOrderly', hGrows.trans hGrows',
      .cons (lookup_of_isPrefix hGrows' hAnswer) hAnswers, ?_⟩
    rcases hMethods with ⟨hKnown, rfl⟩ | hNew
    · rw [hMethods', List.eraseDups_append, List.eraseDups_append, List.cons_removeAll]
      simp [hKnown]
    · rw [hMethods', hNew, List.append_assoc, List.singleton_append]

/-- Whatever accessors a class is asked for, in whatever order, all are given. Two requests are given the same accessor
if they ask for one use of one member, and else accessors that differ in name or descriptor. The class lists what was
given in the order of the first requests, each accessor once, and what it lists at some time it lists ever after. -/
theorem accessor_requests_consistent (owner : String) (requests : List Access) (hProper : ∀ a ∈ requests, a.IsProper) :
    ∃ answers table, Access.requestAll owner .empty requests = .ok (answers, table) ∧
      answers.length = requests.length ∧
      (∀ x ∈ requests.zip answers, ∀ y ∈ requests.zip answers,
        (x.1.subject = y.1.subject → x.2 = y.2) ∧
        (x.1.subject ≠ y.1.subject → (x.2.name, x.2.descriptor) ≠ (y.2.name, y.2.descriptor))) ∧
      table.methods = answers.eraseDups ∧ (table.methods.map fun m => (m.name, m.descriptor)).Nodup ∧
      ∀ earlier later, requests = earlier ++ later → ∃ before,
        Access.requestAll owner .empty earlier = .ok (answers.take earlier.length, before) ∧
        before.methods <+: table.methods := by
  obtain ⟨answers, table, hRun, hOrderly, -, hAnswers, hMethods⟩ :=
    (AccessorTable.orderly_empty owner).requestAll hProper
  refine ⟨answers, table, hRun, hAnswers.length_eq.symm, ?_, hMethods, hOrderly.apart, ?_⟩
  · rintro ⟨a, m⟩ hm ⟨b, n⟩ hn
    have hm' := (List.forall₂_iff_zip.1 hAnswers).2 hm
    have hn' := (List.forall₂_iff_zip.1 hAnswers).2 hn
    have hKeys := Access.key_eq_iff (hProper a (List.of_mem_zip hm).1) (hProper b (List.of_mem_zip hn).1)
    refine ⟨fun hSame => ?_, fun hOther hSignature => hOther (hKeys.1 ?_)⟩
    · rw [hKeys.2 hSame, hn'] at hm'
      exact (Option.some.inj hm').symm
    · have hApart : (table.entries.map fun entry => (entry.2.name, entry.2.descriptor)).Nodup := by
        simpa [AccessorTable.methods, Function.comp_def] using hOrderly.apart
      exact congrArg Prod.fst (List.inj_on_of_nodup_map hApart (AccessorTable.mem_of_lookup hm')
        (AccessorTable.mem_of_lookup hn') hSignature)
  · rintro earlier later rfl
    obtain ⟨first, t₁, hEarlier, hOrderly₁, -, hFirst, -⟩ :=
      (AccessorTable.orderly_empty owner).requestAll fun a ha => hProper a (List.mem_append_left _ ha)
    obtain ⟨second, t₂, hLater, -, hGrows, -, -⟩ :=
      hOrderly₁.requestAll fun a ha => hProper a (List.mem_append_right _ ha)
    have hBoth : Access.requestAll owner .empty (earlier ++ later) = .ok (first ++ second, t₂) := by
      rw [Access.requestAll_append, hEarlier]
      simp [bind, Except.bind, hLater, pure, Except.pure]
    cases hRun.symm.trans hBoth
    refine ⟨t₁, ?_, hGrows.map _⟩
    rw [hEarlier, hFirst.length_eq, List.take_left]

/-- A constructor is asked for between two requests for one field. -/
theorem accessor_requests_consistent_repeated : let f : FieldModel := ⟨"x", "I", .privateFlag, none⟩
    let c : MethodModel := ⟨constructorName, "(I)V", .privateFlag⟩
    let get : SyntheticMethod :=
      ⟨"access$0", "(LBox;)I", AccessFlags.staticFlag.union .syntheticFlag, .getField "x" "I" false⟩
    let create : SyntheticMethod :=
      ⟨constructorName, "(ILcompiler/runtime/Inner;)V", .syntheticFlag, .shadowConstructor "(I)V"⟩
    let set : SyntheticMethod :=
      ⟨"access$1", "(LBox;I)V", AccessFlags.staticFlag.union .syntheticFlag, .setField "x" "I" false⟩
    (∀ a ∈ [Access.get f, .create c, .set f, .get f], a.IsProper) ∧ ∃ table,
      Access.requestAll "Box" .empty [.get f, .create c, .set f, .get f] = .ok ([get, create, set, get], table) ∧
      table.methods = [get, create, set, get].eraseDups ∧
      (get.name, get.descriptor) ≠ (set.name, set.descriptor) := by
  intro f c get create set
  have hProper : ∀ a ∈ [Access.get f, .create c, .set f, .get f], a.IsProper := by decide +kernel
  obtain ⟨answers, table, hRun, -, hPairs, hMethods, -, -⟩ := accessor_requests_consistent "Box" _ hProper
  have hAnswers : Access.requestAll "Box" .empty [.get f, .create c, .set f, .get f] =
      .ok ([get, create, set, get], ⟨[((Access.get f).key, get), ((Access.create c).key, create),
        ((Access.set f).key, set)]⟩) := by
    cbv
  cases hRun.symm.trans hAnswers
  refine ⟨hProper, _, hRun, hMethods, (hPairs (.get f, get) (by simp) (.set f, set) (by simp)).2 ?_⟩
  decide +kernel

end JavaFragment
