import JavaFragment.Proofs.AccessorRequests
/-!
Requests for accessors over time, also such as are refused. Each accessor of a class was made on one of the requests.
What the class declares itself plays no part in this: names are numbered from zero on, and shadow constructors are told
apart by the marker. So an accessor can have the name and descriptor of a declared method, but only of one that has a
numbered name or the marker itself.
-/
namespace JavaFragment

namespace Access

/-- The accessor that is given on a request, and the accessors afterwards. A request that is refused changes nothing. -/
def answer (owner : String) (t : AccessorTable) (a : Access) : Option SyntheticMethod × AccessorTable :=
  match a.request owner t with
  | .ok (m, t') => (some m, t')
  | .error _ => (none, t)

/-- The answers to requests, one after another, and the accessors afterwards. -/
def answers (owner : String) (t : AccessorTable) : List Access → List (Option SyntheticMethod) × AccessorTable
  | [] => ([], t)
  | a :: rest =>
    let (first, t) := a.answer owner t
    let (others, t) := answers owner t rest
    (first :: others, t)

theorem answers_cons (owner : String) (t : AccessorTable) (a : Access) (rest : List Access) :
    answers owner t (a :: rest) = ((a.answer owner t).1 :: (answers owner (a.answer owner t).2 rest).1,
      (answers owner (a.answer owner t).2 rest).2) := rfl

theorem answer_of_ok {owner : String} {t t' : AccessorTable} {a : Access} {m : SyntheticMethod}
    (h : a.request owner t = .ok (m, t')) : a.answer owner t = (some m, t') := by
  rw [answer, h]

/-- A request is answered or changes nothing. -/
theorem answer_cases (owner : String) (t : AccessorTable) (a : Access) :
    (∃ m t', a.request owner t = .ok (m, t') ∧ a.answer owner t = (some m, t')) ∨ a.answer owner t = (none, t) := by
  cases hRequest : a.request owner t with
  | ok found => exact .inl ⟨found.1, found.2, rfl, answer_of_ok hRequest⟩
  | error e => exact .inr (by rw [answer, hRequest])

end Access

namespace AccessorTable

variable {owner : String} {t : AccessorTable} {requests : List Access}

/-- The accessors of a class of which these requests were made. -/
structure Asked (owner : String) (requests : List Access) (t : AccessorTable) : Prop where
  orderly : t.Orderly owner
  asked : ∀ entry ∈ t.entries, ∃ a ∈ requests, ∃ before, entry = (a.key, a.make owner before)

theorem asked_empty (owner : String) (requests : List Access) : empty.Asked owner requests :=
  ⟨orderly_empty owner, nofun⟩

theorem Asked.answer (h : t.Asked owner requests) {a : Access} (ha : a ∈ requests) :
    (a.answer owner t).2.Asked owner requests ∧ t.entries <+: (a.answer owner t).2.entries ∧
      ∀ m, (a.answer owner t).1 = some m → (a.answer owner t).2.entries.lookup a.key = some m := by
  rcases a.answer_cases owner t with ⟨m, t', hRequest, hAnswer⟩ | hRefused
  · obtain ⟨hOrderly, hGrows, hKnown, -⟩ := h.orderly.request hRequest
    rw [hAnswer]
    refine ⟨⟨hOrderly, fun entry hEntry => ?_⟩, hGrows, fun _ hSame => Option.some.inj hSame ▸ hKnown⟩
    rcases Access.request_ok hRequest with ⟨-, rfl⟩ | ⟨-, rfl, rfl⟩
    · exact h.asked entry hEntry
    · rcases List.mem_append.1 hEntry with hOld | hLast
      · exact h.asked entry hOld
      · exact ⟨a, ha, t, List.mem_singleton.1 hLast⟩
  · rw [hRefused]
    exact ⟨h, List.prefix_refl _, nofun⟩

/-- Whatever is answered is among the accessors afterwards. -/
theorem Asked.answers (h : t.Asked owner requests) {later : List Access} (hLater : ∀ a ∈ later, a ∈ requests) :
    (Access.answers owner t later).2.Asked owner requests ∧ t.entries <+: (Access.answers owner t later).2.entries ∧
      ∀ m, some m ∈ (Access.answers owner t later).1 → m ∈ (Access.answers owner t later).2.methods := by
  induction later generalizing t with
  | nil => exact ⟨h, List.prefix_refl _, nofun⟩
  | cons a rest ih =>
    obtain ⟨hFirst, hGrows, hKnown⟩ := h.answer (hLater a (by simp))
    obtain ⟨hRest, hGrows', hMembers⟩ := ih hFirst fun b hb => hLater b (by simp [hb])
    rw [Access.answers_cons]
    refine ⟨hRest, hGrows.trans hGrows', fun m hm => ?_⟩
    rcases List.mem_cons.1 hm with hHere | hThere
    · exact List.mem_map_of_mem (hGrows'.subset (mem_of_lookup (hKnown m hHere.symm)))
    · exact hMembers m hThere

/-- A shadow constructor is a constructor. -/
theorem Asked.name_of_isShadow (h : t.Asked owner requests) {m : SyntheticMethod} (hm : m ∈ t.methods)
    (hShadow : m.isShadow) : m.name = constructorName := by
  obtain ⟨entry, hEntry, rfl⟩ := List.mem_map.1 hm
  obtain ⟨a, -, before, rfl⟩ := h.asked entry hEntry
  cases a with
  | create => rfl
  | get | set | call => cases hShadow

end AccessorTable

/-- Whether a declared method has the form of an accessor: it has one of the first numbered names, or it is a
constructor with the marker as last parameter. -/
def MethodModel.isAccessorLike (given : Nat) (d : MethodModel) : Bool :=
  (List.range given).any (fun k => d.name == "access$" ++ toString k) ||
    d.isConstructor && List.isSuffixOf Access.markerText (d.descriptor.toList.takeWhile (· != ')'))

/-- A method with the name and descriptor of an accessor has the form of one. -/
theorem AccessorTable.Orderly.isAccessorLike {owner : String} {t : AccessorTable} (h : t.Orderly owner)
    {m : SyntheticMethod} (hm : m ∈ t.methods) {d : MethodModel} (hName : m.name = d.name)
    (hDescriptor : m.descriptor = d.descriptor) : d.isAccessorLike t.taken := by
  obtain ⟨entry, hEntry, rfl⟩ := List.mem_map.1 hm
  rw [MethodModel.isAccessorLike, Bool.or_eq_true, Bool.and_eq_true]
  rcases h.made entry hEntry with ⟨k, hk, hNumber⟩ | ⟨n, -, hConstructor, hShadow⟩
  · exact .inl (List.any_eq_true.2 ⟨k, List.mem_range.2 hk, beq_iff_eq.2 (hName.symm.trans hNumber)⟩)
  · refine .inr ⟨beq_iff_eq.2 (hName.symm.trans hConstructor), ?_⟩
    rw [← hDescriptor, hShadow, Access.takeWhile_create, List.isSuffixOf_iff_suffix]
    exact List.suffix_append ..

/-- Whatever accessors a class is asked for, an accessor that is given can be told by name and descriptor from every
declared method, and a shadow constructor by its descriptor from every declared constructor, but for those that have
the form of an accessor themselves. -/
theorem accessors_apart_from_declared (c : ClassModel) (requests : List Access) :
    ∀ m, some m ∈ (Access.answers c.name .empty requests).1 →
      ∀ d ∈ c.methods, d.isAccessorLike (Access.answers c.name .empty requests).2.taken = false →
        (m.name, m.descriptor) ≠ (d.name, d.descriptor) ∧
          (m.isShadow → d.isConstructor → m.descriptor ≠ d.descriptor) := by
  intro m hGiven d _ hPlain
  obtain ⟨hAsked, -, hMembers⟩ := (AccessorTable.asked_empty c.name requests).answers fun a (ha : a ∈ requests) => ha
  have hMember := hMembers m hGiven
  have hApart (hName : m.name = d.name) : m.descriptor ≠ d.descriptor := by
    intro hDescriptor
    have hLike := hAsked.orderly.isAccessorLike hMember hName hDescriptor
    rw [hPlain] at hLike
    cases hLike
  refine ⟨fun hSame => hApart (Prod.mk.inj hSame).1 (Prod.mk.inj hSame).2, fun hShadow hConstructor => hApart ?_⟩
  rw [hAsked.name_of_isShadow hMember hShadow]
  exact (beq_iff_eq.1 hConstructor).symm

/-- One static accessor and one shadow constructor are given, and a constructor without parentheses is refused. The
declared `access$1` has the next number. -/
theorem accessors_apart_from_declared_next : let x : FieldModel := ⟨"x", "I", .privateFlag, none⟩
    let new : MethodModel := ⟨constructorName, "(I)V", .privateFlag⟩
    let next : MethodModel := ⟨"access$1", "(LBox;)I", .staticFlag⟩
    let c : ClassModel := { ClassModel.ofName "Box" with fields := [x], methods := [new, next] }
    let get : SyntheticMethod :=
      ⟨"access$0", "(LBox;)I", AccessFlags.staticFlag.union .syntheticFlag, .getField "x" "I" false⟩
    let create : SyntheticMethod :=
      ⟨constructorName, "(ILcompiler/runtime/Inner;)V", .syntheticFlag, .shadowConstructor "(I)V"⟩
    let given := Access.answers c.name .empty [.get x, .create ⟨constructorName, "I", .privateFlag⟩, .create new]
    some get ∈ given.1 ∧ some create ∈ given.1 ∧
      (∀ d ∈ c.methods, d.isAccessorLike given.2.taken = false) ∧
      (get.name, get.descriptor) ≠ (next.name, next.descriptor) ∧ create.descriptor ≠ new.descriptor := by
  intro x new next c get create given
  have hGiven : given.1 = [some get, none, some create] := by decide +kernel
  have hGet : some get ∈ given.1 := by simp [hGiven]
  have hCreate : some create ∈ given.1 := by simp [hGiven]
  have hPlain : ∀ d ∈ c.methods, d.isAccessorLike given.2.taken = false := by decide +kernel
  refine ⟨hGet, hCreate, hPlain, ?_, ?_⟩
  · exact (accessors_apart_from_declared c _ get hGet next (by simp [c]) (hPlain next (by simp [c]))).1
  · exact (accessors_apart_from_declared c _ create hCreate new (by simp [c]) (hPlain new (by simp [c]))).2 rfl rfl

/-- A declared `access$0` is given again as the accessor of a field, and a declared constructor with the marker as the
shadow of another. -/
theorem accessors_taken_by_declared : let x : FieldModel := ⟨"x", "I", .privateFlag, none⟩
    let new : MethodModel := ⟨constructorName, "(I)V", .privateFlag⟩
    let known : MethodModel := ⟨"access$0", "(Ldemo/A;)I", .staticFlag⟩
    let marked : MethodModel := ⟨constructorName, "(ILcompiler/runtime/Inner;)V", .privateFlag⟩
    let c : ClassModel := { ClassModel.ofName "demo/A" with fields := [x], methods := [known, new, marked] }
    ∃ get create, (Access.answers c.name .empty [.get x, .create new]).1 = [some get, some create] ∧
      (get.name, get.descriptor) = (known.name, known.descriptor) ∧
      (create.name, create.descriptor) = (marked.name, marked.descriptor) ∧ create.isShadow ∧ marked.isConstructor := by
  intro x new known marked c
  exact ⟨(Access.get x).make c.name .empty, (Access.create new).make c.name .empty, by decide +kernel,
    by decide +kernel, by decide +kernel, rfl, rfl⟩

end JavaFragment
