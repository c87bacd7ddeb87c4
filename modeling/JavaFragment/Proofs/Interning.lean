import JavaFragment.ConstantPool
import Mathlib.Data.List.Infix
/-!
Interning in the constant pool. A request is answered by the number of an entry that holds what was asked
for, and whatever is asked later neither moves nor changes an entry. Two requests get one number only if
they are the same, and asking again adds nothing.
-/
namespace JavaFragment

/-- The places that an entry takes: a `long` or `double` is followed by a placeholder. -/
def Constant.slots (entry : Constant) : List Constant :=
  if entry.isWide then [entry, .placeholder] else [entry]

/-! Single entries. -/

namespace ConstantPool

variable {pool later : ConstantPool} {entry : Constant} {index : UInt16}

theorem get?_eq_some : pool.get? index = some entry ↔
    index ≠ 0 ∧ pool.entries.toList[index.toNat - 1]? = some entry := by
  by_cases h : index = 0 <;> simp [get?, h]

theorem get?_of_position {position : Nat} (hAt : pool.entries.toList[position]? = some entry)
    (hSize : pool.entries.size ≤ 65535) : pool.get? (position.toUInt16 + 1) = some entry := by
  have hLt : position < pool.entries.size := by simpa using (List.getElem?_eq_some_iff.1 hAt).1
  have hNat : (position.toUInt16 + 1).toNat = position + 1 := by
    rw [UInt16.toNat_add]
    simp
    omega
  refine get?_eq_some.2 ⟨fun hZero => ?_, ?_⟩
  · simp [hZero] at hNat
  · rwa [hNat, Nat.add_sub_cancel]

theorem entry_grows {position : Nat} (hGrow : pool.entries.toList <+: later.entries.toList)
    (h : pool.entries.toList[position]? = some entry) : later.entries.toList[position]? = some entry := by
  obtain ⟨hLt, rfl⟩ := List.getElem?_eq_some_iff.1 h
  exact List.prefix_iff_getElem?.1 hGrow position hLt

/-- Entries keep their numbers as the pool grows. -/
theorem get?_grows (hGrow : pool.entries.toList <+: later.entries.toList) (h : pool.get? index = some entry) :
    later.get? index = some entry := by
  obtain ⟨hNe, hAt⟩ := get?_eq_some.1 h
  exact get?_eq_some.2 ⟨hNe, entry_grows hGrow hAt⟩

/-- An entry that is there already is found, and the pool stays as it is. -/
theorem intern_known (h : entry ∈ pool.entries.toList) : ∃ position : Nat,
    pool.entries.toList[position]? = some entry ∧ intern entry pool = (position.toUInt16 + 1, pool) := by
  unfold intern
  cases hFound : pool.entries.idxOf? entry with
  | none =>
    rw [Array.idxOf?_eq_none_iff] at hFound
    exact absurd (Array.mem_toList_iff.1 h) hFound
  | some position =>
    obtain ⟨k, hk, rfl⟩ := Option.map_eq_some_iff.1 hFound
    refine ⟨k, ?_, rfl⟩
    have hAt := (Array.finIdxOf?_eq_some_iff.1 hk).1
    simp [← hAt]

/-- A new entry is put at the end, and its number is that of the place where it begins. -/
theorem intern_new (h : entry ∉ pool.entries.toList) : (intern entry pool).1 = pool.count ∧
    (intern entry pool).2.entries.toList = pool.entries.toList ++ entry.slots := by
  have hNone : pool.entries.idxOf? entry = none :=
    Array.idxOf?_eq_none_iff.2 fun hMem => h (Array.mem_toList_iff.2 hMem)
  unfold intern Constant.slots
  rw [hNone]
  refine ⟨rfl, ?_⟩
  dsimp only
  split <;> simp

end ConstantPool

/-- Operations on the pool that only add entries. -/
structure PoolGrowing {α : Type} (x : StateM ConstantPool α) : Prop where
  entries : ∀ pool, pool.entries.toList <+: (x pool).2.entries.toList

namespace PoolGrowing

variable {α β : Type}

theorem bind {x : StateM ConstantPool α} {f : α → StateM ConstantPool β} (hx : PoolGrowing x)
    (hf : ∀ a, PoolGrowing (f a)) : PoolGrowing (x >>= f) :=
  ⟨fun pool => (hx.entries pool).trans ((hf _).entries _)⟩

theorem intern (entry : Constant) : PoolGrowing (ConstantPool.intern entry) := by
  refine ⟨fun pool => ?_⟩
  by_cases h : entry ∈ pool.entries.toList
  · obtain ⟨position, -, hSame⟩ := ConstantPool.intern_known h
    rw [hSame]
  · rw [(ConstantPool.intern_new h).2]
    exact List.prefix_append ..

theorem ofClass (name : String) : PoolGrowing (ConstantPool.ofClass name) := (intern _).bind fun _ => intern _

theorem string (text : String) : PoolGrowing (ConstantPool.string text) := (intern _).bind fun _ => intern _

theorem nameAndType (name descriptor : String) : PoolGrowing (ConstantPool.nameAndType name descriptor) :=
  (intern _).bind fun _ => .bind (intern _) fun _ => intern _

theorem reference (form : UInt16 → UInt16 → Constant) (owner name descriptor : String) :
    PoolGrowing (ConstantPool.reference form owner name descriptor) :=
  (ofClass _).bind fun _ => .bind (nameAndType ..) fun _ => intern _

end PoolGrowing

namespace ConstantPool

variable {entry : Constant}

/-- The number of an entry leads to it in every later pool. -/
theorem intern_get? (entry : Constant) (pool : ConstantPool) {later : ConstantPool}
    (hPrefix : (intern entry pool).2.entries.toList <+: later.entries.toList)
    (hSize : later.entries.size ≤ 65535) : later.get? (intern entry pool).1 = some entry := by
  by_cases h : entry ∈ pool.entries.toList
  · obtain ⟨position, hAt, hSame⟩ := intern_known h
    rw [hSame] at hPrefix ⊢
    exact get?_of_position (entry_grows hPrefix hAt) hSize
  · obtain ⟨hIndex, hEntries⟩ := intern_new h
    rw [hIndex]
    refine get?_of_position (entry_grows hPrefix ?_) hSize
    rw [hEntries, Constant.slots]
    split <;> simp

/-! Entries that stand for a request. -/

/-- A number leads to the class with a name. -/
def HoldsClass (pool : ConstantPool) (name : String) (index : UInt16) : Prop :=
  ∃ text, pool.get? text = some (.utf8 name) ∧ pool.get? index = some (.class text)

/-- A number leads to a name with a descriptor. -/
def HoldsNameAndType (pool : ConstantPool) (name descriptor : String) (index : UInt16) : Prop :=
  ∃ nameText descriptorText, pool.get? nameText = some (.utf8 name) ∧
    pool.get? descriptorText = some (.utf8 descriptor) ∧
    pool.get? index = some (.nameAndType nameText descriptorText)

/-- A number leads to a reference of the given form to a member of a class. -/
def HoldsReference (form : UInt16 → UInt16 → Constant) (pool : ConstantPool) (owner name descriptor : String)
    (index : UInt16) : Prop :=
  ∃ ownerIndex member, pool.HoldsClass owner ownerIndex ∧ pool.HoldsNameAndType name descriptor member ∧
    pool.get? index = some (form ownerIndex member)

variable {pool later : ConstantPool} {index : UInt16} {owner name descriptor : String}
  {form : UInt16 → UInt16 → Constant}

theorem HoldsClass.grows (hGrow : pool.entries.toList <+: later.entries.toList)
    (h : pool.HoldsClass name index) : later.HoldsClass name index := by
  obtain ⟨text, hText, hAt⟩ := h
  exact ⟨text, get?_grows hGrow hText, get?_grows hGrow hAt⟩

theorem HoldsNameAndType.grows (hGrow : pool.entries.toList <+: later.entries.toList)
    (h : pool.HoldsNameAndType name descriptor index) : later.HoldsNameAndType name descriptor index := by
  obtain ⟨nameText, descriptorText, hName, hDescriptor, hAt⟩ := h
  exact ⟨nameText, descriptorText, get?_grows hGrow hName, get?_grows hGrow hDescriptor, get?_grows hGrow hAt⟩

theorem HoldsClass.className? (h : pool.HoldsClass name index) : pool.className? index = some name := by
  obtain ⟨text, hText, hAt⟩ := h
  simp [ConstantPool.className?, text?, hAt, hText]

theorem HoldsReference.member? (hForm : form = .fieldRef ∨ form = .methodRef ∨ form = .interfaceMethodRef)
    (h : HoldsReference form pool owner name descriptor index) :
    pool.member? index = some (owner, name, descriptor) := by
  obtain ⟨ownerIndex, member, hOwner, ⟨nameText, descriptorText, hName, hDescriptor, hMember⟩, hAt⟩ := h
  rcases hForm with rfl | rfl | rfl
  all_goals simp [ConstantPool.member?, text?, hAt, hMember, hOwner.className?, hName, hDescriptor]

/-! Pools that were built by interning. -/

/-- The numbers inside an entry lead to entries of the sorts that they should. -/
def Points (pool : ConstantPool) : Constant → Prop
  | .class text | .string text => ∃ t, pool.get? text = some (.utf8 t)
  | .nameAndType name descriptor => (∃ t, pool.get? name = some (.utf8 t)) ∧ ∃ t, pool.get? descriptor = some (.utf8 t)
  | .fieldRef owner member | .methodRef owner member | .interfaceMethodRef owner member =>
    (∃ name, pool.HoldsClass name owner) ∧ ∃ name descriptor, pool.HoldsNameAndType name descriptor member
  | _ => True

theorem Points.grows (hGrow : pool.entries.toList <+: later.entries.toList)
    (h : pool.Points entry) : later.Points entry := by
  cases entry with
  | «class» text | string text => exact h.imp fun _ => get?_grows hGrow
  | nameAndType name descriptor => exact ⟨h.1.imp fun _ => get?_grows hGrow, h.2.imp fun _ => get?_grows hGrow⟩
  | fieldRef owner member | methodRef owner member | interfaceMethodRef owner member =>
    exact ⟨h.1.imp fun _ => .grows hGrow, h.2.imp fun _ => .imp fun _ => .grows hGrow⟩
  | utf8 | integer | float | long | double | placeholder => trivial

/-- A pool without repetitions, in which placeholders stand where they should and only there, and whose
entries point to entries of the right sorts. -/
structure Interned (pool : ConstantPool) : Prop where
  distinct : pool.entries.toList.Pairwise fun a b => a = b → a = .placeholder
  layout : ∃ constants : List Constant, .placeholder ∉ constants ∧
    pool.entries.toList = constants.flatMap Constant.slots
  points : ∀ entry ∈ pool.entries.toList, pool.Points entry

theorem interned_empty : empty.Interned where
  distinct := .nil
  layout := ⟨[], by simp, rfl⟩
  points := by simp [empty]

theorem Interned.intern (h : pool.Interned) (hEntry : entry ≠ .placeholder)
    (hPoints : pool.Points entry) : (intern entry pool).2.Interned := by
  by_cases hKnown : entry ∈ pool.entries.toList
  · obtain ⟨position, -, hSame⟩ := intern_known hKnown
    rwa [hSame]
  · have hGrow := (PoolGrowing.intern entry).entries pool
    obtain ⟨-, hEntries⟩ := intern_new hKnown
    have hSlots : ∀ slot ∈ entry.slots, slot = entry ∨ slot = .placeholder := by
      unfold Constant.slots
      split <;> simp
    refine ⟨?_, ?_, ?_⟩
    · rw [hEntries, List.pairwise_append]
      refine ⟨h.distinct, ?_, fun old hOld new hNew hSame => ?_⟩
      · unfold Constant.slots
        split <;> simp
      · rcases hSlots new hNew with rfl | rfl
        · exact absurd (hSame ▸ hOld) hKnown
        · exact hSame
    · obtain ⟨constants, hNone, hLayout⟩ := h.layout
      exact ⟨constants ++ [entry], by simp [hNone, hEntry.symm], by simp [hEntries, hLayout]⟩
    · intro other hOther
      rw [hEntries, List.mem_append] at hOther
      rcases hOther with hOld | hNew
      · exact (h.points other hOld).grows hGrow
      · rcases hSlots other hNew with rfl | rfl
        · exact hPoints.grows hGrow
        · trivial

/-- What is there already gets the number that it has. -/
theorem Interned.intern_eq (h : pool.Interned) (hEntry : entry ≠ .placeholder)
    (hAt : pool.get? index = some entry) : ConstantPool.intern entry pool = (index, pool) := by
  obtain ⟨hNe, hAt⟩ := get?_eq_some.1 hAt
  obtain ⟨position, hFound, hSame⟩ := intern_known (List.mem_of_getElem? hAt)
  have hDistinct := List.pairwise_iff_getElem.1 h.distinct
  obtain ⟨hLt, hEq⟩ := List.getElem?_eq_some_iff.1 hAt
  obtain ⟨hLt', hEq'⟩ := List.getElem?_eq_some_iff.1 hFound
  have hPosition : position = index.toNat - 1 := by
    by_contra hOther
    rcases Nat.lt_or_gt_of_ne hOther with hBefore | hAfter
    · exact hEntry (hEq' ▸ hDistinct _ _ hLt' hLt hBefore (hEq'.trans hEq.symm))
    · exact hEntry (hEq ▸ hDistinct _ _ hLt hLt' hAfter (hEq.trans hEq'.symm))
  rw [hSame, hPosition]
  have hPos : index.toNat ≠ 0 := fun hZero => hNe (UInt16.toNat_inj.1 hZero)
  congr 1
  rw [← UInt16.toNat_inj, UInt16.toNat_add]
  have := index.toNat_lt
  simp
  omega

end ConstantPool

/-! Operations that answer with a number. -/

/-- What holds of a pool holds of all later ones. -/
def Lasting (known : ConstantPool → Prop) : Prop :=
  ∀ {pool later : ConstantPool}, pool.entries.toList <+: later.entries.toList → known pool → known later

/-- An operation whose answer leads to what was asked for, then and ever after, provided that some numbers do so
already. Asking for what is there changes nothing. -/
structure PoolAnswers (known : ConstantPool → Prop) (x : StateM ConstantPool UInt16)
    (holds : ConstantPool → UInt16 → Prop) : Prop where
  grows : PoolGrowing x
  stable : ∀ {index}, Lasting fun pool => holds pool index
  held : ∀ {pool}, (x pool).2.entries.size ≤ 65535 → holds (x pool).2 (x pool).1
  interned : ∀ {pool}, known pool → pool.Interned → (x pool).2.entries.size ≤ 65535 → (x pool).2.Interned
  again : ∀ {pool index}, pool.Interned → holds pool index → x pool = (index, pool)

namespace PoolAnswers

open ConstantPool

variable {known : ConstantPool → Prop} {x : StateM ConstantPool UInt16} {y : UInt16 → StateM ConstantPool UInt16}
  {H H' : ConstantPool → UInt16 → Prop} {K : UInt16 → ConstantPool → UInt16 → Prop}

theorem intern (entry : Constant) (hEntry : entry ≠ .placeholder) (hPoints : ∀ pool, known pool → pool.Points entry) :
    PoolAnswers known (intern entry) fun pool index => pool.get? index = some entry where
  grows := .intern entry
  stable := get?_grows
  held := intern_get? entry _ List.prefix_rfl
  interned hKnown h _ := h.intern hEntry (hPoints _ hKnown)
  again h hAt := h.intern_eq hEntry hAt

/-- The second operation may use the number that the first was answered by. -/
theorem bind (hx : PoolAnswers known x H) (hKnown : Lasting known)
    (hy : ∀ i, PoolAnswers (fun pool => known pool ∧ H pool i) (y i) (K i)) :
    PoolAnswers known (x >>= y) fun pool index => ∃ i, H pool i ∧ K i pool index := by
  have hFits {pool : ConstantPool} (hSize : ((x >>= y) pool).2.entries.size ≤ 65535) :
      (x pool).2.entries.size ≤ 65535 := by
    have hGrow := (hy (x pool).1).grows.entries (x pool).2
    have hLe : (x pool).2.entries.size ≤ (y (x pool).1 (x pool).2).2.entries.size := by simpa using hGrow.length_le
    exact Nat.le_trans hLe hSize
  refine ⟨hx.grows.bind fun i => (hy i).grows, ?_, ?_, ?_, ?_⟩
  · rintro index pool later hGrow ⟨i, hFirst, hSecond⟩
    exact ⟨i, hx.stable hGrow hFirst, (hy i).stable hGrow hSecond⟩
  · intro pool hSize
    exact ⟨_, hx.stable ((hy _).grows.entries _) (hx.held (hFits hSize)), (hy _).held hSize⟩
  · intro pool hBefore h hSize
    have hFirst := hFits hSize
    exact (hy _).interned ⟨hKnown (hx.grows.entries pool) hBefore, hx.held hFirst⟩ (hx.interned hBefore h hFirst) hSize
  · rintro pool index h ⟨i, hFirst, hSecond⟩
    show y (x pool).1 (x pool).2 = _
    rw [hx.again h hFirst]
    exact (hy i).again h hSecond

theorem congr (hx : PoolAnswers known x H) (hSame : ∀ pool index, H pool index ↔ H' pool index) :
    PoolAnswers known x H' := by
  obtain rfl : H = H' := funext₂ fun pool index => propext (hSame pool index)
  exact hx

theorem utf8 (text : String) : PoolAnswers known (ConstantPool.utf8 text) fun pool index =>
    pool.get? index = some (.utf8 text) := intern _ (by simp) fun _ _ => trivial

theorem ofClass (name : String) (hKnown : Lasting known) :
    PoolAnswers known (ConstantPool.ofClass name) fun pool => pool.HoldsClass name :=
  (utf8 name).bind hKnown fun text => intern (.class text) (by simp) fun _ h => ⟨name, h.2⟩

theorem nameAndType (name descriptor : String) (hKnown : Lasting known) :
    PoolAnswers known (ConstantPool.nameAndType name descriptor) fun pool => pool.HoldsNameAndType name descriptor :=
  ((utf8 name).bind hKnown fun _ => (utf8 descriptor).bind (fun hGrow h => ⟨hKnown hGrow h.1, get?_grows hGrow h.2⟩)
    fun _ => intern (.nameAndType _ _) (by simp) fun _ h => ⟨⟨name, h.1.2⟩, descriptor, h.2⟩).congr
    (by simp [HoldsNameAndType])

theorem reference {form : UInt16 → UInt16 → Constant}
    (hForm : form = .fieldRef ∨ form = .methodRef ∨ form = .interfaceMethodRef) (owner name descriptor : String) :
    PoolAnswers (fun _ => True) (ConstantPool.reference form owner name descriptor) fun pool =>
      HoldsReference form pool owner name descriptor := by
  refine ((ofClass owner fun _ => id).bind (fun _ => id) fun _ => (nameAndType name descriptor
    fun hGrow h => ⟨trivial, h.2.grows hGrow⟩).bind (fun hGrow h => ⟨trivial, h.2.grows hGrow⟩)
    fun _ => intern (form _ _) ?_ fun pool h => ?_).congr (by simp [HoldsReference])
  · rcases hForm with rfl | rfl | rfl <;> simp
  · rcases hForm with rfl | rfl | rfl <;> exact ⟨⟨owner, h.1.2⟩, name, descriptor, h.2⟩

end PoolAnswers

namespace ConstantPool

/-! Where placeholders stand. -/

theorem placeholder_after {constants : List Constant} {position : Nat} {entry : Constant}
    (hAt : (constants.flatMap Constant.slots)[position]? = some entry) (hWide : entry.isWide) :
    (constants.flatMap Constant.slots)[position + 1]? = some .placeholder := by
  induction constants generalizing position with
  | nil => simp at hAt
  | cons first rest ih =>
    rw [List.flatMap_cons] at hAt ⊢
    by_cases hFirst : first.isWide
    · simp only [Constant.slots, hFirst, if_true, List.cons_append, List.nil_append] at hAt ⊢
      match position with
      | 0 => rfl
      | 1 =>
        cases hAt
        cases hWide
      | position + 2 => exact ih hAt
    · simp only [Constant.slots, hFirst] at hAt ⊢
      match position with
      | 0 =>
        cases hAt
        exact absurd hWide hFirst
      | position + 1 => exact ih hAt

theorem wide_before {constants : List Constant} (hNone : .placeholder ∉ constants) {position : Nat}
    (hAt : (constants.flatMap Constant.slots)[position]? = some .placeholder) :
    ∃ before entry, position = before + 1 ∧ entry.isWide ∧
      (constants.flatMap Constant.slots)[before]? = some entry := by
  induction constants generalizing position with
  | nil => simp at hAt
  | cons first rest ih =>
    obtain ⟨hNe, hRest⟩ := not_or.1 (List.mem_cons.not.1 hNone)
    rw [List.flatMap_cons] at hAt ⊢
    by_cases hFirst : first.isWide
    · simp only [Constant.slots, hFirst, if_true, List.cons_append, List.nil_append] at hAt ⊢
      match position with
      | 0 => exact absurd (Option.some.inj hAt).symm hNe
      | 1 => exact ⟨0, first, rfl, hFirst, rfl⟩
      | position + 2 =>
        obtain ⟨before, entry, rfl, hWide, hBefore⟩ := ih hRest hAt
        exact ⟨before + 2, entry, rfl, hWide, hBefore⟩
    · simp only [Constant.slots, hFirst] at hAt ⊢
      match position with
      | 0 => exact absurd (Option.some.inj hAt).symm hNe
      | position + 1 =>
        obtain ⟨before, entry, rfl, hWide, hBefore⟩ := ih hRest hAt
        exact ⟨before + 1, entry, rfl, hWide, hBefore⟩

end ConstantPool

/-! Requests. -/

/-- What can be asked of a pool. -/
inductive PoolRequest where
  | utf8 (text : String)
  | ofClass (name : String)
  | string (text : String)
  | integer (value : Int32)
  | float (value : Binary32)
  | long (value : Int64)
  | double (value : Binary64)
  | nameAndType (name descriptor : String)
  | field (owner name descriptor : String)
  | method (owner name descriptor : String)
  | interfaceMethod (owner name descriptor : String)
deriving DecidableEq, Repr

/-- The number that a request is answered by, and the pool after it. -/
def PoolRequest.ask : PoolRequest → StateM ConstantPool UInt16
  | .utf8 text => ConstantPool.utf8 text
  | .ofClass name => ConstantPool.ofClass name
  | .string text => ConstantPool.string text
  | .integer value => ConstantPool.integer value
  | .float value => ConstantPool.float value
  | .long value => ConstantPool.long value
  | .double value => ConstantPool.double value
  | .nameAndType name descriptor => ConstantPool.nameAndType name descriptor
  | .field owner name descriptor => ConstantPool.field owner name descriptor
  | .method owner name descriptor => ConstantPool.method owner name descriptor
  | .interfaceMethod owner name descriptor => ConstantPool.interfaceMethod owner name descriptor

namespace ConstantPool

/-- The pool after some requests. -/
def after (requests : List PoolRequest) : ConstantPool :=
  requests.foldl (fun pool request => (request.ask pool).2) .empty

/-- The request that the entry with a number answers, as the entry and those that it points to tell it. -/
def request? (pool : ConstantPool) (index : UInt16) : Option PoolRequest :=
  match pool.get? index with
  | some (.utf8 text) => some (.utf8 text)
  | some (.integer value) => some (.integer value)
  | some (.float value) => some (.float value)
  | some (.long value) => some (.long value)
  | some (.double value) => some (.double value)
  | some (.class _) => (pool.className? index).map .ofClass
  | some (.string text) => (pool.text? text).map .string
  | some (.nameAndType name descriptor) => do
    return .nameAndType (← pool.text? name) (← pool.text? descriptor)
  | some (.fieldRef ..) => (pool.member? index).map fun (owner, name, descriptor) => .field owner name descriptor
  | some (.methodRef ..) => (pool.member? index).map fun (owner, name, descriptor) => .method owner name descriptor
  | some (.interfaceMethodRef ..) => (pool.member? index).map fun (owner, name, descriptor) =>
    .interfaceMethod owner name descriptor
  | some .placeholder | none => none

/-- A number leads to what was asked for. -/
def Holds (pool : ConstantPool) (index : UInt16) : PoolRequest → Prop
  | .utf8 text => pool.get? index = some (.utf8 text)
  | .ofClass name => pool.HoldsClass name index
  | .string text => ∃ t, pool.get? t = some (.utf8 text) ∧ pool.get? index = some (.string t)
  | .integer value => pool.get? index = some (.integer value)
  | .float value => pool.get? index = some (.float value)
  | .long value => pool.get? index = some (.long value)
  | .double value => pool.get? index = some (.double value)
  | .nameAndType name descriptor => pool.HoldsNameAndType name descriptor index
  | .field owner name descriptor => HoldsReference .fieldRef pool owner name descriptor index
  | .method owner name descriptor => HoldsReference .methodRef pool owner name descriptor index
  | .interfaceMethod owner name descriptor => HoldsReference .interfaceMethodRef pool owner name descriptor index

variable {pool later : ConstantPool} {index : UInt16} {request : PoolRequest}

/-- What is held is read back. -/
theorem Holds.request? (h : pool.Holds index request) : pool.request? index = some request := by
  unfold ConstantPool.request?
  cases request with
  | utf8 | integer | float | long | double => rw [h]
  | ofClass name =>
    have hName := HoldsClass.className? h
    obtain ⟨text, -, hAt⟩ := h
    simp [hAt, hName]
  | string text =>
    obtain ⟨t, hText, hAt⟩ := h
    simp [hAt, text?, hText]
  | nameAndType name descriptor =>
    obtain ⟨nameText, descriptorText, hName, hDescriptor, hAt⟩ := h
    simp [hAt, text?, hName, hDescriptor]
  | field owner name descriptor | method owner name descriptor | interfaceMethod owner name descriptor =>
    have hMember := HoldsReference.member? (by simp) h
    obtain ⟨ownerIndex, member, -, -, hAt⟩ := h
    simp [hAt, hMember]

end ConstantPool

namespace PoolRequest

open ConstantPool

variable {pool : ConstantPool}

theorem answers (request : PoolRequest) :
    PoolAnswers (fun _ => True) request.ask fun pool index => pool.Holds index request := by
  cases request with
  | utf8 text => exact .utf8 text
  | integer | float | long | double => exact .intern _ (by simp) fun _ _ => trivial
  | ofClass name => exact .ofClass name fun _ => id
  | string text =>
    exact (PoolAnswers.utf8 text).bind (fun _ => id) fun _ => .intern (.string _) (by simp) fun _ h => ⟨text, h.2⟩
  | nameAndType name descriptor => exact .nameAndType name descriptor fun _ => id
  | field owner name descriptor | method owner name descriptor | interfaceMethod owner name descriptor =>
    exact .reference (by simp) owner name descriptor

end PoolRequest

namespace ConstantPool

theorem foldl_grows (requests : List PoolRequest) (pool : ConstantPool) : pool.entries.toList <+:
    (requests.foldl (fun pool request => (request.ask pool).2) pool).entries.toList := by
  induction requests generalizing pool with
  | nil => exact List.prefix_rfl
  | cons request rest ih => exact (request.answers.grows.entries pool).trans (ih _)

/-- A pool is well formed after any requests, as long as its numbers are not used up. -/
theorem foldl_interned (requests : List PoolRequest) {pool : ConstantPool} (h : pool.Interned)
    (hSize : (requests.foldl (fun pool request => (request.ask pool).2) pool).entries.size ≤ 65535) :
    (requests.foldl (fun pool request => (request.ask pool).2) pool).Interned := by
  induction requests generalizing pool with
  | nil => exact h
  | cons request rest ih =>
    have hGrow := foldl_grows rest (request.ask pool).2
    exact ih (request.answers.interned trivial h (Nat.le_trans (by simpa using hGrow.length_le) hSize)) hSize

variable {requests : List PoolRequest}

theorem interned_after (hSize : (after requests).entries.size ≤ 65535) :
    (after requests).Interned := foldl_interned requests interned_empty hSize

theorem after_grows (before later : List PoolRequest) :
    (after before).entries.toList <+: (after (before ++ later)).entries.toList := by
  unfold after
  rw [List.foldl_append]
  exact foldl_grows later _

/-- The answer to a request is held ever after. -/
theorem after_holds (before later : List PoolRequest) (request : PoolRequest)
    (hSize : (after (before ++ request :: later)).entries.size ≤ 65535) :
    (after (before ++ request :: later)).Holds (request.ask (after before)).1 request := by
  have hGrow : (request.ask (after before)).2.entries.toList <+:
      (after (before ++ request :: later)).entries.toList := by
    unfold after
    rw [List.foldl_append]
    exact foldl_grows later _
  exact request.answers.stable hGrow (request.answers.held (Nat.le_trans (by simpa using hGrow.length_le) hSize))

/-- The number that a request gets after others. -/
def number (before : List PoolRequest) (request : PoolRequest) : UInt16 := (request.ask (after before)).1

theorem placeholder_get? (hSize : (after requests).entries.size ≤ 65534)
    {index : UInt16} {entry : Constant} (hAt : (after requests).get? index = some entry) (hWide : entry.isWide) :
    (after requests).get? (index + 1) = some .placeholder := by
  obtain ⟨constants, -, hLayout⟩ := (interned_after (Nat.le_succ_of_le hSize)).layout
  obtain ⟨hNe, hAt⟩ := get?_eq_some.1 hAt
  rw [hLayout] at hAt
  have hNext := placeholder_after hAt hWide
  rw [← hLayout] at hNext
  have hIndex := get?_of_position hNext (Nat.le_succ_of_le hSize)
  have hPos : index.toNat ≠ 0 := fun hZero => hNe (UInt16.toNat_inj.1 hZero)
  rw [Nat.sub_add_cancel (Nat.pos_of_ne_zero hPos)] at hIndex
  simpa using hIndex

theorem wide_get? (hSize : (after requests).entries.size ≤ 65534)
    {index : UInt16} (hAt : (after requests).get? index = some .placeholder) :
    ∃ before entry, index = before + 1 ∧ entry.isWide ∧ (after requests).get? before = some entry := by
  obtain ⟨constants, hNone, hLayout⟩ := (interned_after (Nat.le_succ_of_le hSize)).layout
  obtain ⟨hNe, hAt⟩ := get?_eq_some.1 hAt
  rw [hLayout] at hAt
  obtain ⟨before, entry, hPosition, hWide, hBefore⟩ := wide_before hNone hAt
  rw [← hLayout] at hBefore
  refine ⟨before.toUInt16 + 1, entry, ?_, hWide, get?_of_position hBefore (Nat.le_succ_of_le hSize)⟩
  have hLt : index.toNat < 65536 := index.toNat_lt
  rw [← UInt16.toNat_inj, UInt16.toNat_add, UInt16.toNat_add]
  simp
  omega

/-- Interning is exact and stable. After any requests that leave numbers free, each of them reads back
from the number that it got, asking again gives that number and changes nothing, and what was there before
it is still there. Different requests have different numbers. The numbers inside an entry lead to entries
of the right sorts. A `long` or `double` is followed by a placeholder, which stands nowhere else and is no
answer to a request, and all numbers up to the count are in use. -/
theorem interning_exact {requests : List PoolRequest} (hSize : (after requests).entries.size ≤ 65534) :
    (∀ before request later, requests = before ++ request :: later →
      (after requests).request? (number before request) = some request ∧
      request.ask (after requests) = (number before request, after requests) ∧
      (after requests).get? (number before request) ≠ some .placeholder ∧
      ∀ index entry, (after before).get? index = some entry → (after requests).get? index = some entry) ∧
    (∀ before request later before' request' later', requests = before ++ request :: later →
      requests = before' ++ request' :: later' → number before request = number before' request' →
      request = request') ∧
    (∀ index entry, (after requests).get? index = some entry → (after requests).Points entry) ∧
    (∀ index entry, (after requests).get? index = some entry → entry.isWide →
      (after requests).get? (index + 1) = some .placeholder) ∧
    (∀ index, (after requests).get? index = some .placeholder →
      ∃ before entry, index = before + 1 ∧ entry.isWide ∧ (after requests).get? before = some entry) ∧
    (after requests).count.toNat = (after requests).entries.size + 1 := by
  have hFits := Nat.le_succ_of_le hSize
  have hInterned := interned_after hFits
  have hHolds (before : List PoolRequest) (request : PoolRequest) (later : List PoolRequest)
      (hSplit : requests = before ++ request :: later) :
      (after requests).Holds (number before request) request := by
    subst hSplit
    exact after_holds before later request hFits
  refine ⟨fun before request later hSplit => ?_, ?_, ?_, fun _ _ => placeholder_get? hSize,
    fun _ => wide_get? hSize, ?_⟩
  · have hRead := (hHolds before request later hSplit).request?
    refine ⟨hRead, request.answers.again hInterned (hHolds before request later hSplit), fun hNone => ?_,
      fun index entry => get?_grows ?_⟩
    · simp [ConstantPool.request?, hNone] at hRead
    · rw [hSplit]
      exact after_grows before _
  · intro before request later before' request' later' hSplit hSplit' hSame
    have hRead := (hHolds before request later hSplit).request?
    rw [hSame, (hHolds before' request' later' hSplit').request?] at hRead
    exact (Option.some.inj hRead).symm
  · intro index entry hAt
    exact hInterned.points entry (List.mem_of_getElem? (get?_eq_some.1 hAt).2)
  · rw [count, UInt16.toNat_add]
    simp
    omega

/-- After a `long`, which takes two numbers, a method of a class and then the class itself are asked for. -/
theorem interning_exact_method : (after [.long 7, .method "A" "f" "()V", .ofClass "A"]).entries.size ≤ 65534 ∧
    number [.long 7, .method "A" "f" "()V"] (.ofClass "A") = 4 ∧
    (after [.long 7, .method "A" "f" "()V", .ofClass "A"]).request?
      (number [.long 7, .method "A" "f" "()V"] (.ofClass "A")) = some (.ofClass "A") :=
  ⟨by decide +kernel, by decide +kernel,
    ((interning_exact (by decide +kernel)).1 [.long 7, .method "A" "f" "()V"] _ [] rfl).1⟩

end ConstantPool

end JavaFragment
