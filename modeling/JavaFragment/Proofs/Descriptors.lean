import JavaFragment.Class.Accessor
import Mathlib.Data.List.Basic
import Mathlib.Data.List.TakeWhile
/-!
Descriptors and the types that are read from them. A type is read from its descriptor and from no other text. The
descriptor of a method is read back as well, unless a class name among its parameters has a closing parenthesis: the
first one in the text ends the parameters, whether it stands in a name or not. So a few texts are read as signatures
that have another descriptor, and it is said which.
-/
namespace JavaFragment

/-- Whether a type can be told from its descriptor: it is not that of `null`, and a class name keeps clear of the
semicolon that ends it. -/
def JavaType.isDelimited (t : JavaType) : Bool :=
  match t.base with
  | .null => false
  | .primitive _ => true
  | .class name => name.toList.all (· != ';')

/-- Whether the descriptor of a type can be read back among parameters: a class name keeps clear of the signs that end
names in descriptors. -/
def JavaType.isReadable (t : JavaType) : Bool :=
  match t.base with
  | .null => false
  | .primitive _ => true
  | .class name => name.toList.all fun c => c != ';' && c != ')'

namespace JavaType

variable {t : JavaType} {rest : List Char}

theorem toList_pushn (s : String) (c : Char) (n : Nat) : (s.pushn c n).toList = s.toList ++ List.replicate n c := by
  induction n with
  | zero => simp [String.pushn, Nat.repeat]
  | succ n ih =>
    have hStep : s.pushn c (n + 1) = (s.pushn c n).push c := rfl
    rw [hStep, String.toList_push, ih, List.replicate_succ', List.append_assoc]

/-- The descriptor of an array is that of its base with brackets before it. -/
theorem toList_descriptor (t : JavaType) :
    t.descriptor.toList = List.replicate t.dims '[' ++ (descriptor ⟨t.base, 0⟩).toList := by
  simp [descriptor, toList_pushn]

theorem toList_descriptor_class (name : String) (dims : Nat) : (descriptor ⟨.class name, dims⟩).toList =
    (List.replicate dims '[' ++ 'L' :: name.toList) ++ [';'] := by
  simp [descriptor, toList_pushn]

theorem descriptor_ne_nil (t : JavaType) : t.descriptor.toList ≠ [] := by
  obtain ⟨base, dims⟩ := t
  rw [toList_descriptor]
  cases base <;> simp [descriptor, toList_pushn]

theorem isDelimited_class {name : String} {dims : Nat} : isDelimited ⟨.class name, dims⟩ ↔ ';' ∉ name.toList := by
  simp only [isDelimited, List.all_eq_true, bne_iff_ne]
  exact ⟨fun h hMem => h _ hMem rfl, fun h c hc hSame => h (hSame ▸ hc)⟩

/-- A type is readable among parameters if its descriptor has no closing parenthesis. -/
theorem isReadable_iff : t.isReadable ↔ t.isDelimited ∧ ')' ∉ t.descriptor.toList := by
  obtain ⟨base, dims⟩ := t
  cases base with
  | null => simp [isReadable, isDelimited]
  | primitive p => cases p <;> simp [isReadable, isDelimited, descriptor, toList_pushn, Primitive.letter]
  | «class» name =>
    have hClose : ')' ∉ (descriptor ⟨.class name, dims⟩).toList ↔ ')' ∉ name.toList := by simp [toList_descriptor_class]
    rw [isDelimited_class, hClose]
    simp only [isReadable, List.all_eq_true, Bool.and_eq_true, bne_iff_ne]
    constructor
    · intro h
      exact ⟨fun hMem => (h _ hMem).1 rfl, fun hMem => (h _ hMem).2 rfl⟩
    · intro h c hc
      exact ⟨fun hSame => h.1 (hSame ▸ hc), fun hSame => h.2 (hSame ▸ hc)⟩

theorem close_not_mem_descriptor (h : t.isReadable) : ')' ∉ t.descriptor.toList := (isReadable_iff.1 h).2

/-! Reading one type. -/

theorem read_replicate {chars : List Char} (h : read chars = some (t, rest)) (n : Nat) :
    read (List.replicate n '[' ++ chars) = some (t.arrayOf n, rest) := by
  induction n with
  | zero => simpa [arrayOf] using h
  | succ n ih =>
    rw [List.replicate_succ, List.cons_append, read, ih]
    rfl

theorem read_class {name : String} (h : ';' ∉ name.toList) (rest : List Char) :
    read ('L' :: (name.toList ++ ';' :: rest)) = some (.ofClass name, rest) := by
  have hName : ∀ c ∈ name.toList, (c != ';') = true := by
    intro c hc
    simpa using fun hSame : c = ';' => h (hSame ▸ hc)
  rw [read, List.dropWhile_append_of_pos hName, List.takeWhile_append_of_pos hName]
  simp

theorem read_letter (p : Primitive) (rest : List Char) : read (p.letter :: rest) = some (.prim p, rest) := by
  cases p <;> rfl

/-- The descriptor of a type, before anything else. -/
theorem read_descriptor (h : t.isDelimited) (rest : List Char) :
    read (t.descriptor.toList ++ rest) = some (t, rest) := by
  obtain ⟨base, dims⟩ := t
  rw [toList_descriptor, List.append_assoc]
  have hBase : read ((descriptor ⟨base, 0⟩).toList ++ rest) = some (⟨base, 0⟩, rest) := by
    cases base with
    | null => cases h
    | primitive p => simpa [descriptor, toList_pushn, prim] using read_letter p rest
    | «class» name => simpa [descriptor, toList_pushn, ofClass] using read_class (isDelimited_class.1 h) rest
  simpa [arrayOf] using read_replicate hBase dims

/-- Only the descriptor of a type is read as the type. -/
theorem of_read {chars : List Char} (h : read chars = some (t, rest)) :
    t.isDelimited ∧ chars = t.descriptor.toList ++ rest := by
  induction chars using read.induct generalizing t rest with
  | case1 => cases h
  | case2 chars ih =>
    rw [read] at h
    obtain ⟨⟨element, after⟩, hRead, hSame⟩ := Option.map_eq_some_iff.1 h
    cases hSame
    refine ⟨(ih hRead).1, ?_⟩
    rw [(ih hRead).2, toList_descriptor (element.arrayOf 1), toList_descriptor element]
    simp [arrayOf, List.replicate_succ]
  | case3 chars hNone =>
    rw [read, hNone] at h
    cases h
  | case4 chars mark after hSplit =>
    rw [read, hSplit] at h
    cases h
    have hMark : mark = ';' := by
      have hHead := List.head?_dropWhile_not (· != ';') chars
      rw [hSplit] at hHead
      simpa using hHead
    have hAll := List.takeWhile_append_dropWhile (p := (· != ';')) (l := chars)
    rw [hSplit, hMark] at hAll
    constructor
    · apply isDelimited_class.2
      intro hMem
      rw [String.toList_ofList] at hMem
      simpa using List.mem_takeWhile_imp hMem
    · simpa [descriptor, toList_pushn, ofClass] using hAll.symm
  | case5 c chars hBracket hClass =>
    rw [read] at h
    · obtain ⟨p, hp, hSame⟩ := Option.map_eq_some_iff.1 h
      cases hSame
      simp [descriptor, toList_pushn, prim, isDelimited, Primitive.letter_of_ofLetter? hp]
    · exact hBracket
    · exact hClass

/-- A text is read as a type exactly if it is the descriptor of the type. -/
theorem ofDescriptor?_eq_some_iff {text : String} :
    ofDescriptor? text = some t ↔ t.isDelimited ∧ text = t.descriptor := by
  constructor
  · intro h
    unfold ofDescriptor? at h
    split at h
    · next hRead =>
      cases h
      obtain ⟨hDelimited, hText⟩ := of_read hRead
      exact ⟨hDelimited, by rw [← String.toList_inj, hText, List.append_nil]⟩
    · cases h
  · rintro ⟨hDelimited, rfl⟩
    have hRead := read_descriptor hDelimited []
    rw [List.append_nil] at hRead
    rw [ofDescriptor?, hRead]

/-- The semicolon in a descriptor is its last sign. -/
theorem eq_nil_of_semicolon (h : t.isDelimited) {front : List Char}
    (hText : t.descriptor.toList = front ++ ';' :: rest) : rest = [] := by
  obtain ⟨base, dims⟩ := t
  cases base with
  | null => cases h
  | primitive p =>
    have hMem : ';' ∈ (descriptor ⟨.primitive p, dims⟩).toList := by simp [hText]
    cases p <;> simp [descriptor, toList_pushn, Primitive.letter] at hMem
  | «class» name =>
    rw [toList_descriptor_class] at hText
    have hBefore : ';' ∉ List.replicate dims '[' ++ 'L' :: name.toList := by simpa using isDelimited_class.1 h
    exact ((List.append_cons_inj_of_notMem hBefore (by simp)).1 hText).2.2.symm

/-- A closing parenthesis stands in the name of a class, which a semicolon ends. -/
theorem getLast?_of_close (h : t.isDelimited) (hClose : ')' ∈ t.descriptor.toList) :
    t.descriptor.toList.getLast? = some ';' := by
  obtain ⟨base, dims⟩ := t
  cases base with
  | null => cases h
  | primitive p => cases p <;> simp [descriptor, toList_pushn, Primitive.letter] at hClose
  | «class» name =>
    rw [toList_descriptor_class]
    exact List.getLast?_concat

end JavaType

namespace MethodType

open JavaType

variable {types : List JavaType} {fuel : Nat} {text : String} {m : MethodType}

/-- The characters of the descriptors of types, one after another. -/
def spelling (types : List JavaType) : List Char := types.flatMap fun t => t.descriptor.toList

@[simp]
theorem spelling_singleton (t : JavaType) : spelling [t] = t.descriptor.toList := List.flatMap_singleton ..

@[simp]
theorem spelling_append (types others : List JavaType) :
    spelling (types ++ others) = spelling types ++ spelling others := List.flatMap_append

theorem toList_descriptor (m : MethodType) :
    m.descriptor.toList = '(' :: (spelling m.params ++ ')' :: m.result.descriptor.toList) := by
  simp [descriptor, spelling, String.toList_join, List.flatMap_map]

theorem length_le_spelling (types : List JavaType) : types.length ≤ (spelling types).length := by
  induction types with
  | nil => simp [spelling]
  | cons t types ih =>
    have := List.length_pos_iff.2 t.descriptor_ne_nil
    rw [spelling] at ih ⊢
    simp only [List.flatMap_cons, List.length_append, List.length_cons]
    omega

theorem close_not_mem_spelling (h : ∀ t ∈ types, t.isReadable) : ')' ∉ spelling types := by
  intro hMem
  obtain ⟨t, ht, hMem⟩ := List.mem_flatMap.1 hMem
  exact close_not_mem_descriptor (h t ht) hMem

/-! Reading parameters. -/

theorem readParams_done {close : Nat} {chars : List Char} (h : chars.length ≤ close) :
    readParams close fuel chars = some [] := by
  cases fuel with
  | zero => rfl
  | succ fuel => rw [readParams, if_pos h]

/-- Types that end before the parameters do are read one after another. -/
theorem readParams_append (h : ∀ t ∈ types, t.isDelimited) {close : Nat}
    {rest : List Char} (hClose : close ≤ rest.length) :
    readParams close (types.length + fuel) (spelling types ++ rest) =
      (readParams close fuel rest).map (types ++ ·) := by
  induction types with
  | nil => simp [spelling]
  | cons t types ih =>
    have hLong : ¬ (t.descriptor.toList ++ (spelling types ++ rest)).length ≤ close := by
      have := List.length_pos_iff.2 t.descriptor_ne_nil
      simp only [List.length_append]
      omega
    have hFirst : spelling (t :: types) = t.descriptor.toList ++ spelling types := List.flatMap_cons
    have hCount : (t :: types).length + fuel = (types.length + fuel) + 1 := by
      simp only [List.length_cons]
      omega
    rw [hFirst, List.append_assoc, hCount, readParams, if_neg hLong, read_descriptor (h t (by simp))]
    simp only [Option.bind_eq_bind, Option.bind_some, ih fun t ht => h t (by simp [ht])]
    cases readParams close fuel rest <;> simp

/-- What is read as parameters. All of them end before the closing parenthesis, or the last one runs across it. -/
theorem of_readParams {before after : List Char} (hFuel : before.length ≤ fuel)
    (h : readParams (after.length + 1) fuel (before ++ ')' :: after) = some types) :
    (∀ t ∈ types, t.isDelimited) ∧ (before = spelling types ∨
      ∃ earlier last front more rest, types = earlier ++ [last] ∧ before = spelling earlier ++ front ∧
        last.descriptor.toList = front ++ ')' :: more ∧ after = more ++ rest) := by
  induction fuel generalizing before types with
  | zero =>
    obtain rfl : before = [] := List.eq_nil_of_length_eq_zero (by omega)
    cases h
    exact ⟨nofun, .inl rfl⟩
  | succ fuel ih =>
    rw [readParams] at h
    split at h
    · next hShort =>
      obtain rfl : before = [] := by
        apply List.eq_nil_of_length_eq_zero
        simp only [List.length_append, List.length_cons] at hShort
        omega
      cases h
      exact ⟨nofun, .inl rfl⟩
    · obtain ⟨⟨t, rest⟩, hRead, h⟩ := Option.bind_eq_some_iff.1 h
      obtain ⟨others, hOthers, hSame⟩ := Option.bind_eq_some_iff.1 h
      cases hSame
      obtain ⟨hDelimited, hText⟩ := of_read hRead
      have hPos := List.length_pos_iff.2 t.descriptor_ne_nil
      -- The type ends before the parenthesis, or takes it in.
      rcases List.append_eq_append_iff.1 hText with ⟨beyond, hBeyond, hRest⟩ | ⟨left, hLeft, hRest⟩
      · cases beyond with
        | nil =>
          rw [List.append_nil] at hBeyond
          rw [List.nil_append] at hRest
          rw [← hRest, readParams_done (by simp)] at hOthers
          cases hOthers
          simp [hDelimited, hBeyond, spelling]
        | cons c more =>
          injection hRest with hMark hRest
          subst hMark
          rw [readParams_done (by simp [hRest]; omega)] at hOthers
          cases hOthers
          exact ⟨by simp [hDelimited], .inr ⟨[], t, before, more, rest, rfl, rfl, hBeyond, hRest⟩⟩
      · have hLess : left.length ≤ fuel := by
          simp only [hLeft, List.length_append] at hFuel
          omega
        rw [hRest] at hOthers
        obtain ⟨hAll, hWhole | ⟨earlier, last, front, more, rest, hTypes, hBefore, hLast, hAfter⟩⟩ := ih hLess hOthers
        · exact ⟨List.forall_mem_cons.2 ⟨hDelimited, hAll⟩, .inl (by rw [hLeft, hWhole]; rfl)⟩
        · refine ⟨List.forall_mem_cons.2 ⟨hDelimited, hAll⟩, .inr ⟨t :: earlier, last, front, more, rest, ?_, ?_,
            hLast, hAfter⟩⟩
          · rw [hTypes, List.cons_append]
          · rw [hLeft, hBefore, ← List.append_assoc]
            rfl

/-! Reading signatures. -/

theorem dropWhile_close {before after : List Char} (h : ')' ∉ before) :
    (before ++ ')' :: after).dropWhile (· != ')') = ')' :: after := by
  have hClear : ∀ c ∈ before, (c != ')') = true := by
    intro c hc
    simpa using fun hSame : c = ')' => h (hSame ▸ hc)
  rw [List.dropWhile_append_of_pos hClear, List.dropWhile_cons_of_neg (by simp)]

theorem ofDescriptor?_eq (before after : List Char)
    (hText : text.toList = '(' :: (before ++ ')' :: after)) (h : ')' ∉ before) {types : List JavaType} {result : JavaType}
    (hParams : readParams (after.length + 1) (before ++ ')' :: after).length (before ++ ')' :: after) = some types)
    (hResult : read after = some (result, [])) : ofDescriptor? text = some ⟨types, result⟩ := by
  unfold ofDescriptor?
  rw [hText]
  simp only [dropWhile_close h, hParams, hResult]
  rfl

/-- The descriptor of a signature is read back if no class name among the parameters has a parenthesis. -/
theorem ofDescriptor?_of_isReadable (hParams : ∀ t ∈ m.params, t.isReadable)
    (hResult : m.result.isDelimited) : ofDescriptor? m.descriptor = some m := by
  apply ofDescriptor?_eq _ _ m.toList_descriptor (close_not_mem_spelling hParams)
  · have hFew := length_le_spelling m.params
    obtain ⟨fuel, hFuel⟩ := Nat.exists_eq_add_of_le
      (show m.params.length ≤ (spelling m.params ++ ')' :: m.result.descriptor.toList).length by
        rw [List.length_append]; omega)
    rw [hFuel, readParams_append (fun t ht => (isReadable_iff.1 (hParams t ht)).1) (by simp), readParams_done (by simp)]
    simp
  · simpa using read_descriptor hResult []

theorem paramSlots_eq (m : MethodType) : m.paramSlots = (m.params.map slots).foldl (· + ·) 0 := by
  have hFold (types : List JavaType) (words : Nat) : (types.map slots).foldl (· + ·) words =
      words + types.foldr (fun t words => t.slots + words) 0 := by
    induction types generalizing words with
    | nil => rfl
    | cons t types ih => rw [List.map_cons, List.foldl_cons, ih, List.foldr_cons, Nat.add_assoc]
  rw [hFold, paramSlots, Nat.zero_add]

/-- How a text is read as a signature that has another descriptor. The text has no result of its own: the last parameter
is a class whose name takes in the closing parenthesis and all that follows, up to the semicolon at the end, and what
follows the parenthesis is read once more as the result. -/
inductive Overruns : String → MethodType → Prop
  | intro {earlier : List JavaType} {last result : JavaType} {front : String}
      (hEarlier : ∀ t ∈ earlier, t.isReadable) (hLast : last.isDelimited) (hResult : result.isDelimited)
      (hFront : ')' ∉ front.toList) (hName : last.descriptor = front ++ ")" ++ result.descriptor) :
      Overruns ("(" ++ String.join ((earlier ++ [last]).map JavaType.descriptor)) ⟨earlier ++ [last], result⟩

theorem Overruns.descriptor_eq (h : Overruns text m) : m.descriptor = text ++ ")" ++ m.result.descriptor := by
  cases h
  rfl

theorem Overruns.ofDescriptor?_eq_some (h : Overruns text m) : ofDescriptor? text = some m := by
  cases h with
  | @intro earlier last result front hEarlier hLast hResult hFront hName =>
    have hName : last.descriptor.toList = front.toList ++ ')' :: result.descriptor.toList := by simp [hName]
    have hSplit : spelling (earlier ++ [last]) =
        (spelling earlier ++ front.toList) ++ ')' :: result.descriptor.toList := by
      rw [spelling_append, List.append_assoc, ← hName]
      simp [spelling]
    apply ofDescriptor?_eq (spelling earlier ++ front.toList) result.descriptor.toList
    · rw [← hSplit]
      simp [spelling, String.toList_join, List.flatMap_map, List.flatMap_append]
    · rw [List.mem_append]
      exact not_or.2 ⟨close_not_mem_spelling hEarlier, hFront⟩
    · have hFew := length_le_spelling (earlier ++ [last])
      obtain ⟨fuel, hFuel⟩ := Nat.exists_eq_add_of_le hFew
      rw [← hSplit, hFuel, List.length_append, Nat.add_assoc, spelling_append,
        readParams_append (fun t ht => (isReadable_iff.1 (hEarlier t ht)).1) (by simp [spelling, hName])]
      have hOnly : spelling [last] = last.descriptor.toList ++ [] := by simp [spelling]
      have hLong : ¬ (last.descriptor.toList ++ []).length ≤ result.descriptor.toList.length + 1 := by
        have hStart : front.toList ≠ [] := by
          intro hNone
          have hRead := read_descriptor hLast []
          rw [hName, hNone] at hRead
          simp [JavaType.read, Primitive.ofLetter?] at hRead
        have := List.length_pos_iff.2 hStart
        simp only [hName, List.length_append, List.length_cons, List.length_nil]
        omega
      rw [List.length_singleton, Nat.add_comm 1 fuel, hOnly, readParams, if_neg hLong, read_descriptor hLast]
      simp [readParams_done]
    · simpa using read_descriptor hResult []

/-- What is read as a signature is its descriptor, or a text without a result of its own. -/
theorem of_ofDescriptor? (h : ofDescriptor? text = some m) :
    (∀ t ∈ m.params, t.isReadable) ∧ m.result.isDelimited ∧ text = m.descriptor ∨ Overruns text m := by
  unfold ofDescriptor? at h
  split at h
  case h_2 => cases h
  case h_1 chars hText =>
  split at h
  case h_1 => cases h
  case h_2 mark after hAfter =>
  obtain ⟨types, hTypes, h⟩ := Option.bind_eq_some_iff.1 h
  split at h
  case h_2 => cases h
  case h_1 result hRead =>
  cases h
  obtain ⟨hResult, hAfterText⟩ := of_read hRead
  rw [List.append_nil] at hAfterText
  -- The characters up to the first parenthesis.
  obtain ⟨before, hBefore⟩ : ∃ before, before = chars.takeWhile (· != ')') := ⟨_, rfl⟩
  have hClear : ')' ∉ before := by
    intro hMem
    rw [hBefore] at hMem
    simpa using List.mem_takeWhile_imp hMem
  obtain rfl : mark = ')' := by
    have hHead := List.head?_dropWhile_not (· != ')') chars
    rw [hAfter] at hHead
    simpa using hHead
  obtain rfl : chars = before ++ ')' :: after := by rw [hBefore, ← hAfter, List.takeWhile_append_dropWhile]
  obtain ⟨hDelimited, hWhole | ⟨earlier, last, front, more, rest, rfl, hFront, hLast, hMore⟩⟩ :=
    of_readParams (by simp) hTypes
  · left
    refine ⟨fun t ht => isReadable_iff.2 ⟨hDelimited t ht, fun hMem => hClear ?_⟩, hResult, ?_⟩
    · rw [hWhole]
      exact List.mem_flatMap.2 ⟨t, ht, hMem⟩
    · rw [← String.toList_inj, hText, toList_descriptor, hWhole, hAfterText]
  · right
    -- The last name ends with a semicolon, which the descriptor of the result has at its end only.
    have hEnd : more.getLast? = some ';' := by
      have hEnd := getLast?_of_close (hDelimited last (by simp)) (by simp [hLast])
      rw [hLast, List.getLast?_append, List.getLast?_cons] at hEnd
      cases hSign : more.getLast? with
      | none => simp [hSign] at hEnd
      | some c => simpa [hSign] using hEnd
    obtain ⟨inner, tail, hInner⟩ := List.append_of_mem (List.mem_of_getLast? hEnd)
    obtain ⟨rfl, rfl⟩ : tail = [] ∧ rest = [] := by
      have hSplit : result.descriptor.toList = inner ++ ';' :: (tail ++ rest) := by
        rw [← hAfterText, hMore, hInner]
        simp
      exact List.append_eq_nil_iff.1 (eq_nil_of_semicolon hResult hSplit)
    rw [List.append_nil] at hMore
    subst hMore
    obtain rfl : text = "(" ++ String.join ((earlier ++ [last]).map JavaType.descriptor) := by
      rw [← String.toList_inj, hText, hFront, List.append_assoc, ← hLast]
      simp [spelling, String.toList_join, List.flatMap_map]
    have hClear := not_or.1 (List.mem_append.not.1 (hFront ▸ hClear))
    have hName : last.descriptor = String.ofList front ++ ")" ++ result.descriptor := by
      rw [← String.toList_inj, hLast, hAfterText]
      simp
    have hEarlier : ∀ t ∈ earlier, t.isReadable := by
      intro t ht
      exact isReadable_iff.2 ⟨hDelimited t (by simp [ht]), fun hMem => hClear.1 (List.mem_flatMap.2 ⟨t, ht, hMem⟩)⟩
    exact .intro hEarlier (hDelimited last (by simp)) hResult (by simpa using hClear.2) hName

/-- Which texts are read as which signatures. One is the descriptor of the signature, if no class name among the
parameters has a closing parenthesis. The other is no descriptor of a method at all. -/
theorem read_method_descriptor_iff (text : String) (m : MethodType) : (ofDescriptor? text = some m ↔
      (∀ t ∈ m.params, t.isReadable) ∧ m.result.isDelimited ∧ m.descriptor = text ∨ Overruns text m) ∧
    (Overruns text m → m.descriptor = text ++ ")" ++ m.result.descriptor) := by
  refine ⟨⟨fun h => ?_, ?_⟩, Overruns.descriptor_eq⟩
  · simpa only [eq_comm (a := text)] using of_ofDescriptor? h
  · rintro (⟨hParams, hResult, rfl⟩ | hBeyondruns)
    · exact ofDescriptor?_of_isReadable hParams hResult
    · exact hBeyondruns.ofDescriptor?_eq_some

/-- A class name that takes in the parenthesis and the result, which is read twice. -/
theorem read_method_descriptor_overrun : ofDescriptor? "(La)Lb;" = some ⟨[.ofClass "a)Lb"], .ofClass "b"⟩ ∧
    descriptor ⟨[.ofClass "a)Lb"], .ofClass "b"⟩ = "(La)Lb;" ++ ")" ++ "Lb;" := by
  have hBeyondruns : Overruns "(La)Lb;" ⟨[.ofClass "a)Lb"], .ofClass "b"⟩ :=
    @Overruns.intro [] (.ofClass "a)Lb") (.ofClass "b") "La" nofun (by decide +kernel) (by decide +kernel)
      (by decide +kernel) (by decide +kernel)
  exact ⟨(read_method_descriptor_iff _ _).1.2 (.inr hBeyondruns), (read_method_descriptor_iff _ _).2 hBeyondruns⟩

end MethodType

end JavaFragment
