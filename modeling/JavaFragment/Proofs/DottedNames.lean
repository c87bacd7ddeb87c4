import JavaFragment.Proofs.Typing
/-!
Dotted names. Before a member, a chain of names is read from its first name on; as a written type, it is read from its
full path down. The two readings part only where a class of the full path stands beside a nested one.
-/
namespace JavaFragment

namespace Viewpoint

variable {v : Viewpoint} {text n : String}

theorem nameParts_ne_nil (text : String) : nameParts text ≠ [] := by simp [nameParts, List.splitOn_ne_nil]

theorem nameParts_append (h : '.' ∉ n.toList) : nameParts (text ++ "." ++ n) = nameParts text ++ [n] := by
  have hText : (text ++ "." ++ n).toList = text.toList ++ '.' :: n.toList := by simp
  rw [nameParts, hText, List.splitOn_append_cons_self, List.splitOn_eq_singleton h]
  simp [nameParts]

/-- The path of a dotted name has its parts between slashes. -/
theorem intercalate_nameParts (text : String) : "/".intercalate (nameParts text) = internalName text := by
  rw [← String.toList_inj, String.toList_intercalate, internalName, String.toList_map, nameParts, List.map_map]
  simp only [Function.comp_def, String.toList_ofList, List.map_id']
  induction text.toList with
  | nil => rfl
  | cons c cs ih =>
    rw [List.splitOn_cons_eq_if_modifyHead, List.map_cons, ← ih]
    obtain ⟨first, rest, hSplit⟩ := List.exists_cons_of_ne_nil (List.splitOn_ne_nil '.' cs)
    split <;> simp_all

/-- A name with a last part is that of a class of the full path, else that of a class nested in the one before. -/
theorem findClass_append (h : '.' ∉ n.toList) : v.findClass (text ++ "." ++ n) =
      (v.existing (internalName (text ++ "." ++ n)) <|>
        (v.findClass text).bind fun outer => v.existing (outer ++ "$" ++ n)) := by
  have hParts : (nameParts (text ++ "." ++ n)).reverse = n :: (nameParts text).reverse := by
    rw [nameParts_append h, List.reverse_append, List.reverse_singleton, List.singleton_append]
  have hPath : "/".intercalate (n :: (nameParts text).reverse).reverse = internalName (text ++ "." ++ n) := by
    rw [← hParts, List.reverse_reverse, intercalate_nameParts]
  obtain ⟨last, rest, hRest⟩ := List.exists_cons_of_ne_nil (mt List.reverse_eq_nil_iff.1 (nameParts_ne_nil text))
  rw [findClass, hParts, findClass, ← hPath, hRest]
  rfl

theorem existing_eq_some {name c : String} : v.existing name = some c ↔ v.table.contains name = true ∧ name = c := by
  unfold existing
  split <;> simp [*]

/-- A full path is not the name of a nested class. -/
theorem internalName_ne_nested (h : '.' ∉ n.toList) (outer : String) :
    internalName (text ++ "." ++ n) ≠ outer ++ "$" ++ n := by
  have hPlain : n.toList.map (fun c => if c == '.' then '/' else c) = n.toList.map id := by
    refine List.map_congr_left fun c hc => if_neg fun hDot => h ?_
    rwa [← LawfulBEq.eq_of_beq hDot]
  intro hSame
  have hChars := congrArg String.toList hSame
  simp only [internalName, String.toList_map, String.toList_append, List.map_append, hPlain, List.map_id,
    List.append_assoc] at hChars
  have hMarks := List.append_inj_right' hChars (by simp)
  simp at hMarks

/-- The readings of a nested class agree if those of the class around it do and there is none of the full path. -/
theorem findClass_nested {outer : String} (h : '.' ∉ n.toList) (hNested : v.table.contains (outer ++ "$" ++ n) = true) :
    v.findClass (text ++ "." ++ n) = some (outer ++ "$" ++ n) ↔
      v.table.contains (internalName (text ++ "." ++ n)) = false ∧ v.findClass text = some outer := by
  rw [findClass_append h]
  cases hPath : v.table.contains (internalName (text ++ "." ++ n)) with
  | true =>
    have hFound : v.existing (internalName (text ++ "." ++ n)) = some _ := existing_eq_some.2 ⟨hPath, rfl⟩
    simp [hFound, internalName_ne_nested h]
  | false =>
    have hNone : v.existing (internalName (text ++ "." ++ n)) = none := by simp [existing, hPath]
    simp only [hNone, Option.orElse_eq_orElse, Option.orElse_none, Option.bind_eq_some_iff, true_and]
    constructor
    · rintro ⟨found, hFound, hSame⟩
      have hName := (existing_eq_some.1 hSame).2
      rw [String.append_left_inj, String.append_left_inj] at hName
      rw [hFound, hName]
    · intro hOuter
      exact ⟨outer, hOuter, existing_eq_some.2 ⟨hNested, rfl⟩⟩

end Viewpoint

namespace Expr

/-- The names that follow a dot in a chain, each with the chain before it. -/
def links : Expr → List (Expr × String)
  | .field target n => (target, n) :: target.links
  | _ => []

end Expr

namespace TypingContext

variable {ctx : TypingContext} {e target : Expr} {text n c : String}

/-- A name in a chain stands for a nested class while the table has a class of the full path up to it. -/
def Overshadowed (ctx : TypingContext) (e : Expr) : Prop :=
  ∃ target n outer text, (target, n) ∈ e.links ∧ ctx.denote target = .ok (.class outer) ∧
    target.dottedName? = some text ∧ ctx.view.table.contains (internalName (text ++ "." ++ n)) = true

theorem classOrPackage_eq_class : ctx.classOrPackage text = .class c ↔ ctx.view.findClass text = some c := by
  unfold classOrPackage
  split <;> simp [*]

theorem classOrPackage_eq_package {package : String} (h : ctx.classOrPackage text = .package package) :
    package = text := by
  unfold classOrPackage at h
  split at h <;> cases h
  rfl

/-- A bare name that is not that of a value is read as a written type is. -/
theorem denote_name_cases {d : Denotation} (h : ctx.denote (.name n) = .ok d) :
    (∃ t, d = .value t) ∨ d = ctx.classOrPackage n := by
  rw [denote, denoteWith, denoteName] at h
  split at h
  · obtain ⟨t, -, rfl⟩ := except_map_ok.1 h
    exact .inl ⟨t, rfl⟩
  · obtain ⟨found, -, hRest⟩ := except_bind_ok.1 h
    cases found with
    | none =>
      cases hRest
      exact .inr rfl
    | some field =>
      obtain ⟨t, -, hSame⟩ := except_bind_ok.1 hRest
      cases hSame
      exact .inl ⟨t, rfl⟩

/-- After a dot stand the fields of a value or class, the classes nested in a class, and the members of a package. -/
theorem denote_field_cases {d : Denotation} (h : ctx.denote (.field target n) = .ok d) : (∃ t, d = .value t) ∨
      (∃ outer, ctx.denote target = .ok (.class outer) ∧ d = .class (outer ++ "$" ++ n) ∧
        ctx.view.table.contains (outer ++ "$" ++ n) = true) ∨
      ∃ package, ctx.denote target = .ok (.package package) ∧ d = ctx.classOrPackage (package ++ "." ++ n) := by
  obtain ⟨before, hBefore, hRest⟩ := denote_field h
  obtain ⟨found, hFound, hRest⟩ := except_bind_ok.1 hRest
  cases found with
  | some field =>
    obtain ⟨t, -, hSame⟩ := except_bind_ok.1 hRest
    cases hSame
    exact .inl ⟨t, rfl⟩
  | none =>
    cases before with
    | value t => cases hRest
    | package name =>
      cases hRest
      exact .inr (.inr ⟨name, hBefore, rfl⟩)
    | «class» outer =>
      cases hRest
      refine .inr (.inl ⟨outer, hBefore, rfl, ?_⟩)
      dsimp only [memberTarget] at hFound
      split at hFound
      · split at hFound <;> cases hFound
      · split at hFound
        · assumption
        · cases hFound

/-- A package has the name that is written, and nothing before its last dot is a class. -/
theorem denote_package {package : String} (hText : e.dottedName? = some text)
    (h : ctx.denote e = .ok (.package package)) :
    package = text ∧ ∀ link ∈ e.links, ∀ outer, ctx.denote link.1 ≠ .ok (.class outer) := by
  fun_induction Expr.dottedName? e generalizing text package with
  | case1 n =>
    cases hText
    rcases denote_name_cases h with ⟨t, hValue⟩ | hOther
    · cases hValue
    · exact ⟨classOrPackage_eq_package hOther.symm, by rintro _ ⟨⟩⟩
  | case2 target n ih =>
    obtain ⟨before, hBefore, rfl⟩ := Option.map_eq_some_iff.1 hText
    rcases denote_field_cases h with ⟨t, hValue⟩ | ⟨outer, -, hClass, -⟩ | ⟨name, hTarget, hOther⟩
    · cases hValue
    · cases hClass
    · obtain ⟨rfl, hLinks⟩ := ih hBefore hTarget
      refine ⟨classOrPackage_eq_package hOther.symm, ?_⟩
      rintro link (_ | ⟨_, hLink⟩) outer
      · rw [hTarget]
        rintro ⟨⟩
      · exact hLinks link hLink outer
  | case3 => cases hText

theorem overshadowed_field {outer : String} (hText : target.dottedName? = some text)
    (hClass : ctx.denote target = .ok (.class outer)) :
    ctx.Overshadowed (.field target n) ↔
      ctx.view.table.contains (internalName (text ++ "." ++ n)) = true ∨ ctx.Overshadowed target := by
  constructor
  · rintro ⟨first, m, around, before, hLink, hAround, hBefore, hPath⟩
    rcases List.mem_cons.1 hLink with hSame | hLink
    · cases hSame
      obtain rfl : before = text := Option.some.inj (hBefore.symm.trans hText)
      exact .inl hPath
    · exact .inr ⟨first, m, around, before, hLink, hAround, hBefore, hPath⟩
  · rintro (hPath | ⟨first, m, around, before, hLink, hRest⟩)
    · exact ⟨target, n, outer, text, List.mem_cons_self, hClass, hText, hPath⟩
    · exact ⟨first, m, around, before, List.mem_cons_of_mem _ hLink, hRest⟩

/-- A chain of names that denotes a class names this class as a written type just when no class of a full path stands
beside a nested class on the way. -/
theorem findClass_denoted_iff (hText : e.dottedName? = some text) (hPlain : ∀ link ∈ e.links, '.' ∉ link.2.toList)
    (hClass : ctx.denote e = .ok (.class c)) : ctx.view.findClass text = some c ↔ ¬ ctx.Overshadowed e := by
  fun_induction Expr.dottedName? e generalizing text c with
  | case1 n =>
    cases hText
    rcases denote_name_cases hClass with ⟨t, hValue⟩ | hOther
    · cases hValue
    · refine iff_of_true (classOrPackage_eq_class.1 hOther.symm) ?_
      rintro ⟨_, _, _, _, hNone, -⟩
      cases hNone
  | case2 target n ih =>
    obtain ⟨before, hBefore, rfl⟩ := Option.map_eq_some_iff.1 hText
    obtain ⟨hName, hRest⟩ := List.forall_mem_cons.1 hPlain
    rcases denote_field_cases hClass with ⟨t, hValue⟩ | ⟨outer, hTarget, hNested, hThere⟩ | ⟨name, hTarget, hOther⟩
    · cases hValue
    · cases hNested
      rw [Viewpoint.findClass_nested hName hThere, ih hBefore hRest hTarget, overshadowed_field hBefore hTarget,
        not_or, Bool.not_eq_true]
    · obtain ⟨rfl, hLinks⟩ := denote_package hBefore hTarget
      refine iff_of_true (classOrPackage_eq_class.1 hOther.symm) ?_
      rintro ⟨first, m, outer, _, hLink, hOuter, -⟩
      rcases List.mem_cons.1 hLink with hSame | hLink
      · cases hSame
        rw [hTarget] at hOuter
        cases hOuter
      · exact hLinks _ hLink outer hOuter
  | case3 => cases hText

/-- Code in the package of a class `a`, with a class `C` nested in this one and another one in a package `a`. -/
def besidePackage : TypingContext :=
  { (default : TypingContext) with
    view := .ofClass ⟨["demo/X", "demo/a", "demo/a$C", "a/C"].map .ofName⟩ "demo/X" [] }

/-- The members of `a.C` are those of the nested class, and a variable of type `a.C` is of the other one. -/
theorem findClass_besidePackage : besidePackage.denote (.field (.name "a") "C") = .ok (.class "demo/a$C") ∧
      besidePackage.view.findClass "a.C" = some "a/C" ∧ besidePackage.view.findClass "a.C" ≠ some "demo/a$C" := by
  have hClass : besidePackage.denote (.field (.name "a") "C") = .ok (.class "demo/a$C") := by rfl
  refine ⟨hClass, by decide +kernel, fun hFound => ?_⟩
  refine (findClass_denoted_iff rfl (by simp [Expr.links]) hClass).1 hFound ?_
  exact ⟨.name "a", "C", "demo/a", "a", List.mem_cons_self, by rfl, rfl, by decide +kernel⟩

end TypingContext

end JavaFragment
