import Monomorph.Instance
import Monomorph.Proofs.ReplacementLaws
import Monomorph.Proofs.SubstitutionLaws
import Monomorph.Proofs.TemplateSearch
import Monomorph.Proofs.TokenInduction
import Monomorph.Proofs.TypeExprLaws

/-!
# Names of instances

The first class that is declared in an instance is the instance itself
(`firstClassName?_ofTemplate`). The declaration is followed token by token through the renaming
and the search for the name.
-/

namespace Monomorph

open Text

-- ---------------------------------------------------------------------------
-- Renaming in code
-- ---------------------------------------------------------------------------

namespace Substitution

variable {name value t s n r : Text} {c : Char} {k : Bool}

theorem replaceNameInCode_nil : replaceNameInCode [] name value = [] := by
  rw [replaceNameInCode, segments_nil, List.flatMap_nil]

theorem replaceNameInCode_inert (h : afterInert? (t ++ s) = some s) :
    replaceNameInCode (t ++ s) name value = t ++ replaceNameInCode s name value := by
  rw [replaceNameInCode, segments_inert h, List.flatMap_cons, upTo_append]
  rfl

theorem replaceNameInCode_stretch (h : afterStretch? (t ++ s) = some (k, s)) :
    replaceNameInCode (t ++ s) name value = t ++ replaceNameInCode s name value := by
  obtain hi | ⟨-, x, -, hx, hs⟩ := afterInert?_of_afterStretch? h
  · exact replaceNameInCode_inert hi
  · -- the stretch is one of several comments
    obtain ⟨u, rfl⟩ := suffix_of_afterInert? hx
    rw [← List.append_assoc] at hs ⊢
    rw [replaceNameInCode_inert hs, replaceNameInCode_inert hx, List.append_assoc]

theorem replaceNameInCode_other (hname : name.isName = true) (hi : afterInert? (c :: s) = none)
    (hc : isNameChar c = false) :
    replaceNameInCode (c :: s) name value = c :: replaceNameInCode s name value := by
  have hrules := forRuns_singleton hname value
  have halone : replaceName [c] name value = [c] := by
    rw [replaceName, hrules.replaceFrom_other hc, hrules.replaceFrom_empty]
  rw [replaceNameInCode, replaceNameInCode, segments_cons hi]
  rcases s.segments with _ | ⟨⟨t, _ | _⟩, l⟩
  · simp [pushCode, halone]
  · simp [pushCode, halone]
  · simp [pushCode, replaceName, hrules.replaceFrom_other hc]

theorem replaceNameInCode_run (hname : name.isName = true) (hne : n ≠ [])
    (hn : n.all isNameChar = true) (hs : s.head?.any isNameChar = false) :
    replaceNameInCode (n ++ s) name value =
      (if n = name then value else n) ++ replaceNameInCode s name value := by
  have hrules := forRuns_singleton hname value
  have hlookup : (List.lookup n [(name, value)]).getD n = if n = name then value else n := by
    rw [List.lookup_singleton]
    split <;> simp_all
  have hrun {t : Text} (ht : t.head?.any isNameChar = false) : replaceName (n ++ t) name value =
      (if n = name then value else n) ++ replaceName t name value := by
    rw [replaceName, hrules.replaceFrom_run hne hn ht, hlookup, replaceName]
  have halone : replaceName n name value = if n = name then value else n := by
    have hempty : replaceName [] name value = [] := hrules.replaceFrom_empty
    have hnil := hrun (t := []) rfl
    rwa [List.append_nil, hempty, List.append_nil] at hnil
  have hplain (d : Char) (hd : d ∈ n) : opensInert d = false :=
    not_opensInert_of_isNameChar (List.all_eq_true.mp hn d hd)
  obtain ⟨c, m, rfl⟩ := List.exists_cons_of_ne_nil hne
  rw [replaceNameInCode, replaceNameInCode, segments_append_of_plain hplain, foldr_pushCode]
  obtain ⟨rfl, hseg⟩ | ⟨t, l, hseg, ht⟩ | ⟨t, l, hseg⟩ := segments_head s
  · simp [hseg, halone]
  · simp only [hseg, List.flatMap_cons, if_true]
    rw [← List.cons_append, hrun (by rwa [ht]), List.append_assoc]
  · simp [hseg, halone]

theorem head_replaceNameInCode (hname : name.isName = true) (hvalue : value.isName = true)
    (s : Text) : (replaceNameInCode s name value).head? = s.head? ∨
      s.head?.any isNameChar = true ∧
        (replaceNameInCode s name value).head?.any isNameChar = true := by
  cases hi : afterInert? s with
  | some r =>
    obtain ⟨t, rfl⟩ := suffix_of_afterInert? hi
    rw [replaceNameInCode_inert hi]
    obtain ⟨d, t, rfl⟩ := List.exists_cons_of_ne_nil (ne_nil_of_afterInert? hi)
    exact .inl rfl
  | none =>
    cases s with
    | nil => exact .inl (by rw [replaceNameInCode_nil])
    | cons c r =>
      cases hc : isNameChar c with
      | false => exact .inl (by rw [replaceNameInCode_other hname hi hc]; rfl)
      | true =>
        have hne := nameRun_ne_nil (r := r) hc
        rw [← nameRun_append_afterNameRun (c :: r), replaceNameInCode_run hname hne
          List.all_takeWhile (head_afterNameRun _)]
        split
        · obtain ⟨d, m, rfl, hd, -⟩ := isName_iff.mp hvalue
          refine .inr ⟨?_, isNameChar_of_isNameStart hd⟩
          rw [nameRun_append_afterNameRun]
          exact hc
        · obtain ⟨d, m, hm⟩ := List.exists_cons_of_ne_nil hne
          rw [hm]
          exact .inl rfl

theorem afterInert?_replaceNameInCode (hname : name.isName = true) (hvalue : value.isName = true)
    (h : afterInert? (c :: s) = none) :
    afterInert? (c :: replaceNameInCode s name value) = none := by
  rw [afterInert?_eq_none_iff, afterStretch?_cons_eq_none_iff] at h ⊢
  refine ⟨h.1, fun hc => ?_⟩
  rcases head_replaceNameInCode hname hvalue s with hhead | ⟨-, hhead⟩
  · rw [hhead]
    exact h.2 hc
  · constructor <;> intro heq <;> rw [heq] at hhead <;> exact absurd hhead (by decide)

end Substitution

-- ---------------------------------------------------------------------------
-- Gaps
-- ---------------------------------------------------------------------------

namespace Text

variable {g : Text}

theorem IsGap.afterGap_append (h : IsGap g) (s : Text) : afterGap (g ++ s) = afterGap s := by
  induction h with
  | nil => rfl
  | @blank c g hc _ ih =>
    rw [← ih, List.cons_append, afterGap]
    conv_rhs => rw [afterGap]
    rw [dropBlank, List.dropWhile_cons_of_pos hc, ← dropBlank]
  | @comment t g ht _ ih =>
    have hhead : (t ++ (g ++ s)).head?.any isBlank = false := by
      have h := ht (g ++ s)
      unfold afterComment? at h
      split at h
      · rename_i heq
        rw [heq]
        rfl
      · rename_i heq
        rw [heq]
        rfl
      · cases h
    rw [List.append_assoc, afterGap]
    split
    · rename_i x heq
      rw [dropBlank_of_head hhead, ht] at heq
      cases heq
      exact ih
    · rename_i heq
      rw [dropBlank_of_head hhead, ht] at heq
      cases heq

theorem afterGap_name {n : Text} (hn : n.isName = true) (s : Text) :
    afterGap (n ++ s) = n ++ s := by
  obtain ⟨c, m, rfl, hc, -⟩ := isName_iff.mp hn
  have hc := isNameChar_of_isNameStart hc
  have hdrop : dropBlank (c :: m ++ s) = c :: m ++ s :=
    dropBlank_of_head (not_isBlank_of_isNameChar hc)
  rw [afterGap_of_head (by rw [hdrop]; exact hc), hdrop]

theorem IsGap.words_append (h : IsGap g) (s : Text) : words (g ++ s) = words s := by
  induction h with
  | nil => rfl
  | blank hc _ ih =>
    rw [List.cons_append, words_other (afterInert?_eq_none (not_opensInert_of_isBlank hc))
      (not_isNameChar_of_isBlank hc), ih]
  | comment ht _ ih =>
    rw [List.append_assoc, words_stretch (afterStretch?_eq_comment_iff.mpr (ht _)), ih]

theorem IsGap.replaceNameInCode_append {name value : Text} (hname : name.isName = true)
    (h : IsGap g) (s : Text) : Substitution.replaceNameInCode (g ++ s) name value =
      g ++ Substitution.replaceNameInCode s name value := by
  induction h with
  | nil => rfl
  | blank hc _ ih =>
    rw [List.cons_append, Substitution.replaceNameInCode_other hname
      (afterInert?_eq_none (not_opensInert_of_isBlank hc)) (not_isNameChar_of_isBlank hc), ih]
    rfl
  | comment ht _ ih =>
    rw [List.append_assoc, Substitution.replaceNameInCode_stretch
      (afterStretch?_eq_comment_iff.mpr (ht _)), ih, List.append_assoc]

end Text

-- ---------------------------------------------------------------------------
-- The name of the first class
-- ---------------------------------------------------------------------------

namespace Template

variable {a b n r s t : Text} {c : Char} {k : Bool}

theorem firstClassName?_inert (h : afterInert? s = some r) :
    firstClassName? s = firstClassName? r := by
  rw [firstClassName?]
  split
  · rename_i heq
    rw [h] at heq
    cases heq
    rfl
  · rename_i heq
    rw [h] at heq
    cases heq

theorem firstClassName?_stretch (h : afterStretch? s = some (k, r)) :
    firstClassName? s = firstClassName? r :=
  eq_of_afterStretch? firstClassName?_inert h

theorem firstClassName?_code (h : afterInert? (c :: r) = none) : firstClassName? (c :: r) =
    if isNameChar c then
      if nameRun (c :: r) = "class" then
        if (afterNameRun (c :: r)).afterGap.nameRun.isName then
          some (afterNameRun (c :: r)).afterGap.nameRun
        else firstClassName? (afterNameRun (c :: r)).afterGap.afterNameRun
      else firstClassName? (afterNameRun (c :: r))
    else firstClassName? r := by
  rw [firstClassName?]
  split
  · rename_i heq
    rw [h] at heq
    cases heq
  · simp only [dite_eq_ite]

theorem firstClassName?_other (hi : afterInert? (c :: r) = none) (hc : isNameChar c = false) :
    firstClassName? (c :: r) = firstClassName? r := by
  rw [firstClassName?_code hi, hc, if_neg Bool.false_ne_true]

theorem firstClassName?_run (hne : n ≠ []) (hn : n.all isNameChar = true)
    (hs : s.head?.any isNameChar = false) : firstClassName? (n ++ s) =
      if n = "class" then
        if s.afterGap.nameRun.isName then some s.afterGap.nameRun
        else firstClassName? s.afterGap.afterNameRun
      else firstClassName? s := by
  obtain ⟨c, m, rfl⟩ := List.exists_cons_of_ne_nil hne
  have hc : isNameChar c = true := (Bool.and_eq_true_iff.mp hn).1
  have hi : afterInert? (c :: (m ++ s)) = none :=
    afterInert?_eq_none (not_opensInert_of_isNameChar hc)
  rw [List.cons_append, firstClassName?_code hi, if_pos hc, ← List.cons_append,
    nameRun_append hn hs, afterNameRun_append hn hs]

end Template

open Substitution Template

variable {name value a b s : Text} {t : Template} {args : List TypeExpr}

/-- Where no word `class` stands, the search goes on behind the text whatever is renamed in it. -/
theorem firstClassName?_replaceNameInCode (hname : name.isName = true)
    (hvalue : value.isName = true) (hne : value ≠ "class") (h : Splits a b)
    (hclass : "class".toList ∉ a.words) :
    firstClassName? (replaceNameInCode (a ++ b) name value) =
      firstClassName? (replaceNameInCode b name value) := by
  induction h using Splits.induct with
  | nil => rfl
  | stretch k t r ht _ _ ih =>
    rw [words_stretch (ht r)] at hclass
    rw [List.append_assoc, replaceNameInCode_stretch (ht _), firstClassName?_stretch (ht _),
      ih hclass]
  | run n r hn hall hhead _ _ ih =>
    have hr : r.head?.any isNameChar = false := by
      cases r with
      | nil => rfl
      | cons c r => exact hhead
    rw [words_run hn hall hr, List.mem_cons, not_or] at hclass
    have hrest : (replaceNameInCode (r ++ b) name value).head?.any isNameChar = false := by
      rcases head_replaceNameInCode hname hvalue (r ++ b) with h | ⟨h, -⟩
      · rwa [h]
      · rw [hhead] at h
        cases h
    rw [List.append_assoc, replaceNameInCode_run hname hn hall hhead, ← ih hclass.2]
    split
    · rw [firstClassName?_run (isName_ne_nil hvalue) (all_isNameChar_of_isName hvalue) hrest,
        if_neg hne]
    · rw [firstClassName?_run hn hall hrest, if_neg (Ne.symm hclass.1)]
  | other c r hi hc _ _ ih =>
    rw [words_other (afterInert?_of_isPrefix hi (List.prefix_append r b)) hc] at hclass
    rw [List.cons_append, replaceNameInCode_other hname hi hc,
      firstClassName?_other (afterInert?_replaceNameInCode hname hvalue hi) hc, ih hclass]

namespace Template.Layout

variable {text before run gap space after : Text}

theorem space_isGap (h : Layout text t before run gap space after) : IsGap space := by
  simpa using IsGap.blanks h.space_blank .nil

theorem head_gap_append (h : Layout text t before run gap space after) (s : Text) :
    (gap ++ s).head?.any isNameChar = false := by
  have hhead := h.gap_head
  obtain ⟨c, gap, rfl⟩ := List.exists_cons_of_ne_nil h.gap_ne_nil
  exact hhead

theorem words_declaration (h : Layout text t before run gap space after) :
    t.declaration.words = run.words ++ "class".toList :: t.className :: t.parameters := by
  obtain ⟨inner, hinner, -⟩ := h.isList.bracket_eq
  have hspace : (space ++ t.bracket).head?.any isNameChar = false :=
    head_append_of_allBlank h.space_blank (by rw [hinner]; rfl)
  have hrun : Splits run ("class".toList ++ (gap ++ (t.className ++ (space ++ t.bracket)))) :=
    h.run_splits.congr rfl
  rw [h.declaration_eq, hrun.words_append,
    words_run (by decide) rfl (h.head_gap_append _), h.isGap.words_append,
    words_run (isName_ne_nil h.isName) (all_isNameChar_of_isName h.isName) hspace,
    h.space_isGap.words_append, h.isList.words_eq]

theorem plainDeclaration_eq (h : Layout text t before run gap space after) :
    Instance.plainDeclaration t =
      run ++ ("class".toList ++ (gap ++ (t.className ++ space))) := by
  obtain ⟨inner, hinner, -⟩ := h.isList.bracket_eq
  have hdecl : t.declaration =
      (run ++ ("class".toList ++ (gap ++ (t.className ++ space)))) ++ t.bracket := by
    rw [h.declaration_eq]
    simp only [List.append_assoc]
  have hsuffix : (!t.bracket.isEmpty && t.bracket.isSuffixOf t.declaration) = true := by
    rw [hdecl, Bool.and_eq_true, List.isSuffixOf_iff_suffix, hinner]
    exact ⟨rfl, List.suffix_append ..⟩
  unfold Instance.plainDeclaration
  simp only [hsuffix, if_true]
  rw [hdecl, List.length_append, Nat.add_sub_cancel, List.take_left, if_neg]
  simp

/-- The name of a declaration without its parameter list, with anything behind it that does not
go on with the name. -/
theorem firstClassName?_eq (h : Layout text t before run gap space after)
    (hcount : t.declaration.identifiers.count "class".toList = 1) (hvalue : value.isName = true)
    (hne : value ≠ "class") (hs : s.head?.any isNameChar = false) :
    firstClassName? (replaceNameInCode (Instance.plainDeclaration t ++ s) t.className value) =
      some value := by
  have hcount' : t.declaration.words.count "class".toList = 1 := by
    rwa [identifiers, List.count_filter (by decide)] at hcount
  rw [h.words_declaration, List.count_append, List.count_cons_self] at hcount'
  have hrun : "class".toList ∉ run.words := by
    rw [← List.count_eq_zero]
    omega
  have hname : "class".toList ≠ t.className := by
    intro heq
    rw [← heq, List.count_cons_self] at hcount'
    omega
  have hspace : (space ++ s).head?.any isNameChar = false :=
    head_append_of_allBlank h.space_blank hs
  have hall := all_isNameChar_of_isName hvalue
  have hrest : (space ++ replaceNameInCode s t.className value).head?.any isNameChar = false := by
    refine head_append_of_allBlank h.space_blank ?_
    rcases head_replaceNameInCode h.isName hvalue s with hhead | ⟨hhead, -⟩
    · rwa [hhead]
    · rw [hs] at hhead
      cases hhead
  have hrenamed : replaceNameInCode ("class".toList ++ (gap ++ (t.className ++ (space ++ s))))
      t.className value = "class".toList ++
        (gap ++ (value ++ (space ++ replaceNameInCode s t.className value))) := by
    rw [replaceNameInCode_run h.isName (by decide) rfl (h.head_gap_append _), if_neg hname,
      h.isGap.replaceNameInCode_append h.isName, replaceNameInCode_run h.isName
        (isName_ne_nil h.isName) (all_isNameChar_of_isName h.isName) hspace, if_pos rfl,
      h.space_isGap.replaceNameInCode_append h.isName]
  have hsplits : Splits run ("class".toList ++ (gap ++ (t.className ++ (space ++ s)))) :=
    h.run_splits.congr rfl
  rw [h.plainDeclaration_eq]
  simp only [List.append_assoc]
  rw [firstClassName?_replaceNameInCode h.isName hvalue hne hsplits hrun, hrenamed,
    firstClassName?_run (by decide) rfl (h.head_gap_append _), if_pos rfl,
    h.isGap.afterGap_append, afterGap_name hvalue, nameRun_append hall hrest, if_pos hvalue]

end Template.Layout

namespace Instance

theorem head_flatten {known : Text → Bool} (hs : s.head?.any isNameChar = false) :
    (flatten known s).text.head?.any isNameChar = false := by
  unfold flatten Usage.replace
  simp only
  split
  · exact hs
  · fun_cases Usage.replaceFrom (longestFirst _) false s with
    | case1 _ r hi =>
      obtain ⟨u, rfl⟩ := suffix_of_afterInert? hi
      rw [upTo_append]
      obtain ⟨c, u, rfl⟩ := List.exists_cons_of_ne_nil (ne_nil_of_afterInert? hi)
      exact hs
    | case2 => rfl
    | case3 =>
      rename_i hm
      obtain ⟨hc, -, -⟩ := Usage.rule_of_found hm
      exact absurd (isNameChar_of_isNameStart hc) (Bool.eq_false_iff.mp hs)
    | case4 => exact hs

theorem head_substitute {rules : Table Text Text} (hrules : ForRuns (longestFirst rules.entries))
    (hs : s.head?.any isNameChar = false) :
    (substitute s rules).head?.any isNameChar = false := by
  rw [substitute_eq]
  cases s with
  | nil => rw [hrules.replaceFrom_empty]; rfl
  | cons c r => rw [hrules.replaceFrom_other hs]; exact hs

theorem head_specialized {text before run gap space after : Text}
    (h : Layout text t before run gap space after) (hlength : args.length = t.parameters.length)
    (hheader : t.header.head?.any isNameChar = false) :
    (specialized t args t.body).head?.any isNameChar = false := by
  refine head_substitute (renders_bindings h.isList.isName h.isList.nodup hlength).forRuns ?_
  cases hnil : t.header with
  | nil =>
    rw [List.nil_append]
    rcases h.body with hbody | hbody <;> rw [hbody] <;> rfl
  | cons c r =>
    rw [hnil] at hheader
    exact hheader

/-- The first class that an instance declares is the one that it is an instance of, under its
concrete name. -/
theorem firstClassName?_ofTemplate {text : Text} {ts : Table Text Template}
    (hfind : Template.find text = .ok ts) (ht : t ∈ ts.values)
    (hcount : t.declaration.identifiers.count "class".toList = 1)
    (hheader : t.header.head?.any isNameChar = false) (known : Text → Bool)
    (hlength : args.length = t.parameters.length) (hargs : ∀ a ∈ args, a.WellFormed)
    (hne : TypeExpr.mangle ⟨t.className, args⟩ ≠ "class") :
    firstClassName? (ofTemplate known t args none).text =
      some (TypeExpr.mangle ⟨t.className, args⟩) := by
  obtain ⟨before, run, gap, space, after, hlayout⟩ := layout_of_find hfind ht
  have hvalue : (TypeExpr.mangle ⟨t.className, args⟩).isName = true :=
    (TypeExpr.wellFormed_mk.mpr ⟨hlayout.isName, hargs⟩).isName_mangle
  unfold ofTemplate
  rw [if_neg (not_not_intro hlength)]
  exact hlayout.firstClassName?_eq hcount hvalue hne
    (head_flatten (head_specialized hlayout hlength hheader))

/-- A class name that is a modifier as well and stands in comments, and a body that declares
another class. -/
theorem firstClassName?_ofTemplate_modifier :
    let text : Text := "@A('class') Box /* class */ class // Box\n Box <T> " ++
      "\x7b class B \x7b Box<T> b; \x7d \x7d"
    let args : List TypeExpr := [⟨"Map", [⟨"K", []⟩, ⟨"V", []⟩]⟩]
    ∃ ts, Template.find text = .ok ts ∧ ∃ t ∈ ts.values,
      firstClassName? (ofTemplate (· == "Box") t args none).text =
        some (TypeExpr.mangle ⟨"Box", args⟩) := by
  intro text args
  have hfacts : (Template.find text).toOption.map (fun ts => ts.values.map fun t => (t.className,
      t.declaration.identifiers.count "class".toList, t.header.head?, t.parameters.length)) =
        some [("Box".toList, 1, some ' ', 1)] := by decide +kernel
  obtain ⟨ts, hts, hvalues⟩ := Table.exists_ok_of_values hfacts
  obtain ⟨t, ht, hfields⟩ := List.mem_map.mp (hvalues ▸ List.mem_singleton_self _)
  simp only [Prod.mk.injEq] at hfields
  obtain ⟨hname, hcount, hheader, hlength⟩ := hfields
  have hargs : ∀ a ∈ args, a.WellFormed := by decide
  refine ⟨ts, hts, t, ht, ?_⟩
  rw [← hname]
  exact firstClassName?_ofTemplate hts ht hcount (by rw [hheader]; rfl) _ hlength.symm hargs
    (by rw [hname]; decide)

end Instance

end Monomorph
