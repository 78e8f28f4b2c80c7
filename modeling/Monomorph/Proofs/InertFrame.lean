import Monomorph.Proofs.Lexemes
import Monomorph.Proofs.ReplacementLaws
import Monomorph.Proofs.UsageLaws
import Mathlib.Data.List.Forall2

/-!
# Comments and strings under replacement

Putting names in place of usages leaves the comments and string literals of a text as they are,
and makes no new ones: read again, the result has the same inert parts in the same places. A usage
holds no character that opens an inert stretch and neither does a name, so what is put in is code,
and it stands before the same character as before or before the head of another name.
-/

namespace Monomorph

namespace Text

/-- The same kind of part, and the same text unless it is code. -/
def Segment.SameInert (x y : Segment) : Prop :=
  x.isCode = y.isCode ∧ (x.isCode = false → x.text = y.text)

theorem Segment.SameInert.refl (x : Segment) : x.SameInert x :=
  ⟨rfl, fun _ => rfl⟩

theorem segments_append_of_plain {n : Text} (hn : ∀ c ∈ n, opensInert c = false) (s : Text) :
    segments (n ++ s) = n.foldr pushCode (segments s) := by
  induction n with
  | nil => rfl
  | cons c n ih =>
    obtain ⟨hc, hn⟩ := List.forall_mem_cons.mp hn
    have hnone : afterInert? (c :: (n ++ s)) = none := afterInert?_eq_none (by simpa using hc)
    simp only [List.cons_append, List.foldr_cons, segments_cons hnone, ih hn]

theorem foldr_pushCode (c : Char) (n : Text) (l : List Segment) :
    (c :: n).foldr pushCode l =
      match l with
      | ⟨t, true⟩ :: r => ⟨c :: (n ++ t), true⟩ :: r
      | r => ⟨c :: n, true⟩ :: r := by
  induction n generalizing c with
  | nil => rcases l with _ | ⟨⟨t, _ | _⟩, r⟩ <;> rfl
  | cons d n ih =>
    rw [List.foldr_cons, ih d]
    rcases l with _ | ⟨⟨t, _ | _⟩, r⟩ <;> rfl

theorem sameInert_foldr_pushCode {m n : Text} {l l' : List Segment} (hm : m ≠ []) (hn : n ≠ [])
    (h : List.Forall₂ Segment.SameInert l l') :
    List.Forall₂ Segment.SameInert (m.foldr pushCode l) (n.foldr pushCode l') := by
  obtain ⟨c, m, rfl⟩ := List.exists_cons_of_ne_nil hm
  obtain ⟨d, n, rfl⟩ := List.exists_cons_of_ne_nil hn
  rw [foldr_pushCode, foldr_pushCode]
  have hcode (t u : Text) : Segment.SameInert ⟨t, true⟩ ⟨u, true⟩ := ⟨rfl, nofun⟩
  cases h with
  | nil => exact .cons (hcode ..) .nil
  | @cons x y r r' hxy hr =>
    obtain ⟨t, k⟩ := x
    obtain ⟨u, k'⟩ := y
    obtain rfl : k = k' := hxy.1
    cases k with
    | true => exact .cons (hcode ..) hr
    | false => exact .cons (hcode ..) (.cons hxy hr)

end Text

namespace Usage

open Text

/-- A rule that puts a name in place of a usage. -/
structure Renaming (rule : Text × Text) : Prop where
  isUsage : ∃ e, IsUsage rule.1 e
  isName : rule.2.isName = true

theorem Renaming.plain_literal {rule : Text × Text} (h : Renaming rule) :
    ∀ c ∈ rule.1, opensInert c = false := by
  obtain ⟨e, he⟩ := h.isUsage
  exact he.spells.not_opensInert

theorem Renaming.plain_name {rule : Text × Text} (h : Renaming rule) :
    ∀ c ∈ rule.2, opensInert c = false := by
  intro c hc
  exact not_opensInert_of_isNameChar
    (List.all_eq_true.mp (all_isNameChar_of_isName h.isName) c hc)

variable {rules : List (Text × Text)} {joined : Bool} {s r : Text} {c : Char}

theorem head_replaceFrom (hrules : ∀ rule ∈ rules, Renaming rule) (joined : Bool) (s : Text) :
    (replaceFrom rules joined s).head? = s.head? ∨
      (replaceFrom rules joined s).head?.any isNameChar = true := by
  fun_induction replaceFrom rules joined s with
  | case1 joined s r hi ih =>
    obtain ⟨t, rfl⟩ := suffix_of_afterInert? hi
    have hlt := length_lt_of_afterInert? hi
    cases t with
    | nil => simp at hlt
    | cons d t => exact .inl (by rw [upTo_append]; rfl)
  | case2 => exact .inl rfl
  | case3 joined c r hi rule hm ih =>
    obtain ⟨-, -, hrule⟩ := rule_of_found hm
    obtain ⟨d, n, hn, hd, -⟩ := isName_iff.mp (hrules rule (mem_of_match? hrule).1).isName
    simp [hn, isNameChar_of_isNameStart hd]
  | case4 => exact .inl rfl

theorem afterInert?_replaceFrom (hrules : ∀ rule ∈ rules, Renaming rule) (joined : Bool)
    (h : afterInert? (c :: s) = none) : afterInert? (c :: replaceFrom rules joined s) = none := by
  rw [afterInert?_eq_none_iff, afterStretch?_cons_eq_none_iff] at h ⊢
  refine ⟨h.1, fun hc => ?_⟩
  rcases head_replaceFrom hrules joined s with hhead | hname
  · rw [hhead]
    exact h.2 hc
  · constructor <;> intro heq <;> rw [heq] at hname <;> exact absurd hname (by decide)

theorem afterComment?_replaceFrom (hrules : ∀ rule ∈ rules, Renaming rule)
    (h : afterComment? s = none) : afterComment? (replaceFrom rules joined s) = none := by
  have hcode {t : Text} (ht : afterInert? t = none) : afterComment? t = none := by
    cases hc : afterComment? t with
    | none => rfl
    | some u => simp [afterInert?, hc] at ht
  fun_cases replaceFrom rules joined s with
  | case1 _ r hi =>
    obtain ⟨t, rfl⟩ := suffix_of_afterInert? hi
    have hlt := length_lt_of_afterInert? hi
    simp only [afterInert?, h] at hi
    rw [upTo_append]
    cases t with
    | nil => simp at hlt
    | cons d t =>
      unfold afterString? at hi
      split at hi
      · rename_i heq
        cases heq
        rfl
      · cases hi
  | case2 => exact h
  | case3 c r hi rule hm =>
    obtain ⟨-, -, hrule⟩ := rule_of_found hm
    obtain ⟨d, n, hn, hd, -⟩ := isName_iff.mp (hrules rule (mem_of_match? hrule).1).isName
    rw [hn]
    exact hcode (afterInert?_eq_none (not_opensInert_of_isNameChar (isNameChar_of_isNameStart hd)))
  | case4 c r hi hm => exact hcode (afterInert?_replaceFrom hrules _ hi)

theorem sameInert_replaceFrom (hrules : ∀ rule ∈ rules, Renaming rule) (joined : Bool) (s : Text) :
    List.Forall₂ Segment.SameInert s.segments (replaceFrom rules joined s).segments := by
  fun_induction replaceFrom rules joined s with
  | case1 joined s r hi ih =>
    obtain ⟨t, rfl⟩ := suffix_of_afterInert? hi
    have hkept :
        afterInert? (t ++ replaceFrom rules false r) = some (replaceFrom rules false r) := by
      by_cases hr : r = []
      · subst hr
        rwa [replaceFrom_empty]
      · exact afterInert?_swap hr (afterComment?_replaceFrom hrules) hi
    rw [upTo_append, segments_inert hi, segments_inert hkept, upTo_append, upTo_append]
    exact .cons (.refl _) ih
  | case2 => simp [segments_nil]
  | case3 joined c r hi rule hm ih =>
    obtain ⟨-, -, hrule⟩ := rule_of_found hm
    obtain ⟨hmem, hne, t, ht⟩ := mem_of_match? hrule
    have hname := hrules rule hmem
    rw [ht, List.drop_left] at ih ⊢
    rw [segments_append_of_plain hname.plain_literal, segments_append_of_plain hname.plain_name]
    exact sameInert_foldr_pushCode hne (isName_ne_nil hname.isName) ih
  | case4 joined c r hi hm ih =>
    rw [segments_cons hi, segments_cons (afterInert?_replaceFrom hrules _ hi)]
    exact sameInert_foldr_pushCode (m := [c]) (n := [c]) (by simp) (by simp) ih

/-- Comments and string literals stay as they are, one by one, when names are put in place of
usages. -/
theorem sameInert_replace (source : Text) (rules : Table Text Text)
    (hkeys : ∀ k ∈ rules.keys, ∃ text, k ∈ (find text).keys)
    (hvalues : ∀ v ∈ rules.values, v.isName = true) :
    List.Forall₂ Segment.SameInert source.segments (replace source rules).segments := by
  rw [replace_eq]
  apply sameInert_replaceFrom
  rintro ⟨k, v⟩ hrule
  have hmem := mem_longestFirst.mp hrule
  obtain ⟨text, htext⟩ := hkeys k (Table.mem_keys.mpr ⟨v, hmem⟩)
  obtain ⟨l, hl⟩ := Table.mem_keys.mp htext
  exact ⟨⟨_, isUsage_of_find hl⟩, hvalues v (Table.mem_values.mpr ⟨k, hmem⟩)⟩

/-- A usage behind a slash, before a comment, in a literal with an escaped quote, and in a comment
that is never closed. -/
theorem sameInert_replace_mixed :
    let source : Text := "n/Box<X>//Box<X>\n'Box<X>\\'/*'Box<X>/*'Box<X>"
    let rules : Table Text Text := ⟨[("Box<X>", "BoxX")]⟩
    (∀ k ∈ rules.keys, ∃ text, k ∈ (find text).keys) ∧ (∀ v ∈ rules.values, v.isName = true) ∧
      source.segments.length = 5 ∧
      List.Forall₂ Segment.SameInert source.segments (replace source rules).segments := by
  intro source rules
  have hkeys : ∀ k ∈ rules.keys, ∃ text, k ∈ (find text).keys := by
    intro k hk
    obtain rfl := List.mem_singleton.mp hk
    exact ⟨"Box<X>", by decide +kernel⟩
  have hvalues : ∀ v ∈ rules.values, v.isName = true := by decide
  exact ⟨hkeys, hvalues, by decide +kernel, sameInert_replace source rules hkeys hvalues⟩

end Usage

end Monomorph
