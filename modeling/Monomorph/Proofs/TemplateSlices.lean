import Mathlib.Data.List.Nodup
import Mathlib.Data.List.Pairwise
import Monomorph.Proofs.CutLaws
import Monomorph.Proofs.TemplateSearch

/-!
# Templates as slices

The templates found in a text are slices of it that do not overlap (`slices_of_find`), and the
sharing modes among their modifiers are in order (`sharingModes_of_find`).
-/

namespace Monomorph.Template

open Text

variable {text before run gap space after : Text} {t u : Template} {ts : Table Text Template}

theorem Layout.span (h : Layout text t before run gap space after) :
    t.span.start = before.length ∧
      t.span.stop = (before ++ (t.declaration ++ (t.header ++ t.body))).length := by
  have hlength := congrArg List.length h.text_eq
  simp only [List.length_append] at hlength
  rw [h.span_eq]
  refine ⟨rfl, ?_⟩
  simp only [List.length_append]
  omega

theorem Layout.slice_eq (h : Layout text t before run gap space after) :
    text.slice t.span.start t.span.stop = t.declaration ++ (t.header ++ t.body) := by
  obtain ⟨hstart, hstop⟩ := h.span
  rw [hstart, hstop, h.text_eq]
  have hassoc : t.declaration ++ (t.header ++ (t.body ++ after)) =
      t.declaration ++ (t.header ++ t.body) ++ after := by
    simp only [List.append_assoc]
  rw [hassoc]
  exact slice_append ..

theorem Layout.span_bounds (h : Layout text t before run gap space after) :
    t.span.start < t.span.stop ∧ t.span.stop ≤ text.length := by
  obtain ⟨hstart, hstop⟩ := h.span
  have hlength := congrArg List.length h.text_eq
  have hdecl := congrArg List.length h.declaration_eq
  rw [hstart, hstop]
  simp at hlength hdecl
  simp
  omega

/-- One of the two ends before the other begins. -/
def Apart (t u : Template) : Prop :=
  t.span.stop ≤ u.span.start ∨ u.span.stop ≤ t.span.start

instance : Std.Symm Apart :=
  ⟨fun _ _ => Or.symm⟩

theorem Laid.apart_of_ne {n : Nat} {found : List Template} (h : Laid text n found)
    (ht : t ∈ found) (hu : u ∈ found) (hne : t ≠ u) : Apart t u :=
  (h.apart.imp (S := Apart) .inl).forall ht hu hne

/-- The templates are slices of the text that do not overlap: the declaration, which ends with the
parameter list, the header without a brace of code, and the body, a group in braces unless the
text ends with it. The parameters are distinct letters. -/
theorem slices_of_find (h : find text = .ok ts) :
    (∀ t ∈ ts.values,
      t.span.start < t.span.stop ∧ t.span.stop ≤ text.length ∧
      text.slice t.span.start t.span.stop = t.declaration ++ (t.header ++ t.body) ∧
      t.bracket <:+ t.declaration ∧
      t.parameters ≠ [] ∧ t.parameters.Nodup ∧ (∀ p ∈ t.parameters, ∃ c, p = [c] ∧ c.isAlpha) ∧
      '{' ∉ t.header.brackets ∧
      (IsGroup '{' '}' t.body ∨ t.span.stop = text.length)) ∧
    ts.values.Pairwise Apart := by
  refine ⟨fun t ht => ?_, ?_⟩
  · obtain ⟨before, run, gap, space, after, hlayout⟩ := layout_of_find h ht
    obtain ⟨hlt, hle⟩ := hlayout.span_bounds
    have hisList := hlayout.isList
    refine ⟨hlt, hle, hlayout.slice_eq, ?_, hisList.ne_nil, hisList.nodup, hisList.letter,
      hlayout.header, ?_⟩
    · rw [hlayout.declaration_eq]
      simp only [← List.append_assoc]
      exact List.suffix_append ..
    · rcases hlayout.closed with rfl | hgroup
      · exact .inr (by rw [hlayout.span_eq]; rfl)
      · exact .inl hgroup
  · obtain ⟨found, hlaid, rfl⟩ := laid_of_find h
    refine List.Nodup.pairwise_of_forall_ne (Table.nodup_values_ofList ..) fun t ht u hu hne => ?_
    exact hlaid.apart_of_ne (Table.mem_of_mem_values_ofList ht)
      (Table.mem_of_mem_values_ofList hu) hne

/-- Braces in a comment and in a literal, a class without parameters, and a body that never
ends. -/
theorem slices_of_find_open :
    let text : Text := "x; class Box<T> /* \x7b */ \x7b f('\x7d') \x7b \x7d \x7d " ++
      "class A \x7b\x7d final class Q<K, V> \x7b\x7b\x7d"
    ∃ ts, find text = .ok ts ∧ ts.values.map (·.span) = [⟨3, 38⟩, ⟨50, 73⟩] ∧
      (∀ t ∈ ts.values,
        text.slice t.span.start t.span.stop = t.declaration ++ (t.header ++ t.body) ∧
        (IsGroup '{' '}' t.body ∨ t.span.stop = 73)) ∧
      ts.values.Pairwise Apart := by
  intro text
  have hspans : (find text).toOption.map (fun ts => ts.values.map (·.span)) =
      some [⟨3, 38⟩, ⟨50, 73⟩] := by decide +kernel
  obtain ⟨ts, hts, hspan⟩ := Table.exists_ok_of_values hspans
  obtain ⟨hslices, hapart⟩ := slices_of_find hts
  refine ⟨ts, hts, hspan, fun t ht => ?_, hapart⟩
  obtain ⟨-, -, hslice, -, -, -, -, -, hbody⟩ := hslices t ht
  exact ⟨hslice, hbody⟩

/-- Every `sharing` among the modifiers, which stand before the word `class`, comes right behind
`with`, `without` or `inherited`, and each of these right before `sharing`. -/
theorem sharingModes_of_find (h : find text = .ok ts) (ht : t ∈ ts.values) :
    ∃ run gap space,
      t.declaration = run ++ ("class".toList ++ (gap ++ (t.className ++ (space ++ t.bracket)))) ∧
      Splits run "class" ∧ IsGap gap ∧ gap ≠ [] ∧ space.allBlank = true ∧
      t.modifiers = run.strip ∧
      (∀ m ∈ run.modifierTokens, m.isProper = true) ∧ SharingModes run.modifierTokens := by
  obtain ⟨before, run, gap, space, after, hlayout⟩ := layout_of_find h ht
  exact ⟨run, gap, space, hlayout.declaration_eq, hlayout.run_splits, hlayout.isGap,
    hlayout.gap_ne_nil, hlayout.space_blank, hlayout.modifiers_eq, hlayout.proper, hlayout.modes⟩

/-- A `sharing` on its own, which is dropped with what comes before it, and one behind `inherited`
with comments around it. -/
theorem sharingModes_of_find_inherited :
    let modifiers : Text := "@A('sharing') /* with */ inherited // sharing\n sharing"
    let text : Text := "private sharing " ++ (modifiers ++ " class Box<T> {}")
    ∃ ts, find text = .ok ts ∧ ∃ t ∈ ts.values, t.modifiers = modifiers ∧
      ∃ run gap space,
        t.declaration = run ++ ("class".toList ++ (gap ++ (t.className ++ (space ++ t.bracket)))) ∧
        Splits run "class" ∧ t.modifiers = run.strip ∧ SharingModes run.modifierTokens := by
  intro modifiers text
  have hmods : (find text).toOption.map (fun ts => ts.values.map (·.modifiers)) =
      some [modifiers] := by decide +kernel
  obtain ⟨ts, hts, hmod⟩ := Table.exists_ok_of_values hmods
  obtain ⟨t, ht, htmod⟩ := List.mem_map.mp (hmod ▸ List.mem_singleton_self _)
  obtain ⟨run, gap, space, hdecl, hrun, -, -, -, hstrip, -, hmodes⟩ := sharingModes_of_find hts ht
  exact ⟨ts, hts, t, ht, htmod, run, gap, space, hdecl, hrun, hstrip, hmodes⟩

end Monomorph.Template
