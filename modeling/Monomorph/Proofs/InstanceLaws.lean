import Monomorph.Expansion
import Monomorph.Proofs.CodeRuns
import Monomorph.Proofs.SubstitutionLaws
import Monomorph.Proofs.TemplateLaws
import Monomorph.Proofs.UsageLaws

/-!
# Laws of instances

What instances need are usages of known templates, and a generated class is never the comment
that stands in place of one.
-/

namespace Monomorph

open Template (startsDeclaration)

-- ---------------------------------------------------------------------------
-- Needs
-- ---------------------------------------------------------------------------

namespace Instance

variable {known : Text → Bool} {text : Text} {e : TypeExpr} {t : Template} {args : List TypeExpr}

theorem mem_needs_flatten :
    e ∈ (flatten known text).needs ↔ ∃ k, (k, e) ∈ (Usage.findKnown known text).entries :=
  Table.mem_values

theorem wellFormed_of_flatten (h : e ∈ (flatten known text).needs) : e.WellFormed := by
  obtain ⟨k, hk⟩ := mem_needs_flatten.mp h
  exact (Usage.isUsage_of_findKnown hk).1.spells.wellFormed

theorem wellFormed_of_ofTemplate {body : Option Text}
    (h : e ∈ (ofTemplate known t args body).needs) : e.WellFormed := by
  unfold ofTemplate at h
  split at h
  · cases h
  · exact wellFormed_of_flatten h

theorem wellFormed_of_ofMethod {m : GenericMethod} {known : Option (Text → Bool)}
    (h : e ∈ (ofMethod known m args).needs) : e.WellFormed := by
  unfold ofMethod at h
  split at h
  · cases h
  · split at h
    · cases h
    · exact wellFormed_of_flatten h

end Instance

-- ---------------------------------------------------------------------------
-- How generated classes start
-- ---------------------------------------------------------------------------

namespace Instance

theorem startsDeclaration_plainDeclaration {t : Template} (h : t.IsDeclared) :
    startsDeclaration (plainDeclaration t) = true := by
  obtain ⟨start, stop, hdecl, hstart⟩ := h.declaration
  -- without its brackets or not, the declaration is a stretch from `start` on
  have hpart (d : Text) (n : Nat) (hd : d = start.take n) :
      startsDeclaration (if d.isEmpty then "public class " ++ t.className else d) = true := by
    split
    · rfl
    · rename_i hne
      subst hd
      exact Template.startsDeclaration_take hstart (by simpa using hne)
  unfold plainDeclaration
  simp only
  split
  · exact hpart _ _ (by rw [hdecl, Text.upTo, List.take_take])
  · exact hpart _ _ hdecl

end Instance

theorem Substitution.startsDeclaration_replaceName {s n v : Text} (hn : n.isName = true)
    (hv : startsDeclaration v = true) (h : startsDeclaration s = true) :
    startsDeclaration (replaceName s n v) = true := by
  unfold replaceName
  cases s with
  | nil => cases h
  | cons c r =>
    cases hr : rule? [(n, v)] (c :: r) with
    | none =>
      rw [replaceFrom_skip (.inr hr)]
      exact h
    | some rule =>
      obtain ⟨hm, t, ht, -⟩ := mem_of_rule? hr
      obtain rfl := List.mem_singleton.mp hm
      obtain ⟨d, m, rfl, -, -⟩ := Text.isName_iff.mp hn
      simp only [List.cons_append, List.cons.injEq] at ht
      obtain ⟨rfl, rfl⟩ := ht
      rw [replaceFrom_rule hr]
      exact Template.startsDeclaration_append hv _

theorem Substitution.startsDeclaration_replaceNameInCode {s n v : Text} (hn : n.isName = true)
    (hv : startsDeclaration v = true) (h : startsDeclaration s = true) :
    startsDeclaration (replaceNameInCode s n v) = true := by
  have hi := Template.afterInert?_of_startsDeclaration h
  cases s with
  | nil => cases h
  | cons c r =>
    -- the first segment is code and starts with `c`
    obtain ⟨t, segs, hsegs⟩ : ∃ t segs, Text.segments (c :: r) = ⟨c :: t, true⟩ :: segs := by
      rw [Text.segments_cons hi, Text.pushCode.eq_def]
      split <;> exact ⟨_, _, rfl⟩
    have hcode : startsDeclaration (c :: t) = true := h
    rw [replaceNameInCode, hsegs, List.flatMap_cons, if_pos rfl]
    exact Template.startsDeclaration_append (startsDeclaration_replaceName hn hv hcode) _

namespace Instance

theorem startsDeclaration_ofTemplate {known : Text → Bool} {t : Template} {args : List TypeExpr}
    {body : Option Text} (h : t.IsDeclared) (ha : args.length = t.parameters.length) :
    startsDeclaration (ofTemplate known t args body).text = true := by
  have hmangle : startsDeclaration (TypeExpr.mangle ⟨t.className, args⟩) = true := by
    rw [TypeExpr.mangle]
    exact Template.startsDeclaration_append (Template.startsDeclaration_isName h.isName) _
  unfold ofTemplate
  rw [if_neg (not_not_intro ha)]
  exact Substitution.startsDeclaration_replaceNameInCode h.isName hmangle
    (Template.startsDeclaration_append (startsDeclaration_plainDeclaration h) _)

end Instance

theorem Issue.head_arityMismatch (n : Text) (i j : Nat) :
    (arityMismatch n i j).message.head? = some 'T' :=
  rfl

theorem Issue.head_tooDeep (n : Text) (i : Nat) : (tooDeep n i).message.head? = some 'I' :=
  rfl

theorem Expansion.text_instantiate_ne {p : Program} {t : Template} {f : SourceFile}
    {args : List TypeExpr} (h : t.IsDeclared) (e : TypeExpr) :
    (instantiate p t f args).text ≠ depthComment e := by
  by_cases ha : args.length = t.parameters.length
  · intro heq
    have hstart : startsDeclaration (instantiate p t f args).text = true :=
      Instance.startsDeclaration_ofTemplate h ha
    rw [heq] at hstart
    cases hstart
  · unfold instantiate Instance.ofTemplate
    rw [if_pos ha]
    intro heq
    have hhead := congrArg List.head? (List.append_cancel_left heq)
    rw [Issue.head_arityMismatch, Issue.head_tooDeep] at hhead
    cases hhead

end Monomorph
