import Monomorph.Method
import Monomorph.Proofs.Tokens

/-!
# Readers and tokens

Whatever is read from a text in one go, a name, a gap, a bracket group, a parameter list or a
return type, is left between two tokens unless the text is at its end (`Reaches`). So the tokens of
the rest are the last tokens of the text.
-/

namespace Monomorph

namespace Text

variable {a b s r t : Text} {c : Char}

theorem Splits.stretch {k : Bool} (h : ∀ x, afterStretch? (a ++ x) = some (k, x)) (b : Text) :
    Splits a b := by
  have hl : lexemes a = [.inert k a] := by
    simpa using lexemes_stretch a (h [])
  have hclosed : Closed a := by
    simpa using Closed.stretch h .nil
  exact ⟨hclosed, meets_of_getLast (by simp [hl]) b,
    meets_of_getLast (by simp [hl, Lexeme.isNameChar]) b⟩

theorem Splits.blanks (h : a.allBlank = true) (b : Text) : Splits a b := by
  induction a with
  | nil => exact .nil b
  | cons c a ih =>
    simp only [allBlank, List.all_cons, Bool.and_eq_true] at h
    exact Splits.trans (.blank h.1 _) (ih h.2)

theorem Splits.before (ha : Closed a) (hslash : c ≠ '/' ∧ c ≠ '*') (hname : isNameChar c = false) :
    Splits a (c :: r) :=
  ⟨ha, meets_of_head a (by simp [hslash]), meets_of_head a (by simpa using hname)⟩

theorem Splits.of_append (h : Splits a (b ++ r)) : Splits a b := by
  cases b with
  | nil => exact ⟨h.closed, meets_of_head a rfl, meets_of_head a rfl⟩
  | cons c b => exact h.congr rfl

theorem tokens_blanks (h : a.allBlank = true) : tokens a = [] := by
  induction a with
  | nil => exact tokens_nil
  | cons c a ih =>
    simp only [allBlank, List.all_cons, Bool.and_eq_true] at h
    rw [tokens_blank h.1, ih h.2]

theorem tokens_blanks_append (ha : a.allBlank = true) (b : Text) : tokens (a ++ b) = tokens b := by
  rw [(Splits.blanks ha b).tokens_append, tokens_blanks ha, List.nil_append]

/-- `r` is left of `s` behind whole tokens, or nothing is left. -/
def Reaches (s r : Text) : Prop :=
  r = [] ∨ ∃ a, s = a ++ r ∧ Splits a r

theorem Reaches.refl (s : Text) : Reaches s s :=
  .inr ⟨[], rfl, .nil s⟩

theorem Reaches.trans (h : Reaches s r) (h' : Reaches r t) : Reaches s t := by
  rcases h' with rfl | ⟨b, rfl, hb⟩
  · exact .inl rfl
  · rcases h with hnil | ⟨a, rfl, ha⟩
    · exact .inl (List.append_eq_nil_iff.mp hnil).2
    · exact .inr ⟨a ++ b, by rw [List.append_assoc], ha.trans hb⟩

theorem Reaches.suffix (h : Reaches s r) : r <:+ s := by
  rcases h with rfl | ⟨a, rfl, -⟩
  · exact List.nil_suffix
  · exact List.suffix_append ..

theorem Reaches.tokens_suffix (h : Reaches s r) : tokens r <:+ tokens s := by
  rcases h with rfl | ⟨a, rfl, ha⟩
  · rw [tokens_nil]
    exact List.nil_suffix
  · rw [ha.tokens_append]
    exact List.suffix_append ..

theorem Reaches.mark (hc : opensInert c = false) (hn : isNameChar c = false) :
    Reaches (c :: r) r :=
  .inr ⟨[c], rfl, .mark (afterInert?_eq_none hc) hn⟩

theorem reaches_dropBlank (s : Text) : Reaches s s.dropBlank := by
  obtain ⟨b, hb, hs⟩ := s.exists_blanks
  exact .inr ⟨b, hs, .blanks hb _⟩

theorem reaches_afterNameRun (s : Text) : Reaches s s.afterNameRun :=
  .inr ⟨s.nameRun, s.nameRun_append_afterNameRun.symm,
    .word List.all_takeWhile s.head_afterNameRun⟩

theorem reaches_afterName (s : Text) : Reaches s s.afterName :=
  (reaches_afterNameRun s).trans (reaches_dropBlank _)

theorem reaches_of_afterStretch? {k : Bool} (h : afterStretch? s = some (k, r)) : Reaches s r := by
  by_cases hr : r = []
  · exact .inl hr
  · obtain ⟨a, rfl⟩ := suffix_of_afterStretch? h
    exact .inr ⟨a, rfl, .stretch (fun _ => afterStretch?_swap hr h) r⟩

theorem reaches_of_afterInert? (h : afterInert? s = some r) : Reaches s r := by
  by_cases hr : r = []
  · exact .inl hr
  · obtain ⟨a, rfl⟩ := suffix_of_afterInert? h
    exact .inr ⟨a, rfl, .inert hr h r⟩

theorem reaches_afterGap (s : Text) : Reaches s s.afterGap := by
  fun_induction afterGap s with
  | case1 s r h ih =>
    have hcomment := reaches_of_afterStretch? (afterStretch?_eq_comment_iff.mpr h)
    exact ((reaches_dropBlank s).trans hcomment).trans ih
  | case2 s h => exact reaches_dropBlank s

theorem head_afterGap (s : Text) : s.afterGap.head?.any isBlank = false := by
  fun_induction afterGap s with
  | case1 s r h ih => exact ih
  | case2 s h => exact head_dropBlank s

theorem afterGap_of_head (h : s.dropBlank.head?.any isNameChar = true) :
    s.afterGap = s.dropBlank := by
  rw [afterGap]
  split
  · rename_i r hr
    have hnone : afterStretch? s.dropBlank = none := by
      cases hs : s.dropBlank with
      | nil => rfl
      | cons c t =>
        rw [hs] at h
        exact afterInert?_eq_none_iff.mp (afterInert?_eq_none (not_opensInert_of_isNameChar h))
    rw [afterStretch?_eq_comment_iff.mpr hr] at hnone
    cases hnone
  · rfl

-- ---------------------------------------------------------------------------
-- Groups
-- ---------------------------------------------------------------------------

/-- `r` is left of `s` behind a `c` in code. -/
def Closes (c : Char) (s r : Text) : Prop :=
  ∃ a, s = a ++ c :: r ∧ Closed a

theorem Closes.reaches (h : Closes c s r) (hc : opensInert c = false) (hstar : c ≠ '*')
    (hn : isNameChar c = false) : Reaches s r := by
  obtain ⟨a, rfl, ha⟩ := h
  have hslash : c ≠ '/' := by
    rintro rfl
    cases hc
  exact Reaches.trans (.inr ⟨a, rfl, .before ha ⟨hslash, hstar⟩ hn⟩) (.mark hc hn)

theorem Closes.cons {d : Char} (h : Closes c s r) (hi : afterInert? (d :: s) = none) :
    Closes c (d :: s) r := by
  obtain ⟨a, rfl, ha⟩ := h
  exact ⟨d :: a, rfl, .code (afterStretch?_eq_none_of_append (afterInert?_eq_none_iff.mp hi)) ha⟩

theorem Reaches.closes (h : Reaches s r) (h' : Closes c r t) : Closes c s t := by
  obtain ⟨b, rfl, hb⟩ := h'
  rcases h with hnil | ⟨a, rfl, ha⟩
  · simp at hnil
  · refine ⟨a ++ b, by rw [List.append_assoc], ha.closed.append hb ?_⟩
    cases b with
    | nil => exact meets_of_head a rfl
    | cons d b => exact ha.slash

theorem closes_of_afterClosing? {opening closing : Char} {depth : Int}
    (h : afterClosing? opening closing depth s = some r) : Closes closing s r := by
  fun_induction afterClosing? opening closing depth s with
  | case1 depth s t ht ih => exact (reaches_of_afterInert? ht).closes (ih h)
  | case2 => cases h
  | case4 =>
    cases h
    exact ⟨[], rfl, .nil⟩
  | case3 | case5 | case6 =>
    rename_i ih
    exact (ih h).cons ‹afterInert? _ = none›

theorem closes_of_afterGroup? {opening closing : Char}
    (h : afterGroup? opening closing s = some r) : Closes closing s r := by
  unfold afterGroup? at h
  split at h
  · exact closes_of_afterClosing? h
  · cases h

theorem Reaches.closes_afterGroup {opening closing : Char} (h : Reaches s r) :
    afterGroup opening closing r = [] ∨ Closes closing s (afterGroup opening closing r) := by
  cases hr : afterGroup? opening closing r with
  | none =>
    rw [afterGroup, hr]
    exact .inl rfl
  | some t =>
    rw [afterGroup, hr]
    exact .inr (h.closes (closes_of_afterGroup? hr))

theorem Closes.suffix (h : Closes c s r) : r <:+ s := by
  obtain ⟨a, rfl, -⟩ := h
  exact (List.suffix_cons ..).trans (List.suffix_append ..)

theorem afterGroup_suffix (opening closing : Char) (s : Text) :
    afterGroup opening closing s <:+ s := by
  rcases (Reaches.refl s).closes_afterGroup with h | h
  · rw [h]
    exact List.nil_suffix
  · exact h.suffix

end Text

open Text

-- ---------------------------------------------------------------------------
-- Parameters and return types
-- ---------------------------------------------------------------------------

namespace Parameters

theorem readMore_induct {R : Text → Text → Prop} (htrans : ∀ {a b c : Text}, R a b → R b c → R a c)
    (hmark : ∀ c r, c ∈ [',', '>'] → R (c :: r) r) (hname : ∀ s, R s s.afterNameRun)
    (hblank : ∀ s, R s s.dropBlank) {distinct : Bool} {seen : List Text} {s : Text}
    {params : List Text} {t : Rest s} (h : readMore distinct seen s = .ok (params, t)) :
    R s t.1 := by
  have hparam (s : Text) : R s s.dropBlank.afterNameRun.dropBlank :=
    htrans (hblank s) (htrans (hname _) (hblank _))
  fun_induction readMore distinct seen s generalizing params with
  | case7 seen s =>
    rename_i hb
    cases h
    exact htrans (hparam s) (hb ▸ hmark _ _ (by simp))
  | case8 seen s =>
    rename_i hb _ hmore ih
    cases h
    exact htrans (htrans (hparam s) (hb ▸ hmark _ _ (by simp))) (ih hmore)
  | case1 | case2 | case3 | case4 | case5 | case6 | case9 | case10 => cases h

theorem reaches_of_readMore {distinct : Bool} {seen : List Text} {s : Text} {params : List Text}
    {t : Rest s} (h : readMore distinct seen s = .ok (params, t)) : Reaches s t.1 := by
  refine readMore_induct .trans ?_ reaches_afterNameRun reaches_dropBlank h
  intro c r hc
  simp only [List.mem_cons, List.not_mem_nil, or_false] at hc
  rcases hc with rfl | rfl <;> exact .mark rfl rfl

theorem reaches_of_read {distinct : Bool} {s : Text} {params : List Text} {t : Rest s}
    (h : read distinct s = .ok (params, t)) : ∃ r, s = '<' :: r ∧ Reaches r t.1 := by
  unfold read at h
  split at h
  · cases h
  · split at h
    · rename_i hmore
      cases h
      exact ⟨_, rfl, reaches_of_readMore hmore⟩
    · cases h
  · cases h

end Parameters

namespace GenericMethod

theorem skipReturnType_induct {R : Text → Text → Prop} (hrefl : ∀ s, R s s)
    (htrans : ∀ {a b c : Text}, R a b → R b c → R a c) (hgap : ∀ s, R s s.afterGap)
    (hmark : ∀ c r, c ∈ ['<', '>', ',', '.', '[', ']'] → R (c :: r) r)
    (hname : ∀ s, R s s.afterNameRun) (hblank : ∀ s, R s s.dropBlank) (keep depth : Nat)
    (s : Text) : R s (skipReturnType keep depth s).2.1 := by
  have hfrom {s : Text} {c : Char} {r : Text} (h : s.afterGap = c :: r) : R s (c :: r) :=
    h ▸ hgap s
  fun_induction skipReturnType keep depth s with
  | case1 => exact hrefl _
  | case2 depth s _ _ hs =>
    have hnil := hgap s
    rw [hs] at hnil
    exact hnil
  | case3 depth s _ _ r n t ht hs _ ih =>
    rw [ht] at ih
    exact htrans (htrans (hfrom hs) (hmark _ _ (by simp))) ih
  | case4 depth s _ _ r n t ht hs _ _ ih =>
    rw [ht] at ih
    exact htrans (htrans (hfrom hs) (hmark _ _ (by simp))) ih
  | case5 depth s _ _ c r hs _ _ _ hc n t ht ih =>
    rw [ht] at ih
    exact htrans (htrans (hfrom hs) (hmark _ _ (by simp [hc]))) ih
  | case6 s _ _ c r hs => exact htrans (hfrom hs) (htrans (hname _) (hblank _))
  | case7 s _ _ c r hs _ _ _ _ _ _ _ _ n t ht ih =>
    rw [ht] at ih
    exact htrans (htrans (hfrom hs) (htrans (hname _) (hblank _))) ih
  | case8 depth s _ _ c r hs _ _ _ _ _ _ _ _ n t ht ih =>
    rw [ht] at ih
    exact htrans (htrans (hfrom hs) (hname _)) ih
  | case9 depth s _ _ c r hs => exact hfrom hs

theorem reaches_skipReturnType (keep depth : Nat) (s : Text) :
    Reaches s (skipReturnType keep depth s).2.1 := by
  refine skipReturnType_induct .refl .trans reaches_afterGap ?_ reaches_afterNameRun
    reaches_dropBlank keep depth s
  intro c r hc
  simp only [List.mem_cons, List.not_mem_nil, or_false] at hc
  rcases hc with rfl | rfl | rfl | rfl | rfl | rfl <;> exact .mark rfl rfl

end GenericMethod

end Monomorph
