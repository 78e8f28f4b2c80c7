import Monomorph.Proofs.BodilessMethods
import Monomorph.Proofs.Identifiers

/-!
# Type parameter lists

What a list of type parameters that could be read is like: letters that do not repeat, in angle
brackets, with blanks and commas between them (`exists_isList`).
-/

namespace Monomorph

open Text

theorem Text.words_dropBlank (s : Text) : words s.dropBlank = words s := by
  rw [words_eq_tokens, tokens_dropBlank, ← words_eq_tokens]

theorem Text.Splits.words_append {a b : Text} (h : Splits a b) :
    words (a ++ b) = words a ++ words b := by
  simp only [words_eq_tokens, h.tokens_append, List.filterMap_append]

namespace Parameters

variable {seen params : List Text} {bracket s r : Text} {c : Char}

/-- The text `bracket` is a list of the parameters `params`. -/
structure IsList (bracket : Text) (params : List Text) : Prop where
  ne_nil : params ≠ []
  nodup : params.Nodup
  letter : ∀ p ∈ params, ∃ c : Char, p = [c] ∧ c.isAlpha = true
  words_eq : bracket.words = params
  bracket_eq : ∃ inner, bracket = '<' :: inner ∧
    ∀ c ∈ inner, isNameChar c = true ∨ isBlank c = true ∨ c ∈ [',', '>']

theorem IsList.isName (h : IsList bracket params) : ∀ p ∈ params, p.isName = true := by
  intro p hp
  obtain ⟨c, rfl, hc⟩ := h.letter p hp
  simp [Text.isName, isNameStart, hc]

theorem words_parameter (hne : s.dropBlank.nameRun ≠ [])
    (hb : s.dropBlank.afterNameRun.dropBlank = c :: r) (hc : c ∈ [',', '>']) :
    words s = s.dropBlank.nameRun :: words r := by
  have hmark : words (c :: r) = words r := by
    simp only [List.mem_cons, List.not_mem_nil, or_false] at hc
    rcases hc with rfl | rfl <;> exact words_other (afterInert?_eq_none rfl) rfl
  rw [← words_dropBlank s, ← nameRun_append_afterNameRun s.dropBlank,
    words_run hne List.all_takeWhile (head_afterNameRun _), ← words_dropBlank, hb, hmark,
    nameRun_append_afterNameRun]

theorem readMore_eq_ok {t : Rest s} (h : readMore true seen s = .ok (params, t)) :
    words s = params ++ words t.1 ∧ params ≠ [] ∧ params.Nodup ∧
      ∀ p ∈ params, p ∉ seen ∧ ∃ c : Char, p = [c] ∧ c.isAlpha = true := by
  have hletter {p : Text} (hlength : ¬p.length ≠ 1) (halpha : ¬(!p.all Char.isAlpha) = true) :
      ∃ c : Char, p = [c] ∧ c.isAlpha = true := by
    obtain ⟨c, rfl⟩ := List.length_eq_one_iff.mp (not_not.mp hlength)
    exact ⟨c, rfl, by simpa using halpha⟩
  fun_induction readMore true seen s generalizing params with
  | case7 seen s =>
    rename_i hne hlength halpha hseen _ hb
    cases h
    refine ⟨words_parameter hne hb (by simp), by simp, by simp, fun p hp => ?_⟩
    obtain rfl := List.mem_singleton.mp hp
    exact ⟨by simpa using hseen, hletter hlength halpha⟩
  | case8 seen s =>
    rename_i hne hlength halpha hseen _ hb _ hmore ih
    obtain ⟨hwords, -, hnodup, hall⟩ := ih hmore
    cases h
    refine ⟨?_, by simp, List.nodup_cons.mpr ⟨fun hp => ?_, hnodup⟩, fun p hp => ?_⟩
    · rw [words_parameter hne hb (by simp), hwords]
      rfl
    · exact (hall _ hp).1 (by simp)
    · rcases List.mem_cons.mp hp with rfl | hp
      · exact ⟨by simpa using hseen, hletter hlength halpha⟩
      · exact ⟨fun hold => (hall p hp).1 (by simp [hold]), (hall p hp).2⟩
  | case1 | case2 | case3 | case4 | case5 | case6 | case9 | case10 => cases h

theorem chars_of_readMore {t : Rest s} (h : readMore true seen s = .ok (params, t)) :
    ∃ inner, s = inner ++ t.1 ∧
      ∀ c ∈ inner, isNameChar c = true ∨ isBlank c = true ∨ c ∈ [',', '>'] := by
  refine readMore_induct (R := fun s r => ∃ inner, s = inner ++ r ∧
    ∀ c ∈ inner, isNameChar c = true ∨ isBlank c = true ∨ c ∈ [',', '>']) ?_ ?_ ?_ ?_ h
  · rintro a b c ⟨u, rfl, hu⟩ ⟨v, rfl, hv⟩
    refine ⟨u ++ v, by rw [List.append_assoc], fun e he => ?_⟩
    exact (List.mem_append.mp he).elim (hu e) (hv e)
  · intro c r hc
    exact ⟨[c], rfl, fun e he => .inr (.inr (List.mem_singleton.mp he ▸ hc))⟩
  · intro s
    refine ⟨s.nameRun, s.nameRun_append_afterNameRun.symm, fun e he => .inl ?_⟩
    exact List.all_eq_true.mp List.all_takeWhile e he
  · intro s
    obtain ⟨b, hb, hs⟩ := s.exists_blanks
    exact ⟨b, hs, fun e he => .inr (.inl (List.all_eq_true.mp hb e he))⟩

theorem exists_isList {t : Rest s} (h : read true s = .ok (params, t)) :
    ∃ bracket, s = bracket ++ t.1 ∧ IsList bracket params ∧
      (t.1 = [] ∨ Splits bracket t.1) := by
  unfold read at h
  split at h
  · cases h
  · rename_i r _
    split at h
    · rename_i params t hmore
      cases h
      obtain ⟨hwords, hne, hnodup, hall⟩ := readMore_eq_ok hmore
      obtain ⟨inner, hr, hchars⟩ := chars_of_readMore hmore
      have hends : t.1 = [] ∨ Splits inner t.1 := by
        refine (reaches_of_readMore hmore).imp_right ?_
        rintro ⟨a, ha, hsplits⟩
        rwa [List.append_cancel_right (hr.symm.trans ha)]
      have hinner : words inner = params := by
        rcases hends with hnil | hsplits
        · rw [hnil, List.append_nil] at hr
          simpa [hnil, words_nil, ← hr] using hwords
        · have hparts : words inner ++ words t.1 = params ++ words t.1 := by
            rw [← hsplits.words_append, ← hwords]
            exact congrArg words hr.symm
          exact List.append_cancel_right hparts
      have hopening : words ('<' :: inner) = words inner :=
        words_other (afterInert?_eq_none rfl) rfl
      refine ⟨'<' :: inner, congrArg _ hr, ⟨hne, hnodup, fun p hp => (hall p hp).2,
        hopening.trans hinner, inner, rfl, hchars⟩, hends.imp_right fun hsplits => ?_⟩
      exact Splits.trans (a := ['<']) (.mark (afterInert?_eq_none rfl) rfl) hsplits
    · cases h
  · cases h

end Parameters

end Monomorph
