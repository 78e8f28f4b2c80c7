import Monomorph.Proofs.Tokens

/-!
# Induction over tokens

A text that ends where a token ends is taken apart from the front: comments and string literals,
runs of name characters, and single characters of code (`Splits.induct`).
-/

namespace Monomorph.Text

variable {a b n r t : Text} {c : Char} {k : Bool}

theorem Closed.of_stretch (h : Closed (t ++ r)) (ht : afterStretch? (t ++ r) = some (k, r)) :
    (∀ x, afterStretch? (t ++ x) = some (k, x)) ∧ Closed r := by
  generalize hs : t ++ r = s at h
  rw [hs] at ht
  cases h with
  | nil => cases ht
  | @stretch k' t' a hclosed ha =>
    rw [hclosed a] at ht
    cases ht
    obtain rfl := List.append_cancel_right hs
    exact ⟨hclosed, ha⟩
  | code hc _ =>
    rw [hc] at ht
    cases ht

theorem Splits.of_stretch (h : Splits (t ++ r) b) (ht : afterStretch? (t ++ r) = some (k, r)) :
    Splits r b :=
  have hl := lexemes_stretch t ht
  ⟨(h.closed.of_stretch ht).2, meets_of_cons hl h.slash, meets_of_cons hl h.names⟩

theorem Splits.of_code (h : Splits (c :: r) b) (hc : afterStretch? (c :: r) = none) :
    Splits r b := by
  have hl := lexemes_code hc
  refine ⟨?_, meets_of_cons hl h.slash, meets_of_cons hl h.names⟩
  generalize hs : c :: r = s at h
  cases h.closed with
  | nil => cases hs
  | @stretch k t a ht ha =>
    rw [hs, ht a] at hc
    cases hc
  | code _ ha =>
    cases hs
    exact ha

theorem Splits.of_run (hn : n.all isNameChar = true) (h : Splits (n ++ r) b) : Splits r b := by
  induction n with
  | nil => exact h
  | cons c n ih =>
    obtain ⟨hc, hn⟩ := Bool.and_eq_true_iff.mp hn
    exact ih hn (h.of_code (afterInert?_eq_none_iff.mp
      (afterInert?_eq_none (not_opensInert_of_isNameChar hc))))

theorem Splits.head_of_run (hne : n ≠ []) (hn : n.all isNameChar = true) (h : Splits n b) :
    b.head?.any isNameChar = false := by
  have hplain (d : Char) (hd : d ∈ n) : opensInert d = false :=
    not_opensInert_of_isNameChar (List.all_eq_true.mp hn d hd)
  have hlast : (lexemes n).getLast?.any Lexeme.isNameChar = true := by
    rw [lexemes_of_plain hplain, List.getLast?_map, List.getLast?_eq_some_getLast hne]
    exact List.all_eq_true.mp hn _ (List.getLast_mem hne)
  have hmeet := h.names
  rwa [namesMeet, meets, hlast, Bool.true_and] at hmeet

@[elab_as_elim]
theorem Splits.induct {motive : ∀ a, Splits a b → Prop} (nil : motive [] (.nil b))
    (stretch : ∀ k t r (_ : ∀ x, afterStretch? (t ++ x) = some (k, x)) (hr : Splits r b)
      (h : Splits (t ++ r) b), motive r hr → motive (t ++ r) h)
    (run : ∀ n r (_ : n ≠ []) (_ : n.all isNameChar = true)
      (_ : (r ++ b).head?.any isNameChar = false) (hr : Splits r b) (h : Splits (n ++ r) b),
      motive r hr → motive (n ++ r) h)
    (other : ∀ c r (_ : afterInert? (c :: (r ++ b)) = none) (_ : isNameChar c = false)
      (hr : Splits r b) (h : Splits (c :: r) b), motive r hr → motive (c :: r) h)
    {a : Text} (h : Splits a b) : motive a h := by
  obtain rfl | ⟨k, t, r, rfl, hlt, ht, -⟩ | ⟨c, r, rfl, hcode, -⟩ := lexemes_cases a
  · exact nil
  · have hr := h.of_stretch ht
    exact stretch k t r (h.closed.of_stretch ht).1 hr h (hr.induct nil stretch run other)
  · cases hc : isNameChar c with
    | false =>
      have hi := afterInert?_eq_none_iff.mpr (afterStretch?_append_eq_none hcode h.slash)
      have hr := h.of_code hcode
      exact other c r hi hc hr h (hr.induct nil stretch run other)
    | true =>
      have hlt : (afterNameRun (c :: r)).length < (c :: r).length := length_afterNameRun_lt hc
      have hall : (nameRun (c :: r)).all isNameChar = true := List.all_takeWhile
      have hne : nameRun (c :: r) ≠ [] := nameRun_ne_nil hc
      have happend := nameRun_append_afterNameRun (c :: r)
      have hsplits : Splits (nameRun (c :: r) ++ afterNameRun (c :: r)) b := by rwa [happend]
      have hr := hsplits.of_run hall
      have hhead : (afterNameRun (c :: r) ++ b).head?.any isNameChar = false := by
        have hend := head_afterNameRun (c :: r)
        cases hrest : afterNameRun (c :: r) with
        | nil =>
          rw [hrest, List.append_nil] at hsplits
          exact hsplits.head_of_run hne hall
        | cons d x =>
          rw [hrest] at hend
          exact hend
      have hstep := run _ _ hne hall hhead hr hsplits (hr.induct nil stretch run other)
      simpa only [happend] using hstep
termination_by a.length

end Monomorph.Text
