import Monomorph.Proofs.ParameterLists
import Monomorph.Proofs.SubstitutionLaws

/-!
# Identifiers under substitution

Values that hold nothing that could begin or end a comment or a literal leave these where they
are. So what is put in place of names shows in the identifiers of the text and nowhere else: each
one gives way to the identifiers of its value (`ForRuns.identifiers_replaceFrom`).
-/

namespace Monomorph

namespace Text

@[elab_as_elim]
theorem run_induct {motive : Text → Prop} (nil : motive [])
    (run : ∀ n s, n ≠ [] → n.all isNameChar = true → s.head?.any isNameChar = false → motive s →
      motive (n ++ s))
    (other : ∀ c s, isNameChar c = false → motive s → motive (c :: s)) (s : Text) : motive s := by
  cases s with
  | nil => exact nil
  | cons c r =>
    cases hc : isNameChar c with
    | false => exact other c r hc (run_induct nil run other r)
    | true =>
      have hle : (afterNameRun (c :: r)).length ≤ r.length :=
        Nat.le_of_lt_succ (length_afterNameRun_lt hc)
      rw [← nameRun_append_afterNameRun (c :: r)]
      exact run _ _ (nameRun_ne_nil hc) List.all_takeWhile (head_afterNameRun _)
        (run_induct nil run other _)
termination_by s.length

theorem mem_words {n s : Text} (h : n ∈ words s) : n ≠ [] ∧ n.all isNameChar = true := by
  rw [words_eq_tokens] at h
  obtain ⟨tok, htok, hword⟩ := List.mem_filterMap.mp h
  cases tok with
  | word m =>
    cases hword
    exact mem_tokens htok
  | mark | inert => cases hword

theorem words_alone {n : Text} (hne : n ≠ []) (hn : n.all isNameChar = true) : words n = [n] := by
  simpa [words_nil] using words_run (s := []) hne hn rfl

theorem identifiers_alone {n : Text} (h : n.isName = true) : identifiers n = [n] := by
  rw [identifiers, words_alone (isName_ne_nil h) (all_isNameChar_of_isName h),
    List.filter_cons_of_pos h, List.filter_nil]

theorem isName_of_mem_identifiers {n s : Text} (h : n ∈ identifiers s) : n.isName = true :=
  (List.mem_filter.mp h).2

theorem Splits.identifiers_append {a b : Text} (h : Splits a b) :
    identifiers (a ++ b) = identifiers a ++ identifiers b := by
  rw [identifiers, h.words_append, List.filter_append]
  rfl

theorem identifiers_run {n s : Text} (hn : n.isName = true)
    (hs : s.head?.any isNameChar = false) : identifiers (n ++ s) = n :: identifiers s := by
  rw [identifiers, words_run (isName_ne_nil hn) (all_isNameChar_of_isName hn) hs,
    List.filter_cons_of_pos hn]
  rfl

theorem identifiers_dropBlank (s : Text) : identifiers s.dropBlank = identifiers s := by
  rw [identifiers, words_dropBlank]
  rfl

theorem flatMap_filter_eq {α β : Type} {l : List α} {p : α → Bool} {f : α → List β}
    (h : ∀ a ∈ l, p a = false → f a = []) : (l.filter p).flatMap f = l.flatMap f := by
  induction l with
  | nil => rfl
  | cons a l ih =>
    obtain ⟨ha, hl⟩ := List.forall_mem_cons.mp h
    rw [List.filter_cons, List.flatMap_cons, ← ih hl]
    cases hp : p a with
    | true => rfl
    | false => rw [ha hp]; rfl

/-- Not empty, and without the characters that comments and literals begin and end with. -/
structure Fills (v : Text) : Prop where
  ne_nil : v ≠ []
  chars : ∀ c ∈ v, c ∉ ['\'', '/', '*', '\\', '\n']

variable {v s n : Text} {c : Char}

theorem fills_of_run (hne : n ≠ []) (hn : n.all isNameChar = true) : Fills n := by
  refine ⟨hne, fun c hc hmem => ?_⟩
  have hname := List.all_eq_true.mp hn c hc
  simp only [List.mem_cons, List.not_mem_nil, or_false] at hmem
  rcases hmem with rfl | rfl | rfl | rfl | rfl <;> cases hname

theorem Fills.not_opensInert (h : Fills v) (hc : c ∈ v) : opensInert c = false := by
  have hchars := h.chars c hc
  simp only [List.mem_cons, List.not_mem_nil, or_false, not_or] at hchars
  simp [opensInert, hchars]

theorem Fills.splits (h : Fills v) (hs : s.head?.any isNameChar = false) : Splits v s := by
  have hplain (d : Char) (hd : d ∈ v) : opensInert d = false := h.not_opensInert hd
  refine ⟨closed_of_plain hplain, meets_of_getLast ?_ s, meets_of_head v hs⟩
  rw [lexemes_of_plain hplain, List.getLast?_map, List.getLast?_eq_some_getLast h.ne_nil]
  have hchars := h.chars _ (List.getLast_mem h.ne_nil)
  simp only [List.mem_cons, List.not_mem_nil, or_false, not_or] at hchars
  simp [hchars]

theorem afterBlock_of_not_mem (hv : '*' ∉ v) (s : Text) : afterBlock (v ++ s) = afterBlock s := by
  induction v with
  | nil => rfl
  | cons c v ih =>
    rw [List.mem_cons, not_or] at hv
    rw [List.cons_append, afterBlock_skip (fun h => hv.1 h.1.symm), ih hv.2]

theorem afterQuote_of_not_mem (hq : '\'' ∉ v) (hb : '\\' ∉ v) (s : Text) :
    afterQuote (v ++ s) = afterQuote s := by
  induction v with
  | nil => rfl
  | cons c v ih =>
    rw [List.mem_cons, not_or] at hq hb
    rw [List.cons_append, afterQuote_skip (Ne.symm hq.1) (Ne.symm hb.1), ih hq.2 hb.2]

theorem Fills.afterLine_append (h : Fills v) (s : Text) : afterLine (v ++ s) = afterLine s :=
  afterLine_of_not_mem (fun hc => h.chars _ hc (by simp)) s

theorem Fills.afterBlock_append (h : Fills v) (s : Text) :
    afterBlock (v ++ s) = afterBlock s ∧ afterBlock ('*' :: (v ++ s)) = afterBlock s := by
  have happend := afterBlock_of_not_mem (fun hc => h.chars _ hc (by simp)) s
  refine ⟨happend, ?_⟩
  obtain ⟨c, v, rfl⟩ := List.exists_cons_of_ne_nil h.ne_nil
  have hc := h.chars c (List.mem_cons_self ..)
  rw [afterBlock_skip, happend]
  rintro ⟨-, hslash⟩
  cases hslash
  simp at hc

theorem Fills.afterQuote_append (h : Fills v) (s : Text) :
    afterQuote (v ++ s) = afterQuote s ∧
      afterQuote ('\\' :: (v ++ s)) = afterQuote s := by
  have hq : '\'' ∉ v := fun hc => h.chars _ hc (by simp)
  have hb : '\\' ∉ v := fun hc => h.chars _ hc (by simp)
  refine ⟨afterQuote_of_not_mem hq hb s, ?_⟩
  obtain ⟨c, v, rfl⟩ := List.exists_cons_of_ne_nil h.ne_nil
  rw [List.mem_cons, not_or] at hq hb
  rw [List.cons_append, afterQuote, afterQuote_of_not_mem hq.2 hb.2]

end Text

namespace Substitution

open Text

def fill (rules : List (Text × Text)) (n : Text) : Text :=
  (rules.lookup n).getD n

variable {rules : List (Text × Text)} {s r n : Text} {c : Char} {k : Bool}

theorem fills_fill (hv : ∀ rule ∈ rules, Fills rule.2) (hne : n ≠ [])
    (hn : n.all isNameChar = true) : Fills (fill rules n) := by
  unfold fill
  cases h : rules.lookup n with
  | none => exact fills_of_run hne hn
  | some v => exact hv (n, v) (Table.mem_of_lookup h)

namespace ForRuns

theorem afterLine_replaceFrom (h : ForRuns rules) (hv : ∀ rule ∈ rules, Fills rule.2) (s : Text) :
    afterLine (replaceFrom rules false s) = replaceFrom rules false (afterLine s) := by
  induction s using run_induct with
  | nil => simp only [h.replaceFrom_empty, afterLine]
  | run n s hne hn hs ih =>
    rw [h.replaceFrom_run hne hn hs, (fills_of_run hne hn).afterLine_append, ← ih]
    exact (fills_fill hv hne hn).afterLine_append _
  | other c s hc ih =>
    rw [h.replaceFrom_other hc, afterLine, afterLine]
    split
    · rfl
    · exact ih

-- The second half is for a star right before the text, which may end the comment with it.
theorem afterBlock_replaceFrom (h : ForRuns rules) (hv : ∀ rule ∈ rules, Fills rule.2) (s : Text) :
    afterBlock (replaceFrom rules false s) = replaceFrom rules false (afterBlock s) ∧
      afterBlock ('*' :: replaceFrom rules false s) =
        replaceFrom rules false (afterBlock ('*' :: s)) := by
  induction s using run_induct with
  | nil => simp only [h.replaceFrom_empty, afterBlock, and_self]
  | run n s hne hn hs ih =>
    rw [h.replaceFrom_run hne hn hs, ← fill]
    have hold := (fills_of_run hne hn).afterBlock_append s
    have hnew := (fills_fill hv hne hn).afterBlock_append (replaceFrom rules false s)
    rw [hold.1, hold.2, hnew.1, hnew.2]
    exact ⟨ih.1, ih.1⟩
  | other c s hc ih =>
    have hfirst : afterBlock (c :: replaceFrom rules false s) =
        replaceFrom rules false (afterBlock (c :: s)) := by
      by_cases hstar : c = '*'
      · rw [hstar]
        exact ih.2
      · rw [afterBlock_skip (fun h => hstar h.1), afterBlock_skip (fun h => hstar h.1), ih.1]
    rw [h.replaceFrom_other hc]
    refine ⟨hfirst, ?_⟩
    by_cases hslash : c = '/'
    · rw [hslash, afterBlock, afterBlock]
    · have hskip (r : Text) : afterBlock ('*' :: c :: r) = afterBlock (c :: r) :=
        afterBlock_skip (by simpa using hslash)
      rw [hskip, hskip, hfirst]

-- The second half is for a backslash right before the text, which takes a character with it.
theorem afterQuote_replaceFrom (h : ForRuns rules) (hv : ∀ rule ∈ rules, Fills rule.2) (s : Text) :
    afterQuote (replaceFrom rules false s) = replaceFrom rules false (afterQuote s) ∧
      afterQuote ('\\' :: replaceFrom rules false s) =
        replaceFrom rules false (afterQuote ('\\' :: s)) := by
  induction s using run_induct with
  | nil =>
    have hquote : afterQuote ['\\'] = [] := rfl
    rw [h.replaceFrom_empty, hquote, h.replaceFrom_empty]
    exact ⟨h.replaceFrom_empty.symm, rfl⟩
  | run n s hne hn hs ih =>
    rw [h.replaceFrom_run hne hn hs, ← fill]
    have hold := (fills_of_run hne hn).afterQuote_append s
    have hnew := (fills_fill hv hne hn).afterQuote_append (replaceFrom rules false s)
    rw [hold.1, hold.2, hnew.1, hnew.2]
    exact ⟨ih.1, ih.1⟩
  | other c s hc ih =>
    rw [h.replaceFrom_other hc]
    refine ⟨?_, by rw [afterQuote, afterQuote, ih.1]⟩
    by_cases hq : c = '\''
    · rw [hq, afterQuote, afterQuote]
    · by_cases hb : c = '\\'
      · rw [hb]
        exact ih.2
      · rw [afterQuote_skip hq hb, afterQuote_skip hq hb, ih.1]

theorem head_replaceFrom (h : ForRuns rules) (hs : s.head?.any isNameChar = false) :
    (replaceFrom rules false s).head? = s.head? := by
  cases s with
  | nil => rw [h.replaceFrom_empty]
  | cons c r => rw [h.replaceFrom_other hs]; rfl

theorem afterStretch?_cons_replaceFrom (h : ForRuns rules) (hv : ∀ rule ∈ rules, Fills rule.2)
    (hc : afterStretch? (c :: s) = none) :
    afterStretch? (c :: replaceFrom rules false s) = none := by
  rw [afterStretch?_cons_eq_none_iff] at hc ⊢
  refine ⟨hc.1, fun hslash => ?_⟩
  induction s using run_induct with
  | nil => simp [h.replaceFrom_empty]
  | run n s hne hn hs =>
    have hfills := fills_fill hv hne hn
    rw [h.replaceFrom_run hne hn hs, ← fill]
    obtain ⟨d, v, hd⟩ := List.exists_cons_of_ne_nil hfills.ne_nil
    have hchars := hfills.chars d (hd ▸ List.mem_cons_self ..)
    simp only [List.mem_cons, List.not_mem_nil, or_false, not_or] at hchars
    rw [hd]
    simp [hchars]
  | other d s hd =>
    rw [h.head_replaceFrom (s := d :: s) hd]
    exact hc.2 hslash

theorem afterStretch?_replaceFrom (h : ForRuns rules) (hv : ∀ rule ∈ rules, Fills rule.2)
    (hs : afterStretch? s = some (k, r)) :
    afterStretch? (replaceFrom rules false s) = some (k, replaceFrom rules false r) := by
  obtain ⟨t, rfl, rfl, rfl⟩ | ⟨t, rfl, rfl, rfl⟩ | ⟨t, rfl, rfl, rfl⟩ := afterStretch?_cases hs
  · rw [h.replaceFrom_other rfl, h.replaceFrom_other rfl, afterStretch?_line,
      h.afterLine_replaceFrom hv]
  · rw [h.replaceFrom_other rfl, h.replaceFrom_other rfl, afterStretch?_block,
      (h.afterBlock_replaceFrom hv t).1]
  · rw [h.replaceFrom_other rfl, afterStretch?_quote, (h.afterQuote_replaceFrom hv t).1]

/-- What replacing does to the words of a text. The recursion is over its tokens. -/
theorem words_replaceFrom (h : ForRuns rules) (hv : ∀ rule ∈ rules, Fills rule.2) (s : Text) :
    words (replaceFrom rules false s) = (words s).flatMap fun n => words (fill rules n) := by
  cases hs : afterStretch? s with
  | some found =>
    obtain ⟨k, r⟩ := found
    have hlt := length_lt_of_afterStretch? hs
    rw [words_stretch hs, words_stretch (h.afterStretch?_replaceFrom hv hs),
      h.words_replaceFrom hv r]
  | none =>
    cases s with
    | nil => simp only [h.replaceFrom_empty, words_nil, List.flatMap_nil]
    | cons c r =>
      cases hc : isNameChar c with
      | false =>
        have hcode := h.afterStretch?_cons_replaceFrom hv hs
        rw [h.replaceFrom_other hc, words_other (afterInert?_eq_none_iff.mpr hcode) hc,
          words_other (afterInert?_eq_none_iff.mpr hs) hc, h.words_replaceFrom hv r]
      | true =>
        have hle : (afterNameRun (c :: r)).length ≤ r.length :=
          Nat.le_of_lt_succ (length_afterNameRun_lt hc)
        have hne := nameRun_ne_nil (r := r) hc
        have hall : (nameRun (c :: r)).all isNameChar = true := List.all_takeWhile
        have hend := head_afterNameRun (c :: r)
        have hfills := fills_fill hv hne hall
        have hsplits : Splits (fill rules (nameRun (c :: r)))
            (replaceFrom rules false (afterNameRun (c :: r))) :=
          hfills.splits (by rwa [h.head_replaceFrom hend])
        rw [← nameRun_append_afterNameRun (c :: r), h.replaceFrom_run hne hall hend, ← fill,
          hsplits.words_append, words_run hne hall hend, List.flatMap_cons,
          h.words_replaceFrom hv (afterNameRun (c :: r))]
termination_by s.length

theorem identifiers_replaceFrom (h : ForRuns rules) (hv : ∀ rule ∈ rules, Fills rule.2)
    (hn : ∀ rule ∈ rules, rule.1.isName = true) (s : Text) :
    identifiers (replaceFrom rules false s) =
      (identifiers s).flatMap fun n => identifiers (fill rules n) := by
  -- what is no name stays, and is no identifier before or after
  have hother (n : Text) (hmem : n ∈ words s) (hname : n.isName = false) :
      identifiers (fill rules n) = [] := by
    have hkept : rules.lookup n = none := by
      by_contra hsome
      obtain ⟨v, hv⟩ := Option.ne_none_iff_exists'.mp hsome
      rw [hn _ (Table.mem_of_lookup hv)] at hname
      cases hname
    obtain ⟨hne, hall⟩ := mem_words hmem
    rw [fill, hkept, Option.getD_none, identifiers, words_alone hne hall,
      List.filter_cons_of_neg (by simp [hname]), List.filter_nil]
  rw [identifiers, h.words_replaceFrom hv, List.filter_flatMap, identifiers,
    flatMap_filter_eq hother]
  rfl

end ForRuns

end Substitution

end Monomorph
