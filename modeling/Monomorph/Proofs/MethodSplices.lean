import Monomorph.Proofs.CodeMarks
import Monomorph.Proofs.CutLaws
import Monomorph.Proofs.UsagePlaces

/-!
# Splicing methods in

Methods go in front of the last closing brace in code, and that brace is found again behind them:
a method text that ends in code does not swallow it, and what stands behind it is as it was. So
methods that are put in one batch after the other stand as if they had come at once
(`Splice.insertMethods_insertMethods`).
-/

namespace Monomorph

-- ---------------------------------------------------------------------------
-- Blanks at the end
-- ---------------------------------------------------------------------------

namespace Text

variable {a b s t v : Text} {c : Char} {k : Bool}

theorem exists_stripRight (s : Text) : ∃ b : Text, b.allBlank = true ∧ s = s.stripRight ++ b := by
  refine ⟨(s.reverse.takeWhile isBlank).reverse, by simp [allBlank], ?_⟩
  rw [stripRight, ← List.reverse_append, List.takeWhile_append_dropWhile, List.reverse_reverse]

theorem stripRight_append (ha : a.getLast?.any isBlank = false) (hb : b.allBlank = true) :
    stripRight (a ++ b) = a := by
  have hrev : allBlank b.reverse = true := by simpa [allBlank] using hb
  have hhead : a.reverse.head?.any isBlank = false := by simpa using ha
  have h : dropBlank (b.reverse ++ a.reverse) = a.reverse := by
    rw [dropBlank_append hrev, dropBlank_of_head hhead]
  rw [stripRight, List.reverse_append, ← dropBlank, h, List.reverse_reverse]

theorem isBlank_getLast?_stripRight (s : Text) : s.stripRight.getLast?.any isBlank = false := by
  have h := head_dropBlank s.reverse
  rwa [← List.getLast?_reverse] at h

theorem afterStretch?_newline (h : ∀ x, afterStretch? (a ++ v ++ x) = some (k, x))
    (hv : v.allBlank = true) (hne : v ≠ []) (x : Text) :
    afterStretch? (a ++ ['\n'] ++ x) = some (k, x) := by
  obtain ⟨w, d, rfl⟩ := (List.eq_nil_or_concat v).resolve_left hne
  rw [List.concat_eq_append] at h hv
  simp only [allBlank, List.all_append, List.all_cons, List.all_nil, Bool.and_true,
    Bool.and_eq_true] at hv
  obtain ⟨c, hc, -, hline⟩ := getLast?_of_afterStretch? h
  obtain rfl : d = c := by simpa using hc
  obtain ⟨rfl, u, hu, ht⟩ := hline hv.2
  have hslash : '/' ∉ w := fun hmem => by cases List.all_eq_true.mp hv.1 _ hmem
  have hparts : a ++ w = '/' :: '/' :: u := by
    have : a ++ w ++ [d] = '/' :: '/' :: u ++ ['\n'] := by simpa using ht
    exact (List.append_inj' this rfl).1
  obtain ⟨e, rfl, rfl⟩ : ∃ e, a = '/' :: '/' :: e ∧ u = e ++ w := by
    rcases a with _ | ⟨_, _ | ⟨_, e⟩⟩
    · exact absurd (by simp_all) hslash
    · exact absurd (by simp_all) hslash
    · simp_all
  have he : '\n' ∉ e := fun hmem => hu (List.mem_append_left _ hmem)
  simp [afterStretch?_line, afterLine_newline he]

theorem Closed.newline (h : Closed (a ++ b)) (hb : b.allBlank = true) : Closed (a ++ ['\n']) := by
  generalize hs : a ++ b = s at h
  have hline : Closed ['\n'] := closed_of_plain (by simp [opensInert])
  induction h generalizing a with
  | nil =>
    obtain rfl := (List.append_eq_nil_iff.mp hs).1
    exact hline
  | @stretch k t u ht hu ih =>
    obtain ⟨v, rfl, hv⟩ | ⟨v, rfl, hv⟩ := List.append_eq_append_iff.mp hs
    · by_cases hne : v = []
      · subst hne
        rw [List.append_nil] at ht
        exact .stretch ht hline
      · have hblank : allBlank v = true := by
          rw [hv, allBlank, List.all_append, Bool.and_eq_true] at hb
          exact hb.1
        have hstretch := Closed.stretch (afterStretch?_newline ht hblank hne) .nil
        rwa [List.append_nil] at hstretch
    · rw [List.append_assoc]
      exact .stretch ht (ih hv.symm)
  | @code c u hc hu ih =>
    cases a with
    | nil => exact hline
    | cons d a =>
      obtain ⟨rfl, rfl⟩ := List.cons.inj hs
      apply Closed.code _ (ih rfl)
      exact afterStretch?_append_eq_none (afterStretch?_eq_none_of_append hc) (meets_of_head _ rfl)

theorem Closed.append_blanks (h : Closed a) (hb : b.allBlank = true) : Closed (a ++ b) := by
  have hblank : ∀ c ∈ b, isBlank c = true := List.all_eq_true.mp hb
  have hhead : b.head?.any (fun c => c == '/' || c == '*') = false := by
    cases b with
    | nil => rfl
    | cons c r =>
      have hc := hblank c List.mem_cons_self
      simp only [List.head?_cons, Option.any_some, Bool.or_eq_false_iff, beq_eq_false_iff_ne]
      constructor <;> rintro rfl <;> cases hc
  have hplain := closed_of_plain fun c hc => not_opensInert_of_isBlank (hblank c hc)
  exact h.append hplain (meets_of_head _ hhead)

end Text

namespace Splice

open Text

-- ---------------------------------------------------------------------------
-- The last closing brace
-- ---------------------------------------------------------------------------

/-- The text from the last closing brace in code on. -/
def fromLastBrace? (segs : List Segment) : Option Text :=
  (atLastBrace? segs).map (·.2)

theorem fromLastBrace?_cons (seg : Segment) (more : List Segment) :
    fromLastBrace? (seg :: more) = (fromLastBrace? more).or
      (if seg.isCode && seg.text.contains '}' then
        some ('}' :: (afterLast '}' seg.text ++ more.flatMap (·.text))) else none) := by
  rw [fromLastBrace?, atLastBrace?, fromLastBrace?]
  cases atLastBrace? more with
  | some parts => rfl
  | none =>
    simp only [Option.map_none, Option.none_or]
    split <;> rfl

theorem fromLastBrace?_pushCode (c : Char) (segs : List Segment) :
    fromLastBrace? (pushCode c segs) = (fromLastBrace? segs).or
      (if c = '}' then some (c :: segs.flatMap (·.text)) else none) := by
  have halone : fromLastBrace? (⟨[c], true⟩ :: segs) = (fromLastBrace? segs).or
      (if c = '}' then some (c :: segs.flatMap (·.text)) else none) := by
    rw [fromLastBrace?_cons]
    by_cases hc : c = '}'
    · subst hc
      rfl
    · simp [hc, Ne.symm hc]
  rcases segs with _ | ⟨⟨t, _ | _⟩, more⟩
  · exact halone
  · exact halone
  · simp only [pushCode, fromLastBrace?_cons, Option.or_assoc, Bool.true_and]
    congr 1
    by_cases ht : '}' ∈ t
    · obtain ⟨x, y, rfl, hy⟩ := exists_last ht
      have hcons : afterLast '}' (c :: (x ++ '}' :: y)) = y :=
        afterLast_append_cons (a := c :: x) hy
      simp [hcons, afterLast_append_cons hy]
    · by_cases hc : c = '}'
      · subst hc
        have hcons : afterLast '}' ('}' :: t) = t := afterLast_append_cons (a := []) ht
        simp [ht, hcons]
      · simp [ht, hc, Ne.symm hc]

variable {s r front back content : Text} {c : Char} {k : Bool} {segs : List Segment}

theorem append_of_atLastBrace? (h : atLastBrace? segs = some (front, back)) :
    front ++ back = segs.flatMap (·.text) := by
  induction segs generalizing front back with
  | nil => cases h
  | cons seg more ih =>
    rw [atLastBrace?] at h
    split at h
    · rename_i f b hmore
      cases h
      simp [← ih hmore]
    · split at h
      · rename_i hbrace
        cases h
        rw [Bool.and_eq_true, List.contains_iff_mem] at hbrace
        obtain ⟨x, y, htext, hy⟩ := exists_last hbrace.2
        simp [htext, throughLast_append hy, afterLast_append_cons hy]
      · cases h

theorem atLastBrace?_of_fromLastBrace? (h : fromLastBrace? s.segments = some back)
    (hs : s = front ++ back) : atLastBrace? s.segments = some (front, back) := by
  obtain ⟨⟨f, b⟩, hparts, rfl⟩ := Option.map_eq_some_iff.mp h
  have happend := append_of_atLastBrace? hparts
  rw [flatMap_text_segments, hs, List.append_left_inj] at happend
  rw [hparts, happend]

theorem fromLastBrace?_inert (h : afterInert? s = some r) :
    fromLastBrace? s.segments = fromLastBrace? r.segments := by
  simp [segments_inert h, fromLastBrace?_cons]

theorem fromLastBrace?_stretch (h : afterStretch? s = some (k, r)) :
    fromLastBrace? s.segments = fromLastBrace? r.segments :=
  eq_of_afterStretch? (f := fun s => fromLastBrace? s.segments) fromLastBrace?_inert h

theorem fromLastBrace?_code (h : afterStretch? (c :: r) = none) :
    fromLastBrace? (segments (c :: r)) =
      (fromLastBrace? r.segments).or (if c = '}' then some (c :: r) else none) := by
  rw [segments_cons (afterInert?_eq_none_iff.mpr h), fromLastBrace?_pushCode,
    flatMap_text_segments]

theorem fromLastBrace?_eq_none {s : Text} (h : .code '}' ∉ lexemes s) :
    fromLastBrace? s.segments = none := by
  obtain rfl | ⟨k, a, r, rfl, hlt, hstretch, hl⟩ | ⟨c, r, rfl, hcode, hl⟩ := lexemes_cases s
  · rw [segments_nil]
    rfl
  · rw [hl, List.mem_cons, not_or] at h
    rw [fromLastBrace?_stretch hstretch, fromLastBrace?_eq_none h.2]
  · rw [hl, List.mem_cons, not_or] at h
    have hc : c ≠ '}' := fun hc => h.1 (hc ▸ rfl)
    rw [fromLastBrace?_code hcode, fromLastBrace?_eq_none h.2, if_neg hc, Option.or_none]
termination_by s.length

/-- The text is `front`, its last closing brace in code and `back`. -/
structure LastBrace (content front back : Text) : Prop where
  text_eq : content = front ++ '}' :: back
  closed : Closed front
  last : .code '}' ∉ lexemes back

theorem lastBrace_of_lexemes {xs ys : List Lexeme} (h : lexemes s = xs ++ .code '}' :: ys)
    (hys : .code '}' ∉ ys) : LastBrace s (xs.flatMap Lexeme.text) (ys.flatMap Lexeme.text) := by
  induction xs generalizing s with
  | nil =>
    obtain rfl | ⟨k, a, r, rfl, -, -, hl⟩ | ⟨c, r, rfl, -, hl⟩ := lexemes_cases s
    · simp at h
    · simp [hl] at h
    · rw [hl, List.nil_append, List.cons.injEq] at h
      obtain ⟨hc, rfl⟩ := h
      cases hc
      rw [flatMap_text_lexemes]
      exact ⟨rfl, .nil, hys⟩
  | cons x xs ih =>
    obtain rfl | ⟨k, a, r, rfl, -, hstretch, hl⟩ | ⟨c, r, rfl, hcode, hl⟩ := lexemes_cases s
    · simp at h
    · rw [hl, List.cons_append, List.cons.injEq] at h
      obtain ⟨rfl, h⟩ := h
      obtain ⟨htext, hclosed, hlast⟩ := ih h
      -- the stretch ends before the brace, so it ends whatever follows
      have hne : r ≠ [] := by simp [htext]
      refine ⟨?_, .stretch (fun x => afterStretch?_swap hne hstretch) hclosed, hlast⟩
      rw [htext, List.flatMap_cons, List.append_assoc, Lexeme.text]
    · rw [hl, List.cons_append, List.cons.injEq] at h
      obtain ⟨rfl, h⟩ := h
      obtain ⟨htext, hclosed, hlast⟩ := ih h
      rw [htext] at hcode
      refine ⟨?_, .code (afterStretch?_eq_none_of_append hcode) hclosed, hlast⟩
      rw [htext, List.flatMap_cons, Lexeme.text, List.singleton_append, List.cons_append]

theorem fromLastBrace?_append (hfront : Closed front) (hback : .code '}' ∉ lexemes back) :
    fromLastBrace? (segments (front ++ '}' :: back)) = some ('}' :: back) := by
  induction hfront with
  | nil =>
    have hcode : afterStretch? ('}' :: back) = none := rfl
    rw [List.nil_append, fromLastBrace?_code hcode, fromLastBrace?_eq_none hback, if_pos rfl,
      Option.none_or]
  | @stretch k t a ht ha ih =>
    rw [List.append_assoc, fromLastBrace?_stretch (ht _)]
    exact ih
  | @code c a hc ha ih =>
    have hcode := afterStretch?_append_eq_none hc
      (meets_of_head (c :: a) (b := '}' :: back) rfl)
    rw [List.cons_append, fromLastBrace?_code hcode, ih, Option.some_or]

theorem LastBrace.atLastBrace?_eq (h : LastBrace content front back) :
    atLastBrace? content.segments = some (front, '}' :: back) := by
  apply atLastBrace?_of_fromLastBrace? _ h.text_eq
  rw [h.text_eq]
  exact fromLastBrace?_append h.closed h.last

theorem lastBrace_or_none (content : Text) :
    (∃ front back, LastBrace content front back) ∨ atLastBrace? content.segments = none := by
  by_cases h : .code '}' ∈ lexemes content
  · obtain ⟨xs, ys, hl, hys⟩ := exists_last h
    exact .inl ⟨_, _, lastBrace_of_lexemes hl hys⟩
  · exact .inr (Option.map_eq_none_iff.mp (fromLastBrace?_eq_none h))

-- ---------------------------------------------------------------------------
-- Methods in front of the brace
-- ---------------------------------------------------------------------------

def paragraph (method : Text × Text) : Text :=
  "\n\n" ++ block method

def indentation (front : Text) : Text :=
  let gap := front.drop front.stripRight.length
  if gap.contains '\n' then afterLast '\n' gap else []

variable {A B ms : List (Text × Text)} {m : Text × Text} {a : Text}

theorem flatMap_paragraph (h : ms ≠ []) :
    ms.flatMap paragraph = "\n\n" ++ List.intercalate "\n\n" (ms.map block) := by
  induction ms with
  | nil => exact absurd rfl h
  | cons m ms ih =>
    cases ms with
    | nil => simp [paragraph]
    | cons m' ms =>
      rw [List.flatMap_cons, ih (by simp), paragraph]
      simp [List.intercalate_cons_cons]

theorem insertMethods_nil (content : Text) : insertMethods content [] = content :=
  rfl

theorem insertMethods_of_none (h : atLastBrace? content.segments = none)
    (ms : List (Text × Text)) : insertMethods content ms = content := by
  simp [insertMethods, h]

theorem LastBrace.insertMethods_eq (h : LastBrace content front back) (hms : ms ≠ []) :
    insertMethods content ms = front.stripRight ++
      (ms.flatMap paragraph ++ ('\n' :: indentation front ++ '}' :: back)) := by
  have hne : ms.isEmpty = false := by simpa using hms
  simp [insertMethods, hne, h.atLastBrace?_eq, flatMap_paragraph hms, indentation]

/-- A method that can be put in: its name stays on its line, and its text ends with something to
see and, at the end of the line, in code. -/
structure Insertable (method : Text × Text) : Prop where
  name : '\n' ∉ method.1
  visible : ∃ c, method.2.getLast? = some c ∧ isBlank c = false
  ends : endsInCode (method.2 ++ ['\n']) = true

theorem exists_block_eq : ∃ indent marker : Text,
    (∀ c ∈ indent, opensInert c = false) ∧ '\n' ∉ marker ∧
      ∀ m, block m = indent ++ ('/' :: '/' :: (marker ++ m.1 ++ ['\n']) ++ (indent ++ m.2)) := by
  obtain ⟨marker, hmarker, hline⟩ : ∃ marker : Text, '\n' ∉ marker ∧
      ("    // Generated concrete method: " : Text) = ("    " : Text) ++ '/' :: '/' :: marker :=
    ⟨List.drop 6 "    // Generated concrete method: ", by decide, by decide⟩
  have hindent : ("\n    " : Text) = '\n' :: ("    " : Text) := by decide
  have hblock (m : Text × Text) : block m =
      ("    // Generated concrete method: " : Text) ++ m.1 ++ ("\n    " : Text) ++ m.2 := rfl
  refine ⟨"    ", marker, by simp [opensInert], hmarker, fun m => ?_⟩
  simp only [hblock, hline, hindent, List.append_assoc, List.cons_append, List.nil_append]

theorem Insertable.closed_paragraph (h : Insertable m) (ha : Closed (a ++ ['\n'])) :
    Closed (a ++ paragraph m ++ ['\n']) := by
  obtain ⟨indent, marker, hindent, hmarker, hblock⟩ := exists_block_eq
  have hname : '\n' ∉ marker ++ m.1 := by simp [hmarker, h.name]
  have hcomment (x : Text) :
      afterStretch? ('/' :: '/' :: (marker ++ m.1 ++ ['\n']) ++ x) = some (true, x) := by
    simpa [afterStretch?_line] using afterLine_newline hname x
  have hclosed : Closed (block m ++ ['\n']) := by
    have hbody := (closed_of_endsInCode h.ends).of_plain_append hindent
    simpa [hblock] using (Closed.stretch hcomment hbody).of_plain_append hindent
  have hline : Closed ('\n' :: (block m ++ ['\n'])) := .code rfl hclosed
  simpa [paragraph] using ha.append hline (meets_of_head _ rfl)

theorem closed_paragraphs (h : ∀ m ∈ ms, Insertable m) (ha : Closed (a ++ ['\n'])) :
    Closed (a ++ ms.flatMap paragraph ++ ['\n']) := by
  induction ms generalizing a with
  | nil => simpa using ha
  | cons m ms ih =>
    obtain ⟨hm, hms⟩ := List.forall_mem_cons.mp h
    simpa using ih hms (hm.closed_paragraph ha)

theorem isBlank_getLast?_paragraphs (h : ∀ m ∈ ms, Insertable m) (hne : ms ≠ []) (a : Text) :
    (a ++ ms.flatMap paragraph).getLast?.any isBlank = false := by
  obtain ⟨ms, m, rfl⟩ := (List.eq_nil_or_concat ms).resolve_left hne
  obtain ⟨c, hc, hvisible⟩ := (h m (by simp)).visible
  obtain ⟨indent, marker, -, -, hblock⟩ := exists_block_eq
  have hlast : (paragraph m).getLast? = some c := by
    simp [paragraph, hblock, List.getLast?_cons, hc]
  simp [hlast, hvisible]

theorem indentation_eq (ha : a.getLast?.any isBlank = false) (hs : s.allBlank = true) :
    indentation (a ++ s) = if s.contains '\n' then afterLast '\n' s else [] := by
  rw [indentation, stripRight_append ha hs, List.drop_left]

theorem allBlank_indentation (front : Text) :
    (indentation front).allBlank = true ∧ '\n' ∉ indentation front := by
  obtain ⟨b, hb, hfront⟩ := exists_stripRight front
  rw [hfront, indentation_eq (isBlank_getLast?_stripRight front) hb]
  split
  · rename_i hline
    obtain ⟨x, y, rfl, hy⟩ := exists_last (List.contains_iff_mem.mp hline)
    rw [afterLast_append_cons hy]
    simp only [allBlank, List.all_append, List.all_cons, Bool.and_eq_true] at hb
    exact ⟨hb.2.2, hy⟩
  · exact ⟨rfl, by simp⟩

theorem LastBrace.insertMethods (h : LastBrace content front back) (hms : ∀ m ∈ ms, Insertable m)
    (hne : ms ≠ []) : LastBrace (insertMethods content ms)
      (front.stripRight ++ ms.flatMap paragraph ++ '\n' :: indentation front) back := by
  obtain ⟨b, hb, hfront⟩ := exists_stripRight front
  refine ⟨by simp [h.insertMethods_eq hne], ?_, h.last⟩
  have hclosed : Closed (front.stripRight ++ ['\n']) := Closed.newline (hfront ▸ h.closed) hb
  simpa using (closed_paragraphs hms hclosed).append_blanks (allBlank_indentation front).1

theorem insertMethods_append (content : Text) (hA : ∀ m ∈ A, Insertable m)
    (hB : ∀ m ∈ B, Insertable m) :
    insertMethods (insertMethods content A) B = insertMethods content (A ++ B) := by
  by_cases hne : A = [] ∨ B = []
  · rcases hne with rfl | rfl
    · rw [insertMethods_nil, List.nil_append]
    · rw [insertMethods_nil, List.append_nil]
  rw [not_or] at hne
  obtain ⟨front, back, h⟩ | hnone := lastBrace_or_none content
  · have hlast := isBlank_getLast?_paragraphs hA hne.1 front.stripRight
    have hline : allBlank ('\n' :: indentation front) = true := (allBlank_indentation front).1
    have hindent : indentation
        (front.stripRight ++ A.flatMap paragraph ++ '\n' :: indentation front) =
          indentation front := by
      rw [indentation_eq hlast hline, List.contains_cons, beq_self_eq_true, Bool.true_or,
        if_pos rfl]
      exact afterLast_append_cons (a := []) (allBlank_indentation front).2
    rw [(h.insertMethods hA hne.1).insertMethods_eq hne.2, hindent, stripRight_append hlast hline,
      h.insertMethods_eq (by simp [hne.1])]
    simp
  · simp only [insertMethods_of_none hnone]

theorem LastBrace.exists_insertMethods_eq (h : LastBrace content front back)
    (ms : List (Text × Text)) : ∃ middle,
      Splice.insertMethods content ms = front.stripRight ++ (middle ++ '}' :: back) ∧
        ms.flatMap paragraph <+: middle := by
  by_cases hne : ms = []
  · subst hne
    obtain ⟨b, -, hfront⟩ := exists_stripRight front
    refine ⟨b, ?_, by simp⟩
    rw [insertMethods_nil, ← List.append_assoc, ← hfront, h.text_eq]
  · exact ⟨_, by rw [h.insertMethods_eq hne, List.append_assoc], List.prefix_append ..⟩

/-- Methods that are put in by two batches stand as if they had come at once. The text keeps what
stands from its last closing brace in code on, and but for blanks at its end what stands before. -/
theorem insertMethods_insertMethods (content : Text) (hA : ∀ m ∈ A, Insertable m)
    (hB : ∀ m ∈ B, Insertable m) :
    insertMethods (insertMethods content A) B = insertMethods content (A ++ B) ∧
      ∀ xs ys, lexemes content = xs ++ .code '}' :: ys → .code '}' ∉ ys →
        ∃ middle, insertMethods content (A ++ B) =
            stripRight (xs.flatMap Lexeme.text) ++ (middle ++ '}' :: ys.flatMap Lexeme.text) ∧
          (A ++ B).flatMap paragraph <+: middle := by
  refine ⟨insertMethods_append content hA hB, fun xs ys hlexemes hys => ?_⟩
  exact (lastBrace_of_lexemes hlexemes hys).exists_insertMethods_eq (A ++ B)

/-- A method text that is the comment of a line, and one with braces in code and in a literal. -/
theorem insertMethods_insertMethods_comment :
    Insertable ("f", "// \x7b") ∧ Insertable ("g", "g() \x7b '\x7d' \x7d") ∧
      insertMethods (insertMethods "A \x7b // \x7d\n  \x7d // \x7d" [("f", "// \x7b")])
          [("g", "g() \x7b '\x7d' \x7d")] =
        insertMethods "A \x7b // \x7d\n  \x7d // \x7d"
          [("f", "// \x7b"), ("g", "g() \x7b '\x7d' \x7d")] ∧
      ∃ middle, insertMethods "A \x7b // \x7d\n  \x7d // \x7d"
          [("f", "// \x7b"), ("g", "g() \x7b '\x7d' \x7d")] =
        ("A \x7b // \x7d" : Text) ++ (middle ++ ("\x7d // \x7d" : Text)) := by
  have hf : Insertable ("f", "// \x7b") :=
    ⟨by decide, ⟨'{', by decide, rfl⟩, by decide +kernel⟩
  have hg : Insertable ("g", "g() \x7b '\x7d' \x7d") :=
    ⟨by decide, ⟨'}', by decide, rfl⟩, by decide +kernel⟩
  have hlexemes : lexemes "A \x7b // \x7d\n  \x7d // \x7d" =
      [.code 'A', .code ' ', .code '{', .code ' ', .inert true "// \x7d\n", .code ' ', .code ' '] ++
        .code '}' :: [.code ' ', .inert true "// \x7d"] := by
    decide +kernel
  obtain ⟨hbatches, hkept⟩ := insertMethods_insertMethods "A \x7b // \x7d\n  \x7d // \x7d"
    (A := [("f", "// \x7b")]) (B := [("g", "g() \x7b '\x7d' \x7d")]) (by simpa using hf)
    (by simpa using hg)
  obtain ⟨middle, heq, -⟩ := hkept _ _ hlexemes (by decide)
  exact ⟨hf, hg, hbatches, middle, heq.trans (congrArg (· ++ _) (by decide))⟩

end Splice

end Monomorph
