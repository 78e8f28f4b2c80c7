import Monomorph.Proofs.Lexemes

/-!
# Characters of code

A text is read character by character, and a mode tells what the next character stands in: code, the
comment of a line, a block comment or a string literal. `marked` is the text with every character
marked as code or not. Scanners jump over whole comments and literals instead, and the two agree:
what is jumped over is marked as inert (`marked_inert`), where nothing is jumped over a character of
code stands (`marked_code`), and the parts of a text carry the marks of its characters
(`flatMap_marked_segments`).
-/

namespace Monomorph

inductive Mode where
  | code
  | line
  | block
  | quoted

structure Marked where
  char : Char
  isCode : Bool
deriving DecidableEq, Repr

namespace Text

/-- The characters of a text that begins in the given mode. Two characters open a comment, two end a
block comment, and a backslash takes the next character of a literal with it. -/
def markedFrom : Mode → Text → List Marked
  | _, [] => []
  | .code, '/' :: '/' :: r => ⟨'/', false⟩ :: ⟨'/', false⟩ :: markedFrom .line r
  | .code, '/' :: '*' :: r => ⟨'/', false⟩ :: ⟨'*', false⟩ :: markedFrom .block r
  | .code, '\'' :: r => ⟨'\'', false⟩ :: markedFrom .quoted r
  | .code, c :: r => ⟨c, true⟩ :: markedFrom .code r
  | .line, c :: r => ⟨c, false⟩ :: markedFrom (if c = '\n' then .code else .line) r
  | .block, '*' :: '/' :: r => ⟨'*', false⟩ :: ⟨'/', false⟩ :: markedFrom .code r
  | .block, c :: r => ⟨c, false⟩ :: markedFrom .block r
  | .quoted, '\\' :: c :: r => ⟨'\\', false⟩ :: ⟨c, false⟩ :: markedFrom .quoted r
  | .quoted, c :: r => ⟨c, false⟩ :: markedFrom (if c = '\'' then .code else .quoted) r

def marked (s : Text) : List Marked :=
  markedFrom .code s

def inertMarks (a : Text) : List Marked :=
  a.map (⟨·, false⟩)

def Segment.marked (seg : Segment) : List Marked :=
  seg.text.map (⟨·, seg.isCode⟩)

variable {a r s t : Text} {c : Char} {m m' : Mode}

theorem marked_nil : marked [] = [] :=
  rfl

theorem map_char_marked (s : Text) : s.marked.map Marked.char = s := by
  rw [marked]
  generalize Mode.code = m
  fun_induction markedFrom m s <;> simp [*]

theorem length_marked (s : Text) : s.marked.length = s.length := by
  rw [← List.length_map (f := Marked.char), map_char_marked]

-- ---------------------------------------------------------------------------
-- Comments and literals
-- ---------------------------------------------------------------------------

/-- In a text that begins in the given mode, the first code stands in `r`. -/
def InertUpTo (m : Mode) (s r : Text) : Prop :=
  ∃ a, s = a ++ r ∧ markedFrom m s = inertMarks a ++ marked r

theorem InertUpTo.refl (r : Text) : InertUpTo .code r r :=
  ⟨[], rfl, rfl⟩

theorem InertUpTo.trans (h : InertUpTo m s t) (h' : InertUpTo .code t r) : InertUpTo m s r := by
  obtain ⟨a, rfl, ha⟩ := h
  obtain ⟨b, rfl, hb⟩ := h'
  refine ⟨a ++ b, (List.append_assoc ..).symm, ?_⟩
  rw [ha, marked, hb, inertMarks, inertMarks, inertMarks, List.map_append, List.append_assoc]

theorem InertUpTo.after (h : InertUpTo m t r) (b : Text)
    (hb : markedFrom m' (b ++ t) = inertMarks b ++ markedFrom m t) : InertUpTo m' (b ++ t) r := by
  obtain ⟨a, rfl, ha⟩ := h
  refine ⟨b ++ a, (List.append_assoc ..).symm, ?_⟩
  rw [hb, ha, inertMarks, inertMarks, inertMarks, List.map_append, List.append_assoc]

theorem inertUpTo_afterLine (s : Text) : InertUpTo .line s (afterLine s) := by
  fun_induction afterLine s with
  | case1 => exact ⟨[], rfl, rfl⟩
  | case2 r => exact (InertUpTo.refl r).after ['\n'] rfl
  | case3 c r hc ih =>
    refine ih.after [c] ?_
    rw [List.singleton_append, markedFrom, if_neg hc]
    rfl

theorem inertUpTo_afterBlock (s : Text) : InertUpTo .block s (afterBlock s) := by
  fun_induction afterBlock s with
  | case1 => exact ⟨[], rfl, rfl⟩
  | case2 r => exact (InertUpTo.refl r).after ['*', '/'] rfl
  | case3 c r hc ih =>
    refine ih.after [c] ?_
    rw [List.singleton_append, markedFrom]
    · rfl
    · exact hc

theorem inertUpTo_afterQuote (s : Text) : InertUpTo .quoted s (afterQuote s) := by
  fun_induction afterQuote s with
  | case1 => exact ⟨[], rfl, rfl⟩
  | case2 r => exact (InertUpTo.refl r).after ['\''] rfl
  | case3 c r ih => exact ih.after ['\\', c] rfl
  | case4 c r hq hb ih =>
    refine ih.after [c] ?_
    rw [List.singleton_append, markedFrom, if_neg hq]
    · rfl
    · exact hb

theorem inertUpTo_of_afterComment? (h : afterComment? s = some r) : InertUpTo .code s r := by
  unfold afterComment? at h
  split at h
  · cases h
    exact (inertUpTo_afterLine _).after ['/', '/'] rfl
  · cases h
    exact (inertUpTo_afterBlock _).after ['/', '*'] rfl
  · cases h

theorem inertUpTo_of_afterString? (h : afterString? s = some r) : InertUpTo .code s r := by
  unfold afterString? at h
  split at h
  · cases h
    exact (inertUpTo_afterQuote _).after ['\''] rfl
  · cases h

theorem inertUpTo_afterComments (s : Text) : InertUpTo .code s (afterComments s) := by
  fun_induction afterComments s with
  | case1 s r h ih => exact (inertUpTo_of_afterComment? h).trans ih
  | case2 s h => exact .refl s

theorem inertUpTo_of_afterInert? (h : afterInert? s = some r) : InertUpTo .code s r := by
  unfold afterInert? at h
  split at h
  · rename_i t ht
    cases h
    exact (inertUpTo_of_afterComment? ht).trans (inertUpTo_afterComments t)
  · exact inertUpTo_of_afterString? h

theorem marked_inert (h : afterInert? (a ++ r) = some r) :
    marked (a ++ r) = inertMarks a ++ marked r := by
  obtain ⟨b, hb, hmarked⟩ := inertUpTo_of_afterInert? h
  rw [List.append_cancel_right hb]
  rwa [List.append_cancel_right hb] at hmarked

theorem marked_code (h : afterInert? (c :: r) = none) :
    marked (c :: r) = ⟨c, true⟩ :: marked r := by
  rw [afterInert?_eq_none_iff, afterStretch?_cons_eq_none_iff] at h
  obtain ⟨hquote, hslash⟩ := h
  rw [marked, markedFrom, marked]
  · rintro t rfl rfl
    exact (hslash rfl).1 rfl
  · rintro t rfl rfl
    exact (hslash rfl).2 rfl
  · exact hquote

-- ---------------------------------------------------------------------------
-- Parts of a text
-- ---------------------------------------------------------------------------

theorem flatMap_marked_pushCode (c : Char) (segs : List Segment) :
    (pushCode c segs).flatMap Segment.marked = ⟨c, true⟩ :: segs.flatMap Segment.marked := by
  rcases segs with _ | ⟨⟨t, _ | _⟩, more⟩ <;> rfl

theorem flatMap_marked_segments (s : Text) : s.segments.flatMap Segment.marked = s.marked := by
  cases hi : afterInert? s with
  | some r =>
    have hlt := length_lt_of_afterInert? hi
    obtain ⟨a, rfl⟩ := suffix_of_afterInert? hi
    rw [segments_inert hi, List.flatMap_cons, flatMap_marked_segments r, marked_inert hi,
      upTo_append]
    rfl
  | none =>
    cases s with
    | nil => rw [segments_nil, List.flatMap_nil, marked_nil]
    | cons c r =>
      rw [segments_cons hi, flatMap_marked_pushCode, flatMap_marked_segments r, marked_code hi]
termination_by s.length

theorem flatMap_text_segments (s : Text) : s.segments.flatMap (·.text) = s := by
  have hchars := congrArg (List.map Marked.char) (flatMap_marked_segments s)
  rw [map_char_marked, List.map_flatMap] at hchars
  simpa [Segment.marked, Function.comp_def] using hchars

end Text

end Monomorph
