import Monomorph.Lexical.Inert

/-!
# Splicing

Cutting stretches out of a text together with their lines, and putting generated methods in front
of the last closing brace of a class.
-/

namespace Monomorph.Splice

def isIndent (c : Char) : Bool :=
  c == ' ' || c == '\t'

def dropLineEnd (s : Text) : Text :=
  match s.dropWhile isIndent with
  | '\r' :: '\n' :: r => r
  | '\n' :: r => r
  | r => r

/-- The offset behind the blanks and the line break at offset `i` of `text`. An offset below zero
counts from the end, and blanks that reach the end are followed by those at the start. None when
there is no such offset. -/
def lineEnd? (text : Text) (i : Int) : Option Int :=
  if text.length + i < 0 then none
  else
    let behind := text.drop (text.clip i)
    if i < 0 ∧ behind.all isIndent then some ↑(text.length - (dropLineEnd text).length)
    else some (i + ↑(behind.length - (dropLineEnd behind).length))

theorem isSome_lineEnd? (text : Text) {i : Int} (h : 0 ≤ i) : (lineEnd? text i).isSome := by
  have : ¬ (text.length + i < 0) := by omega
  simp only [lineEnd?, this, if_false]
  split <;> rfl

/-- Copies `text` from offset `copied` on without the spans, which come in order. A span that
starts before that offset or ends behind the text is left alone. Indentation in front of a span
and the line break behind it go with it. -/
def cutFrom? (text : Text) (copied : Int) : List (Int × Int) → Option Text
  | [] => some (text.drop (text.clip copied))
  | (start, stop) :: spans =>
    if start < copied ∨ stop > text.length then cutFrom? text copied spans
    else
      let indent := Text.afterLast '\n' (text.take (text.clip start))
      let first : Int := if indent.allBlank then ↑(text.clip start - indent.length) else start
      match lineEnd? text stop with
      | none => none
      | some next => (cutFrom? text next spans).map (text.slice copied first ++ ·)

theorem isSome_cutFrom? (text : Text) (copied : Int) (spans : List (Int × Int))
    (h : ∀ s ∈ spans, 0 ≤ s.2) : (cutFrom? text copied spans).isSome := by
  induction spans generalizing copied with
  | nil => rfl
  | cons s spans ih =>
    have later := fun copied => ih copied fun s hs => h s (List.mem_cons_of_mem _ hs)
    obtain ⟨next, hnext⟩ := Option.isSome_iff_exists.1 (isSome_lineEnd? text (h s (by simp)))
    simp only [cutFrom?]
    split
    · exact later copied
    · simp only [hnext, Option.isSome_map]
      exact later next

/-- Cuts out spans that are counted from `offset` before the text. None when a span ends so far
before the text that its end cannot be counted from the end either. -/
def cut? (text : Text) (spans : List (Int × Int)) (offset : Int) : Option Text :=
  let ordered := spans.mergeSort fun a b => a.1 < b.1 || (a.1 == b.1 && a.2 ≤ b.2)
  cutFrom? text 0 (ordered.map fun s => (s.1 - offset, s.2 - offset))

/-- Cuts out spans that end at or behind the start of the text. -/
def cut (text : Text) (spans : List (Int × Int)) (offset : Int) : Text :=
  (cut? text spans offset).getD text

/-- Splits before the last closing brace in code. -/
def atLastBrace? : List Text.Segment → Option (Text × Text)
  | [] => none
  | seg :: more =>
    match atLastBrace? more with
    | some (front, back) => some (seg.text ++ front, back)
    | none =>
      if seg.isCode && seg.text.contains '}' then
        some ((Text.throughLast '}' seg.text).dropLast,
          '}' :: (Text.afterLast '}' seg.text ++ more.flatMap (·.text)))
      else none

def block (method : Text × Text) : Text :=
  "    // Generated concrete method: " ++ method.1 ++ "\n    " ++ method.2

/-- Puts methods, given by name and text, in front of the last closing brace in code. A text
without one stays as it is. -/
def insertMethods (content : Text) (methods : List (Text × Text)) : Text :=
  if methods.isEmpty then content
  else
    match atLastBrace? content.segments with
    | none => content
    | some (front, back) =>
      let trimmed := front.stripRight
      let gap := front.drop trimmed.length
      let indent := if gap.contains '\n' then Text.afterLast '\n' gap else []
      trimmed ++ "\n\n" ++ List.intercalate "\n\n" (methods.map block) ++ "\n" ++ indent ++ back

end Monomorph.Splice
