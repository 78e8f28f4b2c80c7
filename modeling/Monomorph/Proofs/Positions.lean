import Mathlib.Algebra.GroupWithZero.Nat
import Monomorph.Diagnostic.Report
import Monomorph.Proofs.PathLaws

/-!
# Positions and carets

Line, column and line text of an offset are found by searches of their own. They agree with the
split of the text into lines: the lines before and the column add up to the offset, and the line
text is the line of that number. A report puts its caret under the character at the offset
(`Report.caret_under_offset`).
-/

namespace Monomorph

namespace Text

-- ---------------------------------------------------------------------------
-- Pieces between separators
-- ---------------------------------------------------------------------------

theorem length_splitAt (c : Char) (s : Text) : (splitAt c s).length = s.count c + 1 := by
  induction s with
  | nil => rfl
  | cons d s ih =>
    obtain ⟨rfl, hsplit⟩ | ⟨hd, p, ps, hs, hsplit⟩ := splitAt_cons_cases c d s
    · rw [hsplit, List.length_cons, ih, List.count_cons_self]
    · rw [hs] at ih
      rw [hsplit, List.count_cons_of_ne hd, ← ih, List.length_cons, List.length_cons]

theorem head?_splitAt (c : Char) (s : Text) :
    (splitAt c s).head? = some (s.takeWhile (· != c)) := by
  induction s with
  | nil => rfl
  | cons d s ih =>
    obtain ⟨rfl, hsplit⟩ | ⟨hd, p, ps, hs, hsplit⟩ := splitAt_cons_cases c d s
    · simp [hsplit]
    · rw [hs] at ih
      simpa [hsplit, List.takeWhile_cons, hd] using ih

theorem sum_length_splitAt (c : Char) (s : Text) :
    ((splitAt c s).map (·.length + 1)).sum = s.length + 1 := by
  induction s with
  | nil => rfl
  | cons d s ih =>
    obtain ⟨rfl, hsplit⟩ | ⟨hd, p, ps, hs, hsplit⟩ := splitAt_cons_cases c d s
    · simp [hsplit, ih, Nat.add_comm]
    · rw [hs] at ih
      rw [hsplit]
      simp only [List.map_cons, List.sum_cons, List.length_cons] at ih ⊢
      omega

/-- The piece at the end of `s` when `t` follows, and the pieces before it: there are as many of
these as separators in `s`, and what they leave of `s` is what follows its last separator. -/
theorem splitAt_append_cases (c : Char) (s t : Text) : ∃ pieces,
    splitAt c (s ++ t) = pieces ++ splitAt c (afterLast c s ++ t) ∧ pieces.length = s.count c ∧
      s.length = (pieces.map (·.length + 1)).sum + (afterLast c s).length := by
  by_cases hc : c ∈ s
  · obtain ⟨front, back, rfl, hback⟩ := exists_last hc
    refine ⟨splitAt c front, ?_, ?_, ?_⟩
    · rw [afterLast_append_cons hback, List.append_assoc, List.cons_append, splitAt_append]
    · rw [length_splitAt, List.count_append, List.count_cons_self,
        List.count_eq_zero_of_not_mem hback]
    · rw [sum_length_splitAt, afterLast_append_cons hback, List.length_append, List.length_cons]
      omega
  · have hall : afterLast c s = s := afterLast_append (a := []) hc
    exact ⟨[], by rw [hall, List.nil_append], (List.count_eq_zero_of_not_mem hc).symm,
      by simp [hall]⟩

-- ---------------------------------------------------------------------------
-- Lines and columns
-- ---------------------------------------------------------------------------

variable (t : Text) (i : Int)

theorem before_append_drop : t.before i ++ t.drop i.toNat = t :=
  List.take_append_drop ..

theorem length_before : ((t.before i).length : Int) = max 0 (min i t.length) := by
  rw [before, List.length_take]
  omega

theorem lines_at_offset :
    (t.before i).length = ((t.lines.take (t.lineNumber i - 1)).map (·.length + 1)).sum +
      (t.columnNumber i - 1) ∧
    t.lines[t.lineNumber i - 1]? = some (t.lineAt i) := by
  obtain ⟨pieces, hsplit, hcount, hlength⟩ :=
    splitAt_append_cases '\n' (t.before i) (t.drop i.toNat)
  rw [before_append_drop] at hsplit
  simp only [lines, lineNumber, columnNumber, Nat.add_sub_cancel, hsplit, ← hcount]
  constructor
  · rw [List.take_left, hlength]
  · have hline := not_mem_afterLast '\n' (t.before i)
    rw [List.getElem?_append_right (Nat.le_refl _), Nat.sub_self, ← List.head?_eq_getElem?,
      head?_splitAt, List.takeWhile_append_of_pos, lineAt]
    intro d hd
    simp only [bne_iff_ne, ne_eq]
    rintro rfl
    exact hline hd

theorem columnNumber_le : t.columnNumber i - 1 ≤ (t.lineAt i).length := by
  rw [columnNumber, lineAt, Nat.add_sub_cancel, List.length_append]
  exact Nat.le_add_right ..

end Text

-- ---------------------------------------------------------------------------
-- The caret
-- ---------------------------------------------------------------------------

namespace Diagnostic

theorem padding_eq_map {shown : Text} {column : Nat} (h : column - 1 ≤ shown.length) :
    padding shown column =
      (shown.take (column - 1)).map fun c => if c = '\t' then '\t' else ' ' := by
  rw [padding, Nat.sub_eq_zero_of_le h]
  exact List.append_nil _

theorem length_padding {shown : Text} {column : Nat} (h : column - 1 ≤ shown.length) :
    (padding shown column).length = column - 1 := by
  rw [padding_eq_map h, List.length_map, List.length_take, Nat.min_eq_left h]

theorem getElem?_padding {shown : Text} {column k : Nat} (h : column - 1 ≤ shown.length)
    (hk : k < column - 1) :
    (padding shown column)[k]? = some (if shown[k]? = some '\t' then '\t' else ' ') := by
  have hline := List.getElem?_eq_getElem (Nat.lt_of_lt_of_le hk h)
  rw [padding_eq_map h, List.getElem?_map, List.getElem?_take_of_lt hk, hline]
  simp

end Diagnostic

namespace Report

open Diagnostic

/-- An issue at an offset of a source, reported among others without colour and guides. Its line and
column, counted from zero here, tell the offset; the line shown is the line of that number; and the
caret stands behind as many characters as the column says, with the tabs of the line kept. -/
theorem caret_under_offset (source : Text) (filename : Option Text) (issue : Issue) (offset : Int)
    (cwd fallback : Text) (earlier later : List Diagnostic) :
    ∃ (line column : Nat) (pad : Text),
      source.positionAt offset = ⟨line + 1, column + 1⟩ ∧
      max 0 (min offset source.length) =
        ((((source.lines.take line).map (·.length + 1)).sum + column : Nat) : Int) ∧
      source.lines[line]? = some (source.lineAt offset) ∧
      column ≤ (source.lineAt offset).length ∧
      format ⟨false, false⟩ cwd
          ⟨fallback, earlier ++ inSource source filename issue offset :: later⟩ =
        List.intercalate "\n" (earlier.flatMap (layout ⟨false, false⟩ cwd fallback) ++
          [headline ⟨false, false⟩ cwd fallback (inSource source filename issue offset),
            "  | " ++ source.lineAt offset, "  ` " ++ pad ++ "^"] ++
          later.flatMap (layout ⟨false, false⟩ cwd fallback)) ∧
      pad.length = column ∧
      ∀ k < column,
        pad[k]? = some (if (source.lineAt offset)[k]? = some '\t' then '\t' else ' ') := by
  obtain ⟨hoffset, hline⟩ := source.lines_at_offset offset
  have hcolumn := source.columnNumber_le offset
  refine ⟨source.lineNumber offset - 1, source.columnNumber offset - 1,
    padding (source.lineAt offset) (source.columnNumber offset), ?_, ?_, hline, hcolumn, ?_,
    length_padding hcolumn, fun k hk => getElem?_padding hcolumn hk⟩
  · simp [Text.positionAt, Text.lineNumber, Text.columnNumber]
  · rw [← Text.length_before, hoffset]
  · have hmark : (max 1 (source.columnNumber offset : Int)).toNat = source.columnNumber offset := by
      rw [Text.columnNumber]
      omega
    rw [format, List.flatMap_append, List.flatMap_cons, List.append_assoc]
    simp only [layout, inSource, ofIssue, Text.positionAt, hmark]
    rfl

end Report

end Monomorph
