import Monomorph.Lexical.Inert

/-!
# Bracket groups

A group runs from an opening bracket to the closing bracket that brings the depth back to zero.
Brackets in inert stretches do not count.
-/

namespace Monomorph.Text

/-- What follows the bracket that brings the depth from `depth` to zero. -/
def afterClosing? (opening closing : Char) (depth : Int) (s : Text) : Option Text :=
  match _h : afterInert? s with
  | some r => afterClosing? opening closing depth r
  | none =>
    match s with
    | [] => none
    | c :: r =>
      if c = opening then afterClosing? opening closing (depth + 1) r
      else if c = closing then
        if depth = 1 then some r else afterClosing? opening closing (depth - 1) r
      else afterClosing? opening closing depth r
termination_by s.length
decreasing_by
  · exact length_lt_of_afterInert? ‹_›
  all_goals simp

theorem length_lt_of_afterClosing? {opening closing : Char} {depth : Int} {s r : Text}
    (h : afterClosing? opening closing depth s = some r) : r.length < s.length := by
  fun_induction afterClosing? opening closing depth s with
  | case1 depth s t ht ih =>
    have := length_lt_of_afterInert? ht
    have := ih h
    omega
  | case2 => cases h
  | case4 => cases h; simp
  | case3 | case5 | case6 =>
    rename_i ih
    have := ih h
    simp; omega

/-- What follows the group at the head of `s`: none when the text does not start with `opening`
or the group is never closed. -/
def afterGroup? (opening closing : Char) (s : Text) : Option Text :=
  if s.head? = some opening then afterClosing? opening closing 0 s else none

theorem length_lt_of_afterGroup? {opening closing : Char} {s r : Text}
    (h : afterGroup? opening closing s = some r) : r.length < s.length := by
  unfold afterGroup? at h
  split at h
  · exact length_lt_of_afterClosing? h
  · cases h

def afterGroup (opening closing : Char) (s : Text) : Text :=
  (afterGroup? opening closing s).getD []

theorem length_afterGroup_le (opening closing : Char) (s : Text) :
    (afterGroup opening closing s).length ≤ s.length := by
  unfold afterGroup
  cases h : afterGroup? opening closing s with
  | none => simp
  | some r => exact Nat.le_of_lt (length_lt_of_afterGroup? h)

end Monomorph.Text
