import Monomorph.Lexical.Inert

/-!
# Approaches

A scan may begin before its text. There it meets no character, only comments: these are looked
for as whole words, and for words an offset below zero counts from the end.
-/

namespace Monomorph.Text

/-- What follows the comments at an offset, when there are any. The end of a block comment is
looked for two offsets further on. -/
def afterCommentsAt? (t : Text) (i : Int) : Option Text :=
  match t.drop (t.clip i) with
  | '/' :: '/' :: r => some (afterLine r).afterComments
  | '/' :: '*' :: _ => some (afterBlock (t.drop (t.clip (i + 2)))).afterComments
  | _ => none

/-- Where a scan that begins `n` characters before the text comes into it, and how many of these
it steps over. Behind comments it goes on inside the text. -/
def approach (t : Text) : (n : Nat) → Nat × Text
  | 0 => (0, t)
  | n + 1 =>
    match t.afterCommentsAt? (-(n + 1)) with
    | some r => (0, r)
    | none => ((t.approach n).1 + 1, (t.approach n).2)

/-- Where a scan from an offset comes into the text. -/
def enter (t : Text) (i : Int) : Text :=
  if i < 0 then (t.approach (-i).toNat).2 else t.drop i.toNat

theorem enter_natCast (t : Text) (n : Nat) : t.enter n = t.drop n := by
  have h : ¬ (n : Int) < 0 := by omega
  simp [enter, h]

end Monomorph.Text
