import Monomorph.Text.Blank

/-!
# Names

A name is a run of ASCII letters, digits and underscores that does not start with a digit.
-/

namespace Monomorph

def isNameStart (c : Char) : Bool :=
  c.isAlpha || c == '_'

def isNameChar (c : Char) : Bool :=
  c.isAlphanum || c == '_'

theorem isNameChar_of_isNameStart {c : Char} (h : isNameStart c) : isNameChar c := by
  simp only [isNameStart, isNameChar, Char.isAlphanum, Bool.or_eq_true] at h ⊢
  exact h.imp .inl id

namespace Text

def nameRun (s : Text) : Text :=
  s.takeWhile isNameChar

def afterNameRun (s : Text) : Text :=
  s.dropWhile isNameChar

theorem nameRun_append_afterNameRun (s : Text) : s.nameRun ++ s.afterNameRun = s :=
  List.takeWhile_append_dropWhile

theorem length_afterNameRun_le (s : Text) : s.afterNameRun.length ≤ s.length :=
  (List.dropWhile_suffix _).length_le

theorem length_afterNameRun_lt {c : Char} {r : Text} (h : isNameChar c) :
    (afterNameRun (c :: r)).length < (c :: r).length := by
  simp only [afterNameRun, List.dropWhile_cons_of_pos h, List.length_cons]
  have := (List.dropWhile_suffix isNameChar (l := r)).length_le
  omega

def afterName (s : Text) : Text :=
  s.afterNameRun.dropBlank

theorem length_afterName_lt {c : Char} {r : Text} (h : isNameChar c) :
    (afterName (c :: r)).length < (c :: r).length :=
  Nat.lt_of_le_of_lt (length_dropBlank_le _) (length_afterNameRun_lt h)

theorem length_lt_of_afterName {c d : Char} {r t : Text} (hc : isNameChar c)
    (h : afterName (c :: r) = d :: t) : t.length < (c :: r).length := by
  have := length_afterName_lt (r := r) hc
  rw [h] at this
  exact Nat.lt_of_succ_lt this

def isName : Text → Bool
  | [] => false
  | c :: r => isNameStart c && r.all isNameChar

end Text

end Monomorph
