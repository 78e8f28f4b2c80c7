import Monomorph.Lexical.Name

/-!
# Inert stretches

Line comments, block comments and string literals in single quotes are inert: scanners step over
them. Everything else is code. A stretch that is never closed runs to the end of the text.

`segments` splits a text into its code and inert parts. Comments that follow one another directly
form one part, each string literal is a part of its own.
-/

namespace Monomorph.Text

def afterLine : Text → Text
  | [] => []
  | c :: r => if c = '\n' then r else afterLine r

def afterBlock : Text → Text
  | [] => []
  | '*' :: '/' :: r => r
  | _ :: r => afterBlock r

/-- What follows the closing quote. A backslash takes the next character with it. -/
def afterQuote : Text → Text
  | [] => []
  | '\'' :: r => r
  | '\\' :: _ :: r => afterQuote r
  | _ :: r => afterQuote r

def afterComment? : Text → Option Text
  | '/' :: '/' :: r => some (afterLine r)
  | '/' :: '*' :: r => some (afterBlock r)
  | _ => none

def afterString? : Text → Option Text
  | '\'' :: r => some (afterQuote r)
  | _ => none

theorem afterLine_suffix (s : Text) : afterLine s <:+ s := by
  fun_induction afterLine s with
  | case1 => exact List.suffix_rfl
  | case2 => exact List.suffix_cons ..
  | case3 _ _ _ ih => exact ih.trans (List.suffix_cons ..)

theorem afterBlock_suffix (s : Text) : afterBlock s <:+ s := by
  fun_induction afterBlock s with
  | case1 => exact List.suffix_rfl
  | case2 => exact (List.suffix_cons ..).trans (List.suffix_cons ..)
  | case3 _ _ _ ih => exact ih.trans (List.suffix_cons ..)

theorem afterQuote_suffix (s : Text) : afterQuote s <:+ s := by
  fun_induction afterQuote s with
  | case1 => exact List.suffix_rfl
  | case2 => exact List.suffix_cons ..
  | case3 _ _ ih => exact ih.trans ((List.suffix_cons ..).trans (List.suffix_cons ..))
  | case4 _ _ _ _ ih => exact ih.trans (List.suffix_cons ..)

theorem length_lt_of_afterComment? {s r : Text} (h : afterComment? s = some r) :
    r.length < s.length := by
  unfold afterComment? at h
  split at h
  · have := (afterLine_suffix ‹_›).length_le
    cases h; simp; omega
  · have := (afterBlock_suffix ‹_›).length_le
    cases h; simp; omega
  · cases h

theorem length_lt_of_afterString? {s r : Text} (h : afterString? s = some r) :
    r.length < s.length := by
  unfold afterString? at h
  split at h
  · have := (afterQuote_suffix ‹_›).length_le
    cases h; simp; omega
  · cases h

def afterComments (s : Text) : Text :=
  match _h : afterComment? s with
  | some r => afterComments r
  | none => s
termination_by s.length
decreasing_by exact length_lt_of_afterComment? ‹_›

theorem length_afterComments_le (s : Text) : (afterComments s).length ≤ s.length := by
  fun_induction afterComments s with
  | case1 s r h ih => exact Nat.le_trans ih (Nat.le_of_lt (length_lt_of_afterComment? h))
  | case2 s h => exact Nat.le_refl _

def afterGap (s : Text) : Text :=
  match _h : afterComment? s.dropBlank with
  | some r => afterGap r
  | none => s.dropBlank
termination_by s.length
decreasing_by
  exact Nat.lt_of_lt_of_le (length_lt_of_afterComment? ‹_›) (length_dropBlank_le s)

theorem length_afterGap_le (s : Text) : (afterGap s).length ≤ s.length := by
  fun_induction afterGap s with
  | case1 s r h ih =>
    have := length_lt_of_afterComment? h
    have := length_dropBlank_le s
    omega
  | case2 s h => exact length_dropBlank_le s

/-- What follows the inert stretch at the head of `s`, when there is one: a run of comments or
a string literal. -/
def afterInert? (s : Text) : Option Text :=
  match afterComment? s with
  | some r => some (afterComments r)
  | none => afterString? s

theorem length_lt_of_afterInert? {s r : Text} (h : afterInert? s = some r) :
    r.length < s.length := by
  unfold afterInert? at h
  split at h
  · rename_i t ht
    have := length_lt_of_afterComment? ht
    have := length_afterComments_le t
    cases h; omega
  · exact length_lt_of_afterString? h

structure Segment where
  text : Text
  isCode : Bool
deriving DecidableEq, Repr

def pushCode (c : Char) : List Segment → List Segment
  | ⟨t, true⟩ :: r => ⟨c :: t, true⟩ :: r
  | r => ⟨[c], true⟩ :: r

def segments (s : Text) : List Segment :=
  match _h : afterInert? s with
  | some r => ⟨s.upTo r, false⟩ :: segments r
  | none =>
    match s with
    | [] => []
    | c :: r => pushCode c (segments r)
termination_by s.length
decreasing_by
  · exact length_lt_of_afterInert? ‹_›
  · simp

end Monomorph.Text
