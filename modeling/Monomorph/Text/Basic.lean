/-!
# Text

Source text, names and paths are lists of code points. A place in a text is the suffix that
starts there, so a scanner maps a text to what is left of it, and the offset of a place is the
number of characters that the suffix lacks.
-/

namespace Monomorph

abbrev Text := List Char

instance : Coe String Text := ⟨String.toList⟩

def inRanges (ranges : List (Nat × Nat)) (c : Char) : Bool :=
  ranges.any fun (lo, hi) => lo ≤ c.toNat && c.toNat ≤ hi

namespace Text

/-- The part of `s` in front of its suffix `e`. -/
def upTo (s e : Text) : Text :=
  s.take (s.length - e.length)

theorem upTo_append (t e : Text) : upTo (t ++ e) e = t := by
  simp [upTo]

def offset (length : Nat) (s : Text) : Nat :=
  length - s.length

/-- An offset clipped to a text; one below zero counts from the end. -/
def clip (t : Text) (i : Int) : Nat :=
  if i < 0 then (t.length + i).toNat else min i.toNat t.length

theorem clip_natCast {t : Text} {i : Nat} (hi : i ≤ t.length) : t.clip i = i := by
  have h : ¬ (i : Int) < 0 := by omega
  simp [clip, h, hi]

def slice (t : Text) (i j : Int) : Text :=
  (t.take (t.clip j)).drop (t.clip i)

def find? (p : Text) : Text → Option Nat
  | [] => if p = [] then some 0 else none
  | c :: r => if p.isPrefixOf (c :: r) then some 0 else (find? p r).map (· + 1)

def occursIn (p t : Text) : Bool :=
  (find? p t).isSome

/-- The pieces between the occurrences of `c`; there is always one. -/
def splitAt (c : Char) : Text → List Text
  | [] => [[]]
  | d :: r =>
    if d = c then [] :: splitAt c r
    else match splitAt c r with
      | [] => [[d]]
      | p :: ps => (d :: p) :: ps

theorem splitAt_ne_nil (c : Char) (t : Text) : splitAt c t ≠ [] := by
  cases t with
  | nil => simp [splitAt]
  | cons d r =>
    rw [splitAt]
    split
    · simp
    · split <;> simp

def lines (t : Text) : List Text :=
  splitAt '\n' t

/-- What follows the last `c`, or all of the text when there is none. -/
def afterLast (c : Char) (t : Text) : Text :=
  (t.reverse.takeWhile (· != c)).reverse

/-- Everything up to and including the last `c`, or nothing when there is none. -/
def throughLast (c : Char) (t : Text) : Text :=
  (t.reverse.dropWhile (· != c)).reverse

theorem throughLast_append_afterLast (c : Char) (t : Text) :
    throughLast c t ++ afterLast c t = t := by
  rw [throughLast, afterLast, ← List.reverse_append, List.takeWhile_append_dropWhile,
    List.reverse_reverse]

/-- Order by code points, a shorter text before its extensions. -/
def ble : Text → Text → Bool
  | [], _ => true
  | _ :: _, [] => false
  | c :: s, d :: t => c.toNat < d.toNat || (c == d && ble s t)

/-- Longer texts come first; those of one length keep their order. -/
def longestFirst (rules : List (Text × Text)) : List (Text × Text) :=
  rules.mergeSort fun a b => b.1.length ≤ a.1.length

def ofNat (n : Nat) : Text :=
  Nat.toDigits 10 n

def ofInt : Int → Text
  | .ofNat n => ofNat n
  | .negSucc n => '-' :: ofNat (n + 1)

end Text

/-- A remainder of `s` that has lost at least one character. -/
abbrev Rest (s : Text) := { r : Text // r.length < s.length }

def Rest.mono {s t : Text} (h : s.length < t.length) (r : Rest s) : Rest t :=
  ⟨r.1, Nat.lt_trans r.2 h⟩

def Rest.cons {s : Text} (c : Char) (r : Rest s) : Rest (c :: s) :=
  r.mono (Nat.lt_succ_self _)

end Monomorph
