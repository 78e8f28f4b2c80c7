import Monomorph.Table
import Monomorph.Text.Basic

/-!
# JSON

A reader that also takes `NaN`, `Infinity` and `-Infinity` for numbers and lets the last of
several values with one name win. Numbers are kept as written; integers may have at most
`maxDigits` digits. An escape may spell half of a character's pair of code units, so strings hold
letters and not only characters.
-/

namespace Monomorph

/-- What a string holds: a character, or a code unit that is half of a pair without the other. -/
inductive Json.Letter where
  | char (c : Char)
  | half (unit : Nat)
deriving DecidableEq, Repr

/-- A letter as a character, with `torn` in place of a half. -/
def Json.Letter.toChar (torn : Char) : Json.Letter → Char
  | .char c => c
  | .half _ => torn

inductive Json where
  | null
  | bool (b : Bool)
  | number (source : Text)
  | string (letters : List Json.Letter)
  | array (items : List Json)
  | object (fields : List (List Json.Letter × Json))

namespace Json

inductive Cause where
  | expectedValue
  | expectedName
  | expectedColon
  | expectedComma
  | extraData
  | unterminated
  | controlCharacter
  | badEscape
  | badUnicodeEscape
  | byteOrderMark
deriving DecidableEq, Repr

def Cause.text : Cause → Text
  | .expectedValue => "Expecting value"
  | .expectedName => "Expecting property name enclosed in double quotes"
  | .expectedColon => "Expecting ':' delimiter"
  | .expectedComma => "Expecting ',' delimiter"
  | .extraData => "Extra data"
  | .unterminated => "Unterminated string starting at"
  | .controlCharacter => "Invalid control character at"
  | .badEscape => "Invalid \\escape"
  | .badUnicodeEscape => "Invalid \\uXXXX escape"
  | .byteOrderMark => "Unexpected UTF-8 BOM (decode using utf-8-sig)"

inductive Error where
  /-- The text is not JSON from `place` on. -/
  | malformed (cause : Cause) (place : Text)
  | oversized (digits : Nat)
deriving DecidableEq, Repr

def maxDigits : Nat := 4300

def isSpace (c : Char) : Bool :=
  c == ' ' || c == '\t' || c == '\n' || c == '\r'

def skipSpace (s : Text) : Text :=
  s.dropWhile isSpace

theorem length_skipSpace_le (s : Text) : (skipSpace s).length ≤ s.length :=
  (List.dropWhile_suffix _).length_le

def hexDigit? (c : Char) : Option Nat :=
  if c.isDigit then some (c.toNat - '0'.toNat)
  else if 'a' ≤ c && c ≤ 'f' then some (c.toNat - 'a'.toNat + 10)
  else if 'A' ≤ c && c ≤ 'F' then some (c.toNat - 'A'.toNat + 10)
  else none

def unit? (s : Text) : Option Nat :=
  match s with
  | a :: b :: c :: d :: _ => do
    return (((← hexDigit? a) * 16 + (← hexDigit? b)) * 16 + (← hexDigit? c)) * 16 + (← hexDigit? d)
  | _ => none

def isHighSurrogate (n : Nat) : Bool :=
  0xD800 ≤ n && n < 0xDC00

def isLowSurrogate (n : Nat) : Bool :=
  0xDC00 ≤ n && n < 0xE000

def unitLetter (n : Nat) : Letter :=
  if isHighSurrogate n || isLowSurrogate n then .half n else .char (Char.ofNat n)

/-- Reads on behind the `u` of an escape: the letter, with the number of characters that spell it.
`place` is the `u`. -/
def readUnit (place s : Text) : Except Error (Letter × Nat) :=
  if s.length < 5 then .error (.malformed .badUnicodeEscape place)
  else
    match unit? s with
    | none => .error (.malformed .badUnicodeEscape place)
    | some high =>
      match s.drop 4 with
      | '\\' :: 'u' :: t =>
        if isHighSurrogate high && 5 ≤ t.length then
          match unit? t with
          | none => .error (.malformed .badUnicodeEscape ('u' :: t))
          | some low =>
            if isLowSurrogate low then
              .ok (.char (Char.ofNat (0x10000 + (high - 0xD800) * 0x400 + (low - 0xDC00))), 10)
            else .ok (unitLetter high, 4)
        else .ok (unitLetter high, 4)
      | _ => .ok (unitLetter high, 4)

def escape? : Char → Option Char
  | '"' => some '"'
  | '\\' => some '\\'
  | '/' => some '/'
  | 'b' => some '\x08'
  | 'f' => some '\x0c'
  | 'n' => some '\n'
  | 'r' => some '\r'
  | 't' => some '\t'
  | _ => none

/-- Reads a string from behind its opening quote, which stands at `start`. -/
def readString (start s : Text) :
    Except Error (List Letter × { r : Text // r.length ≤ s.length }) :=
  match s with
  | [] => .error (.malformed .unterminated start)
  | '"' :: r => .ok ([], ⟨r, by simp⟩)
  | ['\\'] => .error (.malformed .unterminated start)
  | '\\' :: 'u' :: r =>
    match readUnit ('u' :: r) r with
    | .error e => .error e
    | .ok (c, n) =>
      match readString start (r.drop n) with
      | .error e => .error e
      | .ok (t, u) => .ok (c :: t, ⟨u.1, by have := u.2; simp at this ⊢; omega⟩)
  | '\\' :: c :: r =>
    match escape? c with
    | none => .error (.malformed .badEscape ('\\' :: c :: r))
    | some d =>
      match readString start r with
      | .error e => .error e
      | .ok (t, u) => .ok (.char d :: t, ⟨u.1, by have := u.2; simp; omega⟩)
  | c :: r =>
    if c.toNat < 0x20 then .error (.malformed .controlCharacter (c :: r))
    else
      match readString start r with
      | .error e => .error e
      | .ok (t, u) => .ok (.char c :: t, ⟨u.1, by have := u.2; simp; omega⟩)
termination_by s.length
decreasing_by all_goals simp; try omega

theorem readString_nil (start : Text) :
    readString start [] = .error (.malformed .unterminated start) := by
  rw [readString]

def afterDigits (s : Text) : Text :=
  s.dropWhile Char.isDigit

/-- What follows a fraction, when one with a digit stands at the head. -/
def afterFraction (s : Text) : Text :=
  match s with
  | '.' :: d :: r => if d.isDigit then afterDigits r else s
  | _ => s

/-- What follows an exponent, when one with a digit stands at the head. -/
def afterExponent (s : Text) : Text :=
  match s with
  | e :: r =>
    if e = 'e' ∨ e = 'E' then
      let digits := match r with
        | sign :: t => if sign = '-' ∨ sign = '+' then t else r
        | [] => []
      if digits.head?.any Char.isDigit then afterDigits digits else s
    else s
  | [] => s

/-- What follows the whole part of a number: no digit may follow a leading zero. -/
def afterWhole? (s : Text) : Option Text :=
  let digits := match s with
    | '-' :: r => r
    | _ => s
  match digits with
  | '0' :: r => some r
  | d :: r => if d.isDigit then some (afterDigits r) else none
  | [] => none

def readNumber (s : Text) : Except Error (Json × Text) :=
  match afterWhole? s with
  | none => .error (.malformed .expectedValue s)
  | some whole =>
    let stop := afterExponent (afterFraction whole)
    let digits := (s.upTo whole).countP Char.isDigit
    if stop.length = whole.length ∧ maxDigits < digits then .error (.oversized digits)
    else .ok (.number (s.upTo stop), stop)

def words : List (Text × Json) :=
  [("null", .null), ("true", .bool true), ("false", .bool false), ("NaN", .number "NaN"),
    ("Infinity", .number "Infinity"), ("-Infinity", .number "-Infinity")]

/-- A value that is neither string, array nor object. -/
def readPlain (s : Text) : Except Error (Json × Text) :=
  match words.find? (·.1.isPrefixOf s) with
  | some (w, v) => .ok (v, s.drop w.length)
  | none => readNumber s

/-- Some characters of `s` have been read when there is less left. -/
def shorter (s : Text) (r : Json × Text) : Except Error (Json × Rest s) :=
  if h : r.2.length < s.length then .ok (r.1, ⟨r.2, h⟩)
  else .error (.malformed .expectedValue s)

mutual
def readValue (s : Text) : Except Error (Json × Rest s) :=
  match s with
  | '"' :: r =>
    match readString ('"' :: r) r with
    | .error e => .error e
    | .ok (t, u) => .ok (.string t, ⟨u.1, Nat.lt_of_le_of_lt u.2 (by simp)⟩)
  | '[' :: r =>
    match _h : skipSpace r with
    | ']' :: t =>
      .ok (.array [], ⟨t, by have := length_skipSpace_le r; rw [_h] at this; simp at this ⊢; omega⟩)
    | t =>
      match readItems t with
      | .error e => .error e
      | .ok (vs, u) =>
        .ok (.array vs, ⟨u.1, by
          have h₁ := length_skipSpace_le r
          have h₂ := u.2
          rw [_h] at h₁
          simp; omega⟩)
  | '\x7b' :: r =>
    match _h : skipSpace r with
    | '\x7d' :: t =>
      .ok (.object [], ⟨t, by have := length_skipSpace_le r; rw [_h] at this; simp at this ⊢; omega⟩)
    | t =>
      match readFields t with
      | .error e => .error e
      | .ok (fs, u) =>
        .ok (.object (Table.ofList fs).entries, ⟨u.1, by
          have h₁ := length_skipSpace_le r
          have h₂ := u.2
          rw [_h] at h₁
          simp; omega⟩)
  | s =>
    match readPlain s with
    | .error e => .error e
    | .ok r => shorter s r
termination_by (s.length, 0)
decreasing_by
  all_goals
    refine Prod.Lex.left _ _ ?_
    rw [← _h]
    exact Nat.lt_of_le_of_lt (length_skipSpace_le r) (by simp)

def readItems (s : Text) : Except Error (List Json × Rest s) :=
  match readValue s with
  | .error e => .error e
  | .ok (v, r) =>
    match _h : skipSpace r.1 with
    | ']' :: t =>
      .ok ([v], ⟨t, by
        have h₁ := length_skipSpace_le r.1
        have h₂ := r.2
        rw [_h] at h₁
        simp at h₁; omega⟩)
    | ',' :: t =>
      match readItems (skipSpace t) with
      | .error e => .error e
      | .ok (vs, u) =>
        .ok (v :: vs, ⟨u.1, by
          have h₁ := length_skipSpace_le r.1
          have h₂ := r.2
          have h₃ := length_skipSpace_le t
          have h₄ := u.2
          rw [_h] at h₁
          simp at h₁; omega⟩)
    | t => .error (.malformed .expectedComma t)
termination_by (s.length, 1)
decreasing_by
  · exact Prod.Lex.right _ (by simp)
  · refine Prod.Lex.left _ _ ?_
    have h₁ := length_skipSpace_le r.1
    have h₂ := r.2
    have h₃ := length_skipSpace_le t
    rw [_h] at h₁
    simp at h₁; omega

def readFields (s : Text) : Except Error (List (List Letter × Json) × Rest s) :=
  match s with
  | '"' :: q =>
    match readString ('"' :: q) q with
    | .error e => .error e
    | .ok (name, r) =>
      match _hc : skipSpace r.1 with
      | ':' :: t =>
        match readValue (skipSpace t) with
        | .error e => .error e
        | .ok (v, u) =>
          match _h : skipSpace u.1 with
          | '\x7d' :: w =>
            .ok ([(name, v)], ⟨w, by
              have h₁ := length_skipSpace_le r.1
              have h₂ := r.2
              have h₃ := length_skipSpace_le t
              have h₄ := u.2
              have h₅ := length_skipSpace_le u.1
              rw [_hc] at h₁
              rw [_h] at h₅
              simp at h₁ h₅ ⊢; omega⟩)
          | ',' :: w =>
            match readFields (skipSpace w) with
            | .error e => .error e
            | .ok (fs, x) =>
              .ok ((name, v) :: fs, ⟨x.1, by
                have h₁ := length_skipSpace_le r.1
                have h₂ := r.2
                have h₃ := length_skipSpace_le t
                have h₄ := u.2
                have h₅ := length_skipSpace_le u.1
                have h₆ := length_skipSpace_le w
                have h₇ := x.2
                rw [_hc] at h₁
                rw [_h] at h₅
                simp at h₁ h₅ ⊢; omega⟩)
          | w => .error (.malformed .expectedComma w)
      | t => .error (.malformed .expectedColon t)
  | s => .error (.malformed .expectedName s)
termination_by (s.length, 1)
decreasing_by
  · refine Prod.Lex.left _ _ ?_
    have h₁ := length_skipSpace_le r.1
    have h₂ := r.2
    have h₃ := length_skipSpace_le t
    rw [_hc] at h₁
    simp at h₁ ⊢; omega
  · refine Prod.Lex.left _ _ ?_
    have h₁ := length_skipSpace_le r.1
    have h₂ := r.2
    have h₃ := length_skipSpace_le t
    have h₄ := u.2
    have h₅ := length_skipSpace_le u.1
    have h₆ := length_skipSpace_le w
    rw [_hc] at h₁
    rw [_h] at h₅
    simp at h₁ h₅ ⊢; omega
end

def parse (s : Text) : Except Error Json :=
  if s.head? = some '\ufeff' then .error (.malformed .byteOrderMark s)
  else
    match readValue (skipSpace s) with
    | .error e => .error e
    | .ok (v, r) =>
      match skipSpace r.1 with
      | [] => .ok v
      | t => .error (.malformed .extraData t)

def field? (name : Text) : Json → Option Json
  | .object fields => fields.lookup (name.map .char)
  | _ => none

end Json

end Monomorph
