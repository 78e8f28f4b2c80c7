import Monomorph.Text.Quoted

/-!
# UTF-8

Strict decoding: no overlong forms, no surrogates, nothing above U+10FFFF. An error covers the
octets that could still have begun a character.
-/

namespace Monomorph

abbrev Bytes := List UInt8

namespace Utf8

inductive Reason where
  | invalidStart
  | invalidContinuation
  | unexpectedEnd
deriving DecidableEq, Repr

def Reason.text : Reason → Text
  | .invalidStart => "invalid start byte"
  | .invalidContinuation => "invalid continuation byte"
  | .unexpectedEnd => "unexpected end of data"

/-- `count` octets from offset `start`, the first of which is `first`, cannot be decoded. -/
structure DecodeError where
  reason : Reason
  start : Nat
  count : Nat
  first : UInt8
deriving DecidableEq, Repr

def DecodeError.message (e : DecodeError) : Text :=
  let place :=
    if e.count = 1 then
      "byte 0x" ++ Text.hex 2 e.first.toNat ++ " in position " ++ Text.ofNat e.start
    else
      "bytes in position " ++ Text.ofNat e.start ++ "-" ++ Text.ofNat (e.start + e.count - 1)
  "'utf-8' codec can't decode " ++ place ++ ": " ++ e.reason.text

def isTail (b : UInt8) : Bool :=
  0x80 ≤ b && b < 0xC0

def follows (a b : UInt8) : Bool :=
  isTail b &&
    (if a = 0xE0 then 0xA0 ≤ b else if a = 0xED then b < 0xA0
      else if a = 0xF0 then 0x90 ≤ b else if a = 0xF4 then b < 0x90 else true)

def assemble (lead : Nat) (tails : List UInt8) : Char :=
  Char.ofNat (tails.foldl (fun n b => n * 64 + b.toNat % 64) lead)

/-- Decodes octets of which the first has offset `pos`. -/
def decodeFrom (pos : Nat) : Bytes → Except DecodeError Text
  | [] => .ok []
  | a :: r =>
    let fail := fun reason count => .error ⟨reason, pos, count, a⟩
    if a < 0x80 then (Char.ofNat a.toNat :: ·) <$> decodeFrom (pos + 1) r
    else if a < 0xC2 ∨ 0xF5 ≤ a then fail .invalidStart 1
    else
      match r with
      | [] => fail .unexpectedEnd 1
      | b :: r =>
        if !follows a b then fail .invalidContinuation 1
        else if a < 0xE0 then (assemble (a.toNat % 32) [b] :: ·) <$> decodeFrom (pos + 2) r
        else
          match r with
          | [] => fail .unexpectedEnd 2
          | c :: r =>
            if !isTail c then fail .invalidContinuation 2
            else if a < 0xF0 then (assemble (a.toNat % 16) [b, c] :: ·) <$> decodeFrom (pos + 3) r
            else
              match r with
              | [] => fail .unexpectedEnd 3
              | d :: r =>
                if !isTail d then fail .invalidContinuation 3
                else (assemble (a.toNat % 8) [b, c, d] :: ·) <$> decodeFrom (pos + 4) r

def decode (bytes : Bytes) : Except DecodeError Text :=
  decodeFrom 0 bytes

def encode (t : Text) : Bytes :=
  t.flatMap String.utf8EncodeChar

end Utf8

/-- Every line break becomes a line feed. -/
def Text.unifyNewlines : Text → Text
  | [] => []
  | '\r' :: '\n' :: r => '\n' :: unifyNewlines r
  | '\r' :: r => '\n' :: unifyNewlines r
  | c :: r => c :: unifyNewlines r

end Monomorph
