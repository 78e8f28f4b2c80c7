import Monomorph.Diagnostic.Code
import Monomorph.TypeExpr.Basic

/-!
# References in source text

`Name<Argument, ...>` as it stands in source, with blanks between its parts. Every node keeps the
offsets between which it was found. Reading stops right after the bracket that closes the
reference; a fault tells what is wrong and where.
-/

namespace Monomorph

structure Span where
  start : Nat
  stop : Nat
deriving DecidableEq, Repr

structure Located where
  name : Text
  span : Span
  args : List Located := []
deriving Repr

namespace Located

mutual
def toExpr : Located → TypeExpr
  | ⟨n, _, as⟩ => ⟨n, toExprs as⟩
def toExprs : List Located → List TypeExpr
  | [] => []
  | a :: as => a.toExpr :: toExprs as
end

mutual
/-- Every argument at any depth, each before its own arguments. -/
def nested : Located → List Located
  | ⟨_, _, as⟩ => nestedAll as
def nestedAll : List Located → List Located
  | [] => []
  | a :: as => a :: (a.nested ++ nestedAll as)
end

end Located

/-- Why a reader gave up: the issue, the place it is about, and the place reading had reached. -/
structure Fault where
  issue : Issue
  place : Text
  reached : Text
deriving Repr

def Fault.here (issue : Issue) (s : Text) : Fault :=
  ⟨issue, s, s⟩

namespace Located

/-- Reads one type argument of a text of `length` characters. What stands behind its opening
bracket is left to `inner`. -/
def readArgumentWith (length : Nat) (s : Text)
    (inner : (r : Text) → r.length < s.length → Except Fault (List Located × Rest r)) :
    Except Fault (Located × Rest s) :=
  match hs : s.dropBlank with
  | [] => .error (.here .noTypeName [])
  | c :: r =>
    if hc : isNameStart c then
      let start := Text.offset length (c :: r)
      let name := Text.nameRun (c :: r)
      let rest := Text.afterNameRun (c :: r)
      have hrest : rest.length < s.length := by
        have h₁ := Text.length_afterNameRun_lt (r := r) (isNameChar_of_isNameStart hc)
        have h₂ := Text.length_dropBlank_le s
        rw [hs] at h₂
        exact Nat.lt_of_lt_of_le h₁ h₂
      match hb : rest.dropBlank with
      | '<' :: t =>
        have ht : t.length < s.length := Nat.lt_trans (Text.length_lt_of_dropBlank hb) hrest
        match inner t ht with
        | .ok (args, u) =>
          .ok (⟨name, ⟨start, Text.offset length u.1⟩, args⟩, u.mono ht)
        | .error f => .error f
      | t =>
        .ok (⟨name, ⟨start, Text.offset length rest⟩, []⟩, ⟨t, by
          have h₁ := Text.length_dropBlank_le rest
          rw [hb] at h₁
          exact Nat.lt_of_le_of_lt h₁ hrest⟩)
    else .error (.here .noTypeName (c :: r))

/-- Reads the arguments behind an opening bracket, through the bracket that closes them. -/
def readArguments (length : Nat) (s : Text) : Except Fault (List Located × Rest s) :=
  match readArgumentWith length s fun r _ => readArguments length r with
  | .error f => .error f
  | .ok (a, r) =>
    match hr : r.1.dropBlank with
    | '>' :: t =>
      .ok ([a], ⟨t, Nat.lt_trans (Text.length_lt_of_dropBlank hr) r.2⟩)
    | ',' :: t =>
      have ht : t.length < s.length := Nat.lt_trans (Text.length_lt_of_dropBlank hr) r.2
      match readArguments length t with
      | .ok (as, u) => .ok (a :: as, u.mono ht)
      | .error f => .error f
    | [] => .error (.here (.badArgument "end of input") [])
    | c :: t => .error (.here (.badArgument [c]) (c :: t))
termination_by s.length

def readArgument (length : Nat) (s : Text) : Except Fault (Located × Rest s) :=
  readArgumentWith length s fun r _ => readArguments length r

def readBracket (length : Nat) (s : Text) : Except Fault (List Located × Rest s) :=
  match s with
  | '<' :: r =>
    match readArguments length r with
    | .ok (args, t) => .ok (args, t.cons '<')
    | .error f => .error f
  | _ => .error (.here .noOpening s)

end Located

end Monomorph
