import Monomorph.Lexical.Inert
import Monomorph.Table

/-!
# Substitution

Replacing standing names: a name stands where no name character touches it on either side. All
names are replaced in one pass, so what is put in is never looked at again.
-/

namespace Monomorph.Substitution

/-- The first rule whose name stands at the head of `s`, as far as what follows is concerned. -/
def rule? (rules : List (Text × Text)) (s : Text) : Option (Text × Text) :=
  rules.find? fun rule =>
    rule.1.isPrefixOf s && !(s.drop rule.1.length).head?.any isNameChar

/-- Applies the first fitting rule at every place. `joined` tells whether a name character stands
before `s`. The empty name stands between any two characters that are not part of names. -/
def replaceFrom (rules : List (Text × Text)) (joined : Bool) (s : Text) : Text :=
  match if joined then none else rule? rules s with
  | some ([], value) =>
    match s with
    | [] => value
    | c :: r => value ++ c :: replaceFrom rules (isNameChar c) r
  | some (n :: name, value) =>
    match s with
    | [] => value
    | _ :: r =>
      value ++ replaceFrom rules ((n :: name).getLast?.any isNameChar) (r.drop name.length)
  | none =>
    match s with
    | [] => []
    | c :: r => c :: replaceFrom rules (isNameChar c) r
termination_by s.length
decreasing_by
  · simp
  · simp only [List.length_drop, List.length_cons]; omega
  · simp

def replaceName (text name value : Text) : Text :=
  replaceFrom [(name, value)] false text

def replaceNameInCode (text name value : Text) : Text :=
  text.segments.flatMap fun seg =>
    if seg.isCode then replaceName seg.text name value else seg.text

/-- Replaces every name of `rules` at once, the longest that fits first. -/
def substitute (text : Text) (rules : Table Text Text) : Text :=
  if rules.isEmpty then text else replaceFrom (Text.longestFirst rules.entries) false text

end Monomorph.Substitution
