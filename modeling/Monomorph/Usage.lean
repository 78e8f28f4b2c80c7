import Monomorph.Lexical.Group
import Monomorph.Table
import Monomorph.TypeExpr.Located

/-!
# Usages

A usage is a reference `Name<...>` in code whose name is not a built-in collection, on its own or
inside another reference. A bracket followed by `=` or a blank is a comparison. A bracket that
does not open a well-formed reference is passed over, and the search goes on behind it.

`Usage.find` lists the usages of a text by their literal text, and `Usage.replace` puts other
text in place of given literals. Both leave inert stretches alone.
-/

namespace Monomorph.Usage

/-- The usages inside a reference, each under its canonical text and, where the spelling differs,
also as it stands in `text`. -/
def inside (text : Text) (e : Located) : List (Text × Located) :=
  e.nested.flatMap fun a =>
    if a.args.isEmpty || isBuiltin a.name then []
    else
      let canonical := a.toExpr.render
      let literal := (text.take a.span.stop).drop a.span.start
      if literal = canonical then [(canonical, a)] else [(canonical, a), (literal, a)]

/-- Whether a bracket that has `s` behind it is a comparison. -/
def isComparison : Text → Bool
  | [] => false
  | c :: _ => c == '=' || isBlank c

/-- The usages from the place `s` of `text` on, in the order in which they are recorded. -/
def scan (text : Text) (s : Text) : List (Text × Located) :=
  match _hi : s.afterInert? with
  | some r => scan text r
  | none =>
    match s with
    | [] => []
    | c :: r =>
      if _hc : isNameChar c then
        if isNameStart c then
          match _hn : Text.afterName (c :: r) with
          | '<' :: t =>
            if isComparison t then scan text t
            else
              match Located.readArguments text.length t with
              | .error _ => scan text t
              | .ok (args, u) =>
                let start := Text.offset text.length (c :: r)
                let e : Located :=
                  ⟨Text.nameRun (c :: r), ⟨start, Text.offset text.length u.1⟩, args⟩
                let own := if isBuiltin e.name then [] else [(Text.upTo (c :: r) u.1, e)]
                own ++ inside text e ++ scan text u.1
          | t => scan text t
        else scan text (Text.afterNameRun (c :: r))
      else scan text r
termination_by s.length
decreasing_by
  · exact Text.length_lt_of_afterInert? ‹_›
  · exact Text.length_lt_of_afterName _hc _hn
  · exact Text.length_lt_of_afterName _hc _hn
  · exact Nat.lt_trans u.2 (Text.length_lt_of_afterName _hc _hn)
  · exact _hn ▸ Text.length_afterName_lt _hc
  · exact Text.length_afterNameRun_lt _hc
  · simp

def find (text : Text) : Table Text Located :=
  .ofList (scan text text)

def findKnown (known : Text → Bool) (text : Text) : Table Text TypeExpr :=
  ((find text).map Located.toExpr).filter fun _ e => known e.name

def match? (rules : List (Text × Text)) (s : Text) : Option (Text × Text) :=
  rules.find? fun rule => !rule.1.isEmpty && rule.1.isPrefixOf s

theorem length_drop_of_match? {rules : List (Text × Text)} {c : Char} {r : Text}
    {rule : Text × Text} (h : match? rules (c :: r) = some rule) :
    ((c :: r).drop rule.1.length).length < (c :: r).length := by
  have := List.find?_some h
  simp only [Bool.and_eq_true, Bool.not_eq_true', List.isEmpty_eq_false_iff] at this
  have := List.length_pos_iff.2 this.1
  simp only [List.length_drop, List.length_cons]
  omega

/-- Applies the first rule that fits wherever a name starts. `joined` tells whether a name
character stands before `s`. -/
def replaceFrom (rules : List (Text × Text)) (joined : Bool) (s : Text) : Text :=
  match _hi : s.afterInert? with
  | some r => s.upTo r ++ replaceFrom rules false r
  | none =>
    match s with
    | [] => []
    | c :: r =>
      match _hm : if isNameStart c && !joined then match? rules (c :: r) else none with
      | some rule =>
        rule.2 ++ replaceFrom rules (rule.1.getLast?.any isNameChar) ((c :: r).drop rule.1.length)
      | none => c :: replaceFrom rules (isNameChar c) r
termination_by s.length
decreasing_by
  · exact Text.length_lt_of_afterInert? ‹_›
  · split at _hm
    · exact length_drop_of_match? _hm
    · cases _hm
  · simp

/-- Puts the text of a rule in place of its literal, longer literals first, where no name
character stands before it. -/
def replace (text : Text) (rules : Table Text Text) : Text :=
  if rules.isEmpty then text else replaceFrom (Text.longestFirst rules.entries) false text

end Monomorph.Usage
