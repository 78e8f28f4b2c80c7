import Monomorph.Lexical.Group
import Monomorph.Parameters
import Monomorph.Table

/-!
# Class templates

A template is a declaration `[annotations] [modifiers] class Name<T, U> [header] { body }`. Its
modifiers are the names and annotations right before `class`. The word `sharing` belongs to them
only behind `with`, `without` or `inherited`, and those only in front of `sharing`; a run of
modifiers that breaks this rule is dropped.
-/

namespace Monomorph

structure Template where
  className : Text
  parameters : List Text
  body : Text
  modifiers : Text := []
  /-- From the first modifier through the parameter list. -/
  declaration : Text := []
  /-- The parameter list as written, brackets included. -/
  bracket : Text := []
  /-- Between the parameter list and the body. -/
  header : Text := " "
  span : Span := ⟨0, 0⟩
  bodyStart : Nat := 0
deriving Repr

namespace Template

def title (t : Template) : Text :=
  t.className ++ '<' :: (List.intercalate ", " t.parameters ++ ">")

def toBody (s : Text) : Text :=
  match _h : s.afterInert? with
  | some r => toBody r
  | none =>
    match s with
    | [] => []
    | c :: r => if c = '{' then c :: r else toBody r
termination_by s.length
decreasing_by
  · exact Text.length_lt_of_afterInert? ‹_›
  · simp

theorem length_toBody_le (s : Text) : (toBody s).length ≤ s.length := by
  fun_induction toBody s with
  | case1 s r h ih => exact Nat.le_trans ih (Nat.le_of_lt (Text.length_lt_of_afterInert? h))
  | case2 => simp
  | case3 => simp
  | case4 c r h hc ih => simp; omega

/-- Reads on behind the word `class`, which stands at `keyword` in a declaration that begins at
`start`. A class without parameters is no template. -/
def readDeclaration (length : Nat) (start keyword s : Text) :
    Except Fault (Option Template × { r : Text // r.length ≤ s.length }) :=
  let g := s.afterGap
  have hg : g.length ≤ s.length := Text.length_afterGap_le s
  have hr : g.afterNameRun.length ≤ s.length :=
    Nat.le_trans (Text.length_afterNameRun_le g) hg
  have hn : g.afterName.length ≤ s.length :=
    Nat.le_trans (Text.length_dropBlank_le _) hr
  if !g.nameRun.isName then .ok (none, ⟨g.afterNameRun, hr⟩)
  else if g.afterName.head? ≠ some '<' then .ok (none, ⟨g.afterName, hn⟩)
  else
    match Parameters.read true g.afterName with
    | .error f => .error f
    | .ok (params, p) =>
      let body := toBody p.1
      let stop := body.afterGroup '{' '}'
      .ok (some {
        className := g.nameRun
        parameters := params
        body := body.upTo stop
        modifiers := (start.upTo keyword).strip
        declaration := start.upTo p.1
        bracket := g.afterName.upTo p.1
        header := p.1.upTo body
        span := ⟨Text.offset length start, Text.offset length stop⟩
        bodyStart := Text.offset length body },
      ⟨stop, Nat.le_trans (body.length_afterGroup_le '{' '}') (Nat.le_trans (length_toBody_le p.1)
        (Nat.le_trans (Nat.le_of_lt p.2) hn))⟩)

/-- What follows an annotation, read from behind its `@`: a name and, after blanks, a group in
parentheses. -/
def afterAtSign (r : Text) : Text :=
  if r.afterName.head? = some '(' then r.afterName.afterGroup '(' ')' else r.afterName

theorem length_afterAtSign_le (r : Text) : (afterAtSign r).length ≤ r.length := by
  have h : r.afterName.length ≤ r.length :=
    Nat.le_trans (Text.length_dropBlank_le _) (Text.length_afterNameRun_le r)
  unfold afterAtSign
  split
  · exact Nat.le_trans (Text.length_afterGroup_le ..) h
  · exact h

def isSharingLead (word : Text) : Bool :=
  word == "with" || word == "without" || word == "inherited"

/-- The templates from the place `s` on. `run` is where the current run of modifiers begins,
`sharing` tells that `sharing` has to follow, and `dotted` that a dot stands right before `s`. -/
def scan (length : Nat) (run : Option Text) (sharing dotted : Bool) (s : Text) :
    Except Fault (List Template) :=
  match _hi : s.afterInert? with
  | some r => scan length run sharing false r
  | none =>
    match s with
    | [] => .ok []
    | c :: r =>
      if isBlank c then scan length run sharing false r
      else if c = '@' then
        let run := if sharing then none else run
        scan length (run.or (some (c :: r))) false false (afterAtSign r)
      else if _hc : isNameChar c then
        let word := Text.nameRun (c :: r)
        let rest := Text.afterNameRun (c :: r)
        if !isNameStart c then scan length none false false rest
        else if word = "sharing" then
          scan length (if sharing then run.or (some (c :: r)) else none) false false rest
        else
          let run := if sharing then none else run
          if word ≠ "class" ∨ dotted then
            scan length (run.or (some (c :: r))) (isSharingLead word) false rest
          else
            match readDeclaration length (run.getD (c :: r)) (c :: r) rest with
            | .error f => .error f
            | .ok (found, t) =>
              match scan length none false false t.1 with
              | .error f => .error f
              | .ok more => .ok (found.toList ++ more)
      else scan length none false (c == '.') r
termination_by s.length
decreasing_by
  · exact Text.length_lt_of_afterInert? ‹_›
  · simp
  · have := length_afterAtSign_le r
    simp; omega
  · exact Text.length_afterNameRun_lt _hc
  · exact Text.length_afterNameRun_lt _hc
  · exact Text.length_afterNameRun_lt _hc
  · exact Nat.lt_of_le_of_lt t.2 (Text.length_afterNameRun_lt _hc)
  · simp

def find (text : Text) : Except Fault (Table Text Template) :=
  match scan text.length none false false text with
  | .error f => .error f
  | .ok ts => .ok (.ofList (ts.map fun t => (t.className, t)))

/-- The name behind the first word `class` that has one. -/
def firstClassName? (s : Text) : Option Text :=
  match _hi : s.afterInert? with
  | some r => firstClassName? r
  | none =>
    match s with
    | [] => none
    | c :: r =>
      if _hc : isNameChar c then
        let rest := Text.afterNameRun (c :: r)
        if Text.nameRun (c :: r) = "class" then
          let g := rest.afterGap
          if g.nameRun.isName then some g.nameRun else firstClassName? g.afterNameRun
        else firstClassName? rest
      else firstClassName? r
termination_by s.length
decreasing_by
  · exact Text.length_lt_of_afterInert? ‹_›
  · exact Nat.lt_of_le_of_lt (Nat.le_trans (Text.length_afterNameRun_le _)
      (Text.length_afterGap_le _)) (Text.length_afterNameRun_lt _hc)
  · exact Text.length_afterNameRun_lt _hc
  · simp

end Template

end Monomorph
