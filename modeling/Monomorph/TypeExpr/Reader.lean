import Monomorph.TypeExpr.Basic

/-!
# Reading type arguments

Argument texts such as `String, Queue<Integer>`. Their grammar is called `type_args`:

    start     : type_expr ("," type_expr)*
    type_expr : NAME type_args?
    type_args : "<" type_expr ("," type_expr)* ">"
    NAME      : /[A-Za-z_][A-Za-z0-9_]*/

Between tokens only space, tab, form feed, carriage return and line feed may stand. The text is cut
into tokens, and a state machine takes them one by one, so the first token that cannot continue the
text is the one reported. `readList` stands for the parser that is generated from the grammar.
-/

namespace Monomorph

namespace TypeExpr

inductive Token where
  | name (text : Text)
  | opening
  | closing
  | comma
  | stray (c : Char)
deriving DecidableEq, Repr

namespace Token

def isSpace (c : Char) : Bool :=
  c == ' ' || c == '\t' || c == '\x0c' || c == '\r' || c == '\n'

def text : Token → Text
  | .name t => t
  | .opening => "<"
  | .closing => ">"
  | .comma => ","
  | .stray c => [c]

/-- The tokens with their columns, counted from one after the last line feed. -/
def scan (column : Nat) (s : Text) : List (Token × Nat) :=
  match s with
  | [] => []
  | c :: r =>
    if c = '\n' then scan 1 r
    else if isSpace c then scan (column + 1) r
    else if _h : isNameStart c then
      let word := Text.nameRun (c :: r)
      (.name word, column) :: scan (column + word.length) (Text.afterNameRun (c :: r))
    else
      let token :=
        if c = '<' then .opening else if c = '>' then .closing
        else if c = ',' then .comma else .stray c
      (token, column) :: scan (column + 1) r
termination_by s.length
decreasing_by
  · simp
  · simp
  · exact Text.length_afterNameRun_lt (isNameChar_of_isNameStart ‹_›)
  · simp

end Token

/-- What the last token was: none yet or a separator, a name that brackets may follow, or the
bracket that closed an expression. -/
inductive Phase where
  | expecting
  | named (name : Text)
  | complete
deriving DecidableEq, Repr

/-- A reading under way: the expressions whose brackets are open, innermost first, each with the
arguments read before it at its own level, and the expressions complete at this level, last
first. -/
structure Reading where
  enclosing : List (Text × List TypeExpr) := []
  done : List TypeExpr := []
  phase : Phase := .expecting

namespace Reading

/-- The expressions complete at this level once the name just read counts as simple. -/
def settled? (r : Reading) : Option (List TypeExpr) :=
  match r.phase with
  | .expecting => none
  | .named n => some (⟨n, []⟩ :: r.done)
  | .complete => some r.done

def step (r : Reading) : Token → Option Reading
  | .name n =>
    match r.phase with
    | .expecting => some { r with phase := .named n }
    | _ => none
  | .opening =>
    match r.phase with
    | .named n => some ⟨(n, r.done) :: r.enclosing, [], .expecting⟩
    | _ => none
  | .comma => r.settled?.map fun done => ⟨r.enclosing, done, .expecting⟩
  | .closing =>
    match r.settled?, r.enclosing with
    | some args, (n, outer) :: enclosing =>
      some ⟨enclosing, ⟨n, args.reverse⟩ :: outer, .complete⟩
    | _, _ => none
  | .stray _ => none

def result? (r : Reading) : Option (List TypeExpr) :=
  if r.enclosing.isEmpty then r.settled?.map List.reverse else none

end Reading

inductive ReadError where
  | unfinished
  | unexpectedToken (token : Token) (column : Nat)
  | unexpectedCharacter (c : Char) (column : Nat)
deriving DecidableEq, Repr

def ReadError.message : ReadError → Text
  | .unfinished => "unexpected end of type arguments"
  | .unexpectedToken t n => "unexpected '" ++ t.text ++ "' at column " ++ Text.ofNat n
  | .unexpectedCharacter c n => "unexpected character '" ++ [c] ++ "' at column " ++ Text.ofNat n

def ReadError.ofToken : Token → Nat → ReadError
  | .stray c, n => .unexpectedCharacter c n
  | t, n => .unexpectedToken t n

def Reading.run (r : Reading) : List (Token × Nat) → Except ReadError (List TypeExpr)
  | [] =>
    match r.result? with
    | some es => .ok es
    | none => .error .unfinished
  | (t, n) :: ts =>
    match r.step t with
    | some r' => r'.run ts
    | none => .error (.ofToken t n)

def readList (s : Text) : Except ReadError (List TypeExpr) :=
  Reading.run {} (Token.scan 1 s)

end TypeExpr

end Monomorph
