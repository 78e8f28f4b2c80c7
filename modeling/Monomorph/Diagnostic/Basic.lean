import Monomorph.Diagnostic.Code
import Monomorph.TypeExpr.Located

/-!
# Diagnostics

What is reported about a place in a file. Lines and columns count from one, and only the line
feed ends a line.
-/

namespace Monomorph

structure Position where
  line : Int
  column : Int
deriving DecidableEq, Repr

namespace Text

/-- Everything before offset `i`; an offset outside the text is moved to its nearer end. -/
def before (t : Text) (i : Int) : Text :=
  t.take i.toNat

def lineNumber (t : Text) (i : Int) : Nat :=
  (t.before i).count '\n' + 1

def columnNumber (t : Text) (i : Int) : Nat :=
  (Text.afterLast '\n' (t.before i)).length + 1

def positionAt (t : Text) (i : Int) : Position :=
  ⟨t.lineNumber i, t.columnNumber i⟩

def lineAt (t : Text) (i : Int) : Text :=
  Text.afterLast '\n' (t.before i) ++ (t.drop i.toNat).takeWhile (· != '\n')

end Text

inductive Kind where
  | error
  | warning
  | other (name : Text)
deriving DecidableEq, Repr

def Kind.name : Kind → Text
  | .error => "error"
  | .warning => "warning"
  | .other n => n

def Kind.ofName (n : Text) : Kind :=
  if n = "error" then .error else if n = "warning" then .warning else .other n

def Severity.kind : Severity → Kind
  | .error => .error
  | .warning => .warning

structure Diagnostic where
  kind : Kind
  code : Text
  message : Text
  position : Option Position := none
  filename : Option Text := none
  sourceLine : Text := []
deriving DecidableEq, Repr

namespace Diagnostic

def ofIssue (i : Issue) (position : Option Position) (filename : Option Text)
    (sourceLine : Text) : Diagnostic :=
  ⟨i.code.severity.kind, i.code.label, i.message, position, filename, sourceLine⟩

def inSource (source : Text) (filename : Option Text) (i : Issue) (offset : Int) : Diagnostic :=
  ofIssue i (some (source.positionAt offset)) filename (source.lineAt offset)

def ofFault (source : Text) (filename : Option Text) (f : Fault) : Diagnostic :=
  inSource source filename f.issue (Text.offset source.length f.place)

/-- A file that is unknown or has no name is shown as `<input>`. -/
def place (d : Diagnostic) : Text :=
  match d.filename with
  | none | some [] => "<input>"
  | some name => name

def summary (d : Diagnostic) : Text :=
  match d.position with
  | none => d.place ++ ": " ++ d.message
  | some p =>
    d.place ++ ":" ++ Text.ofInt p.line ++ ":" ++ Text.ofInt p.column ++ ": " ++ d.message

end Diagnostic

end Monomorph
