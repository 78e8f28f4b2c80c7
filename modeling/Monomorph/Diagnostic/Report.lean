import Monomorph.Diagnostic.Basic
import Monomorph.Path

/-!
# Reports

Diagnostics laid out for reading: a headline, and for one with a position the source line with a
mark under the column. The layouts with colour and those without are written out one beside the
other.
-/

namespace Monomorph

structure Style where
  color : Bool
  unicode : Bool
deriving DecidableEq, Repr

/-- What is known about the stream a report goes to. -/
structure Terminal where
  isTty : Bool := false
  isDumb : Bool := false
  noColor : Bool := false
  noUnicode : Bool := false

/-- A choice that is not made falls to the terminal. -/
def Terminal.style (t : Terminal) (color unicode : Option Bool) : Style where
  color := color.getD (t.isTty && !t.noColor && !t.isDumb)
  unicode := unicode.getD (t.isTty && !t.noUnicode && !t.isDumb)

inductive Paint where
  | bold
  | dim
  | red
  | yellow
  | cyan
  | gray
deriving DecidableEq, Repr

def Paint.sequence : Paint → Text
  | .bold => "\x1b[1m"
  | .dim => "\x1b[2m"
  | .red => "\x1b[31m"
  | .yellow => "\x1b[33m"
  | .cyan => "\x1b[36m"
  | .gray => "\x1b[90m"

def Paint.reset : Text := "\x1b[0m"

def painted (paints : List Paint) (t : Text) : Text :=
  paints.flatMap Paint.sequence ++ t ++ Paint.reset

structure Report where
  filename : Text := "<input>"
  items : List Diagnostic := []

namespace Report

def add (r : Report) (d : Diagnostic) : Report :=
  { r with items := r.items ++ [d] }

/-- Adds a diagnostic about the report's own file when it names none. -/
def addHere (r : Report) (d : Diagnostic) : Report :=
  match d.filename with
  | none | some [] => r.add { d with filename := some r.filename }
  | some _ => r.add d

def hasErrors (r : Report) : Bool :=
  r.items.any (·.kind == .error)

def hasWarnings (r : Report) : Bool :=
  r.items.any (·.kind == .warning)

def errorCount (r : Report) : Nat :=
  r.items.countP (·.kind == .error)

end Report

namespace Diagnostic

/-- Colour knows errors and warnings only; any other kind is shown as a warning. -/
def paintedKind : Kind → Text
  | .error => painted [.bold, .red] "error"
  | _ => painted [.bold, .yellow] "warning"

def shownFile (fallback : Text) (d : Diagnostic) : Text :=
  match d.filename with
  | none | some [] => fallback
  | some n => n

def location (cwd fallback : Text) (d : Diagnostic) : Text :=
  let name := Path.display cwd (d.shownFile fallback)
  match d.position with
  | none => name
  | some p => name ++ ":" ++ Text.ofInt p.line ++ ":" ++ Text.ofInt p.column

def sentence (d : Diagnostic) : Text :=
  if d.message.getLast? = some '.' then d.message else d.message ++ "."

def headline (s : Style) (cwd fallback : Text) (d : Diagnostic) : Text :=
  if s.color then
    painted [.cyan] (d.location cwd fallback) ++ ": " ++ paintedKind d.kind ++ " [" ++
      painted [.dim] d.code ++ "]: " ++ d.sentence
  else
    d.location cwd fallback ++ ": " ++ d.kind.name ++ " [" ++ d.code ++ "]: " ++ d.sentence

/-- As many characters as stand before the column, tabs kept so that the mark stays aligned. -/
def padding (line : Text) (column : Nat) : Text :=
  (line.take (column - 1)).map (fun c => if c = '\t' then '\t' else ' ') ++
    List.replicate (column - 1 - line.length) ' '

def layout (s : Style) (cwd fallback : Text) (d : Diagnostic) : List Text :=
  let head := d.headline s cwd fallback
  match d.position with
  | none => [head]
  | some p =>
    let column := (max 1 p.column).toNat
    let pad := padding d.sourceLine column
    let mark : Paint := if d.kind = .error then .red else .yellow
    if s.unicode then
      if s.color then
        [painted [.gray] "  ╭──┤ " ++ head,
          painted [.gray] "  │" ++ "  " ++ d.sourceLine,
          painted [.gray] "  │" ++ "  " ++ painted [mark] (pad ++ "┯"),
          painted [.gray] ("  ╰" ++ List.replicate (column + 1) '─') ++ painted [mark] "╯"]
      else
        ["  ╭──┤ " ++ head,
          "  │  " ++ d.sourceLine,
          "  │  " ++ pad ++ "┯",
          "  ╰" ++ List.replicate (column + 1) '─' ++ "╯"]
    else
      [head, "  | " ++ d.sourceLine, "  ` " ++ pad ++ "^"]

end Diagnostic

namespace Report

def format (s : Style) (cwd : Text) (r : Report) : Text :=
  List.intercalate "\n" (r.items.flatMap (Diagnostic.layout s cwd r.filename))

/-- What is written to a stream: nothing for an empty report, else the lines with a line feed
after the last. -/
def print (s : Style) (cwd : Text) (r : Report) : Text :=
  let text := r.format s cwd
  if text.isEmpty then [] else text ++ "\n"

end Report

end Monomorph
