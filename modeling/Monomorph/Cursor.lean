import Monomorph.Diagnostic.Basic
import Monomorph.Lexical.Approach
import Monomorph.Lexical.Group
import Monomorph.Parameters

/-!
# Cursors

Stepping through a text by hand. The cursor is an offset that may lie outside the text, where
reading gives NUL.
-/

namespace Monomorph

structure Cursor where
  text : Text
  pos : Int := 0

namespace Cursor

def nul : Char := '\x00'

def atEnd (c : Cursor) : Bool :=
  c.text.length ≤ c.pos

def peek (c : Cursor) (n : Int) : Char :=
  let i := c.pos + n
  if i < 0 then nul else c.text.getD i.toNat nul

def current (c : Cursor) : Char :=
  c.peek 0

def advance (c : Cursor) (n : Int) : Cursor :=
  { c with pos := min (c.pos + n) c.text.length }

def seek (c : Cursor) (pos : Int) : Cursor :=
  { c with pos }

def rest (c : Cursor) : Text :=
  if c.pos < 0 then [nul] else c.text.drop c.pos.toNat

def moveTo (c : Cursor) (r : Text) : Cursor :=
  { c with pos := c.pos + (c.rest.length - r.length) }

def goTo (c : Cursor) (r : Text) : Cursor :=
  c.seek (c.text.length - r.length)

/-- Whole texts are compared where an offset below zero counts from the end. -/
def startsWith (c : Cursor) (t : Text) : Bool :=
  c.pos ≤ c.text.length && t.isPrefixOf (c.text.drop (c.text.clip c.pos))

def skipBlank (c : Cursor) : Cursor :=
  c.moveTo c.rest.dropBlank

/-- Moves behind a run of comments and tells whether there was one. -/
def skipComments (c : Cursor) : Bool × Cursor :=
  match c.text.afterCommentsAt? c.pos with
  | some r => (true, c.goTo r)
  | none => (false, c)

def skipGap (c : Cursor) : Cursor :=
  let c := c.skipBlank.skipComments.2
  if c.pos < 0 then c else c.moveTo c.rest.afterGap

def skipString (c : Cursor) : Bool × Cursor :=
  match c.rest.afterString? with
  | some r => (true, c.moveTo r)
  | none => (false, c)

/-- What is left behind the bracket group at the cursor. Before the text NUL opens one bracket with
every step. -/
def afterGroup? (c : Cursor) (opening closing : Char) : Option Text :=
  if c.pos < 0 then
    let (depth, r) := c.text.approach (-c.pos).toNat
    r.afterClosing? opening closing depth
  else c.rest.afterGroup? opening closing

/-- Moves behind the bracket group at the cursor and tells whether there was a closed one. Behind
an unclosed one lies the end. Brackets are single characters: another `opening` opens nothing, and
another `closing` closes nothing. -/
def skipGroup (c : Cursor) (opening closing : Text) : Bool × Cursor :=
  if opening ≠ [c.current] ∨ c.atEnd then (false, c)
  else
    match closing with
    | [k] =>
      match c.afterGroup? c.current k with
      | some r => (true, c.goTo r)
      | none => (false, c.goTo [])
    | _ => (false, c.goTo [])

def nameRun (c : Cursor) : Text × Cursor :=
  (c.rest.nameRun, c.moveTo c.rest.afterNameRun)

structure Failure where
  issue : Issue
  offset : Int

def fail (c : Cursor) (f : Fault) : Failure × Cursor :=
  (⟨f.issue, (c.moveTo f.place).pos⟩, c.moveTo f.reached)

/-- A reference whose name lies wherever the caller took it from. -/
structure Reference where
  name : Text
  start : Int
  stop : Int
  args : List Located

def Reference.toExpr (r : Reference) : TypeExpr :=
  ⟨r.name, Located.toExprs r.args⟩

/-- Reads the bracketed arguments at the cursor for the name that starts at `start`, or right
before the cursor. -/
def readReference (c : Cursor) (name : Text) (start : Option Int) :
    Except Failure Reference × Cursor :=
  match Located.readBracket c.text.length c.rest with
  | .ok (args, r) =>
    let d := c.moveTo r.1
    (.ok ⟨name, start.getD (c.pos - name.length), d.pos, args⟩, d)
  | .error f => let (e, d) := c.fail f; (.error e, d)

def readArgument (c : Cursor) : Except Failure Located × Cursor :=
  match Located.readArgument c.text.length c.rest with
  | .ok (e, r) => (.ok e, c.moveTo r.1)
  | .error f => let (e, d) := c.fail f; (.error e, d)

def readParameters (c : Cursor) (distinct : Bool) : Except Failure (List Text) × Cursor :=
  match Parameters.read distinct c.rest with
  | .ok (params, r) => (.ok params, c.moveTo r.1)
  | .error f => let (e, d) := c.fail f; (.error e, d)

end Cursor

end Monomorph
