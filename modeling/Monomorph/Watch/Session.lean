import Monomorph.Compilation
import Monomorph.Watch.Debouncer

/-!
# Watch mode

A directory is compiled once and then again after its sources change. Changes restart a quiet
period, and the compilation follows when it is over.
-/

namespace Monomorph

inductive ChangeKind where
  | created
  | modified
  | moved
  | deleted
deriving DecidableEq, Repr

/-- A change in the watched directory; `target` is where a moved file went. -/
structure Change where
  kind : ChangeKind
  path : Text
  target : Text := []
  isDirectory : Bool := false

/-- The source file that calls for a new compilation. -/
def Change.source? (c : Change) : Option Text :=
  let path? := match c.kind with
    | .created | .modified => some c.path
    | .moved => some c.target
    | .deleted => none
  if c.isDirectory then none else path?.filter sourceExtension.isSuffixOf

/-- A session under way: how its last compilation ended, and what was printed since it was last
looked at. -/
structure Session where
  env : Environment
  config : Configuration
  tree : FileTree
  timers : Debouncer := {}
  status : Except Escape Nat := .ok exitOk
  out : List Note := []
  err : Text := []

namespace Session

def log (s : Session) (line : Text) : Session :=
  { s with err := s.err ++ Compilation.logged s.config line }

def note (s : Session) (n : Note) : Session :=
  { s with out := s.out ++ [n] }

def compile (s : Session) : Session :=
  let r := Compilation.run s.env s.config s.tree
  { s with
    tree := r.tree
    status := r.status
    out := s.out ++ r.out
    err := s.err ++ r.err }

/-- Begins to watch after a first compilation, given by its effects. -/
def start (env : Environment) (config : Configuration) (first : Run) : Session :=
  let s : Session :=
    { env, config, tree := first.tree, status := first.status, out := first.out, err := first.err }
  (s.log ("INFO peak_lang.compiler.watch: watching " ++ config.sourceDir)).note
    (.watching config.sourceDir)

def notice (s : Session) (c : Change) : Session :=
  match c.source? with
  | none => s
  | some path =>
    let s := s.log ("DEBUG peak_lang.compiler.watch: change detected: " ++ path)
    { s with timers := s.timers.trigger }

def fireTimer (s : Session) (t : Nat) : Session :=
  match s.timers.reach? t with
  | none => s
  | some d =>
    let s := ({ s with timers := d }.note .changeDetected).compile
    { s with timers := (d.finish? t).getD d }

def isBroken (s : Session) : Bool :=
  s.status matches .error _

/-- Armed timers go off, in the order in which they were made, until the session breaks. -/
def fire (s : Session) : Session :=
  s.timers.armed.foldl (fun s t => if s.isBroken then s else s.fireTimer t) s

/-- Ends the session, by an interrupt or not. -/
def close (s : Session) (interrupted : Bool) : Session :=
  let s := if interrupted then s.note .stopping else s
  { s with timers := s.timers.cancel }.log
    ("INFO peak_lang.compiler.watch: stopped watching " ++ s.config.sourceDir)

def flushed (s : Session) : Session :=
  { s with out := [], err := [] }

end Session

end Monomorph
