import Monomorph.Options
import Monomorph.Watch.Session

/-!
# The command line

From arguments to effects: help, version and refused arguments end at once; otherwise the
configuration is loaded and the directory compiled or watched.
-/

namespace Monomorph.CommandLine

def configurationFile (t : FileTree) (cwd path : Text) : Configuration.File :=
  if t.isFile cwd path then
    match t.read cwd path with
    | .ok bytes => .contents bytes
    | .error e => .closed (.other e.message)
  else .absent

inductive Started where
  | done (run : Run)
  | watching (session : Session)

def printed (t : FileTree) (text : Text) : Run :=
  { status := .ok exitOk, tree := t, out := [.plain text] }

def refused (t : FileTree) (message : Text) : Run :=
  { status := .ok exitErrors, tree := t, err := Options.refusal message }

/-- A configuration that cannot be loaded. Only what is blamed on the file is reported. -/
def misconfigured (t : FileTree) (e : Configuration.Error) : Run :=
  match e with
  | .badFile _ _ =>
    { status := .ok exitErrors, tree := t, out := [.banner], err := "error: " ++ e.message ++ "\n" }
  | _ => { status := .error (.configuration e), tree := t, out := [.banner] }

def start (env : Environment) (t : FileTree) (args : List Text) : Started :=
  match Options.parse args with
  | .help => .done (printed t Options.helpText)
  | .version => .done (printed t Options.versionText)
  | .invalid message => .done (refused t message)
  | .run directory flags =>
    match Configuration.load env.cwd directory flags (configurationFile t env.cwd) with
    | .error e => .done (misconfigured t e)
    | .ok config =>
      let run := Compilation.run env config t
      let run := { run with out := .banner :: run.out }
      match config.watch, run.status with
      | true, .ok _ => .watching (.start env config run)
      | _, _ => .done run

end Monomorph.CommandLine
