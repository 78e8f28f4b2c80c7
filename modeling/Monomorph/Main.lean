import Monomorph.CommandLine

/-!
# The program

Reads the directories that a command line is about into a file tree, runs the command line on the
tree, and brings the files that changed back to disk. Watch mode looks at the disk again and again.
-/

namespace Monomorph.Main

def configuration? (env : Environment) (t : FileTree) (args : List Text) : Option Configuration :=
  match Options.parse args with
  | .run directory flags =>
    (Configuration.load env.cwd directory flags
      (CommandLine.configurationFile t env.cwd)).toOption
  | _ => none

/-- The milliseconds between two looks at the disk. -/
def pollInterval : UInt32 := 200

/-- The number of looks without a change after which timers go off. -/
def quietPolls : Nat := 3

def banner : Text := " ⛰  Peak Generics Compiler\n\n"

def place (t : FileTree) (path : Text) (n : Node) : FileTree :=
  match t.makeDirectories "/" (Path.directory path) with
  | .ok t => ⟨t.nodes.insert (Path.resolve "/" path) n⟩
  | .error _ => t

def reason : IO.Error → Text
  | .permissionDenied .. => "Permission denied"
  | e => e.toString.toList

/-- Adds what is on disk at a path and below it. -/
partial def load (t : FileTree) (path : Text) : IO FileTree := do
  let here := (← IO.currentDir) / String.ofList path
  match ← here.metadata.toBaseIO with
  -- the system refuses to follow the link
  | .error (.invalidArgument ..) => return place t path .circular
  | .error _ => return t
  | .ok _ =>
    if ← here.isDir then
      let .ok t := t.makeDirectories "/" path | return t
      (← here.readDir).foldlM (fun t e => load t (Path.join path e.fileName.toList)) t
    else
      match ← (IO.FS.readBinFile here).toBaseIO with
      | .ok bytes => return place t path (.file bytes.toList)
      | .error e => return place t path (.barred (reason e))

def loadWay (t : FileTree) (path : Text) : IO FileTree :=
  let parts := Path.resolve "/" path
  (List.range parts.length).foldlM (fun t n => do
    let way : Text := '/' :: Path.joinParts (parts.take n)
    let here := (← IO.currentDir) / String.ofList way
    if (← here.pathExists) && !(← here.isDir) then load t way else return t) t

/-- The tree for a command line: its source directory, and then its output directory. -/
def loadFor (env : Environment) (args : List Text) : IO FileTree := do
  let some start := configuration? env {} args | return {}
  let t ← load {} start.sourceDir
  let some out := (configuration? env t args).bind (·.outDir) | return t
  load (← loadWay t out) out

def save (t old : FileTree) : IO Unit :=
  (t.changesSince old []).forM fun (path, bytes) => do
    let target := (← IO.currentDir) / String.ofList ('/' :: path)
    if let some directory := target.parent then IO.FS.createDirAll directory
    IO.FS.writeBinFile target ⟨bytes.toArray⟩

def print (out : List Note) (err : Text) (elapsed : Nat) : IO Unit := do
  let stdout ← IO.getStdout
  stdout.putStr (String.ofList (out.flatMap (Note.render banner (Text.ofNat elapsed))))
  stdout.flush
  (← IO.getStderr).putStr (String.ofList err)

/-- The exit code for the end of a run; what ends it without one is told. -/
def exit (status : Except Escape Nat) : IO UInt32 := do
  match status with
  | .ok code => return UInt32.ofNat code
  | .error e =>
    (← IO.getStderr).putStrLn (String.ofList e.message)
    return 1

/-- Looks at the disk until the program is stopped or the session breaks. -/
partial def watch (args : List Text) (s : Session) (quiet : Nat) : IO UInt32 := do
  IO.sleep pollInterval
  let fresh ← loadFor s.env args
  let changes := (fresh.changesSince s.tree (Path.resolve s.env.cwd s.config.sourceDir)).map
    fun (path, _) => ({ kind := .modified, path := Path.join s.config.sourceDir path } : Change)
  let noticed := changes.foldl Session.notice { s.flushed with tree := fresh }
  let quiet := if changes.isEmpty then quiet + 1 else 0
  let start ← IO.monoMsNow
  let next := if quietPolls ≤ quiet then noticed.fire else noticed
  let next := if next.isBroken then next.close false else next
  save next.tree fresh
  print next.out next.err ((← IO.monoMsNow) - start)
  if next.isBroken then exit next.status else watch args next quiet

def environment : IO Environment := do
  let isSet := fun name => return (← IO.getEnv name).isSome
  return {
    cwd := (← IO.currentDir).toString.toList
    terminal := {
      isTty := ← (← IO.getStderr).isTty
      isDumb := (← IO.getEnv "TERM") == some "dumb"
      noColor := ← isSet "NO_COLOR"
      noUnicode := ← isSet "NO_UNICODE" } }

end Monomorph.Main

open Monomorph Monomorph.Main in
def main (args : List String) : IO UInt32 := do
  let args := args.map String.toList
  let env ← environment
  let tree ← loadFor env args
  let start ← IO.monoMsNow
  match CommandLine.start env tree args with
  | .done run =>
    save run.tree tree
    print run.out run.err ((← IO.monoMsNow) - start)
    exit run.status
  | .watching session =>
    save session.tree tree
    print session.out session.err ((← IO.monoMsNow) - start)
    watch args session.flushed 0
