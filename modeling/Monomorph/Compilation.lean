import Monomorph.Configuration
import Monomorph.Diagnostic.Report
import Monomorph.FileTree
import Monomorph.Text.Quoted

/-!
# Compilation

One compilation of a source directory in a file tree: find and read the sources, expand them,
write the outputs and report. A run that finds an error before writing leaves the tree as it is.
-/

namespace Monomorph

/-- Where a program runs: its working directory and what its error stream is. -/
structure Environment where
  cwd : Text
  terminal : Terminal := {}

/-- What is printed while things go well. -/
inductive Note where
  | banner
  | plain (text : Text)
  | compiling (count : Nat) (directory : Text)
  | skippedTemplate (path : Text)
  | generated (source target : Text)
  | generatedClass (target : Text)
  | summary (made skipped errors : Nat)
  | watching (directory : Text)
  | changeDetected
  | stopping
deriving DecidableEq, Repr

/-- The text of a note; the banner and the time that a compilation took are the caller's. -/
def Note.render (banner elapsed : Text) : Note → Text
  | .banner => banner
  | .plain t => t
  | .compiling n dir => "Compiling " ++ Text.ofNat n ++ " file(s) in " ++ dir ++ "\n"
  | .skippedTemplate path => "Skipped template: " ++ path ++ "\n"
  | .generated source target => "Generated: " ++ source ++ " -> " ++ target ++ "\n"
  | .generatedClass target => "Generated concrete class: " ++ target ++ "\n"
  | .summary made skipped errors =>
    let counts := "Compiled " ++ Text.ofNat made ++ " file(s) (skipped " ++
      Text.ofNat skipped ++ " template(s))"
    if errors = 0 then "\n✓ " ++ counts ++ " in " ++ elapsed ++ "ms\n"
    else "\n✗ " ++ counts ++ " with " ++ Text.ofNat errors ++ " error(s) in " ++ elapsed ++ "ms\n"
  | .watching dir => "\nWatching " ++ dir ++ " for changes (Ctrl+C to stop)...\n"
  | .changeDetected => "\nChange detected, recompiling...\n"
  | .stopping => "\nStopping watch mode.\n"

/-- A progress bar: how many files it counts, how often it was advanced, and whether it was taken
down. -/
structure Bar where
  total : Nat
  updates : Nat
  closed : Bool
deriving DecidableEq, Repr

/-- What ends a program other than an exit code. -/
inductive Escape where
  | configuration (error : Configuration.Error)
  | path (error : FileError)
  /-- The name of a file cannot be shown, since it leads round in a circle. -/
  | circularName (name : Text)
deriving DecidableEq, Repr

def Escape.message : Escape → Text
  | .configuration e => e.message
  | .path e => e.message
  | .circularName name => "Symlink loop from " ++ name.quoted

/-- The effects of a run: its end, the tree it leaves, and what it printed. -/
structure Run where
  status : Except Escape Nat
  tree : FileTree
  out : List Note := []
  err : Text := []
  bar : Option Bar := none

def exitOk : Nat := 0

def exitErrors : Nat := 2

namespace Compilation

/-- The text of a source file, or why it cannot be read. A path with NUL in it is an error of the
caller. -/
def readSource (t : FileTree) (cwd path : Text) : Except FileError (Except Diagnostic Text) :=
  let unreadable := fun reason =>
    Except.error (Diagnostic.ofIssue (.unreadable path reason) none (some path) [])
  match t.read cwd path with
  | .error .nulInPath => .error .nulInPath
  | .error e => .ok (unreadable e.message)
  | .ok bytes =>
    match Utf8.decode bytes with
    | .error e => .ok (unreadable e.message)
    | .ok text => .ok (.ok text.unifyNewlines)

/-- Reads files in order: their texts by path, and a diagnostic for each that cannot be read. -/
def readSources (t : FileTree) (cwd : Text) :
    List Text → Except FileError (List (Text × Text) × List Diagnostic)
  | [] => .ok ([], [])
  | path :: paths =>
    match readSource t cwd path, readSources t cwd paths with
    | .error e, _ => .error e
    | _, .error e => .error e
    | .ok (.ok text), .ok (files, problems) => .ok ((path, text) :: files, problems)
    | .ok (.error d), .ok (files, problems) => .ok (files, d :: problems)

def metaSuffix : Text := "-meta.xml"

/-- Whether an error is one of the caller, who gave what no file can have, and ends the run. -/
def isMisuse (e : FileError) : Bool :=
  e = .nulInPath ∨ e = .unencodable

/-- Writes the companion of an output. One that cannot be encoded stays empty. -/
def writeMeta (t : FileTree) (cwd : Text) (c : Configuration) (path : Text) :
    Except (FileError × FileTree) FileTree :=
  if c.apiVersionTorn then
    match t.write cwd (path ++ metaSuffix) [] with
    | .error e => .error e
    | .ok t => .error (.unencodable, t)
  else t.write cwd (path ++ metaSuffix) (Utf8.encode c.metaXml)

/-- Writes an output and, unless one is there, its companion. Tells whether the companion was
written. -/
def writeOutput (t : FileTree) (cwd : Text) (c : Configuration) (path content : Text) :
    Except (FileError × FileTree) (FileTree × Bool) :=
  match t.write cwd path (Utf8.encode content) with
  | .error (e, t) => .error (if c.outDirTorn ∧ e = .nulInPath then .unencodable else e, t)
  | .ok t =>
    if c.writeMeta && !t.hasNode cwd (path ++ metaSuffix) then
      (writeMeta t cwd c path).map (·, true)
    else .ok (t, false)

structure Writing where
  tree : FileTree
  report : Report
  out : List Note
  err : Text
  generated : Nat := 0
  updates : Nat := 0

def logged (c : Configuration) (line : Text) : Text :=
  if c.verbose then line ++ "\n" else []

/-- Writes one output. An error goes into the report, except misuse, which ends the run. -/
def Writing.add (env : Environment) (c : Configuration) (showBar : Bool) (w : Writing)
    (source : Option Text) (path content : Text) : Except (FileError × Writing) Writing :=
  match writeOutput w.tree env.cwd c path content with
  | .error (e, t) =>
    if isMisuse e then .error (e, { w with tree := t, updates := w.updates + 1 }) else
    let problem := Diagnostic.ofIssue (.unwritable path e.message) none (some path) []
    .ok { w with tree := t, report := w.report.add problem, updates := w.updates + 1 }
  | .ok (t, wroteMeta) =>
    let log := if wroteMeta then
        logged c ("DEBUG peak_lang.compiler.pipeline: wrote " ++ path ++ metaSuffix)
      else []
    let note := match source with
      | some s => Note.generated s path
      | none => Note.generatedClass path
    .ok { w with
      tree := t
      err := w.err ++ log
      out := if showBar then w.out else w.out ++ [note]
      generated := w.generated + 1
      updates := w.updates + 1 }

def Writing.addAll (env : Environment) (c : Configuration) (showBar : Bool) (w : Writing) :
    List (Option Text × Text × Text) → Except (FileError × Writing) Writing
  | [] => .ok w
  | (source, path, content) :: more =>
    match w.add env c showBar source path content with
    | .error e => .error e
    | .ok w => w.addAll env c showBar more

def pending (outcomes : List Outcome) : List (Option Text × Text × Text) :=
  outcomes.filterMap fun
    | .output source path content => some (source, path, content)
    | _ => none

/-- What a report prints. Every file that it is about is looked up before, and one that leads round
in a circle ends the run. -/
def printed (env : Environment) (t : FileTree) (r : Report) : Except Escape Text :=
  match (r.items.map (·.shownFile r.filename)).find? (t.leadsRound env.cwd) with
  | some name => .error (.circularName (Path.absolute env.cwd name))
  | none => .ok (r.print (env.terminal.style none none) env.cwd)

def finish (env : Environment) (c : Configuration) (tree : FileTree) (out : List Note)
    (outcomes : List Outcome) : Run :=
  let problems := outcomes.filterMap Outcome.problem?
  let templates := outcomes.filterMap fun
    | .template path => some path
    | _ => none
  let outputs := pending outcomes
  let showBar := !c.verbose && env.terminal.isTty && 1 < outputs.length
  let bar := fun (w : Writing) (closed : Bool) =>
    if showBar then some ⟨outputs.length, w.updates, closed⟩ else none
  let start : Writing := {
    tree
    report := { items := problems }
    out := out ++ if c.verbose then templates.map .skippedTemplate else []
    err := [] }
  match start.addAll env c showBar outputs with
  | .error (e, w) =>
    { status := .error (.path e), tree := w.tree, out := w.out, err := w.err
      bar := bar w false }
  | .ok w =>
    match if w.report.hasErrors then printed env w.tree w.report else .ok [] with
    | .error e =>
      { status := .error e, tree := w.tree, out := w.out, err := w.err, bar := bar w true }
    | .ok shown =>
      { status := .ok (if w.report.errorCount = 0 then exitOk else exitErrors)
        tree := w.tree
        out := w.out ++ [.summary w.generated templates.length w.report.errorCount]
        err := w.err ++ shown
        bar := bar w true }

def refused (env : Environment) (tree : FileTree) (problems : List Diagnostic) : Run :=
  match printed env tree { items := problems } with
  | .error e => { status := .error e, tree }
  | .ok err => { status := .ok exitErrors, tree, err }

def snapshot (c : Configuration) (files : Table Text Text) : Snapshot :=
  { files, forcedClasses := c.forcedClasses, forcedMethods := c.forcedMethods }

/-- Compiles the sources below the source directory. -/
def run (env : Environment) (c : Configuration) (tree : FileTree) : Run :=
  let here := fun i => [Diagnostic.ofIssue i none (some c.sourceDir) []]
  match tree.filesBelow? env.cwd c.sourceDir sourceExtension with
  | none => refused env tree (here (.noDirectory c.sourceDir))
  | some [] => refused env tree (here (.noSources c.sourceDir))
  | some paths =>
    match readSources tree env.cwd paths with
    | .error e => { status := .error (.path e), tree }
    | .ok (files, []) =>
      let out := if c.verbose then [Note.compiling files.length c.sourceDir] else []
      let resolver : Resolver := fun path => .ok (c.outputPath env.cwd path outputExtension)
      finish env c tree out (Expansion.run (snapshot c (.ofList files)) resolver outputExtension)
    | .ok (_, problems) => refused env tree problems

end Compilation

end Monomorph
