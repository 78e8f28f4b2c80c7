import Monomorph.Configuration
import Monomorph.Text.DecimalDigit
import Monomorph.Text.Quoted

/-!
# Command line options

A long option may be shortened as long as it stays unique, and takes its value behind `=` or as
the next argument. Short options can be run together, and the last of them may be followed
directly by its value. Behind `--` everything is plain.
-/

namespace Monomorph

inductive Switch where
  | help
  | watch
  | rootDir
  | outDir
  | apiVersion
  | verbose
  | noMeta
  | version
deriving DecidableEq, Repr

namespace Switch

def all : List Switch :=
  [.help, .watch, .rootDir, .outDir, .apiVersion, .verbose, .noMeta, .version]

def spellings : Switch → List Text
  | .help => ["-h", "--help"]
  | .watch => ["-w", "--watch"]
  | .rootDir => ["-r", "--root-dir"]
  | .outDir => ["-o", "--out-dir"]
  | .apiVersion => ["--api-version"]
  | .verbose => ["-v", "--verbose"]
  | .noMeta => ["--no-meta"]
  | .version => ["--version"]

def takesValue : Switch → Bool
  | .rootDir | .outDir | .apiVersion => true
  | _ => false

def title (s : Switch) : Text :=
  List.intercalate "/" s.spellings

/-- Every spelling with its switch, in the order of the switches. -/
def table : List (Text × Switch) :=
  all.flatMap fun s => s.spellings.map (·, s)

end Switch

namespace Options

/-- How an argument is taken: as it is, as the end of options, as an option that is known or
not. -/
inductive Word where
  | plain (text : Text)
  | dashes
  | unknown (text : Text)
  | switch (text : Text) (switch : Switch) (spelling : Text) (value : Option Text)
deriving Repr

def Word.text : Word → Text
  | .plain t => t
  | .dashes => "--"
  | .unknown t => t
  | .switch t _ _ _ => t

def splitValue (arg : Text) : Text × Option Text :=
  match arg.dropWhile (· != '=') with
  | [] => (arg, none)
  | _ :: value => (arg.takeWhile (· != '='), some value)

def isLongForm : Text → Bool
  | '-' :: '-' :: _ => true
  | _ => false

/-- The options that an argument may stand for, with the value it brings. -/
def candidates (arg : Text) : List (Switch × Text × Option Text) :=
  if isLongForm arg then
    let (start, value) := splitValue arg
    Switch.table.filterMap fun (spelling, s) =>
      if start.isPrefixOf spelling then some (s, spelling, value) else none
  else
    Switch.table.filterMap fun (spelling, s) =>
      if spelling = arg.take 2 then some (s, spelling, some (arg.drop 2)) else none

/-- Whether an argument is a number with a minus sign, in the digits of any script. One line break
behind it does not count. -/
def isNegativeNumber (arg : Text) : Bool :=
  match if arg.getLast? = some '\n' then arg.dropLast else arg with
  | '-' :: r =>
    match r.dropWhile isDecimalDigit with
    | [] => !r.isEmpty
    | '.' :: d => !d.isEmpty && d.all isDecimalDigit
    | _ => false
  | _ => false

/-- Takes one argument in front of `--`. The error names the options that an abbreviation may
stand for. -/
def classify (arg : Text) : Except Text Word :=
  if arg.head? ≠ some '-' then .ok (.plain arg)
  else
    match Switch.table.lookup arg with
    | some s => .ok (.switch arg s arg none)
    | none =>
      if arg.length = 1 then .ok (.plain arg)
      else
        match splitValue arg with
        | (spelling, some value) =>
          match Switch.table.lookup spelling with
          | some s => .ok (.switch arg s spelling (some value))
          | none => abbreviated arg
        | (_, none) => abbreviated arg
where
  abbreviated (arg : Text) : Except Text Word :=
    match candidates arg with
    | [(s, spelling, value)] => .ok (.switch arg s spelling value)
    | [] =>
      if isNegativeNumber arg || arg.contains ' ' then .ok (.plain arg) else .ok (.unknown arg)
    | many =>
      .error ("ambiguous option: " ++ arg ++ " could match " ++
        List.intercalate ", " (many.map fun (_, spelling, _) => spelling))

def classifyAll : List Text → Except Text (List Word)
  | [] => .ok []
  | arg :: args =>
    if arg = "--" then .ok (.dashes :: args.map .plain)
    else
      match classify arg with
      | .error e => .error e
      | .ok w =>
        match classifyAll args with
        | .error e => .error e
        | .ok ws => .ok (w :: ws)

/-- What the words before have settled. -/
structure State where
  directory : Option Text := none
  flags : Flags := {}
  extras : List Text := []

inductive Parsed where
  | run (directory : Text) (flags : Flags)
  | help
  | version
  | invalid (message : Text)
deriving DecidableEq, Repr

/-- A value of two dashes counts as none. -/
def value? (v : Text) : Option Text :=
  if v = "--" then none else some v

def State.set (st : State) (s : Switch) (value : Option Text) : State :=
  { st with flags :=
    match s with
    | .watch => { st.flags with watch := true }
    | .verbose => { st.flags with verbose := true }
    | .noMeta => { st.flags with writeMeta := false }
    | .rootDir => { st.flags with rootDir := value }
    | .outDir => { st.flags with outDir := value }
    | .apiVersion => { st.flags with apiVersion := value }
    | .help | .version => st.flags }

def ignored (s : Switch) (value : Text) : Text :=
  "argument " ++ s.title ++ ": ignored explicit argument " ++ value.quoted

/-- Splits an option that brings a value into the switches it sets: short ones can be run together.
The last may still wait for its value. -/
def unbundle (s : Switch) (short : Bool) (value : Text) :
    Except Text (List (Switch × Option (Option Text))) :=
  if s.takesValue then .ok [(s, some (value? value))]
  else if !short then .error (ignored s value)
  else
    match value with
    | [] => .error (ignored s [])
    | c :: rest =>
      match Switch.table.lookup ['-', c] with
      | none => .error (ignored s (c :: rest))
      | some next =>
        if rest.isEmpty then .ok [(s, some none), (next, none)]
        else
          match unbundle next true rest with
          | .error e => .error e
          | .ok more => .ok ((s, some none) :: more)
termination_by value.length

/-- Sets switches in order until one that ends the command line. -/
def State.apply (st : State) : List (Switch × Option Text) → Except Parsed State
  | [] => .ok st
  | (s, value) :: more =>
    match s with
    | .help => .error .help
    | .version => .error .version
    | s => State.apply (st.set s value) more

/-- Gives the last of some switches the next argument, when it needs one. -/
def supply (switches : List (Switch × Option (Option Text))) (words : List Word) :
    Except Text (List (Switch × Option Text) × { ws : List Word // ws.length ≤ words.length }) :=
  let given := switches.map fun (s, v) => (s, v.getD none)
  match switches.getLast? with
  | some (s, none) =>
    if s.takesValue then
      match words with
      | .plain v :: more => .ok (given.dropLast ++ [(s, some v)], ⟨more, by simp⟩)
      | _ => .error ("argument " ++ s.title ++ ": expected one argument")
    else .ok (given, ⟨words, Nat.le_refl _⟩)
  | _ => .ok (given, ⟨words, Nat.le_refl _⟩)

def State.finish (st : State) : Parsed :=
  if st.extras.isEmpty then .run (st.directory.getD ".") st.flags
  else .invalid ("unrecognized arguments: " ++ List.intercalate " " st.extras)

/-- Takes the words in order. The first plain one is the directory, and a `--` right behind it goes
with it; what is left over is refused at the end. -/
def State.take (st : State) (words : List Word) : Parsed :=
  match words with
  | [] => st.finish
  | .unknown t :: ws => State.take { st with extras := st.extras ++ [t] } ws
  | .plain t :: ws =>
    if st.directory.isSome then State.take { st with extras := st.extras ++ [t] } ws
    else
      match ws with
      | .dashes :: more => State.take { st with directory := some t } more
      | ws => State.take { st with directory := some t } ws
  | .dashes :: ws =>
    if st.directory.isSome then
      State.finish { st with extras := st.extras ++ "--".toList :: ws.map Word.text }
    else
      match ws with
      | [] => st.finish
      | w :: more =>
        State.finish { st with
          directory := some w.text, extras := st.extras ++ more.map Word.text }
  | .switch _ s spelling value :: ws =>
    let bundle : Except Text (List (Switch × Option (Option Text))) := match value with
      | none => .ok [(s, none)]
      | some v => unbundle s (!isLongForm spelling) v
    match bundle with
    | .error e => .invalid e
    | .ok switches =>
      match supply switches ws with
      | .error e => .invalid e
      | .ok (settings, rest) =>
        match st.apply settings with
        | .error p => p
        | .ok st => State.take st rest.1
termination_by words.length
decreasing_by
  · simp
  · simp
  · simp only [List.length_cons]; omega
  · simp
  · exact Nat.lt_succ_of_le rest.2

def parse (args : List Text) : Parsed :=
  match classifyAll args with
  | .error e => .invalid e
  | .ok words => State.take {} words

def usage : Text :=
  "usage: peak [-h] [-w] [-r DIR] [-o DIR] [--api-version V] [-v] [--no-meta]\n" ++
  "            [--version]\n" ++
  "            [directory]\n"

def helpText : Text :=
  usage ++
  "\n" ++
  "Peak to Apex transpiler: generic classes and methods for Salesforce Apex\n" ++
  "\n" ++
  "positional arguments:\n" ++
  "  directory             Directory with .peak sources (default: .)\n" ++
  "\n" ++
  "options:\n" ++
  "  -h, --help            show this help message and exit\n" ++
  "  -w, --watch           Watch for changes and recompile\n" ++
  "  -r DIR, --root-dir DIR\n" ++
  "                        Root directory for preserving structure (overrides\n" ++
  "                        config)\n" ++
  "  -o DIR, --out-dir DIR\n" ++
  "                        Output directory (overrides config)\n" ++
  "  --api-version V       API version for generated .cls-meta.xml files\n" ++
  "  -v, --verbose         Print every file processed\n" ++
  "  --no-meta             Do not write .cls-meta.xml files\n" ++
  "  --version             show program's version number and exit\n" ++
  "\n" ++
  "examples:\n" ++
  "  peak                                      compile the current directory\n" ++
  "  peak examples/                            compile a specific directory\n" ++
  "  peak --watch                              watch the current directory\n" ++
  "  peak --out-dir build/ src/                write output to src/build/\n" ++
  "  peak --root-dir . --out-dir build/ src/   keep structure below src/\n" ++
  "\n" ++
  "configuration:\n" ++
  "  peakconfig.json in the source directory; flags override it.\n" ++
  "  Without an output directory, .cls files are written next to their .peak sources.\n"

def versionText : Text := "peak 0.1.0\n"

def refusal (message : Text) : Text :=
  usage ++ "peak: error: " ++ message ++ "\n"

end Options

end Monomorph
