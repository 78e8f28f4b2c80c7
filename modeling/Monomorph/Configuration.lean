import Monomorph.Diagnostic.Basic
import Monomorph.Expansion
import Monomorph.Json
import Monomorph.Text.Utf8

/-!
# Configuration

Settings come from the command line, then from `peakconfig.json` in the source directory, then
from defaults. Directories that are not absolute are taken relative to the source directory.
-/

namespace Monomorph

/-- Settings from the command line. An empty text counts as none. -/
structure Flags where
  rootDir : Option Text := none
  outDir : Option Text := none
  apiVersion : Option Text := none
  watch : Bool := false
  verbose : Bool := false
  writeMeta : Bool := true
deriving DecidableEq, Repr

structure Configuration where
  sourceDir : Text
  rootDir : Option Text := none
  outDir : Option Text := none
  apiVersion : Text := "65.0"
  /-- The output directory holds letters that no file system takes, and these come before any NUL;
  in `outDir` they are NUL too. -/
  outDirTorn : Bool := false
  /-- The version holds letters that cannot be written. -/
  apiVersionTorn : Bool := false
  watch : Bool := false
  verbose : Bool := false
  writeMeta : Bool := true
  forcedClasses : Table Text (List Text) := ∅
  forcedMethods : Table Text (List Text) := ∅

def setting? : Option Text → Option Text
  | some (c :: t) => some (c :: t)
  | _ => none

namespace Configuration

/-- Where the output for `path` goes. Without an output directory that is beside the source. With
one, the directory of the source relative to the root directory is kept below it; a source outside
the root directory goes right into it. -/
def outputPath (cwd : Text) (c : Configuration) (path extension : Text) : Text :=
  let name := Path.stem (Path.fileName path) ++ extension
  match setting? c.outDir with
  | none => Path.join (Path.directory path) name
  | some outDir =>
    let base := (setting? c.rootDir).getD c.sourceDir
    let way := Path.relative cwd (Path.directory (Path.absolute cwd path)) base
    if way = ".." ∨ "../".toList.isPrefixOf way then Path.join outDir name
    else Path.normalize (Path.join (Path.join outDir way) name)

def metaXml (c : Configuration) : Text :=
  "<?xml version=\"1.0\" encoding=\"UTF-8\"?>\n" ++
  "<ApexClass xmlns=\"http://soap.sforce.com/2006/04/metadata\">\n" ++
  "    <apiVersion>" ++ c.apiVersion ++ "</apiVersion>\n" ++
  "    <status>Active</status>\n" ++
  "</ApexClass>\n"

inductive Cause where
  | unreadable (reason : Text)
  | notJson (line column : Nat) (message : Text)
  | notAnObject
  | optionsNotAnObject
  | notText (key : Text)
  | notBool (key : Text)
  | fieldNotAnObject (field : Text)
  | notTexts (field name : Text)
  | badMethodKey (key : Text)
deriving DecidableEq, Repr

def Cause.text : Cause → Text
  | .unreadable reason => reason
  | .notJson line column message =>
    "invalid JSON at line " ++ Text.ofNat line ++ " column " ++ Text.ofNat column ++ ": " ++ message
  | .notAnObject => "top level must be an object"
  | .optionsNotAnObject => "'compilerOptions' must be an object"
  | .notText key => "'" ++ key ++ "' must be a string"
  | .notBool key => "'" ++ key ++ "' must be true or false"
  | .fieldNotAnObject field => "'" ++ field ++ "' must be an object"
  | .notTexts field name => "'" ++ field ++ "." ++ name ++ "' must be a list of strings"
  | .badMethodKey key => "method key '" ++ key ++ "' must look like 'ClassName.methodName'"

/-- Why no configuration could be loaded. The last two are not blamed on the file's contents. -/
inductive Error where
  | badFile (path : Text) (cause : Cause)
  | undecodable (error : Utf8.DecodeError)
  | oversizedInteger (digits : Nat)
deriving DecidableEq, Repr

def Error.message : Error → Text
  | .badFile path cause => "error loading config file " ++ path ++ ": " ++ cause.text
  | .undecodable e => e.message
  | .oversizedInteger digits =>
    "Exceeds the limit (" ++ Text.ofNat Json.maxDigits ++
      " digits) for integer string conversion: value has " ++ Text.ofNat digits ++
      " digits; use sys.set_int_max_str_digits() to increase the limit"

/-- Why a file that is there cannot be opened: an error of the system, by its number and its
description, or any other. -/
inductive OpenFailure where
  | system (number : Int) (description : Text)
  | other (description : Text)
deriving DecidableEq, Repr

def OpenFailure.text : OpenFailure → Text
  | .system number [] => "[Errno " ++ Text.ofInt number ++ "] "
  | .system _ description => description
  | .other description => description

inductive File where
  | absent
  | closed (failure : OpenFailure)
  | contents (bytes : Bytes)

/-- A text in which halves of characters show as the replacement character. -/
def nameText (letters : List Json.Letter) : Text :=
  letters.map (·.toChar '\ufffd')

/-- A directory for comparison with others: none of theirs holds NUL, which stands for halves. -/
def baseText (letters : List Json.Letter) : Text :=
  letters.map (·.toChar '\x00')

/-- Whether a letter is half of a character that file systems do not take. The halves that they
take stand for single bytes. -/
def isTorn : Json.Letter → Bool
  | .char _ => false
  | .half unit => unit < 0xDC80 || 0xDCFF < unit

/-- A path in which NUL stands for letters that no file system takes. -/
def pathText (letters : List Json.Letter) : Text :=
  letters.map fun l => if isTorn l then '\x00' else l.toChar '\ufffd'

/-- Whether a directory below `base` has letters that no file system takes in the first component
that no file can have. -/
def isTornBelow (base : Text) (letters : List Json.Letter) : Bool :=
  let broken := fun (bad : Json.Letter → Bool) =>
    let p := letters.map fun l =>
      if bad l then '\x00' else if l = .char '\x00' then '\ufffd' else l.toChar '\ufffd'
    (Path.resolve base p).findIdx? (·.contains '\x00')
  match broken isTorn, broken (· = .char '\x00') with
  | none, _ => false
  | some _, none => true
  | some i, some j => i ≤ j

def lettersAt (options : Json) (key : Text) : Except Cause (List Json.Letter) :=
  match options.field? key with
  | none => .ok []
  | some (.string ls) => .ok ls
  | some _ => .error (.notText key)

def flag (options : Json) (key : Text) : Except Cause Bool :=
  match options.field? key with
  | none => .ok false
  | some (.bool b) => .ok b
  | some _ => .error (.notBool key)

def texts? : List Json → Option (List Text)
  | [] => some []
  | .string ls :: js => (texts? js).map (nameText ls :: ·)
  | _ :: _ => none

def textLists (field : Text) :
    List (List Json.Letter × Json) → Except Cause (Table Text (List Text))
  | [] => .ok ∅
  | (key, .array items) :: fields =>
    match texts? items with
    | none => .error (.notTexts field (nameText key))
    | some ts =>
      match textLists field fields with
      | .error e => .error e
      | .ok more => .ok ⟨(nameText key, ts) :: more.entries⟩
  | (key, _) :: _ => .error (.notTexts field (nameText key))

def forced (instantiate : Json) (key field : Text) : Except Cause (Table Text (List Text)) :=
  match instantiate.field? key with
  | none => .ok ∅
  | some (.object fields) => textLists field fields
  | some _ => .error (.fieldNotAnObject field)

/-- Whether a key is an owner, a dot and a method, with no further dot. -/
def isMethodKey (key : Text) : Bool :=
  match Text.splitAt '.' key with
  | [owner, method] => !owner.isEmpty && !method.isEmpty
  | _ => false

def apply (c : Configuration) (options : Json) : Except Cause Configuration := do
  let rootDir ← lettersAt options "rootDir"
  let outDir ← lettersAt options "outDir"
  let apiVersion ← lettersAt options "apiVersion"
  let verbose ← flag options "verbose"
  let instantiate := (options.field? "instantiate").getD (.object [])
  let .object _ := instantiate | .error (.fieldNotAnObject "instantiate")
  let classes ← forced instantiate "classes" "instantiate.classes"
  let methods ← forced instantiate "methods" "instantiate.methods"
  match methods.keys.find? (!isMethodKey ·) with
  | some key => .error (.badMethodKey key)
  | none =>
    return { c with
      rootDir := setting? (baseText rootDir)
      outDir := setting? (pathText outDir)
      apiVersion := (setting? (nameText apiVersion)).getD c.apiVersion
      outDirTorn := isTornBelow c.sourceDir outDir
      apiVersionTorn := apiVersion.any (· matches .half _)
      verbose := verbose
      forcedClasses := classes
      forcedMethods := methods }

def applyJson (c : Configuration) : Json → Except Cause Configuration
  | .object fields =>
    match (Json.object fields).field? "compilerOptions" with
    | none => c.apply (.object [])
    | some (.object options) => c.apply (.object options)
    | some _ => .error .optionsNotAnObject
  | _ => .error .notAnObject

def applyFile (c : Configuration) (path : Text) : File → Except Error Configuration
  | .absent => .ok c
  | .closed failure => .error (.badFile path (.unreadable failure.text))
  | .contents bytes =>
    match Utf8.decode bytes with
    | .error e => .error (.undecodable e)
    | .ok raw =>
      let text := raw.unifyNewlines
      match Json.parse text with
      | .error (.oversized digits) => .error (.oversizedInteger digits)
      | .error (.malformed cause place) =>
        let offset := Text.offset text.length place
        .error (.badFile path
          (.notJson (text.lineNumber offset) (text.columnNumber offset) cause.text))
      | .ok json => (c.applyJson json).mapError (.badFile path)

def applyFlags (c : Configuration) (f : Flags) : Configuration :=
  { c with
    rootDir := (setting? f.rootDir).or c.rootDir
    outDir := (setting? f.outDir).or c.outDir
    apiVersion := (setting? f.apiVersion).getD c.apiVersion
    outDirTorn := c.outDirTorn && (setting? f.outDir).isNone
    apiVersionTorn := c.apiVersionTorn && (setting? f.apiVersion).isNone
    watch := c.watch || f.watch
    verbose := c.verbose || f.verbose
    writeMeta := c.writeMeta && f.writeMeta }

def anchor (c : Configuration) : Configuration :=
  let place := fun d => Path.normalize (Path.join c.sourceDir d)
  { c with rootDir := c.rootDir.map place, outDir := c.outDir.map place }

def filePath (cwd sourceDir : Text) : Text :=
  Path.join (Path.absolute cwd sourceDir) configurationName

/-- The configuration for compiling `sourceDir`; `file` looks at a path. -/
def load (cwd sourceDir : Text) (flags : Flags) (file : Text → File) :
    Except Error Configuration :=
  let path := filePath cwd sourceDir
  let start : Configuration := { sourceDir := Path.absolute cwd sourceDir }
  (start.applyFile path (file path)).map fun c => (c.applyFlags flags).anchor

end Configuration

end Monomorph
