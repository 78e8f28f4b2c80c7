import Monomorph.Path
import Monomorph.Table
import Monomorph.Text.Utf8

/-!
# File trees

A file tree as a value: every node below the root by the components of its path. A node is a
directory, a file, a file that cannot be opened, or a link that leads back to itself. Links that lead
elsewhere are left out. The operations fail the way a file system does, with its words.
-/

namespace Monomorph

inductive FileError where
  | notFound
  | notADirectory
  | isADirectory
  | alreadyExists
  | nameTooLong
  /-- There is a circular link on the way. -/
  | tooManyLinks
  /-- The file is not opened, for a reason that the file system gives. -/
  | barred (reason : Text)
  /-- The path holds NUL, so no file system was ever asked. -/
  | nulInPath
  /-- The path or the contents cannot be encoded as bytes. -/
  | unencodable
deriving DecidableEq, Repr

def FileError.message : FileError → Text
  | .notFound => "No such file or directory"
  | .notADirectory => "Not a directory"
  | .isADirectory => "Is a directory"
  | .alreadyExists => "File exists"
  | .nameTooLong => "File name too long"
  | .tooManyLinks => "Too many levels of symbolic links"
  | .barred reason => reason
  | .nulInPath => "embedded null byte"
  | .unencodable => "surrogates not allowed"

inductive Node where
  | directory
  | file (bytes : Bytes)
  /-- A file that cannot be opened, and what the file system says to that. -/
  | barred (reason : Text)
  /-- A link that leads back to itself, at once or through others. -/
  | circular
deriving DecidableEq, Repr

namespace Node

def contents : Node → Except FileError Bytes
  | .directory => .error .isADirectory
  | .file bytes => .ok bytes
  | .barred reason => .error (.barred reason)
  | .circular => .error .tooManyLinks

def blockade : Node → FileError
  | .circular => .tooManyLinks
  | _ => .notADirectory

end Node

structure FileTree where
  nodes : Table (List Text) Node := ∅

namespace FileTree

/-- The root is always there. -/
def node? (t : FileTree) (place : List Text) : Option Node :=
  if place.isEmpty then some .directory else t.nodes.get? place

def maxNameBytes : Nat := 255

def isLong (name : Text) : Bool :=
  maxNameBytes < (Utf8.encode name).length

def maxPathBytes : Nat := 4095

/-- Whether a path is too long as it is written, wherever it leads. -/
def isLongPath (path : Text) : Bool :=
  maxPathBytes < (Utf8.encode path).length

/-- Why no file system takes a path at all. -/
def refusal? (path : Text) : Option FileError :=
  if path.contains '\x00' then some .nulInPath
  else if isLongPath path then some .nameTooLong
  else none

/-- Follows components from a node at `place`. -/
def follow (t : FileTree) (place : List Text) (n : Node) :
    List Text → Except FileError (List Text × Node)
  | [] => .ok (place, n)
  | part :: parts =>
    match n with
    | .directory =>
      if part = [] ∨ part = "." then follow t place n parts
      else if part = ".." then follow t place.dropLast .directory parts
      else if isLong part then .error .nameTooLong
      else
        match t.node? (place ++ [part]) with
        | none => .error .notFound
        | some .circular => .error .tooManyLinks
        | some m => follow t (place ++ [part]) m parts
    | _ => .error .notADirectory

def lookup (t : FileTree) (cwd path : Text) : Except FileError (List Text × Node) :=
  match refusal? path with
  | some e => .error e
  | none =>
    if path.isEmpty then .error .notFound
    else t.follow [] .directory (Text.splitAt '/' (Path.join cwd path))

def isDirectory (t : FileTree) (cwd path : Text) : Bool :=
  match t.lookup cwd path with
  | .ok (_, .directory) => true
  | _ => false

def isFile (t : FileTree) (cwd path : Text) : Bool :=
  match t.lookup cwd path with
  | .ok (_, .file _) | .ok (_, .barred _) => true
  | _ => false

def hasNode (t : FileTree) (cwd path : Text) : Bool :=
  match t.lookup cwd path with
  | .ok _ => true
  | .error _ => false

def read (t : FileTree) (cwd path : Text) : Except FileError Bytes :=
  match t.lookup cwd path with
  | .error e => .error e
  | .ok (_, n) => n.contents

/-- Whether the normal form of a path leads to a circular link or through one. -/
def leadsRound (t : FileTree) (cwd path : Text) : Bool :=
  match t.lookup cwd (Path.absolute cwd path) with
  | .error .tooManyLinks => true
  | _ => false

/-- Makes the directories along `parts` below the one at `place`, whose path is `way`; those that
exist are left. Another node at the end of the way exists already, one further up blocks it. -/
def makeBelow (t : FileTree) (place : List Text) (way : Text) :
    List Text → Except (FileError × FileTree) FileTree
  | [] => .ok t
  | part :: parts =>
    let here := Path.join way part
    match refusal? here with
    | some e => .error (e, t)
    | none =>
      if isLong part then .error (.nameTooLong, t)
      else
        match t.node? (place ++ [part]), parts with
        | some .directory, _ => makeBelow t (place ++ [part]) here parts
        | some _, [] => .error (.alreadyExists, t)
        | some n, next :: _ => .error ((refusal? (Path.join here next)).getD n.blockade, t)
        | none, _ => makeBelow ⟨t.nodes.insert (place ++ [part]) .directory⟩ (place ++ [part]) here parts

/-- Makes a directory with all its parents. A failure leaves those made so far. -/
def makeDirectories (t : FileTree) (cwd path : Text) : Except (FileError × FileTree) FileTree :=
  let path := Path.join cwd path
  t.makeBelow [] (List.replicate (Path.leadingSlashes path) '/') (Path.resolve cwd path)

def put (t : FileTree) (cwd path : Text) (bytes : Bytes) : Except FileError FileTree :=
  match t.lookup cwd path with
  | .ok (place, n) => n.contents.map fun _ => ⟨t.nodes.insert place (.file bytes)⟩
  | .error .notFound =>
    let parent := Path.directory path
    match t.lookup cwd (if parent.isEmpty then "." else parent) with
    | .error e => .error e
    | .ok (place, .directory) => .ok ⟨t.nodes.insert (place ++ [Path.fileName path]) (.file bytes)⟩
    | .ok (_, n) => .error n.blockade
  | .error e => .error e

/-- Writes a file and makes its directory first. A failure leaves the directories made so far. -/
def write (t : FileTree) (cwd path : Text) (bytes : Bytes) :
    Except (FileError × FileTree) FileTree :=
  let parent := Path.directory path
  match if parent.isEmpty then .ok t else t.makeDirectories cwd parent with
  | .error e => .error e
  | .ok t' => (t'.put cwd path bytes).mapError (·, t')

def remove (t : FileTree) (cwd path : Text) : FileTree :=
  let place := Path.resolve cwd path
  ⟨t.nodes.filter fun p _ => !place.isPrefixOf p⟩

/-- The files with a given ending below a directory, as paths that begin with `root`, in order.
Directories whose names start with a dot, or whose paths are too long, are passed over. None when
there is no such directory. -/
def filesBelow? (t : FileTree) (cwd root ending : Text) : Option (List Text) :=
  match t.lookup cwd root with
  | .ok (place, .directory) =>
    some ((t.nodes.entries.filterMap fun (p, n) =>
      if n ≠ .directory ∧ place.isPrefixOf p then
        let way := p.drop place.length
        let parent := way.dropLast.foldl Path.join root
        if way.dropLast.any (·.head? == some '.') || isLongPath parent then none
        else
          let name := way.getLast?.getD []
          if ending.isSuffixOf name then some (Path.join parent name) else none
      else none).mergeSort Text.ble)
  | _ => none

/-- The files that are new or different in `t`, as paths below `root`, in order. -/
def changesSince (t old : FileTree) (root : List Text) : List (Text × Bytes) :=
  (t.nodes.entries.filterMap fun (p, n) =>
    match n with
    | .file bytes =>
      if root.isPrefixOf p && old.node? p != some n then
        some (Path.joinParts (p.drop root.length), bytes)
      else none
    | _ => none).mergeSort fun a b => a.1.ble b.1

end FileTree

end Monomorph
