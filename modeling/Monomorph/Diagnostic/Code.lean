import Monomorph.Text.Basic

/-!
# Diagnostic codes

Everything that can be reported has a code with a label, a category, a wording with named blanks
and a line of advice. An `Issue` is a code together with what goes into the blanks.
-/

namespace Monomorph

inductive Severity where
  | error
  | warning
deriving DecidableEq, Repr

def Severity.name : Severity → Text
  | .error => "error"
  | .warning => "warning"

inductive Category where
  | source
  | configuration
  | instantiation
  | files
deriving DecidableEq, Repr

def Category.name : Category → Text
  | .source => "syntax"
  | .configuration => "configuration"
  | .instantiation => "instantiation"
  | .files => "io"

inductive Field where
  | got
  | name
  | text
  | key
  | reason
  | expected
  | actual
  | depth
  | path
deriving DecidableEq, Repr

def Field.all : List Field :=
  [.got, .name, .text, .key, .reason, .expected, .actual, .depth, .path]

def Field.label : Field → Text
  | .got => "got"
  | .name => "name"
  | .text => "text"
  | .key => "key"
  | .reason => "reason"
  | .expected => "expected"
  | .actual => "actual"
  | .depth => "depth"
  | .path => "path"

def Field.ofLabel? (label : Text) : Option Field :=
  Field.all.find? (·.label == label)

inductive Phrase where
  | words (text : Text)
  | blank (field : Field)
deriving DecidableEq, Repr

abbrev Wording := List Phrase

namespace Wording

/-- The wording with its blanks shown by name in braces. -/
def outline (w : Wording) : Text :=
  w.flatMap fun
    | .words t => t
    | .blank f => '{' :: f.label ++ ['}']

/-- The first blank that `fields` leaves open. -/
def missing? (w : Wording) (fields : List (Field × Text)) : Option Field :=
  w.findSome? fun
    | .words _ => none
    | .blank f => if (fields.lookup f).isSome then none else some f

def fill (w : Wording) (fields : List (Field × Text)) : Text :=
  w.flatMap fun
    | .words t => t
    | .blank f => (fields.lookup f).getD []

end Wording

inductive Code where
  | noOpening
  | noTypeName
  | badArgument
  | doubledOpening
  | doubledClosing
  | noParameter
  | longParameter
  | oddParameter
  | repeatedParameter
  | badParameter
  | unknownTemplate
  | unknownMethod
  | badInstantiation
  | badConfiguration
  | arityMismatch
  | tooDeep
  | noDirectory
  | noSources
  | unreadable
  | unwritable
  | unresolvable
deriving DecidableEq, Repr

namespace Code

def all : List Code :=
  [.noOpening, .noTypeName, .badArgument, .doubledOpening, .doubledClosing, .noParameter,
    .longParameter, .oddParameter, .repeatedParameter, .badParameter, .unknownTemplate,
    .unknownMethod, .badInstantiation, .badConfiguration, .arityMismatch, .tooDeep, .noDirectory,
    .noSources, .unreadable, .unwritable, .unresolvable]

def label : Code → Text
  | .noOpening => "PE1001"
  | .noTypeName => "PE1002"
  | .badArgument => "PE1003"
  | .doubledOpening => "PE1004"
  | .doubledClosing => "PE1005"
  | .noParameter => "PE1006"
  | .longParameter => "PE1007"
  | .oddParameter => "PE1008"
  | .repeatedParameter => "PE1009"
  | .badParameter => "PE1010"
  | .unknownTemplate => "CE2001"
  | .unknownMethod => "CE2002"
  | .badInstantiation => "CE2003"
  | .badConfiguration => "CE2004"
  | .arityMismatch => "CE3001"
  | .tooDeep => "CE3002"
  | .noDirectory => "CE4001"
  | .noSources => "CE4002"
  | .unreadable => "CE4003"
  | .unwritable => "CE4004"
  | .unresolvable => "CE4005"

def ofLabel? (label : Text) : Option Code :=
  all.find? (·.label == label)

def severity (_ : Code) : Severity :=
  .error

def category : Code → Category
  | .noOpening | .noTypeName | .badArgument | .doubledOpening | .doubledClosing | .noParameter
  | .longParameter | .oddParameter | .repeatedParameter | .badParameter => .source
  | .unknownTemplate | .unknownMethod | .badInstantiation | .badConfiguration => .configuration
  | .arityMismatch | .tooDeep => .instantiation
  | .noDirectory | .noSources | .unreadable | .unwritable | .unresolvable => .files

def wording : Code → Wording
  | .noOpening => [.words "expected '<'"]
  | .noTypeName => [.words "expected type name"]
  | .badArgument => [.words "expected '>' or ',', got '", .blank .got, .words "'"]
  | .doubledOpening => [.words "'<<' is not allowed in type parameters"]
  | .doubledClosing => [.words "'>>' is not allowed in type parameters"]
  | .noParameter => [.words "expected type parameter"]
  | .longParameter =>
    [.words "type parameter '", .blank .name, .words "' must be a single letter (e.g., T, U, V)"]
  | .oddParameter => [.words "type parameter '", .blank .name, .words "' must be a letter"]
  | .repeatedParameter => [.words "duplicate type parameter '", .blank .name, .words "'"]
  | .badParameter => [.words "expected '>' or ','"]
  | .unknownTemplate =>
    [.words "instantiation '", .blank .text, .words "' references undefined template '",
      .blank .name, .words "'"]
  | .unknownMethod =>
    [.words "method instantiation '", .blank .key,
      .words "' references undefined generic method"]
  | .badInstantiation =>
    [.words "invalid instantiation '", .blank .text, .words "': ", .blank .reason]
  | .badConfiguration => [.blank .reason]
  | .arityMismatch =>
    [.words "Type parameter mismatch for ", .blank .name, .words " (expected ",
      .blank .expected, .words ", got ", .blank .actual, .words ")"]
  | .tooDeep =>
    [.words "Instantiation of ", .blank .name, .words " exceeds the maximum depth of ",
      .blank .depth]
  | .noDirectory => [.words "directory '", .blank .path, .words "' does not exist"]
  | .noSources => [.words "no .peak files found in '", .blank .path, .words "'"]
  | .unreadable => [.words "cannot read ", .blank .path, .words ": ", .blank .reason]
  | .unwritable => [.words "cannot write ", .blank .path, .words ": ", .blank .reason]
  | .unresolvable =>
    [.words "cannot resolve output path for ", .blank .path, .words ": ", .blank .reason]

def advice : Code → Text
  | .noOpening => "A generic expression or type-parameter list must start with '<'."
  | .noTypeName =>
    "Each type argument must be an identifier, optionally followed by its own '<...>'."
  | .badArgument => "Type arguments are separated by ',' and the list is closed by '>'."
  | .doubledOpening => "Type-parameter lists are flat: write class Foo<T>, not class Foo<<T>>."
  | .doubledClosing => "Type-parameter lists are flat: write class Foo<T>, not class Foo<T>>."
  | .noParameter => "A type-parameter list needs at least one parameter name."
  | .longParameter => "Only single-letter type parameters are supported."
  | .oddParameter => "Digits and underscores cannot be used as type parameters."
  | .repeatedParameter => "Every type parameter of a class or method must be distinct."
  | .badParameter => "Type parameters are separated by ',' and the list is closed by '>'."
  | .unknownTemplate => "Every key of instantiate.classes must name a generic class."
  | .unknownMethod =>
    "Every key of instantiate.methods must name an existing Owner.method generic method."
  | .badInstantiation => "Type arguments are comma-separated type names, optionally generic."
  | .badConfiguration => "peakconfig.json could not be loaded."
  | .arityMismatch =>
    "The number of type arguments must match the template's type parameters."
  | .tooDeep =>
    "A template that keeps instantiating ever larger versions of itself is cut off at this depth."
  | .noDirectory => "Check the directory path and try again."
  | .noSources => "Make sure the directory contains .peak source files."
  | .unreadable => "The source file could not be read."
  | .unwritable => "The output file could not be written."
  | .unresolvable => "Check outDir and rootDir in peakconfig.json or on the command line."

end Code

structure Issue where
  code : Code
  fields : List (Field × Text) := []
deriving DecidableEq, Repr

namespace Issue

def message (i : Issue) : Text :=
  i.code.wording.fill i.fields

def noOpening : Issue := ⟨.noOpening, []⟩

def noTypeName : Issue := ⟨.noTypeName, []⟩

def badArgument (got : Text) : Issue := ⟨.badArgument, [(.got, got)]⟩

def doubledOpening : Issue := ⟨.doubledOpening, []⟩

def doubledClosing : Issue := ⟨.doubledClosing, []⟩

def noParameter : Issue := ⟨.noParameter, []⟩

def longParameter (name : Text) : Issue := ⟨.longParameter, [(.name, name)]⟩

def oddParameter (name : Text) : Issue := ⟨.oddParameter, [(.name, name)]⟩

def repeatedParameter (name : Text) : Issue := ⟨.repeatedParameter, [(.name, name)]⟩

def badParameter : Issue := ⟨.badParameter, []⟩

def unknownTemplate (text name : Text) : Issue :=
  ⟨.unknownTemplate, [(.text, text), (.name, name)]⟩

def unknownMethod (key : Text) : Issue := ⟨.unknownMethod, [(.key, key)]⟩

def badInstantiation (text reason : Text) : Issue :=
  ⟨.badInstantiation, [(.text, text), (.reason, reason)]⟩

def arityMismatch (name : Text) (expected actual : Nat) : Issue :=
  ⟨.arityMismatch,
    [(.name, name), (.expected, Text.ofNat expected), (.actual, Text.ofNat actual)]⟩

def tooDeep (name : Text) (depth : Nat) : Issue :=
  ⟨.tooDeep, [(.name, name), (.depth, Text.ofNat depth)]⟩

def noDirectory (path : Text) : Issue := ⟨.noDirectory, [(.path, path)]⟩

def noSources (path : Text) : Issue := ⟨.noSources, [(.path, path)]⟩

def unreadable (path reason : Text) : Issue :=
  ⟨.unreadable, [(.path, path), (.reason, reason)]⟩

def unwritable (path reason : Text) : Issue :=
  ⟨.unwritable, [(.path, path), (.reason, reason)]⟩

def unresolvable (path reason : Text) : Issue :=
  ⟨.unresolvable, [(.path, path), (.reason, reason)]⟩

end Issue

end Monomorph
