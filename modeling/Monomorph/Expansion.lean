import Monomorph.Path
import Monomorph.Program

/-!
# Expansion

The output of a program: every file that declares no template, expanded, and one class for every
instance that is needed. Instances are made level by level. The first level holds the usages in
the files, each further one what the classes of the level before need. Beyond `maxDepth` levels a
comment takes the place of a class.
-/

namespace Monomorph

/-- Where the output for a source path goes, or why it has no place. -/
abbrev Resolver := Text → Except Text Text

def sourceExtension : Text := ".peak"

def outputExtension : Text := ".cls"

/-- Next to the source, with the extension exchanged. -/
def besideSource (path : Text) : Text :=
  (if sourceExtension.isSuffixOf path then path.take (path.length - sourceExtension.length)
    else path) ++ outputExtension

def maxDepth : Nat := 16

namespace Expansion

def concreteMethods (p : Program) (known : Option (Text → Bool)) (methods : List GenericMethod) :
    List (Text × Text) × List TypeExpr :=
  let made := methods.flatMap fun m =>
    ((p.methodUsages.get? m.key).getD []).map fun args =>
      let name :=
        if args.length = m.parameters.length then Instance.methodName m args else m.name
      (name, Instance.ofMethod known m args)
  (made.map fun (n, g) => (n, g.text), made.flatMap fun (_, g) => g.needs)

/-- A file without templates: generic methods go, usages get concrete names, and concrete methods
come in. -/
def expandFile (p : Program) (f : SourceFile) : Generated :=
  let (methods, needs) := concreteMethods p (some p.known) f.methods
  ⟨Splice.insertMethods (Instance.flatten p.known f.stripped).text methods, needs⟩

def fileOutcome (p : Program) (resolver : Resolver) (f : SourceFile) : Outcome :=
  if f.isTemplateFile then .template f.path
  else
    match resolver f.path with
    | .ok path => .output (some f.path) path (expandFile p f).text
    | .error reason =>
      .failed f.path (.ofIssue (.unresolvable f.path reason) none (some f.path) [])

/-- The body that the classes of a template share: its generic methods give way to concrete
ones. -/
def classBody (p : Program) (t : Template) (f : SourceFile) : Text :=
  let methods := f.methodsOf t.className
  if methods.isEmpty then t.body
  else Splice.insertMethods (f.strippedBody t) (concreteMethods p none methods).1

/-- The class for an instance of `t`, which `f` declares. Concrete methods join the body before
the class parameters are replaced. -/
def instantiate (p : Program) (t : Template) (f : SourceFile) (args : List TypeExpr) : Generated :=
  Instance.ofTemplate p.known t args (some (classBody p t f))

def depthComment (e : TypeExpr) : Text :=
  "// ERROR: " ++ (Issue.tooDeep e.render maxDepth).message

/-- Where the class `name` goes that a template of `f` gives: where a source file of that name
beside the template's would go. -/
def classPath (resolver : Resolver) (extension : Text) (f : SourceFile) (name : Text) : Text :=
  let directory := Path.directory f.path
  match resolver (Path.join directory (name ++ sourceExtension)) with
  | .ok path => path
  | .error _ => Path.join directory (name ++ extension)

structure Made where
  expr : TypeExpr
  path : Text
  content : Text
deriving DecidableEq, Repr

def Made.outcome (m : Made) : Outcome :=
  .output none m.path m.content

/-- What a level has done so far: the instances met, by canonical text, the classes in order, and
the instances for the next level. -/
structure Progress where
  seen : List Text
  made : List Made
  next : List TypeExpr

/-- Makes the class for one instance unless it was met before or has no template. At the last
level a comment is left and nothing further is needed. -/
def makeClass (p : Program) (resolver : Resolver) (extension : Text) (last : Bool) (w : Progress)
    (e : TypeExpr) : Progress :=
  match p.templates.get? e.name with
  | none => w
  | some (t, f) =>
    if w.seen.contains e.render then w
    else
      let g : Generated := if last then ⟨depthComment e, []⟩ else instantiate p t f e.args
      ⟨e.render :: w.seen,
        w.made ++ [⟨e, classPath resolver extension f e.mangle, g.text⟩],
        w.next ++ (Instance.collect ∅ g.needs).values⟩

/-- Makes classes for `needs`, with `levels` levels to follow. -/
def makeClasses (p : Program) (resolver : Resolver) (extension : Text) :
    (levels : Nat) → (seen : List Text) → (needs : List TypeExpr) → List Made
  | 0, seen, needs =>
    (needs.foldl (makeClass p resolver extension true) ⟨seen, [], []⟩).made
  | levels + 1, seen, needs =>
    let w := needs.foldl (makeClass p resolver extension false) ⟨seen, [], []⟩
    w.made ++ makeClasses p resolver extension levels w.seen w.next

def methodNeeds (p : Program) : List TypeExpr :=
  (p.files.filter (!·.isTemplateFile)).flatMap fun f => (expandFile p f).needs

/-- The instances that the files ask for: closed usages first, then what concrete methods need. -/
def roots (p : Program) : List TypeExpr :=
  p.usages.values ++ (Instance.collect ∅ (methodNeeds p)).values

def classes (p : Program) (resolver : Resolver) (extension : Text) : List Made :=
  makeClasses p resolver extension (maxDepth + 1) [] (roots p)

def ofProgram (p : Program) (resolver : Resolver) (extension : Text) : List Outcome :=
  p.files.map (fileOutcome p resolver) ++ (classes p resolver extension).map Made.outcome

/-- All outcomes for a snapshot: either errors only, or one outcome per file in the order of
paths, then the generated classes in the order in which they are reached. -/
def run (s : Snapshot) (resolver : Resolver) (extension : Text) : List Outcome :=
  match Program.scan s with
  | .error errors => errors
  | .ok p => ofProgram p resolver extension

end Expansion

end Monomorph
