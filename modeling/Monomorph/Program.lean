import Monomorph.Instance
import Monomorph.Outcome
import Monomorph.TypeExpr.Reader

/-!
# Programs

A snapshot of source files together with the instantiations that the configuration asks for, and
what scanning finds in it: the templates and generic methods of each file, and every usage of a
template that is closed, that is, free of template parameters. `Program.scan` collects all errors
before it gives up.
-/

namespace Monomorph

structure Snapshot where
  files : Table Text Text
  /-- Argument texts by template name. -/
  forcedClasses : Table Text (List Text) := ∅
  /-- Argument texts by `Owner.method`. -/
  forcedMethods : Table Text (List Text) := ∅

def Snapshot.ordered (s : Snapshot) : List (Text × Text) :=
  s.files.entries.mergeSort fun a b => a.1.ble b.1

structure Declared where
  path : Text
  content : Text
  templates : List Template

/-- A file after the search for generic methods, which come in the order in which they stand. -/
structure SourceFile extends Declared where
  methods : List GenericMethod

namespace Declared

def isTemplateFile (f : Declared) : Bool :=
  !f.templates.isEmpty

def scan (path content : Text) : Except Diagnostic Declared :=
  match Template.find content with
  | .ok ts => .ok ⟨path, content, ts.values⟩
  | .error f => .error (.ofFault content (some path) f)

/-- The methods in the bodies of some templates, by key. -/
def methodsIn (content : Text) : List Template → Except Fault (Table Text GenericMethod)
  | [] => .ok ∅
  | t :: ts =>
    match GenericMethod.find content t.className t.bodyStart (some t.span.stop) with
    | .error f => .error f
    | .ok own =>
      match methodsIn content ts with
      | .error f => .error f
      | .ok more => .ok (own.insertAll more.entries)

/-- The generic methods of a file. Outside template files they belong to the first class. -/
def methods (f : Declared) : Except Fault (Table Text GenericMethod) :=
  if f.isTemplateFile then methodsIn f.content f.templates
  else
    match Template.firstClassName? f.content with
    | none => .ok ∅
    | some owner => GenericMethod.find f.content owner 0 none

def withMethods (f : Declared) : Except Diagnostic SourceFile :=
  match f.methods with
  | .ok ms => .ok { f with methods := ms.values.mergeSort fun a b => a.span.start ≤ b.span.start }
  | .error e => .error (.ofFault f.content (some f.path) e)

end Declared

def GenericMethod.cutSpan (m : GenericMethod) : Int × Int :=
  (m.span.start, m.span.stop)

namespace SourceFile

def stripped (f : SourceFile) : Text :=
  Splice.cut f.content (f.methods.map (·.cutSpan)) 0

def methodsOf (f : SourceFile) (className : Text) : List GenericMethod :=
  f.methods.filter (·.owner == className)

def strippedBody (f : SourceFile) (t : Template) : Text :=
  Splice.cut t.body ((f.methodsOf t.className).map (·.cutSpan)) t.bodyStart

end SourceFile

structure Program where
  files : List SourceFile
  /-- Each template by name with the file that declares it. -/
  templates : Table Text (Template × SourceFile)
  /-- Closed usages of templates by literal text. -/
  usages : Table Text TypeExpr
  /-- Argument lists by `Owner.method`. -/
  methodUsages : Table Text (List (List TypeExpr))

/-- Where errors in forced instantiations are reported. -/
def configurationName : Text := "peakconfig.json"

def configurationProblem (i : Issue) : Outcome :=
  .failed configurationName (.ofIssue i none (some configurationName) [])

namespace Program

def partition {ε α : Type} : List (Except ε α) → List ε × List α
  | [] => ([], [])
  | .error e :: rs => let (es, as) := partition rs; (e :: es, as)
  | .ok a :: rs => let (es, as) := partition rs; (es, a :: as)

def readForced (name : Text) (texts : List Text) : List Outcome × List (List TypeExpr) :=
  partition (texts.map fun text =>
    match TypeExpr.readList text with
    | .ok es => .ok es
    | .error e =>
      .error (configurationProblem (.badInstantiation (name ++ '<' :: (text ++ ">")) e.message)))

def forcedClass (known : Text → Bool) (name : Text) (texts : List Text) :
    List Outcome × List TypeExpr :=
  if known name then
    let (problems, lists) := readForced name texts
    (problems, lists.map fun args => ⟨name, args⟩)
  else
    let text := match texts with
      | [] => name
      | t :: _ => name ++ '<' :: (t ++ ">")
    ([configurationProblem (.unknownTemplate text name)], [])

def forcedMethod (known : Text → Bool) (key : Text) (texts : List Text) :
    List Outcome × List (List TypeExpr) :=
  if known key then readForced key texts
  else ([configurationProblem (.unknownMethod key)], [])

/-- The closed usages in a file. In template files only bodies are searched, and what mentions a
parameter of its template is left out. -/
def usagesIn (known : Text → Bool) (f : SourceFile) : List (Text × TypeExpr) :=
  if f.isTemplateFile then
    f.templates.flatMap fun t =>
      ((Usage.findKnown known (f.strippedBody t)).filter fun _ e =>
        !e.mentionsAny t.parameters).entries
  else (Usage.findKnown known f.stripped).entries

/-- Keeps the first of several argument lists with one canonical text. -/
def distinctArguments (lists : List (List TypeExpr)) : List (List TypeExpr) :=
  (Table.insertAllNew (∅ : Table Text (List TypeExpr))
    (lists.map fun args => (TypeExpr.renderList args, args))).values

/-- Scans a snapshot. Errors come in this order: templates by file, methods by file, forced
classes, forced methods. -/
def scan (s : Snapshot) : Except (List Outcome) Program :=
  let (templateErrors, declared) := partition (s.ordered.map fun f =>
    (Declared.scan f.1 f.2).mapError (Outcome.failed f.1))
  let (methodErrors, files) := partition (declared.map fun f =>
    f.withMethods.mapError (Outcome.failed f.path))
  let names := declared.flatMap fun f => f.templates.map (·.className)
  let keys := files.flatMap fun f => f.methods.map (·.key)
  let classes := s.forcedClasses.entries.map fun e => forcedClass names.contains e.1 e.2
  let methods := s.forcedMethods.entries.map fun e => (e.1, forcedMethod keys.contains e.1 e.2)
  let errors := templateErrors ++ methodErrors ++ classes.flatMap (·.1) ++
    methods.flatMap (·.2.1)
  if errors.isEmpty then
    let forced := (classes.flatMap (·.2)).map fun e => (e.render, e)
    .ok {
      files
      templates := .ofList (files.flatMap fun f => f.templates.map fun t => (t.className, t, f))
      usages := Table.insertAllNew ∅ (forced ++ files.flatMap (usagesIn names.contains))
      methodUsages := ⟨methods.map fun m => (m.1, distinctArguments m.2.2)⟩ }
  else .error errors

def known (p : Program) (name : Text) : Bool :=
  p.templates.contains name

end Program

end Monomorph
