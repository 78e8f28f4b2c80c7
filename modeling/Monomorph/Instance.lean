import Monomorph.Diagnostic.Code
import Monomorph.Method
import Monomorph.Splice
import Monomorph.Substitution
import Monomorph.Template
import Monomorph.Usage

/-!
# Instances

A class or method with type arguments in place of its parameters. Parameters turn into the
canonical text of their arguments first. Then the usages of known templates in the result turn
into concrete names, and each of them is an instance that is needed too.
-/

namespace Monomorph

/-- Generated text with the instances that it refers to, in the order in which they were found. -/
structure Generated where
  text : Text
  needs : List TypeExpr
deriving Repr

namespace Instance

/-- Puts concrete names in place of the usages of known templates. -/
def flatten (known : Text → Bool) (text : Text) : Generated :=
  let found := Usage.findKnown known text
  ⟨Usage.replace text (found.map TypeExpr.mangle), found.values⟩

def collect (table : Table Text TypeExpr) (es : List TypeExpr) : Table Text TypeExpr :=
  table.insertAllNew (es.map fun e => (e.render, e))

def arityComment (name : Text) (expected actual : Nat) : Text :=
  "// ERROR: " ++ (Issue.arityMismatch name expected actual).message

def bindings (parameters : List Text) (args : List TypeExpr) : Table Text Text :=
  .ofList (parameters.zip (args.map TypeExpr.render))

def plainDeclaration (t : Template) : Text :=
  let d :=
    if !t.bracket.isEmpty && t.bracket.isSuffixOf t.declaration then
      t.declaration.take (t.declaration.length - t.bracket.length)
    else t.declaration
  if d.isEmpty then "public class " ++ t.className else d

/-- What follows the declaration of a template, with `args` in place of its parameters. -/
def specialized (t : Template) (args : List TypeExpr) (body : Text) : Text :=
  Substitution.substitute (t.header ++ body) (bindings t.parameters args)

/-- The class that a template gives for `args`; `body` may stand in for the template's own. -/
def ofTemplate (known : Text → Bool) (t : Template) (args : List TypeExpr) (body : Option Text) :
    Generated :=
  if args.length ≠ t.parameters.length then
    ⟨arityComment t.className t.parameters.length args.length, []⟩
  else
    let flat := flatten known (specialized t args (body.getD t.body))
    ⟨Substitution.replaceNameInCode (plainDeclaration t ++ flat.text) t.className
      (TypeExpr.mangle ⟨t.className, args⟩), flat.needs⟩

def methodName (m : GenericMethod) (args : List TypeExpr) : Text :=
  m.name ++ TypeExpr.mangleAll args

/-- The signature of a method without its parameter list and the blanks behind that. -/
def plainSignature (m : GenericMethod) : Text :=
  if m.bracket.isEmpty then m.signature
  else
    match Text.find? m.bracket m.signature with
    | none => m.signature
    | some i => m.signature.take i ++ Text.dropBlank (m.signature.drop (i + m.bracket.length))

/-- A method under its concrete name, with `args` in place of its parameters. -/
def specializedMethod (m : GenericMethod) (args : List TypeExpr) : Text :=
  let rules := bindings m.parameters args
  let signature := Substitution.replaceName (Substitution.substitute (plainSignature m) rules)
    m.name (methodName m args)
  signature ++ " " ++ Substitution.substitute m.body rules

/-- The method that a generic method gives for `args`. Without `known` usages are left as they
are. -/
def ofMethod (known : Option (Text → Bool)) (m : GenericMethod) (args : List TypeExpr) :
    Generated :=
  if args.length ≠ m.parameters.length then
    ⟨arityComment m.name m.parameters.length args.length, []⟩
  else
    match known with
    | none => ⟨specializedMethod m args, []⟩
    | some known => flatten known (specializedMethod m args)

end Instance

end Monomorph
