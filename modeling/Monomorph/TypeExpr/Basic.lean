import Monomorph.Lexical.Name

/-!
# Type expressions

A type expression is a name applied to type arguments; one without arguments is simple. Its
canonical text puts a comma and a space between arguments. Its concrete name runs all its names
together.
-/

namespace Monomorph

structure TypeExpr where
  name : Text
  args : List TypeExpr := []
deriving Inhabited, Repr

namespace TypeExpr

mutual
def beq : TypeExpr → TypeExpr → Bool
  | ⟨n, as⟩, ⟨m, bs⟩ => n == m && beqAll as bs
def beqAll : List TypeExpr → List TypeExpr → Bool
  | [], [] => true
  | a :: as, b :: bs => beq a b && beqAll as bs
  | _, _ => false
end

mutual
theorem eq_of_beq : (e f : TypeExpr) → beq e f = true → e = f
  | ⟨n, as⟩, ⟨m, bs⟩, h => by
    simp only [beq, Bool.and_eq_true, beq_iff_eq] at h
    rw [h.1, eq_of_beqAll as bs h.2]
theorem eq_of_beqAll : (es fs : List TypeExpr) → beqAll es fs = true → es = fs
  | [], [], _ => rfl
  | a :: as, b :: bs, h => by
    simp only [beqAll, Bool.and_eq_true] at h
    rw [eq_of_beq a b h.1, eq_of_beqAll as bs h.2]
  | [], _ :: _, h => by simp [beqAll] at h
  | _ :: _, [], h => by simp [beqAll] at h
end

mutual
theorem beq_self : (e : TypeExpr) → beq e e = true
  | ⟨n, as⟩ => by simp [beq, beqAll_self as]
theorem beqAll_self : (es : List TypeExpr) → beqAll es es = true
  | [] => rfl
  | a :: as => by simp [beqAll, beq_self a, beqAll_self as]
end

instance : DecidableEq TypeExpr := fun e f =>
  decidable_of_iff (beq e f = true) ⟨eq_of_beq e f, fun h => h ▸ beq_self e⟩

def isSimple (e : TypeExpr) : Bool :=
  e.args.isEmpty

mutual
def render : TypeExpr → Text
  | ⟨n, []⟩ => n
  | ⟨n, a :: as⟩ => n ++ '<' :: (a.render ++ renderMore as ++ ">")
def renderMore : List TypeExpr → Text
  | [] => []
  | a :: as => ", " ++ a.render ++ renderMore as
end

def renderList : List TypeExpr → Text
  | [] => []
  | a :: as => a.render ++ renderMore as

mutual
/-- The concrete name: every name in the expression, in order, with nothing between. -/
def mangle : TypeExpr → Text
  | ⟨n, as⟩ => n ++ mangleAll as
def mangleAll : List TypeExpr → Text
  | [] => []
  | a :: as => a.mangle ++ mangleAll as
end

mutual
/-- Every argument at any depth, each before its own arguments. -/
def nested : TypeExpr → List TypeExpr
  | ⟨_, as⟩ => nestedAll as
def nestedAll : List TypeExpr → List TypeExpr
  | [] => []
  | a :: as => a :: (a.nested ++ nestedAll as)
end

def names (e : TypeExpr) : List Text :=
  e.name :: e.nested.map name

def mentionsAny (e : TypeExpr) (wanted : List Text) : Bool :=
  e.names.any wanted.contains

end TypeExpr

/-- The collections of the host language, which are never templates. -/
def builtins : List Text :=
  ["List", "Set", "Map"]

def isBuiltin (name : Text) : Bool :=
  builtins.contains name

end Monomorph
