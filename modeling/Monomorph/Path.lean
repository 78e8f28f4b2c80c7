import Monomorph.Text.Basic

/-!
# Paths

Paths with slashes, handled by their text alone. Exactly two leading slashes are kept apart from
one; three or more count as one.
-/

namespace Monomorph.Path

def isAbsolute (p : Text) : Bool :=
  p.head? == some '/'

def join (a b : Text) : Text :=
  if isAbsolute b then b
  else if a.isEmpty || a.getLast? == some '/' then a ++ b
  else a ++ '/' :: b

def directory (p : Text) : Text :=
  let head := Text.throughLast '/' p
  if head.all (· == '/') then head else (head.reverse.dropWhile (· == '/')).reverse

def fileName (p : Text) : Text :=
  Text.afterLast '/' p

/-- A file name without its extension. Dots at its start belong to the stem. -/
def stem (name : Text) : Text :=
  let front := (Text.throughLast '.' name).dropLast
  if front.any (· != '.') then front else name

/-- Adds a component to those of a path, last first: empty ones and `.` are dropped, and `..`
takes the component before it away. Above the root of a `rooted` path there is nothing. -/
def push (rooted : Bool) (parts : List Text) (part : Text) : List Text :=
  if part = [] ∨ part = "." then parts
  else if part ≠ ".." then part :: parts
  else
    match parts with
    | [] => if rooted then [] else [part]
    | p :: ps => if p = ".." then part :: p :: ps else ps

def components (rooted : Bool) (p : Text) : List Text :=
  ((Text.splitAt '/' p).foldl (push rooted) []).reverse

def leadingSlashes : Text → Nat
  | '/' :: '/' :: '/' :: _ => 1
  | '/' :: '/' :: _ => 2
  | '/' :: _ => 1
  | _ => 0

def joinParts (parts : List Text) : Text :=
  List.intercalate "/" parts

def normalize (p : Text) : Text :=
  let slashes := leadingSlashes p
  let q := List.replicate slashes '/' ++ joinParts (components (slashes != 0) p)
  if q.isEmpty then "." else q

def absolute (cwd p : Text) : Text :=
  normalize (if isAbsolute p then p else join cwd p)

def resolve (cwd p : Text) : List Text :=
  components true (join cwd p)

def dropCommon : List Text → List Text → List Text × List Text
  | a :: as, b :: bs => if a = b then dropCommon as bs else (a :: as, b :: bs)
  | as, bs => (as, bs)

def relative (cwd p base : Text) : Text :=
  match dropCommon (resolve cwd p) (resolve cwd base) with
  | ([], []) => "."
  | (down, up) => joinParts (List.replicate up.length "..".toList ++ down)

/-- The name under which messages show a file: relative to `cwd` with a leading `./` when it lies
below it, else as given. No link is followed. -/
def display (cwd p : Text) : Text :=
  if p.contains '\x00' then p
  else
    match dropCommon (resolve cwd p) (resolve cwd cwd) with
    | ([], []) => "./."
    | (down, []) => "./" ++ joinParts down
    | _ => p

end Monomorph.Path
