/-!
# Tables

Finite maps that remember the order in which their keys were first put in. Replacing a value
keeps the place of its key.
-/

namespace Monomorph

structure Table (κ α : Type) where
  entries : List (κ × α) := []
deriving Repr

namespace Table

variable {κ α β : Type} [BEq κ]

instance : EmptyCollection (Table κ α) := ⟨⟨[]⟩⟩

instance : Inhabited (Table κ α) := ⟨∅⟩

def keys (t : Table κ α) : List κ :=
  t.entries.map Prod.fst

def values (t : Table κ α) : List α :=
  t.entries.map Prod.snd

def isEmpty (t : Table κ α) : Bool :=
  t.entries.isEmpty

def get? (t : Table κ α) (k : κ) : Option α :=
  t.entries.lookup k

def contains (t : Table κ α) (k : κ) : Bool :=
  (t.get? k).isSome

/-- Puts `a` at `k`; a value that was there before gives way. -/
def insert (t : Table κ α) (k : κ) (a : α) : Table κ α :=
  ⟨go t.entries⟩
where
  go : List (κ × α) → List (κ × α)
    | [] => [(k, a)]
    | (j, b) :: r => if k == j then (j, a) :: r else (j, b) :: go r

/-- Puts `a` at `k` unless there is a value already. -/
def insertNew (t : Table κ α) (k : κ) (a : α) : Table κ α :=
  if t.contains k then t else ⟨t.entries ++ [(k, a)]⟩

def insertAll (t : Table κ α) (es : List (κ × α)) : Table κ α :=
  es.foldl (fun t e => t.insert e.1 e.2) t

def insertAllNew (t : Table κ α) (es : List (κ × α)) : Table κ α :=
  es.foldl (fun t e => t.insertNew e.1 e.2) t

/-- Of several entries with one key the first gives the place and the last the value. -/
def ofList (es : List (κ × α)) : Table κ α :=
  insertAll ∅ es

def map (f : α → β) (t : Table κ α) : Table κ β :=
  ⟨t.entries.map fun e => (e.1, f e.2)⟩

def filter (p : κ → α → Bool) (t : Table κ α) : Table κ α :=
  ⟨t.entries.filter fun e => p e.1 e.2⟩

end Table

end Monomorph
