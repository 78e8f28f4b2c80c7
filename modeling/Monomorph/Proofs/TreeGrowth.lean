import Monomorph.FileTree
import Monomorph.Proofs.PathLaws
import Monomorph.Proofs.TableLaws
import Mathlib.Logic.Relation

/-!
# How a file tree grows

Writing a file makes the directories that are missing and then puts the file there, step by step
(`Step`). All nodes keep their kind (`Grows.extends`), and those that are there change only when
they are written (`Grows.frame`). So a path that leads somewhere leads there still.
-/

namespace Monomorph

namespace Node

/-- A node without what is in a file. -/
def kind : Node → Node
  | file _ => file []
  | n => n

theorem eq_or_of_kind {m n : Node} (h : m.kind = n.kind) :
    m = n ∨ (∃ b, m = file b) ∧ ∃ b, n = file b := by
  cases m <;> cases n <;> simp_all [kind]

end Node

namespace FileTree

open Path

def set (t : FileTree) (place : List Text) (n : Node) : FileTree :=
  ⟨t.nodes.insert place n⟩

variable {t t' u T : FileTree} {place q dir parts : List Text} {n m : Node} {bytes : Bytes}
  {p part name way cwd : Text}

theorem node?_set_self (h : place ≠ []) : (t.set place n).node? place = some n := by
  rw [node?, if_neg (by simpa using h)]
  exact Table.get?_insert_self

theorem node?_set_of_ne (h : q ≠ place) : (t.set place n).node? q = t.node? q := by
  unfold node?
  split
  · rfl
  · exact Table.get?_insert_of_ne h

-- ---------------------------------------------------------------------------
-- Steps
-- ---------------------------------------------------------------------------

/-- Nothing is at a place, or a file that can be written. -/
def TakesFile (t : FileTree) (place : List Text) : Prop :=
  ∀ n, t.node? place = some n → ∃ b, n = .file b

/-- What writing does to a tree: it makes a directory where nothing is, creates a file there, or
writes one where no other node is. Files are created and written only as told. -/
inductive Step (created : List Text → Bytes → Prop) (written : List Text → Prop) :
    FileTree → FileTree → Prop
  | directory {t : FileTree} {place : List Text} : place ≠ [] → t.node? place = none →
      Step created written t (t.set place .directory)
  | create {t : FileTree} {place : List Text} {bytes : Bytes} : place ≠ [] → t.node? place = none →
      created place bytes → Step created written t (t.set place (.file bytes))
  | write {t : FileTree} {place : List Text} {bytes : Bytes} : place ≠ [] →
      t.TakesFile place → written place →
      Step created written t (t.set place (.file bytes))

def Grows (created : List Text → Bytes → Prop) (written : List Text → Prop) :
    FileTree → FileTree → Prop :=
  Relation.ReflTransGen (Step created written)

/-- All nodes are there still, each of its kind. -/
def Extends (t u : FileTree) : Prop :=
  ∀ q n, t.node? q = some n → ∃ m, u.node? q = some m ∧ m.kind = n.kind

variable {created created' : List Text → Bytes → Prop} {written written' : List Text → Prop}

theorem Extends.refl (t : FileTree) : Extends t t :=
  fun _ n hn => ⟨n, hn, rfl⟩

theorem Extends.trans (h : Extends t u) (h' : Extends u T) : Extends t T := by
  intro q n hn
  obtain ⟨m, hm, hkind⟩ := h q n hn
  obtain ⟨l, hl, hkind'⟩ := h' q m hm
  exact ⟨l, hl, hkind'.trans hkind⟩

theorem Extends.keep (h : Extends t u) (hn : ∀ b, n ≠ .file b) (hq : t.node? q = some n) :
    u.node? q = some n := by
  obtain ⟨m, hm, hkind⟩ := h q n hq
  obtain rfl | ⟨-, b, rfl⟩ := Node.eq_or_of_kind hkind
  · exact hm
  · exact absurd rfl (hn b)

theorem Extends.directory (h : Extends t u) (hq : t.node? q = some .directory) :
    u.node? q = some .directory :=
  h.keep (fun _ => Node.noConfusion) hq

theorem Extends.file (h : Extends t u) (hq : t.node? q = some (.file bytes)) :
    ∃ bytes', u.node? q = some (.file bytes') := by
  obtain ⟨m, hm, hkind⟩ := h q _ hq
  obtain rfl | ⟨⟨b, rfl⟩, -⟩ := Node.eq_or_of_kind hkind
  · exact ⟨bytes, hm⟩
  · exact ⟨b, hm⟩

theorem Extends.none (h : Extends t u) (hq : u.node? q = none) : t.node? q = none := by
  cases ht : t.node? q with
  | none => rfl
  | some n =>
    obtain ⟨m, hm, -⟩ := h q n ht
    rw [hq] at hm
    cases hm

theorem extends_set (hplace : place ≠ [])
    (h : ∀ m, t.node? place = some m → n.kind = m.kind) :
    Extends t (t.set place n) := by
  intro q m hm
  by_cases hq : q = place
  · subst hq
    exact ⟨n, node?_set_self hplace, h m hm⟩
  · exact ⟨m, by rw [node?_set_of_ne hq, hm], rfl⟩

theorem extends_set_new (hplace : place ≠ []) (hnone : t.node? place = none) (n : Node) :
    Extends t (t.set place n) :=
  extends_set hplace (by simp [hnone])

theorem extends_set_file (hplace : place ≠ []) (htakes : t.TakesFile place)
    (bytes : Bytes) : Extends t (t.set place (.file bytes)) := by
  refine extends_set hplace fun m hm => ?_
  obtain ⟨b, rfl⟩ := htakes m hm
  rfl

theorem Step.extends (h : Step created written t u) : Extends t u := by
  cases h with
  | directory hplace hnone => exact extends_set_new hplace hnone _
  | create hplace hnone _ => exact extends_set_new hplace hnone _
  | write hplace htakes _ => exact extends_set_file hplace htakes _

theorem Grows.extends (h : Grows created written t u) : Extends t u := by
  induction h with
  | refl => exact .refl _
  | tail _ hstep ih => exact ih.trans hstep.extends

theorem Step.mono (hcreated : ∀ q b, created q b → created' q b)
    (hwritten : ∀ q, written q → written' q) (h : Step created written t u) :
    Step created' written' t u := by
  cases h with
  | directory hplace hnone => exact .directory hplace hnone
  | create hplace hnone hq => exact .create hplace hnone (hcreated _ _ hq)
  | write hplace htakes hq => exact .write hplace htakes (hwritten _ hq)

theorem Grows.mono (h : Grows created written t u) (hcreated : ∀ q b, created q b → created' q b)
    (hwritten : ∀ q, written q → written' q) : Grows created' written' t u := by
  induction h with
  | refl => exact .refl
  | tail _ hstep ih => exact ih.tail (hstep.mono hcreated hwritten)

theorem Grows.frame (h : Grows created written t u) (hq : ¬written q) (hn : t.node? q = some n) :
    u.node? q = some n := by
  induction h with
  | refl => exact hn
  | tail _ hstep ih =>
    cases hstep with
    | directory _ hnone | create _ hnone =>
      rw [node?_set_of_ne, ih]
      rintro rfl
      rw [hnone] at ih
      cases ih
    | write _ _ hplace =>
      rw [node?_set_of_ne, ih]
      rintro rfl
      exact hq hplace

theorem Grows.isNew (h : Grows created written t u) (hq : ¬written q) (hnone : t.node? q = none)
    (hn : u.node? q = some n) : n = .directory ∨ ∃ b, n = .file b ∧ created q b := by
  induction h with
  | refl =>
    rw [hnone] at hn
    cases hn
  | @tail u u' hgrows hstep ih =>
    cases hstep with
    | @directory place hplace _ =>
      by_cases heq : q = place
      · subst heq
        rw [node?_set_self hplace] at hn
        exact .inl (Option.some.inj hn).symm
      · rw [node?_set_of_ne heq] at hn
        exact ih hn
    | @create place bytes hplace _ hcreated =>
      by_cases heq : q = place
      · subst heq
        rw [node?_set_self hplace] at hn
        exact .inr ⟨bytes, (Option.some.inj hn).symm, hcreated⟩
      · rw [node?_set_of_ne heq] at hn
        exact ih hn
    | @write place _ hplace _ hwritten =>
      have heq : q ≠ place := by
        rintro rfl
        exact hq hwritten
      rw [node?_set_of_ne heq] at hn
      exact ih hn

theorem Grows.isCreated (h : Grows created written t u) (hq : ¬written q) (hnone : t.node? q = none)
    (hfile : u.node? q = some (.file bytes)) : created q bytes := by
  obtain hdir | ⟨b, hb, hcreated⟩ := h.isNew hq hnone hfile
  · cases hdir
  · cases hb
    exact hcreated

theorem Grows.node?_cases (h : Grows created written t u) (hq : ¬written q)
    (hcreated : ∀ b, ¬created q b) :
    u.node? q = t.node? q ∨ t.node? q = none ∧ u.node? q = some .directory := by
  cases ht : t.node? q with
  | some n => exact .inl (h.frame hq ht)
  | none =>
    cases hu : u.node? q with
    | none => exact .inl rfl
    | some n =>
      obtain rfl | ⟨b, -, hb⟩ := h.isNew hq ht hu
      · exact .inr ⟨rfl, rfl⟩
      · exact absurd hb (hcreated b)

theorem Grows.entries (h : Grows created written t u) {keep : List Text × Node → Bool}
    (hdir : ∀ q, keep (q, .directory) = false)
    (hcreated : ∀ q b, created q b → ∀ n, keep (q, n) = false)
    (hwritten : ∀ q, written q → ∀ n, keep (q, n) = false) :
    u.nodes.entries.filter keep = t.nodes.entries.filter keep := by
  induction h with
  | refl => rfl
  | @tail u u' _ hstep ih =>
    rw [← ih]
    cases hstep with
    | directory hplace hnone =>
      refine Table.filter_insert (hdir _) fun b hb => absurd hb ?_
      rw [node?, if_neg (by simpa using hplace)] at hnone
      exact Table.not_mem_of_get? hnone
    | create _ _ hq => exact Table.filter_insert (hcreated _ _ hq _) fun b _ => hcreated _ _ hq b
    | write _ _ hq => exact Table.filter_insert (hwritten _ hq _) fun b _ => hwritten _ hq b

-- ---------------------------------------------------------------------------
-- Following a path
-- ---------------------------------------------------------------------------

theorem follow_name (t : FileTree) (place : List Text) (hpart : IsFileName part)
    (parts : List Text) :
    t.follow place .directory (part :: parts) =
      if isLong part then .error .nameTooLong
      else match t.node? (place ++ [part]) with
        | none => .error .notFound
        | some .circular => .error .tooManyLinks
        | some m => t.follow (place ++ [part]) m parts := by
  rw [follow, if_neg (not_or.mpr ⟨hpart.ne_nil, hpart.ne_here⟩)]
  exact if_neg hpart.ne_parent

theorem follow_empty (t : FileTree) (place : List Text) (k : Nat) (parts : List Text) :
    t.follow place .directory (List.replicate k [] ++ parts) = t.follow place .directory parts := by
  induction k with
  | zero => rfl
  | succ k ih =>
    rw [List.replicate_succ, List.cons_append, follow, if_pos (.inl rfl)]
    exact ih

theorem follow_append (t : FileTree) (place : List Text) (n : Node) (a b : List Text) :
    t.follow place n (a ++ b) = match t.follow place n a with
      | .ok (q, m) => t.follow q m b
      | .error e => .error e := by
  induction a generalizing place n with
  | nil => rfl
  | cons part a ih =>
    cases n with
    | directory =>
      simp only [List.cons_append, follow]
      split
      · exact ih ..
      · split
        · exact ih ..
        · split
          · rfl
          · split
            · rfl
            · rfl
            · exact ih ..
    | _ => rfl

theorem lookup_eq (h : Denotes p place) (t : FileTree) (cwd : Text) :
    t.lookup cwd p = match refusal? p with
      | some e => .error e
      | none => t.follow [] .directory place := by
  obtain ⟨k, hk⟩ := h.splitAt
  have habsolute := h.isAbsolute
  have hne : p.isEmpty = false := by
    cases p with
    | nil => cases habsolute
    | cons => rfl
  rw [lookup, hne, join_of_isAbsolute habsolute, hk, follow_empty]
  rfl

theorem nul_not_mem_of_refusal? (h : refusal? p = none) : '\x00' ∉ p := by
  intro hnul
  rw [refusal?, if_pos (by simpa using hnul)] at h
  cases h

/-- A directory with all its parents is there. -/
def IsOpen (t : FileTree) (place : List Text) : Prop :=
  t.follow [] .directory place = .ok (place, .directory)

theorem follow_of_ne_directory (hn : n ≠ .directory) (hf : t.follow place n parts = .ok (q, m)) :
    parts = [] ∧ q = place ∧ m = n := by
  cases parts with
  | nil =>
    cases hf
    exact ⟨rfl, rfl, rfl⟩
  | cons =>
    cases n with
    | directory => exact absurd rfl hn
    | _ => cases hf

theorem follow_eq_ok (hnames : ∀ part ∈ parts, IsFileName part)
    (hplace : t.node? place = some .directory)
    (hf : t.follow place .directory parts = .ok (q, n)) :
    q = place ++ parts ∧ t.node? q = some n := by
  induction parts generalizing place with
  | nil =>
    cases hf
    exact ⟨(List.append_nil _).symm, hplace⟩
  | cons part parts ih =>
    obtain ⟨hpart, hparts⟩ := List.forall_mem_cons.mp hnames
    rw [follow_name _ _ hpart] at hf
    split at hf
    · cases hf
    · split at hf
      · cases hf
      · cases hf
      · rename_i m _ hm
        by_cases hdir : m = .directory
        · subst hdir
          simpa using ih hparts hm hf
        · obtain ⟨rfl, rfl, rfl⟩ := follow_of_ne_directory hdir hf
          exact ⟨rfl, hm⟩

theorem follow_extends (h : Extends t u) (hnames : ∀ part ∈ parts, IsFileName part)
    (hf : t.follow place .directory parts = .ok (q, n)) (hq : n = .directory ∨ u.node? q = some n) :
    u.follow place .directory parts = .ok (q, n) := by
  induction parts generalizing place with
  | nil => exact hf
  | cons part parts ih =>
    obtain ⟨hpart, hparts⟩ := List.forall_mem_cons.mp hnames
    rw [follow_name _ _ hpart] at hf ⊢
    split at hf
    · cases hf
    · rename_i hlong
      rw [if_neg hlong]
      split at hf
      · cases hf
      · cases hf
      · rename_i m hround hm
        by_cases hdir : m = .directory
        · subst hdir
          rw [h.directory hm]
          exact ih hparts hf
        · obtain ⟨rfl, rfl, rfl⟩ := follow_of_ne_directory hdir hf
          rw [hq.resolve_left hdir]
          cases n with
          | circular => exact absurd rfl hround
          | _ => rfl

theorem IsOpen.extends (h : Extends t u) (hnames : ∀ part ∈ place, IsFileName part)
    (ht : t.IsOpen place) : u.IsOpen place :=
  follow_extends h hnames ht (.inl rfl)

/-- Why there can be no file of a name at a path, whatever the tree. -/
def barrier? (p name : Text) : Option FileError :=
  (refusal? p).or (if isLong name then some .nameTooLong else none)

theorem lookup_concat (hp : Denotes p (dir ++ [name])) (h : t.IsOpen dir) (cwd : Text) :
    t.lookup cwd p = match barrier? p name, t.node? (dir ++ [name]) with
      | some e, _ => .error e
      | none, none => .error .notFound
      | none, some .circular => .error .tooManyLinks
      | none, some m => .ok (dir ++ [name], m) := by
  have hname : IsFileName name := hp.names name (by simp)
  rw [lookup_eq hp, follow_append, h]
  simp only [follow_name t dir hname, barrier?]
  cases refusal? p <;> cases isLong name <;> cases t.node? (dir ++ [name]) with
  | none => rfl
  | some n => cases n <;> rfl

theorem hasNode_eq (hp : Denotes p (dir ++ [name])) (h : t.IsOpen dir) (cwd : Text) :
    t.hasNode cwd p =
      ((barrier? p name).isNone && (t.node? (dir ++ [name])).any (· ≠ .circular)) := by
  rw [hasNode, lookup_concat hp h]
  cases barrier? p name <;> cases t.node? (dir ++ [name]) with
  | none => rfl
  | some n => cases n <;> rfl

end FileTree

end Monomorph
