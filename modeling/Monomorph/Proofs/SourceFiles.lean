import Monomorph.CommandLine
import Monomorph.Proofs.TreeGrowth

/-!
# Reading in a tree that has grown

A compilation looks at a file tree in three ways: it finds the sources below a directory, reads
them, and reads a configuration file. All of these see the same in a tree that has grown elsewhere
(`filesBelow?_grows`, `readSources_congr`, `configurationFile_eq`).
-/

namespace Monomorph

open Path

namespace FileTree

variable {t u : FileTree} {cwd root ending p : Text} {place q : List Text} {paths : List Text}
  {created : List Text → Bytes → Prop} {written : List Text → Prop} {n : Node} {bytes : Bytes}

def WellNamed (t : FileTree) : Prop :=
  ∀ q ∈ t.nodes.keys, ∀ part ∈ q, IsFileName part

instance (t : FileTree) : Decidable t.WellNamed :=
  inferInstanceAs (Decidable (∀ q ∈ t.nodes.keys, ∀ part ∈ q, IsFileName part))

-- ---------------------------------------------------------------------------
-- Finding files
-- ---------------------------------------------------------------------------

def found? (place : List Text) (root ending : Text) : List Text × Node → Option Text
  | (q, n) =>
    if n ≠ .directory ∧ place.isPrefixOf q then
      let way := q.drop place.length
      let parent := way.dropLast.foldl join root
      if way.dropLast.any (·.head? == some '.') || isLongPath parent then none
      else
        let name := way.getLast?.getD []
        if ending.isSuffixOf name then some (join parent name) else none
    else none

theorem found?_eq_some (hending : ending ≠ []) (h : found? place root ending (q, n) = some p) :
    n ≠ .directory ∧ ∃ way name, q = place ++ way ++ [name] ∧ ending <:+ name ∧
      p = join (way.foldl join root) name := by
  simp only [found?] at h
  split at h
  · rename_i hbelow
    obtain ⟨hfile, hplace⟩ := hbelow
    obtain ⟨way, rfl⟩ := List.isPrefixOf_iff_prefix.mp hplace
    rw [List.drop_left] at h
    split at h
    · cases h
    · split at h
      · rename_i hsuffix
        have hsuffix := List.isSuffixOf_iff_suffix.mp hsuffix
        cases h
        obtain rfl | ⟨way, name, rfl⟩ := List.eq_nil_or_concat way
        · exact absurd (List.eq_nil_of_suffix_nil hsuffix) hending
        · refine ⟨hfile, way, name, ?_, ?_, ?_⟩
          all_goals simp_all
      · cases h
  · cases h

theorem filesBelow?_eq_some (hroot : Denotes root place) :
    t.filesBelow? cwd root ending = some paths ↔ refusal? root = none ∧ t.IsOpen place ∧
      paths = (t.nodes.entries.filterMap (found? place root ending)).mergeSort Text.ble := by
  unfold filesBelow? IsOpen
  rw [lookup_eq hroot]
  cases refusal? root with
  | some e => simp
  | none =>
    cases hf : t.follow [] .directory place with
    | error e => simp
    | ok r =>
      obtain ⟨q, m⟩ := r
      obtain ⟨rfl, -⟩ := follow_eq_ok hroot.names rfl hf
      cases m with
      | directory =>
        simp only [Option.some.injEq, true_and]
        exact eq_comm
      | _ => simp

theorem filesBelow?_grows (hroot : Denotes root place) (hending : ending ≠ [])
    (h : Grows created written t u)
    (hcreated : ∀ q name b, created (q ++ [name]) b → ¬ending <:+ name)
    (hwritten : ∀ q name, written (q ++ [name]) → ¬ending <:+ name)
    (ht : t.filesBelow? cwd root ending = some paths) :
    u.filesBelow? cwd root ending = some paths := by
  obtain ⟨hrefusal, hopen, rfl⟩ := (filesBelow?_eq_some hroot).mp ht
  refine (filesBelow?_eq_some hroot).mpr ⟨hrefusal, hopen.extends h.extends hroot.names, ?_⟩
  have hfound (l : List (List Text × Node)) :
      l.filterMap (found? place root ending) =
        (l.filter fun e => (found? place root ending e).isSome).filterMap
          (found? place root ending) := by
    rw [List.filterMap_filter]
    refine congrArg (List.filterMap · l) (funext fun e => ?_)
    cases found? place root ending e <;> rfl
  have hkeep {q : List Text} {n : Node} (hnot : ∀ way name, q = place ++ way ++ [name] →
      n ≠ .directory → ¬ending <:+ name) : (found? place root ending (q, n)).isSome = false := by
    cases hp : found? place root ending (q, n) with
    | none => rfl
    | some p =>
      obtain ⟨hfile, way, name, hq, hsuffix, -⟩ := found?_eq_some hending hp
      exact absurd hsuffix (hnot way name hq hfile)
  rw [hfound, hfound u.nodes.entries]
  refine congrArg (fun l => (List.filterMap _ l).mergeSort Text.ble) (h.entries ?_ ?_ ?_).symm
  · exact fun q => hkeep fun way name _ hdir => absurd rfl hdir
  · exact fun q b hq n => hkeep fun way name heq _ => hcreated _ name b (heq ▸ hq)
  · exact fun q hq n => hkeep fun way name heq _ => hwritten _ name (heq ▸ hq)

theorem denotes_of_mem_filesBelow (ht : t.WellNamed) (hroot : Denotes root place)
    (hending : ending ≠ []) (h : t.filesBelow? cwd root ending = some paths) (hp : p ∈ paths) :
    (∃ dir name, Denotes p (dir ++ [name]) ∧ ending <:+ name) ∧
      leadingSlashes p = leadingSlashes root := by
  obtain ⟨-, -, rfl⟩ := (filesBelow?_eq_some hroot).mp h
  obtain ⟨⟨q, n⟩, hmem, hfound⟩ := List.mem_filterMap.mp (List.mem_mergeSort.mp hp)
  obtain ⟨-, way, name, rfl, hsuffix, rfl⟩ := found?_eq_some hending hfound
  have hnames := ht _ (Table.mem_keys.mpr ⟨n, hmem⟩)
  simp only [List.mem_append, List.mem_singleton] at hnames
  have hname := hnames name (by simp)
  have hparts : ∀ part ∈ way, IsFileName part := fun part hpart => hnames part (by simp [hpart])
  obtain ⟨hway, hslashes⟩ := hroot.foldl_join hparts
  refine ⟨⟨place ++ way, name, hway.join hname, hsuffix⟩, ?_⟩
  rw [leadingSlashes_join hway.ne_nil (isAbsolute_of_isFileName hname), hslashes]

-- ---------------------------------------------------------------------------
-- Reading files
-- ---------------------------------------------------------------------------

theorem read_eq_ok (hp : Denotes p q) : t.read cwd p = .ok bytes ↔
    refusal? p = none ∧ t.follow [] .directory q = .ok (q, .file bytes) := by
  unfold read
  rw [lookup_eq hp]
  cases refusal? p with
  | some e => simp
  | none =>
    cases hf : t.follow [] .directory q with
    | error e => simp
    | ok r =>
      obtain ⟨q', m⟩ := r
      obtain ⟨rfl, -⟩ := follow_eq_ok hp.names rfl hf
      cases m <;> simp [Node.contents]

theorem read_extends (hp : Denotes p q) (h : Extends t u)
    (hq : ∀ b, t.node? q = some (.file b) → u.node? q = some (.file b))
    (ht : t.read cwd p = .ok bytes) : u.read cwd p = .ok bytes := by
  obtain ⟨hrefusal, hf⟩ := (read_eq_ok hp).mp ht
  obtain ⟨-, hnode⟩ := follow_eq_ok hp.names rfl hf
  exact (read_eq_ok hp).mpr ⟨hrefusal, follow_extends h hp.names hf (.inr (hq _ hnode))⟩

end FileTree

namespace Compilation

open FileTree

variable {t u : FileTree} {cwd : Text} {paths : List Text} {files : List (Text × Text)}

theorem readSources_eq_ok (h : readSources t cwd paths = .ok (files, [])) :
    files.map Prod.fst = paths ∧ ∀ p ∈ paths, ∃ bytes, t.read cwd p = .ok bytes := by
  induction paths generalizing files with
  | nil =>
    cases h
    exact ⟨rfl, nofun⟩
  | cons path paths ih =>
    simp only [readSources] at h
    split at h
    · cases h
    · cases h
    · rename_i text more problems hread hrest
      cases h
      obtain ⟨hfiles, hbytes⟩ := ih hrest
      refine ⟨congrArg (path :: ·) hfiles, List.forall_mem_cons.mpr ⟨?_, hbytes⟩⟩
      cases hbytes : t.read cwd path with
      | ok bytes => exact ⟨bytes, rfl⟩
      | error e => cases e <;> simp [readSource, hbytes] at hread
    · cases h

theorem readSources_congr (h : ∀ p ∈ paths, u.read cwd p = t.read cwd p) :
    readSources u cwd paths = readSources t cwd paths := by
  induction paths with
  | nil => rfl
  | cons path paths ih =>
    obtain ⟨hpath, hpaths⟩ := List.forall_mem_cons.mp h
    simp only [readSources, readSource, hpath, ih hpaths]

end Compilation

namespace CommandLine

open FileTree

variable {t u : FileTree} {cwd p name : Text} {dir : List Text}

theorem configurationFile_eq (hp : Denotes p (dir ++ [name])) (ht : t.IsOpen dir) (cwd : Text) :
    configurationFile t cwd p = match barrier? p name, t.node? (dir ++ [name]) with
      | none, some (.file b) => .contents b
      | none, some (.barred reason) => .closed (.other reason)
      | _, _ => .absent := by
  unfold configurationFile isFile FileTree.read
  rw [lookup_concat hp ht]
  cases barrier? p name with
  | some e => rfl
  | none =>
    cases t.node? (dir ++ [name]) with
    | none => rfl
    | some m => cases m <;> rfl

end CommandLine

end Monomorph
