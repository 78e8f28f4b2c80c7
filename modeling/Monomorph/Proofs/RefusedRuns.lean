import Monomorph.Proofs.Recompilation

/-!
# Runs that give up

A command line gives up when its configuration is bad, when there are no sources or one of them
cannot be read or is no text, and when a source or a forced instantiation is malformed or names what
is not there. It then has written nothing, and ends with the exit code for errors unless a file that
it reports about leads round in a circle (`CommandLine.start_givesUp`).
-/

namespace Monomorph

open Monomorph.Path

-- ---------------------------------------------------------------------------
-- What is wrong with a snapshot
-- ---------------------------------------------------------------------------

namespace Snapshot

variable {s : Snapshot} {path content file : Text}

/-- An instantiation is forced on something unknown, or with arguments that cannot be read. -/
def IsBadlyForced (known : Bool) (texts : List Text) : Prop :=
  known = false ∨ ∃ text ∈ texts, ∃ e, TypeExpr.readList text = .error e

/-- The files that something is wrong with: a source that cannot be scanned, or the configuration
when it forces what it cannot. -/
inductive Faults (s : Snapshot) : Text → Prop
  | malformed {path content : Text} {d : Diagnostic} : (path, content) ∈ s.files.entries →
      SourceFile.read path content = .error d → Faults s path
  | forcedClass {name : Text} {texts : List Text} : (name, texts) ∈ s.forcedClasses.entries →
      IsBadlyForced (s.declares name) texts → Faults s configurationName
  | forcedMethod {key : Text} {texts : List Text} : (key, texts) ∈ s.forcedMethods.entries →
      IsBadlyForced (s.hasMethod key) texts → Faults s configurationName

theorem isBadlyForced_iff {known : Bool} {texts : List Text} : IsBadlyForced known texts ↔
    ¬(known = true ∧ ∀ text ∈ texts, ∃ args, TypeExpr.readList text = .ok args) := by
  have hread (text : Text) : (∃ e, TypeExpr.readList text = .error e) ↔
      ¬∃ args, TypeExpr.readList text = .ok args := by
    cases TypeExpr.readList text <;> simp
  simp only [IsBadlyForced, hread, not_and_or, not_forall, Bool.not_eq_true, exists_prop]

theorem read_eq_error_iff : (∃ d, SourceFile.read path content = .error d) ↔
    (∃ d, templateProblem? path content = some d) ∨ ∃ d, methodProblem? path content = some d := by
  have hread : (∃ d, SourceFile.read path content = .error d) ↔
      ¬∃ f, SourceFile.read path content = .ok f := by
    cases SourceFile.read path content <;> simp
  rw [hread, ← Program.problems?_eq_none_iff, not_and_or]
  simp only [← Option.isSome_iff_exists, Option.isSome_iff_ne_none]

theorem source_of_mem_malformed {o : Outcome} {name : Text} {texts : List Text}
    (h : o ∈ malformed name texts) : o.source? = some configurationName := by
  obtain ⟨text, -, h⟩ := List.mem_filterMap.mp h
  obtain ⟨e, -, rfl⟩ := Option.map_eq_some_iff.mp h
  rfl

theorem exists_forced_iff {known : Bool} {i : Issue} {name : Text} {texts : List Text} :
    (∃ o ∈ if known = true then malformed name texts else [configurationProblem i],
      o.source? = some file) ↔ IsBadlyForced known texts ∧ file = configurationName := by
  have hsource : ∀ o ∈ if known = true then malformed name texts else [configurationProblem i],
      o.source? = some configurationName := by
    intro o ho
    split at ho
    · exact source_of_mem_malformed ho
    · rw [List.mem_singleton.mp ho]
      rfl
  rw [isBadlyForced_iff,
    ← @Program.forcedProblems_eq_nil_iff known (configurationProblem i) name texts]
  constructor
  · rintro ⟨o, ho, hfile⟩
    exact ⟨List.ne_nil_of_mem ho, Option.some.inj (hfile.symm.trans (hsource o ho))⟩
  · rintro ⟨hne, rfl⟩
    obtain ⟨o, ho⟩ := List.exists_mem_of_ne_nil _ hne
    exact ⟨o, ho, hsource o ho⟩

theorem exists_problem_iff : (∃ o ∈ s.problems, o.source? = some file) ↔ s.Faults file := by
  constructor
  · rintro ⟨o, ho, hfile⟩
    simp only [problems, List.mem_append, List.mem_filterMap, List.mem_flatMap,
      Option.map_eq_some_iff, Program.mem_ordered] at ho
    rcases ho with ((⟨f, hf, d, hd, rfl⟩ | ⟨f, hf, d, hd, rfl⟩) | ⟨e, he, ho⟩) | ⟨e, he, ho⟩
    · cases hfile
      obtain ⟨d, hread⟩ := read_eq_error_iff.mpr (.inl ⟨d, hd⟩)
      exact .malformed hf hread
    · cases hfile
      obtain ⟨d, hread⟩ := read_eq_error_iff.mpr (.inr ⟨d, hd⟩)
      exact .malformed hf hread
    · obtain ⟨hbad, rfl⟩ := exists_forced_iff.mp ⟨o, ho, hfile⟩
      exact .forcedClass he hbad
    · obtain ⟨hbad, rfl⟩ := exists_forced_iff.mp ⟨o, ho, hfile⟩
      exact .forcedMethod he hbad
  · intro h
    simp only [problems, List.mem_append, List.mem_filterMap, List.mem_flatMap,
      Option.map_eq_some_iff, Program.mem_ordered]
    cases h with
    | malformed hf hread =>
      obtain ⟨d, hd⟩ | ⟨d, hd⟩ := read_eq_error_iff.mp ⟨_, hread⟩
      · exact ⟨_, .inl (.inl (.inl ⟨_, hf, d, hd, rfl⟩)), rfl⟩
      · exact ⟨_, .inl (.inl (.inr ⟨_, hf, d, hd, rfl⟩)), rfl⟩
    | forcedClass he hbad =>
      obtain ⟨o, ho, hfile⟩ := exists_forced_iff.mpr ⟨hbad, rfl⟩
      exact ⟨o, .inl (.inr ⟨_, he, ho⟩), hfile⟩
    | forcedMethod he hbad =>
      obtain ⟨o, ho, hfile⟩ := exists_forced_iff.mpr ⟨hbad, rfl⟩
      exact ⟨o, .inr ⟨_, he, ho⟩, hfile⟩

end Snapshot

namespace FileTree

variable {t : FileTree} {cwd root ending p : Text} {place : List Text} {paths : List Text}

/-- As in every file system, no name holds NUL. -/
def NulFree (t : FileTree) : Prop :=
  ∀ q ∈ t.nodes.keys, ∀ part ∈ q, '\x00' ∉ part

instance (t : FileTree) : Decidable t.NulFree :=
  inferInstanceAs (Decidable (∀ q ∈ t.nodes.keys, ∀ part ∈ q, '\x00' ∉ part))

/-- A file can be read, and what is in it is text. -/
def IsText (t : FileTree) (cwd p : Text) : Prop :=
  ∃ bytes text, t.read cwd p = .ok bytes ∧ Utf8.decode bytes = .ok text

theorem filesBelow?_eq_none_iff :
    t.filesBelow? cwd root ending = none ↔ t.isDirectory cwd root = false := by
  unfold filesBelow? isDirectory
  split <;> simp_all

theorem nul_of_mem_foldl_join {way : List Text} (h : '\x00' ∈ way.foldl join root) :
    '\x00' ∈ root ∨ ∃ part ∈ way, '\x00' ∈ part := by
  induction way generalizing root with
  | nil => exact .inl h
  | cons part way ih =>
    rcases ih h with hroot | ⟨part', hmem, hnul⟩
    · rcases nul_of_mem_join hroot with hroot | hpart
      · exact .inl hroot
      · exact .inr ⟨part, List.mem_cons_self, hpart⟩
    · exact .inr ⟨part', List.mem_cons_of_mem _ hmem, hnul⟩

/-- A file that is found has the way to it, and its own name, below the directory. -/
theorem exists_of_mem_filesBelow (hending : ending ≠ [])
    (h : t.filesBelow? cwd root ending = some paths) (hp : p ∈ paths) :
    '\x00' ∉ root ∧ ∃ q ∈ t.nodes.keys, ∃ way name, (∀ part ∈ way ++ [name], part ∈ q) ∧
      ending <:+ name ∧ p = join (way.foldl join root) name := by
  unfold filesBelow? at h
  split at h
  · rename_i place hlookup
    cases h
    obtain ⟨⟨q, n⟩, hmem, hfound⟩ := List.mem_filterMap.mp (List.mem_mergeSort.mp hp)
    obtain ⟨-, way, name, rfl, hsuffix, rfl⟩ := found?_eq_some hending hfound
    refine ⟨?_, _, Table.mem_keys.mpr ⟨n, hmem⟩, way, name, ?_, hsuffix, rfl⟩
    · unfold lookup at hlookup
      split at hlookup
      · cases hlookup
      · exact nul_not_mem_of_refusal? ‹_›
    · intro part hpart
      rw [List.append_assoc]
      exact List.mem_append_right _ hpart
  · cases h

theorem nul_not_mem_of_mem_filesBelow (ht : t.NulFree) (hending : ending ≠ [])
    (h : t.filesBelow? cwd root ending = some paths) (hp : p ∈ paths) : '\x00' ∉ p := by
  obtain ⟨hroot, q, hq, way, name, hparts, -, rfl⟩ := exists_of_mem_filesBelow hending h hp
  intro hnul
  rcases nul_of_mem_join hnul with hway | hname
  · rcases nul_of_mem_foldl_join hway with hnul | ⟨part, hpart, hnul⟩
    · exact hroot hnul
    · exact ht q hq part (hparts part (List.mem_append_left _ hpart)) hnul
  · exact ht q hq name (hparts name (by simp)) hname

theorem ne_nil_of_mem_filesBelow (hending : ending ≠ [])
    (h : t.filesBelow? cwd root ending = some paths) (hp : p ∈ paths) : p ≠ [] := by
  obtain ⟨-, -, -, way, name, -, hsuffix, rfl⟩ := exists_of_mem_filesBelow hending h hp
  have hname : name ≠ [] := by
    rintro rfl
    exact hending (List.eq_nil_of_suffix_nil hsuffix)
  unfold join
  split
  · exact hname
  · split
    · exact List.append_ne_nil_of_right_ne_nil _ hname
    · simp

theorem cases_of_lookup {e : FileError} (h : t.lookup cwd p = .error e) :
    e = .nulInPath ∧ '\x00' ∈ p ∨ e = .nameTooLong ∨ e = .notFound ∨
      ∃ parts, t.follow [] .directory parts = .error e := by
  unfold lookup at h
  split at h
  · rename_i hrefusal
    cases h
    obtain hnul | hlong := refusal?_cases hrefusal
    · exact .inl hnul
    · exact .inr (.inl hlong)
  · split at h
    · cases h
      exact .inr (.inr (.inl rfl))
    · exact .inr (.inr (.inr ⟨_, h⟩))

theorem follow_ne_nul (t : FileTree) (place : List Text) (n : Node) (parts : List Text) :
    t.follow place n parts ≠ .error .nulInPath := by
  fun_induction follow t place n parts <;> simp_all

theorem read_ne_nul (h : '\x00' ∉ p) : t.read cwd p ≠ .error .nulInPath := by
  intro hread
  unfold read at hread
  split at hread
  · rename_i hlookup
    cases hread
    obtain ⟨-, hnul⟩ | hlong | hnone | ⟨parts, hfollow⟩ := cases_of_lookup hlookup
    · exact h hnul
    · cases hlong
    · cases hnone
    · exact follow_ne_nul t [] .directory parts hfollow
  · rename_i n hlookup
    cases n <;> cases hread

theorem follow_ne_tooManyLinks (h : ∀ q, t.node? q ≠ some .circular) (place : List Text) (n : Node)
    (parts : List Text) : t.follow place n parts ≠ .error .tooManyLinks := by
  fun_induction follow t place n parts <;> simp_all

theorem leadsRound_eq_false (h : ∀ q, t.node? q ≠ some .circular) (cwd p : Text) :
    t.leadsRound cwd p = false := by
  unfold leadsRound
  split
  · rename_i hlookup
    obtain ⟨hnul, -⟩ | hlong | hnone | ⟨parts, hfollow⟩ := cases_of_lookup hlookup
    · cases hnul
    · cases hlong
    · cases hnone
    · exact absurd hfollow (follow_ne_tooManyLinks h [] .directory parts)
  · rfl

end FileTree

namespace Compilation

open FileTree

variable {env : Environment} {c : Configuration} {t : FileTree} {cwd p : Text} {paths : List Text}
  {files : List (Text × Text)}

-- ---------------------------------------------------------------------------
-- Reading sources
-- ---------------------------------------------------------------------------

/-- Diagnostics about just the files of a kind. -/
structure AreAbout (problems : List Diagnostic) (blamed : Text → Prop) : Prop where
  only : ∀ d ∈ problems, ∃ file, d.filename = some file ∧ blamed file
  all : ∀ file, blamed file → ∃ d ∈ problems, d.filename = some file

theorem AreAbout.ne_nil {problems : List Diagnostic} {blamed : Text → Prop} {file : Text}
    (h : AreAbout problems blamed) (hfile : blamed file) : problems ≠ [] := by
  obtain ⟨d, hd, -⟩ := h.all file hfile
  exact List.ne_nil_of_mem hd

theorem AreAbout.congr {problems : List Diagnostic} {blamed blamed' : Text → Prop}
    (h : AreAbout problems blamed) (hiff : ∀ file, blamed file ↔ blamed' file) :
    AreAbout problems blamed' := by
  obtain rfl : blamed = blamed' := funext fun file => propext (hiff file)
  exact h

theorem exists_readSource (t : FileTree) (cwd : Text) (hp : '\x00' ∉ p) :
    (∃ text, readSource t cwd p = .ok (.ok text) ∧ t.IsText cwd p) ∨
      ∃ d, readSource t cwd p = .ok (.error d) ∧ d.filename = some p ∧ ¬t.IsText cwd p := by
  unfold readSource IsText
  cases hread : t.read cwd p with
  | error e =>
    refine .inr ?_
    cases e with
    | nulInPath => exact absurd hread (read_ne_nul hp)
    | _ => exact ⟨_, rfl, rfl, by simp⟩
  | ok bytes =>
    cases hdecode : Utf8.decode bytes with
    | error e => exact .inr ⟨_, by simp only [hdecode]; rfl, rfl, by simp [hdecode]⟩
    | ok text => exact .inl ⟨_, by simp only [hdecode]; rfl, bytes, text, rfl, hdecode⟩

theorem exists_readSources (t : FileTree) (cwd : Text) (h : ∀ p ∈ paths, '\x00' ∉ p) :
    ∃ files problems, readSources t cwd paths = .ok (files, problems) ∧
      AreAbout problems fun p => p ∈ paths ∧ ¬t.IsText cwd p := by
  induction paths with
  | nil => exact ⟨[], [], rfl, by simp, by simp⟩
  | cons p paths ih =>
    obtain ⟨hp, hpaths⟩ := List.forall_mem_cons.mp h
    obtain ⟨files, problems, hrest, hblamed, hall⟩ := ih hpaths
    obtain ⟨text, hone, htext⟩ | ⟨d, hone, hfile, htext⟩ := exists_readSource t cwd hp
    · refine ⟨(p, text) :: files, problems, by simp only [readSources, hone, hrest], ?_, ?_⟩
      · intro d hd
        obtain ⟨file, hname, hmem, hno⟩ := hblamed d hd
        exact ⟨file, hname, List.mem_cons_of_mem _ hmem, hno⟩
      · rintro file ⟨hmem, hno⟩
        obtain rfl | hmem := List.mem_cons.mp hmem
        · exact absurd htext hno
        · exact hall file ⟨hmem, hno⟩
    · refine ⟨files, d :: problems, by simp only [readSources, hone, hrest], ?_, ?_⟩
      · refine List.forall_mem_cons.mpr ⟨⟨p, hfile, List.mem_cons_self, htext⟩, fun d hd => ?_⟩
        obtain ⟨file, hname, hmem, hno⟩ := hblamed d hd
        exact ⟨file, hname, List.mem_cons_of_mem _ hmem, hno⟩
      · rintro file ⟨hmem, hno⟩
        obtain rfl | hmem := List.mem_cons.mp hmem
        · exact ⟨d, List.mem_cons_self, hfile⟩
        · obtain ⟨d', hd', hname⟩ := hall file ⟨hmem, hno⟩
          exact ⟨d', List.mem_cons_of_mem _ hd', hname⟩

theorem exists_readSources_found (ht : t.NulFree)
    (hfound : t.filesBelow? env.cwd c.sourceDir sourceExtension = some paths) :
    ∃ files problems, readSources t env.cwd paths = .ok (files, problems) ∧
      AreAbout problems fun p => p ∈ paths ∧ ¬t.IsText env.cwd p :=
  exists_readSources t env.cwd fun _ => nul_not_mem_of_mem_filesBelow ht (by decide) hfound

-- ---------------------------------------------------------------------------
-- Giving up
-- ---------------------------------------------------------------------------

/-- A compilation gives up before it writes, on account of a file: there are no sources below the
source directory, one of them cannot be read as text, or something is wrong with what was read. -/
inductive Blames (env : Environment) (c : Configuration) (t : FileTree) : Text → Prop
  | noDirectory : t.isDirectory env.cwd c.sourceDir = false → Blames env c t c.sourceDir
  | noSources : t.filesBelow? env.cwd c.sourceDir sourceExtension = some [] →
      Blames env c t c.sourceDir
  | noText {paths : List Text} {p : Text} :
      t.filesBelow? env.cwd c.sourceDir sourceExtension = some paths → p ∈ paths →
      ¬t.IsText env.cwd p → Blames env c t p
  | faulty {paths : List Text} {files : List (Text × Text)} {file : Text} :
      Reads env c t paths files → (snapshot c (.ofList files)).Faults file → Blames env c t file

theorem isText_of_reads (h : Reads env c t paths files) (ht : t.NulFree) (hp : p ∈ paths) :
    t.IsText env.cwd p := by
  obtain ⟨files', problems, hread, habout⟩ := exists_readSources_found ht h.found
  cases h.read.symm.trans hread
  by_contra hno
  exact habout.ne_nil ⟨hp, hno⟩ rfl

theorem Reads.blames_iff (h : Reads env c t paths files) (ht : t.NulFree) {file : Text} :
    Blames env c t file ↔ (snapshot c (.ofList files)).Faults file := by
  refine ⟨fun hblames => ?_, .faulty h⟩
  cases hblames with
  | noDirectory hno => cases (filesBelow?_eq_none_iff.mpr hno).symm.trans h.found
  | noSources hnone =>
    cases hnone.symm.trans h.found
    exact absurd rfl h.ne_nil
  | noText hfound hp hno =>
    cases hfound.symm.trans h.found
    exact absurd (isText_of_reads h ht hp) hno
  | faulty hreads hfaults =>
    cases hreads.found.symm.trans h.found
    cases hreads.read.symm.trans h.read
    exact hfaults

theorem blames_iff_of_no_sources (h : ∀ path paths,
      t.filesBelow? env.cwd c.sourceDir sourceExtension ≠ some (path :: paths)) {file : Text} :
    Blames env c t file ↔ file = c.sourceDir := by
  constructor
  · intro hblames
    cases hblames with
    | noDirectory | noSources => rfl
    | noText hfound hp _ =>
      obtain ⟨path, paths, rfl⟩ := List.exists_cons_of_ne_nil (List.ne_nil_of_mem hp)
      exact absurd hfound (h _ _)
    | faulty hreads _ =>
      obtain ⟨path, paths, rfl⟩ := List.exists_cons_of_ne_nil hreads.ne_nil
      exact absurd hreads.found (h _ _)
  · rintro rfl
    cases hfound : t.filesBelow? env.cwd c.sourceDir sourceExtension with
    | none => exact .noDirectory (filesBelow?_eq_none_iff.mp hfound)
    | some paths =>
      cases paths with
      | nil => exact .noSources hfound
      | cons path paths => exact absurd hfound (h path paths)

theorem reads_of_not_blames (ht : t.NulFree) (h : ∀ file, ¬Blames env c t file) :
    ∃ paths files, Reads env c t paths files ∧ (snapshot c (.ofList files)).problems = [] := by
  cases hfound : t.filesBelow? env.cwd c.sourceDir sourceExtension with
  | none => exact absurd (.noDirectory (filesBelow?_eq_none_iff.mp hfound)) (h _)
  | some paths =>
    have hne : paths ≠ [] := by
      rintro rfl
      exact h _ (.noSources hfound)
    obtain ⟨files, problems, hread, habout⟩ := exists_readSources_found ht hfound
    obtain rfl : problems = [] := by
      refine List.eq_nil_iff_forall_not_mem.mpr fun d hd => ?_
      obtain ⟨file, -, hmem, hno⟩ := habout.only d hd
      exact h file (.noText hfound hmem hno)
    have hreads : Reads env c t paths files := ⟨hfound, hne, hread⟩
    refine ⟨paths, files, hreads, List.eq_nil_iff_forall_not_mem.mpr fun o ho => ?_⟩
    obtain ⟨source, i, position, line, rfl⟩ := Program.exists_issue_of_mem_problems ho
    exact h source (.faulty hreads (Snapshot.exists_problem_iff.mp ⟨_, ho, rfl⟩))

theorem finish_of_failed {outcomes : List Outcome} (env : Environment) (c : Configuration)
    (t : FileTree) (out : List Note) (hne : outcomes ≠ [])
    (h : ∀ o ∈ outcomes, ∃ source i position line,
      o = .failed source (.ofIssue i position (some source) line)) :
    (finish env c t out outcomes).status =
        reported env t { items := outcomes.filterMap Outcome.problem? } ∧
      (finish env c t out outcomes).tree = t := by
  have hpending : pending outcomes = [] := by
    refine List.filterMap_eq_nil_iff.mpr fun o ho => ?_
    obtain ⟨source, i, position, line, rfl⟩ := h o ho
    rfl
  have hcount : ({ items := outcomes.filterMap Outcome.problem? } : Report).errorCount ≠ 0 := by
    obtain ⟨o, ho⟩ := List.exists_mem_of_ne_nil _ hne
    obtain ⟨source, i, position, line, rfl⟩ := h o ho
    have hitem : Diagnostic.ofIssue i position (some source) line ∈
        outcomes.filterMap Outcome.problem? := List.mem_filterMap.mpr ⟨_, ho, rfl⟩
    exact Nat.pos_iff_ne_zero.mp (List.countP_pos_iff.mpr ⟨_, hitem, rfl⟩)
  obtain ⟨hstatus, htree⟩ := finish_eq env c t out outcomes
  rw [hstatus, htree, finished, hpending]
  exact ⟨if_neg hcount, rfl⟩

theorem Reads.run_of_problems (h : Reads env c t paths files)
    (hproblems : (snapshot c (.ofList files)).problems ≠ []) :
    (run env c t).status = reported env t
        { items := (snapshot c (.ofList files)).problems.filterMap Outcome.problem? } ∧
      (run env c t).tree = t := by
  have hexpanded : expanded env c files = (snapshot c (.ofList files)).problems := by
    rw [expanded, Expansion.run, Program.scan_eq, if_neg (by simpa using hproblems)]
  rw [h.run_eq, hexpanded]
  exact finish_of_failed env c t _ hproblems fun o => Program.exists_issue_of_mem_problems

theorem areAbout_problems (s : Snapshot) :
    AreAbout (s.problems.filterMap Outcome.problem?) s.Faults := by
  constructor
  · intro d hd
    obtain ⟨o, ho, hproblem⟩ := List.mem_filterMap.mp hd
    obtain ⟨source, i, position, line, rfl⟩ := Program.exists_issue_of_mem_problems ho
    cases hproblem
    exact ⟨source, rfl, Snapshot.exists_problem_iff.mp ⟨_, ho, rfl⟩⟩
  · intro file hfile
    obtain ⟨o, ho, hsource⟩ := Snapshot.exists_problem_iff.mpr hfile
    obtain ⟨source, i, position, line, rfl⟩ := Program.exists_issue_of_mem_problems ho
    cases hsource
    exact ⟨_, List.mem_filterMap.mpr ⟨_, ho, rfl⟩, rfl⟩

theorem status_refused (env : Environment) (t : FileTree) (problems : List Diagnostic) :
    (refused env t problems).status = reported env t { items := problems } := by
  unfold refused reported
  cases printed env t { items := problems } <;> rfl

theorem Blames.ne_nil {file : Text} (h : Blames env c t file) (hdir : c.sourceDir ≠ []) :
    file ≠ [] := by
  cases h with
  | noDirectory | noSources => exact hdir
  | noText hfound hp _ => exact ne_nil_of_mem_filesBelow (by decide) hfound hp
  | faulty hreads hfaults =>
    cases hfaults with
    | malformed hmem _ =>
      have hkey := Table.mem_keys.mpr ⟨_, hmem⟩
      rw [snapshot, Table.mem_keys_ofList, (readSources_eq_ok hreads.read).1] at hkey
      exact ne_nil_of_mem_filesBelow (by decide) hreads.found hkey
    | forcedClass | forcedMethod => decide

/-- A compilation that gives up leaves the tree as it is and reports about the files that are to
blame. -/
theorem run_of_blames {file : Text} (ht : t.NulFree) (h : Blames env c t file) :
    (run env c t).tree = t ∧ ∃ problems, AreAbout problems (Blames env c t) ∧
      (run env c t).status = reported env t { items := problems } := by
  have hhere {i : Issue} (hno : ∀ path paths,
      t.filesBelow? env.cwd c.sourceDir sourceExtension ≠ some (path :: paths)) :
      AreAbout [Diagnostic.ofIssue i none (some c.sourceDir) []] (Blames env c t) := by
    refine ⟨by simp [blames_iff_of_no_sources hno, Diagnostic.ofIssue], fun file hfile => ?_⟩
    obtain rfl := (blames_iff_of_no_sources hno).mp hfile
    exact ⟨_, List.mem_singleton_self _, rfl⟩
  cases hfound : t.filesBelow? env.cwd c.sourceDir sourceExtension with
  | none =>
    simp only [run, hfound, tree_refused, status_refused]
    exact ⟨trivial, _, hhere (by simp [hfound]), rfl⟩
  | some paths =>
    cases paths with
    | nil =>
      simp only [run, hfound, tree_refused, status_refused]
      exact ⟨trivial, _, hhere (by simp [hfound]), rfl⟩
    | cons path paths =>
      obtain ⟨files, problems, hread, habout⟩ := exists_readSources_found ht hfound
      cases problems with
      | nil =>
        have hreads : Reads env c t (path :: paths) files := ⟨hfound, List.cons_ne_nil _ _, hread⟩
        have hproblems := (areAbout_problems _).congr fun file => (hreads.blames_iff ht).symm
        have hne : (snapshot c (.ofList files)).problems ≠ [] := by
          intro hnil
          exact hproblems.ne_nil h (by rw [hnil]; rfl)
        obtain ⟨hstatus, htree⟩ := hreads.run_of_problems hne
        exact ⟨htree, _, hproblems, hstatus⟩
      | cons d problems =>
        -- all sources are read before anything is expanded, so one that is no text stops the others
        simp only [run, hfound, hread, tree_refused, status_refused]
        refine ⟨trivial, _, habout.congr fun file => ⟨fun hfile => ?_, fun hblames => ?_⟩, rfl⟩
        · exact .noText hfound hfile.1 hfile.2
        · cases hblames with
          | noDirectory hno => cases (filesBelow?_eq_none_iff.mpr hno).symm.trans hfound
          | noSources hnone => cases hnone.symm.trans hfound
          | noText hfound' hp hno =>
            cases hfound'.symm.trans hfound
            exact ⟨hp, hno⟩
          | faulty hreads _ =>
            cases hreads.found.symm.trans hfound
            cases hreads.read.symm.trans hread

theorem status_of_blames {file : Text} (ht : t.NulFree) (hdir : c.sourceDir ≠ [])
    (h : Blames env c t file) :
    (∃ file, Blames env c t file ∧ t.leadsRound env.cwd file = true ∧
      (run env c t).status = .error (.circularName (absolute env.cwd file))) ∨
    (∀ file, Blames env c t file → t.leadsRound env.cwd file = false) ∧
      (run env c t).status = .ok exitErrors := by
  obtain ⟨-, problems, habout, hstatus⟩ := run_of_blames ht h
  have hshown {d : Diagnostic} {file : Text} (hblames : Blames env c t file)
      (hname : d.filename = some file) : d.shownFile "<input>" = file := by
    obtain ⟨x, rest, rfl⟩ := List.exists_cons_of_ne_nil (hblames.ne_nil hdir)
    rw [Diagnostic.shownFile, hname]
  rw [hstatus]
  obtain ⟨d, hd, hround, hreported⟩ | ⟨hnone, hreported⟩ :=
    reported_cases env t { items := problems }
  · obtain ⟨file, hname, hblames⟩ := habout.only d hd
    rw [hshown hblames hname] at hround hreported
    exact .inl ⟨file, hblames, hround, hreported⟩
  · refine .inr ⟨fun file hblames => ?_, hreported⟩
    obtain ⟨d, hd, hname⟩ := habout.all file hblames
    exact hshown hblames hname ▸ hnone d hd

theorem Reads.expanded_of_no_problems (h : Reads env c t paths files)
    (hproblems : (snapshot c (.ofList files)).problems = []) :
    expanded env c files ≠ [] ∧ ∀ o ∈ expanded env c files, o.problem? = none := by
  obtain ⟨p, hp⟩ := List.exists_mem_of_ne_nil _ h.ne_nil
  have hkey : p ∈ (snapshot c (.ofList files)).files.keys := by
    rw [snapshot, Table.mem_keys_ofList, (readSources_eq_ok h.read).1]
    exact hp
  obtain ⟨content, hentry⟩ := Table.mem_keys.mp hkey
  have hscan := Program.scan_eq_ok.mpr ⟨hproblems, rfl⟩
  rw [expanded, Expansion.run, hscan]
  constructor
  · intro hnil
    have hfiles := List.map_eq_nil_iff.mp (List.append_eq_nil_iff.mp hnil).1
    have hordered := Program.map_path_files hscan
    rw [hfiles, List.map_nil, eq_comm, List.map_eq_nil_iff] at hordered
    exact List.not_mem_nil (hordered ▸ Program.mem_ordered.mpr hentry)
  · -- Every output path can be resolved, and a class is always made.
    intro o ho
    obtain hfile | hclass := List.mem_append.mp ho
    · obtain ⟨f, -, rfl⟩ := List.mem_map.mp hfile
      unfold Expansion.fileOutcome
      split <;> rfl
    · obtain ⟨m, -, rfl⟩ := List.mem_map.mp hclass
      rfl

end Compilation

namespace CommandLine

open Compilation

variable {env : Environment} {t : FileTree} {args : List Text} {dir : Text} {flags : Flags}

/-- What makes a command line give up before it writes: a bad configuration file, or what makes the
compilation do so. -/
inductive GivesUp (env : Environment) (t : FileTree) (dir : Text) (flags : Flags) : Prop where
  | badConfiguration {path : Text} {cause : Configuration.Cause} :
      Configuration.load env.cwd dir flags (configurationFile t env.cwd) =
        .error (.badFile path cause) → GivesUp env t dir flags
  | compiling {c : Configuration} {file : Text} :
      Configuration.load env.cwd dir flags (configurationFile t env.cwd) = .ok c →
      Blames env c t file → GivesUp env t dir flags

/-- A file that is to blame leads round in a circle. -/
def BlamesCircle (env : Environment) (t : FileTree) (dir : Text) (flags : Flags) : Prop :=
  ∃ c file, Configuration.load env.cwd dir flags (configurationFile t env.cwd) = .ok c ∧
    Blames env c t file ∧ t.leadsRound env.cwd file = true

theorem blamesCircle_iff {c : Configuration}
    (hload : Configuration.load env.cwd dir flags (configurationFile t env.cwd) = .ok c) :
    BlamesCircle env t dir flags ↔
      ∃ file, Blames env c t file ∧ t.leadsRound env.cwd file = true := by
  constructor
  · rintro ⟨c', file, hok, hcircle⟩
    cases hload.symm.trans hok
    exact ⟨file, hcircle⟩
  · rintro ⟨file, hcircle⟩
    exact ⟨c, file, hload, hcircle⟩

theorem start_of_load {c : Configuration} (hparse : Options.parse args = .run dir flags)
    (hwatch : flags.watch = false)
    (hload : Configuration.load env.cwd dir flags (configurationFile t env.cwd) = .ok c) :
    start env t args = .done { run env c t with out := .banner :: (run env c t).out } := by
  simp only [start, hparse, hload, (Configuration.isLoaded hload).watch.trans hwatch]

theorem sourceDir_ne_nil {cwd : Text} {file : Text → Configuration.File} {c : Configuration}
    (h : Configuration.load cwd dir flags file = .ok c) : c.sourceDir ≠ [] := by
  rw [(Configuration.isLoaded h).sourceDir]
  exact normalize_ne_nil _

/-- A command line without a session that gives up leaves the tree as it is. It ends with the exit
code for errors exactly when no file that is to blame leads round in a circle, and so always where
no link is circular; otherwise the name of such a file ends it. A command line that does not give up
either fails with a configuration in another way, or goes on to write outcomes, and none of these is
a problem. -/
theorem start_givesUp (env : Environment) (ht : t.NulFree)
    (hparse : Options.parse args = .run dir flags) (hwatch : flags.watch = false) :
    ∃ r, start env t args = .done r ∧
      (GivesUp env t dir flags → r.tree = t ∧
        (r.status = .ok 2 ↔ ¬BlamesCircle env t dir flags) ∧
        (BlamesCircle env t dir flags → ∃ name, r.status = .error (.circularName name)) ∧
        ((∀ place, t.node? place ≠ some .circular) → r.status = .ok 2)) ∧
      (¬GivesUp env t dir flags →
        (∃ e, r.status = .error (.configuration e) ∧ r.tree = t) ∨
        ∃ c paths files, Compiles env t args dir flags c paths files ∧
          r.tree = (finished env c t (opening c files) (outcomes env t args)).2 ∧
          outcomes env t args ≠ [] ∧ ∀ o ∈ outcomes env t args, o.problem? = none) := by
  cases hload : Configuration.load env.cwd dir flags (configurationFile t env.cwd) with
  | error e =>
    have hnone : ¬BlamesCircle env t dir flags := by
      rintro ⟨c, file, hok, -⟩
      cases hload.symm.trans hok
    refine ⟨misconfigured t e, by simp only [start, hparse, hload], fun h => ?_, fun h => .inl ?_⟩
    · obtain ⟨path, cause, rfl⟩ : ∃ path cause, e = .badFile path cause := by
        cases h with
        | badConfiguration hbad => exact ⟨_, _, Except.error.inj (hload.symm.trans hbad)⟩
        | compiling hok => cases hload.symm.trans hok
      exact ⟨rfl, iff_of_true rfl hnone, fun h => absurd h hnone, fun _ => rfl⟩
    · cases e with
      | badFile path cause => exact absurd (.badConfiguration hload) h
      | _ => exact ⟨_, rfl, rfl⟩
  | ok c =>
    have hstart := start_of_load hparse hwatch hload
    refine ⟨_, hstart, fun h => ?_, fun h => .inr ?_⟩
    · cases h with
      | badConfiguration hbad => cases hload.symm.trans hbad
      | compiling hok hblames =>
        cases hload.symm.trans hok
        refine ⟨(run_of_blames ht hblames).1, ?_⟩
        rw [blamesCircle_iff hload]
        obtain ⟨file, hblames, hround, hstatus⟩ | ⟨hnone, hstatus⟩ :=
          status_of_blames ht (sourceDir_ne_nil hload) hblames
        · refine ⟨iff_of_false ?_ (not_not_intro ⟨file, hblames, hround⟩), fun _ => ⟨_, hstatus⟩,
            fun hno => ?_⟩
          · intro hok
            cases hstatus.symm.trans hok
          · cases hround.symm.trans (FileTree.leadsRound_eq_false hno env.cwd file)
        · have hcircle : ¬∃ file, Blames env c t file ∧ t.leadsRound env.cwd file = true := by
            rintro ⟨file, hblames, hround⟩
            cases hround.symm.trans (hnone file hblames)
          exact ⟨iff_of_true hstatus hcircle, fun h => absurd h hcircle, fun _ => hstatus⟩
    · obtain ⟨paths, files, hreads, hproblems⟩ :=
        reads_of_not_blames ht fun file hblames => h (.compiling hload hblames)
      have hcompiles : Compiles env t args dir flags c paths files :=
        ⟨hparse, hwatch, hload, hreads⟩
      obtain ⟨r, hr, -, htree⟩ := hcompiles.start
      cases hr.symm.trans hstart
      rw [hcompiles.outcomes_eq]
      exact ⟨c, paths, files, hcompiles, htree, hreads.expanded_of_no_problems hproblems⟩

/-- A directory with two sources, of which the first one is fine. -/
def twoSources (second : Node) : FileTree where
  nodes := ⟨[(["proj"], .directory), (["proj", "A.peak"], .file (Utf8.encode "class A {}\n")),
    (["proj", "B.peak"], second)]⟩

def malformedSource : Node :=
  .file (Utf8.encode "class B<T, T> {}\n")

theorem nulFree_twoSources (second : Node) : (twoSources second).NulFree := by
  change ∀ q ∈ ["proj".toList] :: [["proj", "A.peak"], ["proj", "B.peak"]],
    ∀ part ∈ q, '\x00' ∉ part
  decide

theorem load_twoSources (second : Node) :
    Configuration.load "/" "proj" {} (configurationFile (twoSources second) "/") =
      .ok { sourceDir := "/proj" } :=
  rfl

theorem filesBelow?_twoSources (second : Node) (h : second ≠ .directory) :
    (twoSources second).filesBelow? "/" "/proj" sourceExtension =
      some ["/proj/A.peak".toList, "/proj/B.peak"] := by
  have hroot : Denotes "/proj" ["proj"] :=
    ⟨by simpa using isFileName_of_length (by decide) (by decide), 1, .inl rfl, rfl⟩
  refine (FileTree.filesBelow?_eq_some hroot).mpr ⟨by decide, rfl, ?_⟩
  have hfound : (twoSources second).nodes.entries.filterMap
      (FileTree.found? ["proj"] "/proj" sourceExtension) =
        ["/proj/A.peak".toList, "/proj/B.peak"] := by
    cases second with
    | directory => exact absurd rfl h
    | file | barred | circular => rfl
  rw [hfound]
  exact (List.mergeSort_of_pairwise (by decide)).symm

theorem node?_twoSources_ne {second : Node} (h : second ≠ .circular) (place : List Text) :
    (twoSources second).node? place ≠ some .circular := by
  unfold FileTree.node?
  split
  · simp
  · intro hnode
    have hmem := Table.mem_of_get? hnode
    simp [twoSources, h.symm] at hmem

theorem givesUp_twoSources (second : Node) (h : second ≠ .directory)
    (htext : ¬(twoSources second).IsText "/" "/proj/B.peak") :
    GivesUp { cwd := "/" } (twoSources second) "proj" {} :=
  .compiling (load_twoSources second)
    (.noText (filesBelow?_twoSources second h) (.tail _ (.head _)) htext)

theorem givesUp_malformedSource :
    GivesUp { cwd := "/" } (twoSources malformedSource) "proj" {} := by
  have hreads : Reads { cwd := "/" } { sourceDir := "/proj" } (twoSources malformedSource)
      ["/proj/A.peak", "/proj/B.peak"]
      [("/proj/A.peak", "class A {}\n"), ("/proj/B.peak", "class B<T, T> {}\n")] :=
    ⟨filesBelow?_twoSources _ (by decide), by decide, by decide +kernel⟩
  obtain ⟨d, hd⟩ : ∃ d, SourceFile.read "/proj/B.peak" "class B<T, T> {}\n" = .error d := by
    have hbad : (SourceFile.read "/proj/B.peak" "class B<T, T> {}\n").isOk = false := by
      decide +kernel
    cases hread : SourceFile.read "/proj/B.peak" "class B<T, T> {}\n" with
    | ok g =>
      rw [hread] at hbad
      cases hbad
    | error d => exact ⟨d, rfl⟩
  exact .compiling (load_twoSources _) (.faulty hreads (.malformed (.tail _ (.head _)) hd))

theorem not_isText_twoSources (second : Node) {e : FileError} (h : second.contents = .error e) :
    ¬(twoSources second).IsText "/" "/proj/B.peak" := by
  rintro ⟨bytes, text, hread, -⟩
  have hcontents : (twoSources second).read "/" "/proj/B.peak" = second.contents := by
    cases second <;> rfl
  cases (hcontents.trans h).symm.trans hread

/-- A source that is malformed, and one that may not be read. -/
theorem start_givesUp_twoSources :
    (GivesUp { cwd := "/" } (twoSources malformedSource) "proj" {} ∧
      ∃ r, start { cwd := "/" } (twoSources malformedSource) ["proj"] = .done r ∧
        r.status = .ok 2 ∧ r.tree = twoSources malformedSource) ∧
    (GivesUp { cwd := "/" } (twoSources (.barred "Permission denied")) "proj" {} ∧
      ∃ r, start { cwd := "/" } (twoSources (.barred "Permission denied")) ["proj"] = .done r ∧
        r.status = .ok 2 ∧ r.tree = twoSources (.barred "Permission denied")) := by
  have hstart {second : Node} (hcircular : second ≠ .circular)
      (h : GivesUp { cwd := "/" } (twoSources second) "proj" {}) :
      ∃ r, start { cwd := "/" } (twoSources second) ["proj"] = .done r ∧ r.status = .ok 2 ∧
        r.tree = twoSources second := by
    obtain ⟨r, hr, hgivesUp, -⟩ :=
      start_givesUp { cwd := "/" } (nulFree_twoSources second) parse_project rfl
    obtain ⟨htree, -, -, hstatus⟩ := hgivesUp h
    exact ⟨r, hr, hstatus (node?_twoSources_ne hcircular), htree⟩
  have hbarred := givesUp_twoSources (.barred "Permission denied") (by decide)
    (not_isText_twoSources _ rfl)
  exact ⟨⟨givesUp_malformedSource, hstart (by decide) givesUp_malformedSource⟩, hbarred,
    hstart (by decide) hbarred⟩

/-- A source that is a link to itself ends the run without an exit code. -/
theorem start_circularSource :
    GivesUp { cwd := "/" } (twoSources .circular) "proj" {} ∧
      ∃ r, start { cwd := "/" } (twoSources .circular) ["proj"] = .done r ∧
        r.status = .error (.circularName "/proj/B.peak") ∧ r.tree = twoSources .circular := by
  have hnulFree := nulFree_twoSources .circular
  have hfound := filesBelow?_twoSources .circular (by decide)
  have htext := not_isText_twoSources .circular rfl
  have hblames : Blames { cwd := "/" } { sourceDir := "/proj" } (twoSources .circular)
      "/proj/B.peak" := .noText hfound (.tail _ (.head _)) htext
  have honly {file : Text} (h : Blames { cwd := "/" } { sourceDir := "/proj" }
      (twoSources .circular) file) : file = "/proj/B.peak" := by
    cases h with
    | noDirectory hno =>
      have hdirectory : (twoSources .circular).isDirectory "/" "/proj" = true := rfl
      cases hdirectory.symm.trans hno
    | noSources hnone => cases hnone.symm.trans hfound
    | noText hsome hp hno =>
      cases hsome.symm.trans hfound
      obtain rfl | rfl := List.mem_pair.mp hp
      · have hread : (twoSources .circular).read "/" "/proj/A.peak" =
            .ok (Utf8.encode "class A {}\n") := rfl
        exact absurd ⟨_, _, hread, Utf8.decode_eq_ok_iff.mpr rfl⟩ hno
      · rfl
    | faulty hreads _ =>
      cases hreads.found.symm.trans hfound
      exact absurd (isText_of_reads hreads hnulFree (.tail _ (.head _))) htext
  refine ⟨givesUp_twoSources .circular (by decide) htext, _,
    start_of_load parse_project rfl (load_twoSources _), ?_, (run_of_blames hnulFree hblames).1⟩
  obtain ⟨file, hfile, -, hstatus⟩ | ⟨hnone, -⟩ :=
    status_of_blames hnulFree (by decide) hblames
  · cases honly hfile
    exact hstatus
  · have hround : (twoSources .circular).leadsRound "/" "/proj/B.peak" = true := rfl
    cases hround.symm.trans (hnone _ hblames)

end CommandLine

end Monomorph
