import Mathlib.Data.List.Basic
import Monomorph.Proofs.JsonReaders
import Monomorph.Proofs.OutputPlaces
import Monomorph.Proofs.SourceFiles
import Monomorph.Proofs.Utf8Laws

/-!
# Compiling once more

A compilation reads sources and a configuration and writes outputs and their companions, so what it
reads is there unchanged when it is run a second time. That run ends as the first one did and leaves
every file as it is, with one exception: the first run has left a new companion that is empty, since
its contents could not be encoded (`CommandLine.start_again_iff`).
-/

namespace Monomorph

open Monomorph.Path

namespace Compilation

open FileTree

variable {env : Environment} {c : Configuration} {t u : FileTree} {paths : List Text}
  {files : List (Text × Text)}

-- ---------------------------------------------------------------------------
-- Compiling
-- ---------------------------------------------------------------------------

def expanded (env : Environment) (c : Configuration) (files : List (Text × Text)) : List Outcome :=
  Expansion.run (snapshot c (.ofList files))
    (fun path => .ok (c.outputPath env.cwd path outputExtension)) outputExtension

/-- The outcomes of a compilation; none when it finds no sources or cannot read them. -/
def outcomes (env : Environment) (c : Configuration) (t : FileTree) : List Outcome :=
  match t.filesBelow? env.cwd c.sourceDir sourceExtension with
  | some (path :: paths) =>
    match readSources t env.cwd (path :: paths) with
    | .ok (files, []) => expanded env c files
    | _ => []
  | _ => []

/-- A compilation finds sources and can read all of them. -/
structure Reads (env : Environment) (c : Configuration) (t : FileTree) (paths : List Text)
    (files : List (Text × Text)) : Prop where
  found : t.filesBelow? env.cwd c.sourceDir sourceExtension = some paths
  ne_nil : paths ≠ []
  read : readSources t env.cwd paths = .ok (files, [])

def opening (c : Configuration) (files : List (Text × Text)) : List Note :=
  if c.verbose then [.compiling files.length c.sourceDir] else []

theorem Reads.run_eq (h : Reads env c t paths files) :
    run env c t = finish env c t (opening c files) (expanded env c files) := by
  obtain ⟨path, paths, rfl⟩ := List.exists_cons_of_ne_nil h.ne_nil
  simp only [run, h.found, h.read]
  rfl

theorem Reads.outcomes_eq (h : Reads env c t paths files) :
    outcomes env c t = expanded env c files := by
  obtain ⟨path, paths, rfl⟩ := List.exists_cons_of_ne_nil h.ne_nil
  simp only [outcomes, h.found, h.read]

theorem tree_refused (env : Environment) (t : FileTree) (problems : List Diagnostic) :
    (refused env t problems).tree = t := by
  unfold refused
  split <;> rfl

theorem reads_or (env : Environment) (c : Configuration) (t : FileTree) :
    (∃ paths files, Reads env c t paths files) ∨
      (run env c t).tree = t ∧ outcomes env c t = [] := by
  simp only [run, outcomes]
  cases hfound : t.filesBelow? env.cwd c.sourceDir sourceExtension with
  | none => exact .inr ⟨tree_refused .., rfl⟩
  | some paths =>
    cases paths with
    | nil => exact .inr ⟨tree_refused .., rfl⟩
    | cons path paths =>
      cases hread : readSources t env.cwd (path :: paths) with
      | error e => exact .inr ⟨by simp only [hread], by simp only [hread]⟩
      | ok r =>
        obtain ⟨files, problems⟩ := r
        cases problems with
        | nil => exact .inl ⟨_, _, hfound, nofun, hread⟩
        | cons => exact .inr ⟨by simp only [hread, tree_refused], by simp only [hread]⟩

section Loaded

variable {dir : Text} {flags : Flags}

theorem denotes_sourceDir (hc : c.IsLoaded env.cwd dir flags) (hcwd : isAbsolute env.cwd = true) :
    Denotes c.sourceDir (resolve env.cwd dir) := by
  rw [hc.sourceDir]
  exact Configuration.denotes_absolute hcwd dir

theorem Reads.denotes (h : Reads env c t paths files) (hc : c.IsLoaded env.cwd dir flags)
    (hcwd : isAbsolute env.cwd = true) (ht : t.WellNamed) {p : Text} (hp : p ∈ paths) :
    '\x00' ∉ p ∧ ∃ place name, Denotes p (place ++ [name]) ∧ sourceExtension <:+ name := by
  obtain ⟨⟨place, name, hdenotes, hsuffix⟩, -⟩ :=
    denotes_of_mem_filesBelow ht (denotes_sourceDir hc hcwd) (by decide) h.found hp
  obtain ⟨bytes, hbytes⟩ := (readSources_eq_ok h.read).2 p hp
  obtain ⟨hrefusal, -⟩ := (read_eq_ok hdenotes).mp hbytes
  exact ⟨nul_not_mem_of_refusal? hrefusal, place, name, hdenotes, hsuffix⟩

theorem Reads.areOutputs (h : Reads env c t paths files) (hc : c.IsLoaded env.cwd dir flags)
    (hcwd : isAbsolute env.cwd = true) (ht : t.WellNamed) : AreOutputs (expanded env c files) := by
  have hkeys : ∀ key ∈ (snapshot c (.ofList files)).files.keys,
      '\x00' ∉ key ∧ ∃ place n, Denotes key (place ++ [n]) := by
    intro key hkey
    rw [snapshot, Table.mem_keys_ofList, (readSources_eq_ok h.read).1] at hkey
    obtain ⟨hnul, place, name, hdenotes, -⟩ := h.denotes hc hcwd ht hkey
    exact ⟨hnul, place, name, hdenotes⟩
  refine ⟨fun ho => (isOutputPath_of_output hc hcwd hkeys ho).1, fun ho ho' hnul => ?_⟩
  rw [(isOutputPath_of_output hc hcwd hkeys ho').2]
  exact (isOutputPath_of_output hc hcwd hkeys ho).2.mp hnul

theorem getLast?_eq_of_suffix {a b : Text} (h : a <:+ b) (ha : a ≠ []) :
    b.getLast? = a.getLast? := by
  obtain ⟨x, rfl⟩ := h
  rw [List.getLast?_append_of_ne_nil _ ha]

theorem Reads.again (h : Reads env c t paths files) (hc : c.IsLoaded env.cwd dir flags)
    (hcwd : isAbsolute env.cwd = true) (ht : t.WellNamed) (out : List Note) :
    Reads env c (finished env c t out (expanded env c files)).2 paths files := by
  have hout := h.areOutputs hc hcwd ht
  have hgrows := grows_finished env c hout t out
  have hwritten (q : List Text) (name : Text)
      (hq : ∃ o ∈ pending (expanded env c files), q ++ [name] = resolve env.cwd o.2.1) :
      ¬sourceExtension <:+ name := by
    intro hsource
    have hend := getLast?_eq_of_suffix (hout.suffix_of_place hq) (by decide)
    rw [getLast?_eq_of_suffix hsource (by decide)] at hend
    cases hend
  refine ⟨?_, h.ne_nil, ?_⟩
  · refine filesBelow?_grows (denotes_sourceDir hc hcwd) (by decide) hgrows ?_ hwritten h.found
    intro q name b hq hsource
    have hend := getLast?_eq_of_suffix (hout.suffix_of_companion hq.1) (by decide)
    rw [getLast?_eq_of_suffix hsource (by decide)] at hend
    cases hend
  · rw [← h.read]
    refine readSources_congr fun p hp => ?_
    obtain ⟨bytes, hbytes⟩ := (readSources_eq_ok h.read).2 p hp
    obtain ⟨-, place, name, hdenotes, hsource⟩ := h.denotes hc hcwd ht hp
    rw [hbytes]
    refine read_extends hdenotes hgrows.extends (fun b hb => hgrows.frame ?_ hb) hbytes
    exact fun hq => hwritten place name hq hsource

end Loaded

end Compilation

namespace CommandLine

open Compilation FileTree

variable {env : Environment} {t : FileTree} {args : List Text}

def outcomes (env : Environment) (t : FileTree) (args : List Text) : List Outcome :=
  match Options.parse args with
  | .run directory flags =>
    match Configuration.load env.cwd directory flags (configurationFile t env.cwd) with
    | .ok c => Compilation.outcomes env c t
    | .error _ => []
  | _ => []

def IsPlain (args : List Text) : Prop :=
  ∀ directory flags, Options.parse args = .run directory flags → flags.watch = false

theorem load_congr {cwd dir : Text} {flags : Flags} {file file' : Text → Configuration.File}
    (h : file' (Configuration.filePath cwd dir) = file (Configuration.filePath cwd dir)) :
    Configuration.load cwd dir flags file' = Configuration.load cwd dir flags file := by
  simp only [Configuration.load, h]

/-- A command line comes to compile sources that it has read. -/
structure Compiles (env : Environment) (t : FileTree) (args : List Text) (dir : Text)
    (flags : Flags) (c : Configuration) (paths : List Text) (files : List (Text × Text)) :
    Prop where
  parse : Options.parse args = .run dir flags
  watch : flags.watch = false
  load : Configuration.load env.cwd dir flags (configurationFile t env.cwd) = .ok c
  reads : Reads env c t paths files

theorem start_cases (hplain : IsPlain args) (env : Environment) (t : FileTree) :
    (∃ r, start env t args = .done r ∧ r.tree = t ∧ outcomes env t args = []) ∨
    ∃ dir flags c paths files, Compiles env t args dir flags c paths files := by
  simp only [start, outcomes]
  cases hparse : Options.parse args with
  | help => exact .inl ⟨_, rfl, rfl, rfl⟩
  | version => exact .inl ⟨_, rfl, rfl, rfl⟩
  | invalid message => exact .inl ⟨_, rfl, rfl, rfl⟩
  | run dir flags =>
    cases hload : Configuration.load env.cwd dir flags (configurationFile t env.cwd) with
    | error e =>
      simp only [hload]
      exact .inl ⟨_, rfl, by cases e <;> rfl, trivial⟩
    | ok c =>
      have hwatch := hplain dir flags hparse
      obtain ⟨paths, files, hreads⟩ | ⟨htree, hout⟩ := reads_or env c t
      · exact .inr ⟨dir, flags, c, paths, files, hparse, hwatch, hload, hreads⟩
      · simp only [hload, (Configuration.isLoaded hload).watch.trans hwatch, hout]
        exact .inl ⟨_, rfl, htree, trivial⟩

theorem isFileName_configurationName : IsFileName configurationName :=
  isFileName_of_length (by decide) (by decide)

namespace Compiles

variable {dir : Text} {flags : Flags} {c : Configuration} {paths : List Text}
  {files : List (Text × Text)}

theorem start (h : Compiles env t args dir flags c paths files) :
    ∃ r, CommandLine.start env t args = .done r ∧
      r.status = statusOf env (finished env c t (opening c files) (expanded env c files)).2
        (finished env c t (opening c files) (expanded env c files)).1 ∧
      r.tree = (finished env c t (opening c files) (expanded env c files)).2 := by
  have hwatch := (Configuration.isLoaded h.load).watch.trans h.watch
  obtain ⟨hstatus, htree⟩ := finish_eq env c t (opening c files) (expanded env c files)
  simp only [CommandLine.start, h.parse, h.load, hwatch, h.reads.run_eq]
  exact ⟨_, rfl, hstatus, htree⟩

theorem outcomes_eq (h : Compiles env t args dir flags c paths files) :
    outcomes env t args = expanded env c files := by
  simp only [outcomes, h.parse, h.load, h.reads.outcomes_eq]

theorem areOutputs (h : Compiles env t args dir flags c paths files)
    (hcwd : isAbsolute env.cwd = true) (ht : t.WellNamed) : AreOutputs (expanded env c files) :=
  h.reads.areOutputs (Configuration.isLoaded h.load) hcwd ht

theorem load_again (h : Compiles env t args dir flags c paths files)
    (hcwd : isAbsolute env.cwd = true) (ht : t.WellNamed) (out : List Note) :
    Configuration.load env.cwd dir flags
      (configurationFile (finished env c t out (expanded env c files)).2 env.cwd) = .ok c := by
  have hout := h.areOutputs hcwd ht
  have hgrows := grows_finished env c hout t out
  have hdir := Configuration.denotes_absolute hcwd dir
  have hfile := hdir.join isFileName_configurationName
  have hsource := denotes_sourceDir (Configuration.isLoaded h.load) hcwd
  obtain ⟨-, hopen, -⟩ := (filesBelow?_eq_some hsource).mp h.reads.found
  rw [← h.load]
  refine load_congr ?_
  rw [Configuration.filePath, configurationFile_eq hfile hopen,
    configurationFile_eq hfile (hopen.extends hgrows.extends hdir.names)]
  have hcases : (finished env c t out (expanded env c files)).2.node?
        (resolve env.cwd dir ++ [configurationName]) =
          t.node? (resolve env.cwd dir ++ [configurationName]) ∨
      t.node? (resolve env.cwd dir ++ [configurationName]) = none ∧
        (finished env c t out (expanded env c files)).2.node?
          (resolve env.cwd dir ++ [configurationName]) = some .directory := by
    refine hgrows.node?_cases (fun hq => ?_) fun b hq => ?_
    · exact absurd (hout.suffix_of_place hq) (by decide)
    · exact absurd (hout.suffix_of_companion hq.1) (by decide)
  obtain hsame | ⟨hnone, hdirectory⟩ := hcases
  · rw [hsame]
  · rw [hnone, hdirectory]
    cases barrier? (join (absolute env.cwd dir) configurationName) configurationName <;> rfl

theorem again (h : Compiles env t args dir flags c paths files)
    (hcwd : isAbsolute env.cwd = true) (ht : t.WellNamed) (out : List Note) :
    Compiles env (finished env c t out (expanded env c files)).2 args dir flags c paths files where
  parse := h.parse
  watch := h.watch
  load := h.load_again hcwd ht out
  reads := h.reads.again (Configuration.isLoaded h.load) hcwd ht out

end Compiles

-- ---------------------------------------------------------------------------
-- A project
-- ---------------------------------------------------------------------------

/-- A configuration that gives the version for companions, which may hold a letter that cannot be
written. -/
def projectFile (torn : Bool) : Text :=
  "\x7b\"compilerOptions\": \x7b\"apiVersion\": \"" ++ (if torn then "\\ud800" else "60.0") ++
    "\"\x7d\x7d"

def project (torn : Bool) : FileTree where
  nodes := ⟨[(["proj"], .directory), (["proj", "A.peak"], .file (Utf8.encode "class A {}\n")),
    (["proj", "peakconfig.json"], .file (Utf8.encode (projectFile torn)))]⟩

def settings (torn : Bool) : Configuration where
  sourceDir := "/proj"
  apiVersion := if torn then "�" else "60.0"
  apiVersionTorn := torn

theorem parse_projectFile (torn : Bool) : Json.parse (projectFile torn) =
    .ok (.object [("compilerOptions".toList.map .char, .object [("apiVersion".toList.map .char,
      .string (if torn then [.half 0xD800] else "60.0".toList.map .char))])]) := by
  have hversion : Json.SpellsString ((if torn then "\\ud800" else "60.0") ++ ['"'])
      (if torn then [.half 0xD800] else "60.0".toList.map .char) := by
    cases torn with
    | false => exact Json.spellsString_plain (by decide +kernel)
    | true =>
      exact .cons (x := "\\ud800") Json.takeString_quote fun start r =>
        Json.takeString_unit (r := "d800".toList ++ '"' :: r) (n := 4) rfl
  have hoption := Json.takeValue_field "apiVersion" (by decide +kernel)
    (Json.takeValue_spells hversion "\x7d\x7d")
  have hoptions := Json.takeValue_field "compilerOptions" (by decide +kernel) hoption
  cases torn <;> exact Json.parse_of_takeValue (by decide) hoptions

theorem load_project (torn : Bool) :
    Configuration.load "/" "proj" {} (configurationFile (project torn) "/") =
      .ok (settings torn) := by
  have hfile : configurationFile (project torn) "/" (Configuration.filePath "/" "proj") =
      .contents (Utf8.encode (projectFile torn)) := rfl
  have hdecode : Utf8.decode (Utf8.encode (projectFile torn)) = .ok (projectFile torn) :=
    Utf8.decode_eq_ok_iff.mpr rfl
  have hbreaks : (projectFile torn).unifyNewlines = projectFile torn :=
    Utf8.unifyNewlines_of_not_mem (by cases torn <;> decide)
  simp only [Configuration.load, hfile, Configuration.applyFile, hdecode, hbreaks,
    parse_projectFile]
  cases torn <;> rfl

theorem reads_project (torn : Bool) : Reads { cwd := "/" } (settings torn) (project torn)
    ["/proj/A.peak"] [("/proj/A.peak", "class A {}\n")] := by
  have hroot : Denotes "/proj" ["proj"] :=
    ⟨by simpa using isFileName_of_length (by decide) (by decide), 1, .inl rfl, rfl⟩
  refine ⟨(filesBelow?_eq_some hroot).mpr ⟨by decide, rfl, ?_⟩, nofun, ?_⟩
  · have hfound : (project torn).nodes.entries.filterMap
        (found? ["proj"] "/proj" sourceExtension) = ["/proj/A.peak".toList] := by
      cases torn <;> decide +kernel
    exact (hfound ▸ List.mergeSort_singleton _).symm
  · cases torn <;> decide +kernel

theorem expanded_project (torn : Bool) : ∃ content,
    expanded { cwd := "/" } (settings torn) [("/proj/A.peak", "class A {}\n")] =
      [.output (some "/proj/A.peak".toList) "/proj/A.cls" content] := by
  let s : Snapshot := { files := ⟨[("/proj/A.peak", "class A {}\n")]⟩ }
  have hordered : s.ordered = s.files.entries := List.mergeSort_singleton _
  obtain ⟨p, hscan, hfiles, hroots⟩ : ∃ p, Program.scan s = .ok p ∧
      p.files.map (fun f => (f.path, f.isTemplateFile)) = [("/proj/A.peak".toList, false)] ∧
      Expansion.roots p = [] := by
    refine Program.exists_ok_of_decide ?_
    rw [Program.scan, hordered, Program.withMethods_eq]
    decide +kernel
  obtain ⟨f, hf, heq⟩ := List.map_eq_singleton_iff.mp hfiles
  obtain ⟨hpath, htemplate⟩ := Prod.mk.inj heq
  have hclasses (resolver : Resolver) : Expansion.classes p resolver outputExtension = [] := by
    rw [Expansion.classes, hroots, Expansion.makeClasses_nil]
  have hs : snapshot (settings torn) (.ofList [("/proj/A.peak", "class A {}\n")]) = s := rfl
  refine ⟨(Expansion.expandFile p f).text, ?_⟩
  rw [expanded, hs, Expansion.run, hscan]
  simp only [Expansion.ofProgram, hf, hclasses, Expansion.fileOutcome, htemplate, hpath,
    List.map_cons, List.map_nil, List.append_nil, Bool.false_eq_true, if_false]
  rfl

theorem written_project (torn : Bool) (content : Text) :
    written "/" (settings torn) "/proj/A.cls" content (project torn) =
      (companionError? (settings torn),
        ((project torn).set ["proj", "A.cls"] (.file (Utf8.encode content))).set
          ["proj", "A.cls-meta.xml"] (.file (companionBytes (settings torn)))) := by
  cases torn <;> rfl

theorem parse_project : Options.parse ["proj"] = .run "proj" {} := by decide +kernel

theorem isPlain_project : IsPlain ["proj"] := by
  intro directory flags h
  cases parse_project.symm.trans h
  rfl

theorem compiles_project (torn : Bool) :
    Compiles { cwd := "/" } (project torn) ["proj"] "proj" {} (settings torn) ["/proj/A.peak"]
      [("/proj/A.peak", "class A {}\n")] :=
  ⟨parse_project, rfl, load_project torn, reads_project torn⟩

theorem finished_project (torn : Bool) (t : FileTree) (out : List Note) (source : Option Text)
    (content : Text) :
    finished { cwd := "/" } (settings torn) t out [.output source "/proj/A.cls" content] =
      (noted {} "/proj/A.cls" (written "/" (settings torn) "/proj/A.cls" content t).1,
        (written "/" (settings torn) "/proj/A.cls" content t).2) :=
  ending_singleton ..

-- ---------------------------------------------------------------------------
-- The second run
-- ---------------------------------------------------------------------------

/-- A command line without a session touches outputs only: files that were there stay as they were
unless an output goes there, and outputs have names of their own. Run a second time, it ends as the
first time and leaves every file as it is, unless the first run has left a new companion empty. -/
theorem start_again_iff (env : Environment) (hcwd : isAbsolute env.cwd = true) (ht : t.WellNamed)
    (hplain : IsPlain args) :
    ∃ r r', start env t args = .done r ∧ start env r.tree args = .done r' ∧
      (∀ source path content, .output source path content ∈ outcomes env t args →
        outputExtension <:+ path) ∧
      (∀ place bytes, t.node? place = some (.file bytes) →
        (∀ source path content, .output source path content ∈ outcomes env t args →
          place ≠ resolve env.cwd path) → r.tree.node? place = some (.file bytes)) ∧
      (∀ dir name bytes, t.node? (dir ++ [name]) = some (.file bytes) →
        ¬outputExtension <:+ name → r.tree.node? (dir ++ [name]) = some (.file bytes)) ∧
      ((r'.status = r.status ∧ ∀ place, r'.tree.node? place = r.tree.node? place) ↔
        ¬HasEmptyCompanion env.cwd (outcomes env t args) t r.tree) := by
  obtain ⟨r, hstart, htree, hout⟩ | ⟨dir, flags, c, paths, files, hcompiles⟩ :=
    start_cases hplain env t
  · rw [hout]
    refine ⟨r, r, hstart, by rw [htree, hstart], nofun, ?_, ?_, ?_⟩
    · exact fun place bytes hfile _ => htree ▸ hfile
    · exact fun dir name bytes hfile _ => htree ▸ hfile
    · simp [HasEmptyCompanion]
  · have hareOutputs := hcompiles.areOutputs hcwd ht
    have hgrows := grows_finished env c hareOutputs t (opening c files)
    have hout := hcompiles.outcomes_eq
    obtain ⟨r, hstart, hstatus, htree⟩ := hcompiles.start
    obtain ⟨r', hstart', hstatus', htree'⟩ := (hcompiles.again hcwd ht (opening c files)).start
    refine ⟨r, r', hstart, htree ▸ hstart', ?_, ?_, ?_, ?_⟩
    · rw [hout]
      exact fun source path content ho => (hareOutputs.isOutputPath ho).suffix
    · rw [hout, htree]
      intro place bytes hfile hplace
      refine hgrows.frame ?_ hfile
      rintro ⟨⟨source, path, content⟩, ho, heq⟩
      exact hplace source path content (mem_pending.mp ho) heq
    · rw [htree]
      intro dir name bytes hfile hname
      exact hgrows.frame (fun hq => hname (hareOutputs.suffix_of_place hq)) hfile
    · rw [hout, hstatus, hstatus', htree, htree']
      exact finished_again_iff hareOutputs t (opening c files)

theorem start_again_iff_project :
    isAbsolute "/" = true ∧ (project false).WellNamed ∧ IsPlain ["proj"] ∧ ∃ r r',
      start { cwd := "/" } (project false) ["proj"] = .done r ∧
      start { cwd := "/" } r.tree ["proj"] = .done r' ∧
      (project false).node? ["proj", "A.cls"] = none ∧ r.tree.node? ["proj", "A.cls"] ≠ none ∧
      r.tree.node? ["proj", "A.peak"] = (project false).node? ["proj", "A.peak"] ∧
      r'.status = r.status ∧ ∀ place, r'.tree.node? place = r.tree.node? place := by
  have hwell : (project false).WellNamed := by decide
  obtain ⟨r, r', hstart, hstart', -, -, hkeep, hsame⟩ :=
    start_again_iff { cwd := "/" } rfl hwell isPlain_project
  obtain ⟨content, hexpanded⟩ := expanded_project false
  have hcompiles := compiles_project false
  obtain ⟨r₀, hstart₀, -, htree⟩ := hcompiles.start
  cases hstart₀.symm.trans hstart
  rw [hexpanded, finished_project, written_project] at htree
  have hwritten : r.tree.node? ["proj", "A.cls"] = some (.file (Utf8.encode content)) := by
    rw [htree]
    rfl
  have hcompanion : r.tree.node? (resolve "/" ("/proj/A.cls" ++ metaSuffix)) =
      some (.file (companionBytes (settings false))) := by
    rw [htree]
    rfl
  refine ⟨rfl, hwell, isPlain_project, r, r', hstart, hstart', rfl, ?_, ?_, hsame.mpr ?_⟩
  · exact hwritten ▸ nofun
  · exact hkeep ["proj"] "A.peak" _ rfl (by decide)
  · rw [hcompiles.outcomes_eq, hexpanded]
    rintro ⟨source, path, content, ho, -, hempty⟩
    cases List.mem_singleton.mp ho
    have hnode := Option.some.inj (hcompanion.symm.trans hempty)
    exact companionBytes_ne_nil rfl (Node.file.inj hnode)

/-- A version that cannot be written: the first run fails at the companion and leaves it empty, the
second one finds it there and succeeds. -/
theorem start_again_ne : ∃ r r', start { cwd := "/" } (project true) ["proj"] = .done r ∧
    start { cwd := "/" } r.tree ["proj"] = .done r' ∧
    r.status = .error (.path .unencodable) ∧ r'.status = .ok exitOk := by
  have hwell : (project true).WellNamed := by decide
  have hcompiles := compiles_project true
  obtain ⟨content, hexpanded⟩ := expanded_project true
  obtain ⟨r, hstart, hstatus, htree⟩ := hcompiles.start
  obtain ⟨r', hstart', hstatus', -⟩ := (hcompiles.again rfl hwell (opening ..)).start
  refine ⟨r, r', hstart, htree ▸ hstart', ?_, ?_⟩
  · rw [hstatus, hexpanded, finished_project, written_project]
    rfl
  · rw [hstatus', hexpanded, finished_project, finished_project, written_project]
    rfl

end CommandLine

end Monomorph
