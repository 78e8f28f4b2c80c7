import Monomorph.Proofs.MethodSplices
import Monomorph.Proofs.OutputDirectories
import Monomorph.Proofs.RefusedRuns
import Monomorph.Proofs.Utf8Laws

/-!
# Files that pass through

A source without templates, generic methods and usages is written as it was read, and a run that
ends well has written it. Reading makes every line break a line feed, so the output has the octets
of the source exactly when there is no carriage return among them
(`Compilation.run_passes_through`).
-/

namespace Monomorph

open Monomorph.Path

-- ---------------------------------------------------------------------------
-- Files without generics
-- ---------------------------------------------------------------------------

/-- A file of a snapshot that declares neither templates nor generic methods and uses no template
that the snapshot declares. -/
structure Snapshot.IsPlain (s : Snapshot) (path content : Text) : Prop where
  mem : (path, content) ∈ s.files.entries
  noTemplate : Template.isIn content = false
  noMethod : ∀ key, SourceFile.hasMethod path content key = false
  noUsage : (Usage.findKnown s.declares content).isEmpty = true

namespace Expansion

variable {s : Snapshot} {p : Program} {f : SourceFile} {path content target : Text}

theorem methods_eq_nil (h : SourceFile.read path content = .ok f)
    (hno : ∀ key, SourceFile.hasMethod path content key = false) : f.methods = [] := by
  refine List.eq_nil_iff_forall_not_mem.mpr fun m hm => ?_
  have hkey := hno m.key
  simp only [SourceFile.hasMethod, h] at hkey
  exact List.any_eq_false.mp hkey m hm (beq_self_eq_true m.key)

theorem text_flatten_of_isEmpty {known : Text → Bool} {text : Text}
    (h : (Usage.findKnown known text).isEmpty = true) :
    (Instance.flatten known text).text = text := by
  have hrules : ((Usage.findKnown known text).map TypeExpr.mangle).isEmpty = true := by
    simpa [Table.isEmpty, Table.map] using h
  simp only [Instance.flatten, Usage.replace, hrules, if_true]

theorem text_expandFile_of_plain (hmethods : f.methods = [])
    (husage : (Usage.findKnown p.known f.content).isEmpty = true) :
    (expandFile p f).text = f.content := by
  have hstripped : f.stripped = f.content := by
    rw [SourceFile.stripped, hmethods]
    simp [Splice.cut, Splice.cut?, Splice.cutFrom?, Text.clip]
  have hconcrete : concreteMethods p (some p.known) f.methods = ([], []) := by
    rw [hmethods]
    rfl
  simp only [expandFile, hconcrete, hstripped, text_flatten_of_isEmpty husage,
    Splice.insertMethods_nil]

theorem output_of_isPlain (h : s.IsPlain path content) (hscan : Program.scan s = .ok p)
    (hkeys : s.files.keys.Nodup) (resolver : Resolver) (extension : Text)
    (hresolver : ∀ q, ∃ r, resolver q = .ok r) (htarget : resolver path = .ok target) :
    .output (some path) target content ∈ run s resolver extension ∧
      ∀ o ∈ run s resolver extension, o.source? = some path → o.content = content := by
  obtain ⟨f, hf, hread⟩ := Program.exists_file hscan h.mem
  obtain ⟨hdeclared, -⟩ := Program.read_eq_ok_iff.mp hread
  have hpath : f.path = path := Program.path_of_read hread
  have hcontent : f.content = content := by
    obtain ⟨ts, -, heq⟩ := Program.scan_eq_ok_iff.mp hdeclared
    rw [heq]
  have hfile : f.isTemplateFile = false := by
    rw [← Program.isIn_eq hdeclared]
    exact h.noTemplate
  have htext : (expandFile p f).text = content := by
    rw [← hcontent]
    refine text_expandFile_of_plain (methods_eq_nil hread h.noMethod) ?_
    rw [hcontent, Program.known_eq_declares hscan]
    exact h.noUsage
  have hclean : Clean (run s resolver extension) := clean_run hscan fun f _ => hresolver f.path
  obtain ⟨-, hall⟩ := exists_output hclean hscan hkeys hf hfile
  rw [hpath, htext] at hall
  refine ⟨?_, hall⟩
  rw [← hpath] at htarget ⊢
  rw [← htext, ← fileOutcome_eq hfile htarget]
  exact mem_run hscan hf

end Expansion

namespace Compilation

open FileTree

-- ---------------------------------------------------------------------------
-- Reading a source
-- ---------------------------------------------------------------------------

section Reading

variable {t : FileTree} {cwd path content : Text} {paths : List Text} {files : List (Text × Text)}

theorem readSource_of_mem (h : readSources t cwd paths = .ok (files, []))
    (hmem : (path, content) ∈ files) : readSource t cwd path = .ok (.ok content) := by
  induction paths generalizing files with
  | nil =>
    cases h
    cases hmem
  | cons p paths ih =>
    simp only [readSources] at h
    split at h
    · cases h
    · cases h
    · rename_i text more problems hread hrest
      cases h
      obtain heq | hmem := List.mem_cons.mp hmem
      · cases heq
        exact hread
      · exact ih hrest hmem
    · cases h

theorem exists_text_of_readSource (h : readSource t cwd path = .ok (.ok content)) :
    ∃ text, t.read cwd path = .ok (Utf8.encode text) ∧ content = text.unifyNewlines := by
  unfold readSource at h
  cases hread : t.read cwd path with
  | error e => cases e <;> simp [hread] at h
  | ok bytes =>
    cases hdecode : Utf8.decode bytes with
    | error e => simp [hread, hdecode] at h
    | ok text =>
      simp only [hread, hdecode, Except.ok.injEq] at h
      exact ⟨text, by rw [Utf8.decode_eq_ok_iff.mp hdecode], h.symm⟩

end Reading

-- ---------------------------------------------------------------------------
-- Writing an output
-- ---------------------------------------------------------------------------

section Writing

variable {env : Environment} {c : Configuration} {showBar : Bool} {w : Writing} {t : FileTree}
  {path : Text} {place companion : List Text} {bytes : Bytes} {report report' : Report}
  {write : FileTree → Option FileError × FileTree} {outputs : List (Option Text × Text × Text)}

theorem Effect.node?_of_ok (h : Effect c path place companion bytes write t) (hplace : place ≠ [])
    (hne : companion ≠ place) (hok : (write t).1 = none) :
    (write t).2.node? place = some (.file bytes) := by
  cases h with
  | failed _ _ hfirst _ =>
    rw [hfirst] at hok
    cases hok
  | alone _ _ _ hfirst _ => rw [hfirst, node?_set_self hplace]
  | accompanied _ _ _ _ heq hfirst _ =>
    rw [hfirst, heq, node?_set_of_ne hne.symm, node?_set_self hplace]

theorem noted_of_errorCount {e : Option FileError} (h : noted report path e = .ok report')
    (hok : report'.errorCount = 0) : e = none ∧ report' = report := by
  cases e with
  | none =>
    cases h
    exact ⟨rfl, rfl⟩
  | some e =>
    rw [noted] at h
    split at h
    · cases h
    · cases h
      exact absurd rfl (List.countP_eq_zero.mp hok _ (List.mem_concat_self ..))

theorem node?_of_addAll (h : ∀ o ∈ outputs, IsOutputPath o.2.1)
    (hend : (ending (w.addAll env c showBar outputs)).1 = .ok report)
    (hok : report.errorCount = 0) : w.report = report ∧
    ∀ place bytes, (∃ o ∈ outputs, resolve env.cwd o.2.1 = place) →
      (∀ o ∈ outputs, resolve env.cwd o.2.1 = place → Utf8.encode o.2.2 = bytes) →
      (ending (w.addAll env c showBar outputs)).2.node? place = some (.file bytes) := by
  induction outputs generalizing w with
  | nil => exact ⟨Except.ok.inj hend, by simp⟩
  | cons o more ih =>
    obtain ⟨hpath, hpaths⟩ := List.forall_mem_cons.mp h
    obtain ⟨source, path, content⟩ := o
    obtain ⟨e, hnoted, hstop⟩ | ⟨w', hnoted, htree, hmore⟩ :=
      addAll_cons env c showBar w source path content more
    · rw [hstop] at hend
      cases hend
    · rw [hmore] at hend ⊢
      obtain ⟨rfl, hrest⟩ := ih hpaths hend
      obtain ⟨hnone, hreport⟩ := noted_of_errorCount hnoted hok
      refine ⟨hreport.symm, fun place bytes hex hsame => ?_⟩
      obtain ⟨hfirst, hsame⟩ := List.forall_mem_cons.mp hsame
      by_cases hlater : ∃ o ∈ more, resolve env.cwd o.2.1 = place
      · exact hrest place bytes hlater hsame
      · -- the first output is at the place, and nothing is written there later
        obtain ⟨o, ho, rfl⟩ := hex
        obtain rfl | ho := List.mem_cons.mp ho
        · have hwritten := (hpath.effect env.cwd c content w.tree).node?_of_ok
            (hpath.place_ne_nil _) (hpath.companion_ne hpath _) hnone
          rw [← htree, hfirst rfl] at hwritten
          refine (grows_addAll env c showBar hpaths w').frame ?_ hwritten
          rintro ⟨o, ho, heq⟩
          exact hlater ⟨o, ho, heq.symm⟩
        · exact absurd ⟨o, ho, rfl⟩ hlater

theorem node?_of_finished {outcomes : List Outcome} {out : List Note} {source : Option Text}
    {content : Text} (h : AreOutputs outcomes)
    (hexit : statusOf env (finished env c t out outcomes).2 (finished env c t out outcomes).1 =
      .ok exitOk)
    (hmem : .output source path content ∈ outcomes)
    (hsame : ∀ source' path' content', .output source' path' content' ∈ outcomes →
      resolve env.cwd path' = resolve env.cwd path → content' = content) :
    (finished env c t out outcomes).2.node? (resolve env.cwd path) =
      some (.file (Utf8.encode content)) := by
  cases hend : (finished env c t out outcomes).1 with
  | error e =>
    rw [hend] at hexit
    cases hexit
  | ok report =>
    have hok : report.errorCount = 0 := by
      by_contra hne
      rw [hend, statusOf, if_neg hne] at hexit
      exact reported_ne_exitOk _ _ _ hexit
    refine (node?_of_addAll h.of_pending hend hok).2 _ _ ⟨_, mem_pending.mpr hmem, rfl⟩ ?_
    intro o ho hplace
    rw [hsame o.1 o.2.1 o.2.2 (mem_pending.mp ho) hplace]

end Writing

end Compilation

-- ---------------------------------------------------------------------------
-- One path for a place
-- ---------------------------------------------------------------------------

namespace Configuration

variable {c : Configuration} {cwd dir path n : Text} {flags : Flags} {place : List Text}

theorem leadingSlashes_outputPath (hc : IsLoaded cwd dir flags c) (hcwd : isAbsolute cwd = true)
    (hpath : Denotes path (place ++ [n])) :
    leadingSlashes (c.outputPath cwd path outputExtension) =
      leadingSlashes ((setting? c.outDir).getD path) := by
  have hname : IsFileName (stem (fileName path) ++ outputExtension) :=
    isFileName_output (not_mem_fileName path)
  cases hout : setting? c.outDir with
  | none =>
    unfold outputPath
    rw [hout]
    exact (leadingSlashes_join hpath.directory.ne_nil (isAbsolute_of_isFileName hname)).trans
      hpath.leadingSlashes_directory
  | some d =>
    obtain ⟨top, htop⟩ := exists_denotes_outDir hc hcwd hout
    by_cases hroot : resolve cwd c.root <+: resolve cwd (directory (absolute cwd path))
    · obtain ⟨down, hdown⟩ := hroot
      rw [outputPath_below htop hout hdown.symm]
      refine (htop.foldl_join fun part hpart => ?_).2
      obtain hpart | hpart := List.mem_append.mp hpart
      · exact isFileName_of_mem_resolve (hdown ▸ List.mem_append_right _ hpart)
      · exact List.mem_singleton.mp hpart ▸ hname
    · rw [outputPath_outside hout hroot]
      exact leadingSlashes_join htop.ne_nil (isAbsolute_of_isFileName hname)

end Configuration

namespace Compilation

open FileTree

variable {env : Environment} {c : Configuration} {t : FileTree} {paths : List Text}
  {files : List (Text × Text)} {dir : Text} {flags : Flags} {path content : Text}

theorem Reads.leadingSlashes_output (h : Reads env c t paths files)
    (hc : c.IsLoaded env.cwd dir flags) (hcwd : isAbsolute env.cwd = true) (ht : t.WellNamed)
    {source : Option Text} (hmem : .output source path content ∈ expanded env c files) :
    leadingSlashes path = leadingSlashes ((setting? c.outDir).getD c.sourceDir) := by
  have hkeys : ∀ key ∈ (snapshot c (.ofList files)).files.keys,
      (∃ place n, Denotes key (place ++ [n])) ∧
        leadingSlashes key = leadingSlashes c.sourceDir := by
    intro key hkey
    rw [snapshot, Table.mem_keys_ofList, (readSources_eq_ok h.read).1] at hkey
    obtain ⟨⟨place, name, hdenotes, -⟩, hslashes⟩ :=
      denotes_of_mem_filesBelow ht (denotes_sourceDir hc hcwd) (by decide) h.found hkey
    exact ⟨⟨place, name, hdenotes⟩, hslashes⟩
  obtain ⟨key, hkey, q, place, n, hq, rfl, -, hslashes⟩ :=
    exists_origin c (fun key hkey => (hkeys key hkey).1) hmem
  rw [Configuration.leadingSlashes_outputPath hc hcwd hq]
  cases setting? c.outDir with
  | none => exact hslashes.trans (hkeys key hkey).2
  | some d => rfl

theorem Reads.path_unique (h : Reads env c t paths files) (hc : c.IsLoaded env.cwd dir flags)
    (hcwd : isAbsolute env.cwd = true) (ht : t.WellNamed) {source source' : Option Text}
    {path' content' : Text} (hmem : .output source path content ∈ expanded env c files)
    (hmem' : .output source' path' content' ∈ expanded env c files)
    (hplace : resolve env.cwd path' = resolve env.cwd path) : path' = path := by
  have hdenotes {source : Option Text} {path content : Text}
      (hmem : .output source path content ∈ expanded env c files) :
      Denotes path (resolve env.cwd path) := by
    obtain ⟨place, stem, hpath⟩ := (h.areOutputs hc hcwd ht).isOutputPath hmem
    rwa [hpath.resolve]
  refine (hplace ▸ hdenotes hmem').unique (hdenotes hmem) ?_
  rw [h.leadingSlashes_output hc hcwd ht hmem, h.leadingSlashes_output hc hcwd ht hmem']

-- ---------------------------------------------------------------------------
-- From source to output
-- ---------------------------------------------------------------------------

/-- What a run that ends well makes of a source without generics, when no other outcome has the
path of its output. -/
theorem Reads.node?_of_isPlain (h : Reads env c t paths files)
    (hc : c.IsLoaded env.cwd dir flags) (hcwd : isAbsolute env.cwd = true) (ht : t.WellNamed)
    (hexit : (run env c t).status = .ok exitOk)
    (hplain : (snapshot c (.ofList files)).IsPlain path content)
    (halone : ∀ o ∈ outcomes env c t,
      o.path? = some (c.outputPath env.cwd path outputExtension) → o.source? = some path) :
    (run env c t).tree.node? (resolve env.cwd (c.outputPath env.cwd path outputExtension)) =
      some (.file (Utf8.encode content)) := by
  have hproblems : (snapshot c (.ofList files)).problems = [] := by
    by_contra hne
    rw [(h.run_of_problems hne).1] at hexit
    exact reported_ne_exitOk _ _ _ hexit
  obtain ⟨hmem, hcontent⟩ := Expansion.output_of_isPlain hplain
    (Program.scan_eq_ok.mpr ⟨hproblems, rfl⟩) (Table.nodup_keys_ofList files)
    (fun q => .ok (c.outputPath env.cwd q outputExtension)) outputExtension (fun _ => ⟨_, rfl⟩) rfl
  obtain ⟨hstatus, htree⟩ := finish_eq env c t (opening c files) (expanded env c files)
  rw [h.run_eq, hstatus] at hexit
  rw [h.run_eq, htree]
  refine node?_of_finished (h.areOutputs hc hcwd ht) hexit hmem ?_
  intro source' path' content' hmem' hplace
  obtain rfl := h.path_unique hc hcwd ht hmem hmem' hplace
  exact hcontent _ hmem' (halone _ (h.outcomes_eq ▸ hmem') rfl)

theorem Reads.node?_source (h : Reads env c t paths files) (hc : c.IsLoaded env.cwd dir flags)
    (hcwd : isAbsolute env.cwd = true) (ht : t.WellNamed) (hmem : (path, content) ∈ files) :
    ∃ text, t.node? (resolve env.cwd path) = some (.file (Utf8.encode text)) ∧
      content = text.unifyNewlines := by
  obtain ⟨text, hread, hcontent⟩ := exists_text_of_readSource (readSource_of_mem h.read hmem)
  have hpath : path ∈ paths := by
    rw [← (readSources_eq_ok h.read).1]
    exact List.mem_map_of_mem hmem
  obtain ⟨-, place, name, hdenotes, -⟩ := h.denotes hc hcwd ht hpath
  obtain ⟨-, hfollow⟩ := (FileTree.read_eq_ok hdenotes).mp hread
  obtain ⟨-, hnode⟩ := follow_eq_ok hdenotes.names rfl hfollow
  exact ⟨text, by rw [hdenotes.resolve, hnode], hcontent⟩

/-- After a run that ends well, the output of a source without generics holds its text with line
feeds for line breaks, unless another outcome has the same path. These are the octets of the source
exactly when there is no carriage return among them. -/
theorem run_passes_through {file : Text → Configuration.File} (hcwd : isAbsolute env.cwd = true)
    (ht : t.WellNamed) (hload : Configuration.load env.cwd dir flags file = .ok c)
    (hreads : Reads env c t paths files) (hexit : (run env c t).status = .ok exitOk)
    (hplain : (snapshot c (.ofList files)).IsPlain path content)
    (halone : ∀ o ∈ outcomes env c t,
      o.path? = some (c.outputPath env.cwd path outputExtension) → o.source? = some path) :
    ∃ bytes written, t.node? (resolve env.cwd path) = some (.file bytes) ∧
      (run env c t).tree.node? (resolve env.cwd (c.outputPath env.cwd path outputExtension)) =
        some (.file written) ∧
      (∃ text, bytes = Utf8.encode text ∧ written = Utf8.encode text.unifyNewlines) ∧
      (written = bytes ↔ 0x0D ∉ bytes) := by
  have hc := Configuration.isLoaded hload
  obtain ⟨text, hsource, rfl⟩ :=
    hreads.node?_source hc hcwd ht (Table.mem_of_mem_ofList hplain.mem)
  refine ⟨_, _, hsource, hreads.node?_of_isPlain hc hcwd ht hexit hplain halone,
    ⟨text, rfl, rfl⟩, ?_⟩
  have hreturn : 0x0D ∈ Utf8.encode text ↔ '\r' ∈ text := Utf8.mem_encode_iff (by decide)
  rw [hreturn, ← Utf8.unifyNewlines_eq_self_iff]
  exact ⟨Utf8.encode_injective, congrArg Utf8.encode⟩

/-- A source that begins with a byte order mark, beside a template that it does not use. Its line
ends in a line feed, with or without a carriage return before it. -/
def library (returns : Bool) : FileTree where
  nodes := ⟨[(["proj"], .directory),
    (["proj", "A.peak"], .file (Utf8.encode
      ("\uFEFFclass A { List<Box> é; }" ++ if returns then "\r\n" else "\n"))),
    (["proj", "Box.peak"], .file (Utf8.encode "class Box<T> {}\n"))]⟩

def libraryFiles : List (Text × Text) :=
  [("/proj/A.peak", "\uFEFFclass A { List<Box> é; }\n"), ("/proj/Box.peak", "class Box<T> {}\n")]

theorem reads_library (returns : Bool) : Reads { cwd := "/" } { sourceDir := "/proj" }
    (library returns) ["/proj/A.peak", "/proj/Box.peak"] libraryFiles := by
  have hroot : Denotes "/proj" ["proj"] :=
    ⟨by simpa using isFileName_of_length (by decide) (by decide), 1, .inl rfl, rfl⟩
  refine ⟨(filesBelow?_eq_some hroot).mpr ⟨by decide, rfl, ?_⟩, nofun, ?_⟩
  · have hfound : (library returns).nodes.entries.filterMap
        (found? ["proj"] "/proj" sourceExtension) =
          ["/proj/A.peak".toList, "/proj/Box.peak"] := by
      cases returns <;> decide +kernel
    rw [hfound]
    exact (List.mergeSort_of_pairwise (by decide)).symm
  · cases returns <;> decide +kernel

theorem isPlain_library : (snapshot { sourceDir := "/proj" } (.ofList libraryFiles)).IsPlain
    "/proj/A.peak" "\uFEFFclass A { List<Box> é; }\n" := by
  obtain ⟨f, hread, hmethods⟩ : ∃ f, SourceFile.read "/proj/A.peak"
      "\uFEFFclass A { List<Box> é; }\n" = .ok f ∧ f.methods.isEmpty = true := by
    refine Program.exists_ok_of_decide ?_
    rw [SourceFile.read, Program.withMethods_eq]
    decide +kernel
  refine ⟨by decide, by decide +kernel, fun key => ?_, by decide +kernel⟩
  simp only [SourceFile.hasMethod, hread, List.isEmpty_iff.mp hmethods, List.any_nil]

theorem expanded_library : ∃ content,
    expanded { cwd := "/" } { sourceDir := "/proj" } libraryFiles =
      [.output (some "/proj/A.peak".toList) "/proj/A.cls" content, .template "/proj/Box.peak"] := by
  let s : Snapshot := { files := ⟨libraryFiles⟩ }
  have hordered : s.ordered = s.files.entries := List.mergeSort_of_pairwise (by decide +kernel)
  obtain ⟨p, hscan, hfiles, hroots⟩ : ∃ p, Program.scan s = .ok p ∧
      p.files.map (fun f => (f.path, f.isTemplateFile)) =
        [("/proj/A.peak".toList, false), ("/proj/Box.peak".toList, true)] ∧
      Expansion.roots p = [] := by
    refine Program.exists_ok_of_decide ?_
    rw [Program.scan, hordered, Program.withMethods_eq]
    decide +kernel
  obtain ⟨f, rest, hf, hplain, hrest⟩ := List.map_eq_cons_iff.mp hfiles
  obtain ⟨g, rfl, htemplate⟩ := List.map_eq_singleton_iff.mp hrest
  obtain ⟨hpath, hno⟩ := Prod.mk.inj hplain
  obtain ⟨hpath', hyes⟩ := Prod.mk.inj htemplate
  have hclasses (resolver : Resolver) : Expansion.classes p resolver outputExtension = [] := by
    rw [Expansion.classes, hroots, Expansion.makeClasses_nil]
  have hs : snapshot { sourceDir := "/proj" } (.ofList libraryFiles) = s := rfl
  refine ⟨(Expansion.expandFile p f).text, ?_⟩
  rw [expanded, hs, Expansion.run, hscan]
  simp only [Expansion.ofProgram, hf, hclasses, Expansion.fileOutcome, hno, hyes, hpath, hpath',
    List.map_cons, List.map_nil, List.append_nil, Bool.false_eq_true, if_false, if_true]
  rfl

theorem exitOk_library (returns : Bool) :
    (run { cwd := "/" } { sourceDir := "/proj" } (library returns)).status = .ok exitOk := by
  obtain ⟨content, hexpanded⟩ := expanded_library
  have hwritten : (written "/" { sourceDir := "/proj" } "/proj/A.cls" content
      (library returns)).1 = none := by
    cases returns <;> rfl
  rw [(reads_library returns).run_eq, hexpanded, (finish_eq ..).1]
  have hfinished : (finished { cwd := "/" } { sourceDir := "/proj" } (library returns)
      (opening { sourceDir := "/proj" } libraryFiles)
      [.output (some "/proj/A.peak".toList) "/proj/A.cls" content, .template "/proj/Box.peak"]).1 =
        noted {} "/proj/A.cls" (written "/" { sourceDir := "/proj" } "/proj/A.cls" content
          (library returns)).1 := congrArg Prod.fst (ending_singleton ..)
  rw [hfinished, hwritten]
  rfl

theorem alone_library (returns : Bool) :
    ∀ o ∈ outcomes { cwd := "/" } { sourceDir := "/proj" } (library returns),
      o.path? = some "/proj/A.cls" → o.source? = some "/proj/A.peak" := by
  obtain ⟨content, hexpanded⟩ := expanded_library
  rw [(reads_library returns).outcomes_eq, hexpanded]
  simp [Outcome.path?, Outcome.source?]

theorem load_library (returns : Bool) :
    Configuration.load "/" "proj" {} (CommandLine.configurationFile (library returns) "/") =
      .ok { sourceDir := "/proj" } :=
  rfl

/-- Line feeds alone pass through. -/
theorem run_passes_through_library :
    isAbsolute "/" = true ∧ (library false).WellNamed ∧ ∃ c paths files path content,
      Configuration.load "/" "proj" {} (CommandLine.configurationFile (library false) "/") =
        .ok c ∧
      Reads { cwd := "/" } c (library false) paths files ∧
      (run { cwd := "/" } c (library false)).status = .ok exitOk ∧
      (snapshot c (.ofList files)).IsPlain path content ∧
      (∀ o ∈ outcomes { cwd := "/" } c (library false),
        o.path? = some (c.outputPath "/" path outputExtension) → o.source? = some path) ∧
      ∃ bytes, (library false).node? ["proj", "A.peak"] = some (.file bytes) ∧
        (run { cwd := "/" } c (library false)).tree.node? ["proj", "A.cls"] =
          some (.file bytes) := by
  have hwell : (library false).WellNamed := by decide
  obtain ⟨bytes, written, hsource, houtput, -, hsame⟩ :=
    run_passes_through rfl hwell (load_library false) (reads_library false) (exitOk_library false)
      isPlain_library (alone_library false)
  have hreturn : 0x0D ∉ bytes := by
    cases hsource
    decide +kernel
  rw [hsame.mpr hreturn] at houtput
  exact ⟨rfl, hwell, _, _, _, _, _, load_library false, reads_library false, exitOk_library false,
    isPlain_library, alone_library false, bytes, hsource, houtput⟩

/-- A carriage return does not, although the run ends well. -/
theorem run_drops_returns :
    ∃ c paths files content bytes written,
      Configuration.load "/" "proj" {} (CommandLine.configurationFile (library true) "/") = .ok c ∧
      Reads { cwd := "/" } c (library true) paths files ∧
      (run { cwd := "/" } c (library true)).status = .ok exitOk ∧
      (snapshot c (.ofList files)).IsPlain "/proj/A.peak" content ∧
      (∀ o ∈ outcomes { cwd := "/" } c (library true),
        o.path? = some "/proj/A.cls" → o.source? = some "/proj/A.peak") ∧
      (library true).node? ["proj", "A.peak"] = some (.file bytes) ∧
      (run { cwd := "/" } c (library true)).tree.node? ["proj", "A.cls"] = some (.file written) ∧
      written ≠ bytes := by
  have hc := Configuration.isLoaded (load_library true)
  have houtput := (reads_library true).node?_of_isPlain hc rfl (by decide) (exitOk_library true)
    isPlain_library (alone_library true)
  exact ⟨_, _, _, _, _, _, load_library true, reads_library true, exitOk_library true,
    isPlain_library, alone_library true, rfl, houtput, by decide +kernel⟩

end Compilation

end Monomorph
