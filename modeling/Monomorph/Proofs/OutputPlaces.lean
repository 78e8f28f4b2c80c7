import Monomorph.Compilation
import Monomorph.Proofs.Modularity
import Monomorph.Proofs.RepeatedWrites

/-!
# Where a compilation writes

Sources are found below the source directory, and outputs go beside them or into the output
directory. All of these are normal paths from the root. An output has the name of its source or of
its class with the extension of outputs, and letters that no path can have come from the output
directory alone (`exists_place_of_output`).
-/

namespace Monomorph

open Path Text

-- ---------------------------------------------------------------------------
-- Relative paths
-- ---------------------------------------------------------------------------

namespace Path

variable {cwd p base : Text}

def wayDown (down : List Text) : Text :=
  if down = [] then "." else joinParts down

theorem dropCommon_append (as down : List Text) : dropCommon (as ++ down) as = (down, []) := by
  induction as with
  | nil => cases down <;> rfl
  | cons a as ih => rw [List.cons_append, dropCommon, if_pos rfl, ih]

theorem dropCommon_ne_nil {as bs : List Text} (h : ¬bs <+: as) : (dropCommon as bs).2 ≠ [] := by
  induction as generalizing bs with
  | nil =>
    cases bs with
    | nil => exact absurd List.nil_prefix h
    | cons b bs => exact List.cons_ne_nil b bs
  | cons a as ih =>
    cases bs with
    | nil => exact absurd List.nil_prefix h
    | cons b bs =>
      rw [dropCommon]
      split
      · rename_i hab
        exact ih fun hprefix => h (hab ▸ List.cons_prefix_cons.mpr ⟨rfl, hprefix⟩)
      · exact List.cons_ne_nil b bs

theorem relative_below {down : List Text} (h : resolve cwd p = resolve cwd base ++ down) :
    relative cwd p base = wayDown down := by
  unfold relative
  rw [h, dropCommon_append]
  cases down <;> rfl

theorem relative_outside (h : ¬resolve cwd base <+: resolve cwd p) :
    relative cwd p base = ".." ∨ "../".toList.isPrefixOf (relative cwd p base) = true := by
  have hup := dropCommon_ne_nil h
  unfold relative
  generalize dropCommon (resolve cwd p) (resolve cwd base) = ways at hup
  obtain ⟨down, up⟩ := ways
  obtain ⟨q, up, rfl⟩ := List.exists_cons_of_ne_nil hup
  simp only [List.length_cons, List.replicate_succ, List.cons_append]
  by_cases hne : List.replicate up.length "..".toList ++ down = []
  · rw [hne]
    exact .inl rfl
  · rw [joinParts_cons _ hne]
    exact .inr rfl

theorem wayDown_stays {down : List Text} (h : ∀ part ∈ down, IsFileName part) :
    ¬(wayDown down = ".." ∨ "../".toList.isPrefixOf (wayDown down) = true) := by
  by_cases hne : down = []
  · subst hne
    decide
  · rw [wayDown, if_neg hne]
    have hsplit := splitAt_joinParts hne fun part hpart => (h part hpart).noSlash
    rintro (hup | hup)
    · rw [hup] at hsplit
      exact (h ".." (by rw [← hsplit]; exact List.mem_singleton_self _)).ne_parent rfl
    · obtain ⟨t, ht⟩ := List.isPrefixOf_iff_prefix.mp hup
      rw [← ht] at hsplit
      exact (h ".." (by rw [← hsplit]; exact List.mem_cons_self ..)).ne_parent rfl

theorem isAbsolute_wayDown {down : List Text} (h : ∀ part ∈ down, IsFileName part) :
    isAbsolute (wayDown down) = false := by
  unfold wayDown
  split
  · rfl
  · exact isAbsolute_joinParts h

theorem normalize_wayDown {d name : Text} {top down : List Text} (hd : Denotes d top)
    (hdown : ∀ part ∈ down, IsFileName part) (hname : IsFileName name) :
    normalize (join (join d (wayDown down)) name) = (down ++ [name]).foldl join d := by
  have hway := isAbsolute_wayDown hdown
  have hcomponents : components true (join d (wayDown down)) = top ++ down := by
    rw [components_join true d hway, hd.components, wayDown]
    split
    · rename_i hnil
      simp [hnil, Text.splitAt, push]
    · rename_i hne
      rw [splitAt_joinParts hne fun part hpart => (hdown part hpart).noSlash, foldl_push hdown]
      simp
  have habsolute := isAbsolute_join (isAbsolute_join hd.isAbsolute (wayDown down)) name
  have hnormal := denotes_normalize habsolute
  rw [components_join true _ (isAbsolute_of_isFileName hname), hcomponents,
    splitAt_of_not_mem hname.noSlash, List.foldl_cons, push_of_isFileName hname, List.foldl_nil,
    List.reverse_cons, List.reverse_reverse, List.append_assoc] at hnormal
  have hparts : ∀ part ∈ down ++ [name], IsFileName part := by
    simpa [or_imp, forall_and] using ⟨hdown, hname⟩
  obtain ⟨hjoined, hslashes⟩ := hd.foldl_join hparts
  refine hnormal.unique hjoined ?_
  have hne : join d (wayDown down) ≠ [] := by
    intro h
    have := isAbsolute_join hd.isAbsolute (wayDown down)
    rw [h] at this
    cases this
  rw [leadingSlashes_normalize habsolute, leadingSlashes_join hne (isAbsolute_of_isFileName hname),
    leadingSlashes_join hd.ne_nil hway, hslashes]

end Path

namespace Configuration

variable {c c' : Configuration} {cwd path n : Text} {place : List Text} {flags : Flags} {dir : Text}

-- ---------------------------------------------------------------------------
-- Loaded configurations
-- ---------------------------------------------------------------------------

theorem apply_keeps {options : Json} (h : c.apply options = .ok c') :
    c'.sourceDir = c.sourceDir ∧ c'.watch = c.watch := by
  simp only [apply, bind, Except.bind] at h
  -- of all the ways to read the options one leads to a configuration
  repeat' split at h
  all_goals first | contradiction | skip
  cases h
  exact ⟨rfl, rfl⟩

theorem applyJson_keeps {json : Json} (h : c.applyJson json = .ok c') :
    c'.sourceDir = c.sourceDir ∧ c'.watch = c.watch := by
  unfold applyJson at h
  split at h
  · split at h
    · exact apply_keeps h
    · exact apply_keeps h
    · cases h
  · cases h

theorem applyFile_keeps {file : File} (h : c.applyFile path file = .ok c') :
    c'.sourceDir = c.sourceDir ∧ c'.watch = c.watch := by
  cases file with
  | absent =>
    cases h
    exact ⟨rfl, rfl⟩
  | closed => cases h
  | contents bytes =>
    simp only [applyFile] at h
    split at h
    · cases h
    · split at h
      · cases h
      · cases h
      · exact applyJson_keeps (Program.mapError_eq_ok.mp h)

/-- What holds of a configuration that was loaded. Its directories are absolute. -/
structure IsLoaded (cwd dir : Text) (flags : Flags) (c : Configuration) : Prop where
  sourceDir : c.sourceDir = absolute cwd dir
  outDir : ∀ d, setting? c.outDir = some d → ∃ q, d = normalize (join c.sourceDir q)
  watch : c.watch = flags.watch

theorem eq_of_setting? {o : Option Text} {d : Text} (h : setting? o = some d) : o = some d := by
  unfold setting? at h
  split at h
  · exact h
  · cases h

theorem exists_of_load {file : Text → File} (h : load cwd dir flags file = .ok c) :
    ∃ c₀, applyFile { sourceDir := absolute cwd dir } (filePath cwd dir) (file (filePath cwd dir)) =
      .ok c₀ ∧ c = (c₀.applyFlags flags).anchor := by
  simp only [load] at h
  cases hfile : applyFile { sourceDir := absolute cwd dir } (filePath cwd dir)
      (file (filePath cwd dir)) with
  | error e =>
    rw [hfile] at h
    cases h
  | ok c₀ =>
    rw [hfile] at h
    cases h
    exact ⟨c₀, rfl, rfl⟩

theorem isLoaded {file : Text → File} (h : load cwd dir flags file = .ok c) :
    IsLoaded cwd dir flags c := by
  obtain ⟨c₀, hfile, rfl⟩ := exists_of_load h
  obtain ⟨hsource, hwatch⟩ := applyFile_keeps hfile
  refine ⟨hsource, fun d hd => ?_, ?_⟩
  · obtain ⟨q, -, rfl⟩ := Option.map_eq_some_iff.mp (eq_of_setting? hd)
    exact ⟨q, rfl⟩
  · simp [anchor, applyFlags, hwatch]

-- ---------------------------------------------------------------------------
-- Output paths
-- ---------------------------------------------------------------------------

theorem denotes_absolute (hcwd : isAbsolute cwd = true) (p : Text) :
    Denotes (absolute cwd p) (resolve cwd p) := by
  unfold absolute resolve
  split
  · rename_i hp
    rw [join_of_isAbsolute hp]
    exact denotes_normalize hp
  · exact denotes_normalize (isAbsolute_join hcwd p)

theorem mem_stem {x : Char} (h : x ∈ stem n) : x ∈ n := by
  simp only [stem] at h
  split at h
  · have hhead : throughLast '.' n <+: n := ⟨_, throughLast_append_afterLast '.' n⟩
    exact hhead.subset ((List.dropLast_subset _) h)
  · exact h

theorem isFileName_output (h : '/' ∉ n) : IsFileName (stem n ++ outputExtension) :=
  isFileName_append (fun hn => h (mem_stem hn)) (by decide) (by decide)

def root (c : Configuration) : Text :=
  (setting? c.rootDir).getD c.sourceDir

theorem outputPath_eq {d : Text} (hd : setting? c.outDir = some d) :
    c.outputPath cwd path outputExtension =
      let way := relative cwd (directory (absolute cwd path)) c.root
      let name := stem (fileName path) ++ outputExtension
      if way = ".." ∨ "../".toList.isPrefixOf way then join d name
      else normalize (join (join d way) name) := by
  unfold outputPath
  rw [hd]
  rfl

theorem exists_denotes_outDir (hc : IsLoaded cwd dir flags c) (hcwd : isAbsolute cwd = true)
    {d : Text} (hd : setting? c.outDir = some d) : ∃ top, Denotes d top := by
  obtain ⟨q, rfl⟩ := hc.outDir d hd
  have hsource := denotes_absolute hcwd dir
  rw [← hc.sourceDir] at hsource
  exact ⟨_, denotes_normalize (isAbsolute_join hsource.isAbsolute q)⟩

theorem outputPath_below {d : Text} {top down : List Text} (htop : Denotes d top)
    (hd : setting? c.outDir = some d)
    (h : resolve cwd (directory (absolute cwd path)) = resolve cwd c.root ++ down) :
    c.outputPath cwd path outputExtension =
      (down ++ [stem (fileName path) ++ outputExtension]).foldl join d := by
  have hdown : ∀ part ∈ down, IsFileName part := fun part hpart =>
    isFileName_of_mem_resolve (h ▸ List.mem_append_right _ hpart)
  rw [outputPath_eq hd, relative_below h, if_neg (wayDown_stays hdown),
    normalize_wayDown htop hdown (isFileName_output (not_mem_fileName path))]

theorem outputPath_outside {d : Text} (hd : setting? c.outDir = some d)
    (h : ¬resolve cwd c.root <+: resolve cwd (directory (absolute cwd path))) :
    c.outputPath cwd path outputExtension = join d (stem (fileName path) ++ outputExtension) := by
  rw [outputPath_eq hd, if_pos (relative_outside h)]

/-- An output goes into the directory of its source, or into the output directory and there down the
way that leads to its source. -/
theorem outputPath_cases (hc : IsLoaded cwd dir flags c) (hcwd : isAbsolute cwd = true)
    (hpath : Denotes path (place ++ [n])) : ∃ top down, down <:+ place ∧
    Denotes (c.outputPath cwd path outputExtension) (top ++ down ++ [stem n ++ outputExtension]) ∧
    (setting? c.outDir = none ∧ top = place ∧ down = [] ∨
      ∃ d, setting? c.outDir = some d ∧ Denotes d top) := by
  have hn : '/' ∉ n := (hpath.names n (by simp)).noSlash
  have hname := isFileName_output hn
  cases hout : setting? c.outDir with
  | none =>
    refine ⟨place, [], List.nil_suffix, ?_, .inl ⟨rfl, rfl, rfl⟩⟩
    unfold outputPath
    rw [hout, hpath.fileName, List.append_nil]
    exact hpath.directory.join hname
  | some d =>
    obtain ⟨top, htop⟩ := exists_denotes_outDir hc hcwd hout
    have hplace := denotes_absolute hcwd path
    rw [hpath.resolve] at hplace
    by_cases hroot : resolve cwd c.root <+: resolve cwd (directory (absolute cwd path))
    · obtain ⟨down, hdown⟩ := hroot
      have hsuffix : down <:+ place := by
        rw [← hplace.directory.resolve cwd, ← hdown]
        exact List.suffix_append ..
      have hparts : ∀ part ∈ down ++ [stem n ++ outputExtension], IsFileName part := by
        intro part hpart
        obtain hpart | hpart := List.mem_append.mp hpart
        · exact hpath.names part (List.mem_append_left _ (hsuffix.subset hpart))
        · exact List.mem_singleton.mp hpart ▸ hname
      refine ⟨top, down, hsuffix, ?_, .inr ⟨d, rfl, htop⟩⟩
      rw [outputPath_below htop hout hdown.symm, hpath.fileName, List.append_assoc]
      exact (htop.foldl_join hparts).1
    · refine ⟨top, [], List.nil_suffix, ?_, .inr ⟨d, rfl, htop⟩⟩
      rw [outputPath_outside hout hroot, hpath.fileName, List.append_nil]
      exact htop.join hname

theorem nul_mem_outputPath (hc : IsLoaded cwd dir flags c) (hcwd : isAbsolute cwd = true)
    (hpath : Denotes path (place ++ [n])) (hnul : '\x00' ∉ path) :
    '\x00' ∈ c.outputPath cwd path outputExtension ↔
      ∃ d, setting? c.outDir = some d ∧ '\x00' ∈ d := by
  obtain ⟨top, down, hdown, hout, htop⟩ := outputPath_cases hc hcwd hpath
  rw [hpath.mem_iff (by decide)] at hnul
  rw [hout.mem_iff (by decide)]
  have hextension : '\x00' ∉ outputExtension := by decide
  constructor
  · rintro ⟨part, hpart, hmem⟩
    have hplace {part : Text} (hpart : part ∈ place) (hmem : '\x00' ∈ part) : False :=
      hnul ⟨part, List.mem_append_left _ hpart, hmem⟩
    rw [List.mem_append, List.mem_append, List.mem_singleton] at hpart
    obtain (hpart | hpart) | rfl := hpart
    · obtain ⟨-, rfl, -⟩ | ⟨d, hd, htop⟩ := htop
      · exact (hplace hpart hmem).elim
      · exact ⟨d, hd, (htop.mem_iff (by decide)).mpr ⟨part, hpart, hmem⟩⟩
    · exact (hplace (hdown.subset hpart) hmem).elim
    · obtain hstem | hext := List.mem_append.mp hmem
      · exact absurd ⟨n, by simp, mem_stem hstem⟩ hnul
      · exact absurd hext hextension
  · rintro ⟨d, hd, hmem⟩
    obtain ⟨hnone, -⟩ | ⟨d', hd', htop⟩ := htop
    · rw [hnone] at hd
      cases hd
    · cases hd.symm.trans hd'
      obtain ⟨part, hpart, hmem⟩ := (htop.mem_iff (by decide)).mp hmem
      exact ⟨part, by simp [hpart], hmem⟩

end Configuration

-- ---------------------------------------------------------------------------
-- Outputs
-- ---------------------------------------------------------------------------

namespace Expansion

variable {s : Snapshot} {resolver : Resolver} {extension : Text} {source : Option Text}
  {path content : Text}

theorem path_mem_keys {p : Program} {f : SourceFile} (h : Program.scan s = .ok p)
    (hf : f ∈ p.files) : f.path ∈ s.files.keys := by
  have hpath : f.path ∈ p.files.map fun f => f.path := List.mem_map_of_mem hf
  rw [Program.map_path_files h] at hpath
  obtain ⟨e, he, heq⟩ := List.mem_map.mp hpath
  exact heq ▸ List.mem_map_of_mem (Program.mem_ordered.mp he)

/-- An output goes where its source does, or where a source with the name of its class would go that
stands beside the template. -/
theorem resolver_of_output (h : .output source path content ∈ run s resolver extension)
    (hresolver : ∀ p, ∃ q, resolver p = .ok q) : ∃ key ∈ s.files.keys, resolver key = .ok path ∨
    ∃ name : Text, name.isName = true ∧
      resolver (join (directory key) (name ++ sourceExtension)) = .ok path := by
  cases hscan : Program.scan s with
  | error errors =>
    rw [run, hscan] at h
    rw [Program.scan_eq] at hscan
    split at hscan
    · cases hscan
    · cases hscan
      obtain ⟨_, _, heq⟩ := Program.exists_failed_of_mem_problems h
      cases heq
  | ok p =>
    have hp := Program.scanned hscan
    obtain ⟨f, hf, hout⟩ | ⟨m, hm, hout⟩ := (mem_run_iff hscan).mp h
    · obtain ⟨target, htarget⟩ := hresolver f.path
      refine ⟨f.path, path_mem_keys hscan hf, .inl ?_⟩
      simp only [fileOutcome, htarget] at hout
      split at hout
      · cases hout
      · cases hout
        exact htarget
    · obtain ⟨t, f, n, hg, hpath, -, hdist, -⟩ := content_of_mem_classes hp hm
      obtain ⟨target, htarget⟩ :=
        hresolver (join (directory f.path) (m.expr.mangle ++ sourceExtension))
      refine ⟨f.path, path_mem_keys hscan (hp.mem_of_get? hg).1,
        .inr ⟨m.expr.mangle, (hdist.1.wellFormed hp).isName_mangle, ?_⟩⟩
      cases hout
      simp only [classPath, htarget] at hpath
      rw [htarget, hpath]

end Expansion

namespace Compilation

variable {c : Configuration} {cwd dir : Text} {flags : Flags} {s : Snapshot}

theorem exists_origin (c : Configuration)
    (hkeys : ∀ key ∈ s.files.keys, ∃ place n, Denotes key (place ++ [n]))
    {source : Option Text} {path content : Text}
    (h : .output source path content ∈
      Expansion.run s (fun p => .ok (c.outputPath cwd p outputExtension)) outputExtension) :
    ∃ key ∈ s.files.keys, ∃ q place n, Denotes q (place ++ [n]) ∧
      c.outputPath cwd q outputExtension = path ∧ ('\x00' ∈ q → '\x00' ∈ key) ∧
      leadingSlashes q = leadingSlashes key := by
  obtain ⟨key, hkey, hpath | ⟨name, hname, hpath⟩⟩ :=
    Expansion.resolver_of_output h fun _ => ⟨_, rfl⟩
  · obtain ⟨place, n, hdenotes⟩ := hkeys key hkey
    exact ⟨key, hkey, key, place, n, hdenotes, Except.ok.inj hpath, id, rfl⟩
  · obtain ⟨place, n, hdenotes⟩ := hkeys key hkey
    have hfile : IsFileName (name ++ sourceExtension) :=
      isFileName_append (slash_not_mem_of_isName hname) (by decide) (by decide)
    refine ⟨key, hkey, _, place, _, hdenotes.directory.join hfile, Except.ok.inj hpath, ?_, ?_⟩
    · intro hmem
      obtain hmem | hmem := nul_of_mem_join hmem
      · exact (directory_isPrefix key).subset hmem
      · obtain hmem | hmem := List.mem_append.mp hmem
        · exact absurd hmem
            (not_mem_of_all_isNameChar (all_isNameChar_of_isName hname) (by decide))
        · exact absurd hmem (by decide)
    · rw [leadingSlashes_join hdenotes.directory.ne_nil (isAbsolute_of_isFileName hfile),
        hdenotes.leadingSlashes_directory]

theorem isOutputPath_of_output (hc : c.IsLoaded cwd dir flags) (hcwd : isAbsolute cwd = true)
    (hkeys : ∀ key ∈ s.files.keys, '\x00' ∉ key ∧ ∃ place n, Denotes key (place ++ [n]))
    {source : Option Text} {path content : Text}
    (h : .output source path content ∈
      Expansion.run s (fun p => .ok (c.outputPath cwd p outputExtension)) outputExtension) :
    IsOutputPath path ∧ ('\x00' ∈ path ↔ ∃ d, setting? c.outDir = some d ∧ '\x00' ∈ d) := by
  obtain ⟨key, hkey, q, place, n, hq, rfl, hnul, -⟩ :=
    exists_origin c (fun key hkey => (hkeys key hkey).2) h
  obtain ⟨top, down, -, hout, -⟩ := Configuration.outputPath_cases hc hcwd hq
  have hqnul : '\x00' ∉ q := fun hmem => (hkeys key hkey).1 (hnul hmem)
  exact ⟨⟨_, _, hout⟩, Configuration.nul_mem_outputPath hc hcwd hq hqnul⟩

end Compilation

end Monomorph
