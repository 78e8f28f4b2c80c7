import Monomorph.Proofs.OutputPlaces

/-!
# Outputs below the output directory

With an output directory every output stays below it, whatever the path of its source looks like: a
source below the root directory keeps its way, and any other goes right into the output directory
(`outputPath_staysBelow`). So two sources below the root directory never share an output, and neither
do two sources whose outputs go beside them (`outputPath_ne`).
-/

namespace Monomorph

open Path Text

-- ---------------------------------------------------------------------------
-- Paths of sources
-- ---------------------------------------------------------------------------

namespace Path

variable {m n p q : Text} {place place' : List Text}

theorem Denotes.place_unique (h : Denotes p place) (h' : Denotes p place') : place = place' := by
  rw [← h.components true, h'.components]

theorem Denotes.join_inj (hp : Denotes p place) (hq : Denotes q place') (hm : IsFileName m)
    (hn : IsFileName n) (h : Path.join p m = Path.join q n) : p = q ∧ m = n := by
  have hplaces : place ++ [m] = place' ++ [n] := (hp.join hm).place_unique (h ▸ hq.join hn)
  obtain ⟨rfl, hname⟩ := List.append_inj' hplaces rfl
  refine ⟨hp.unique hq ?_, List.singleton_inj.mp hname⟩
  rw [← leadingSlashes_join hp.ne_nil (isAbsolute_of_isFileName hm), h,
    leadingSlashes_join hq.ne_nil (isAbsolute_of_isFileName hn)]

/-- The directory `d` is `b` or lies below it, with the same slashes in front. -/
def IsBelow (b d : Text) : Prop :=
  ∃ down : List Text, (∀ part ∈ down, IsFileName part) ∧ d = down.foldl join b

/-- A normal path from the root to a file whose name has the extension of sources and before it more
than dots. -/
structure IsSourcePath (p : Text) : Prop where
  isAbsolute : isAbsolute p = true
  normal : normalize p = p
  name : ∃ s, fileName p = s ++ sourceExtension ∧ ∃ x ∈ s, x ≠ '.'

theorem stem_append_sourceExtension {s : Text} (h : ∃ x ∈ s, x ≠ '.') :
    stem (s ++ sourceExtension) = s := by
  have hfront : (throughLast '.' (s ++ sourceExtension)).dropLast = s := by
    rw [show s ++ sourceExtension = s ++ '.' :: ['p', 'e', 'a', 'k'] from rfl,
      throughLast_append (by decide), List.dropLast_concat]
  simp only [stem, hfront]
  rw [if_pos (by simpa using h)]

theorem IsSourcePath.exists_stem (h : IsSourcePath p) : ∃ s place, Denotes (directory p) place ∧
    p = join (directory p) (s ++ sourceExtension) ∧ stem (fileName p) = s ∧ '/' ∉ s := by
  obtain ⟨s, hname, hs⟩ := h.name
  have hp := denotes_normalize h.isAbsolute
  rw [h.normal] at hp
  obtain hnil | ⟨place, n, hplace⟩ := List.eq_nil_or_concat (components true p)
  · -- the root is no file
    rw [hnil] at hp
    obtain ⟨k, hk, rfl⟩ := hp.eq
    rcases hk with rfl | rfl <;> cases s <;> cases hname
  · rw [hplace, List.concat_eq_append] at hp
    have hn : n = s ++ sourceExtension := by rw [← hname, hp.fileName]
    refine ⟨s, place, hp.directory, ?_, ?_, ?_⟩
    · rw [← hn, hp.join_directory]
    · rw [hname, stem_append_sourceExtension hs]
    · exact fun hmem => (hp.names n (by simp)).noSlash (hn ▸ List.mem_append_left _ hmem)

theorem IsSourcePath.absolute (h : IsSourcePath p) (cwd : Text) : absolute cwd p = p := by
  rw [Path.absolute, if_pos h.isAbsolute, h.normal]

end Path

namespace Configuration

variable {c : Configuration} {cwd dir d p q : Text} {flags : Flags} {file : Text → File}

-- ---------------------------------------------------------------------------
-- Directories of a loaded configuration
-- ---------------------------------------------------------------------------

theorem setting?_map_normalize (o : Option Text) (f : Text → Text) :
    setting? (o.map fun d => normalize (f d)) = o.map fun d => normalize (f d) := by
  cases o with
  | none => rfl
  | some d =>
    obtain ⟨x, r, hx⟩ := List.exists_cons_of_ne_nil (normalize_ne_nil (f d))
    simp [hx, setting?]

theorem setting?_outDir (h : load cwd dir flags file = .ok c) : setting? c.outDir = c.outDir := by
  obtain ⟨c₀, -, rfl⟩ := exists_of_load h
  exact setting?_map_normalize ..

theorem exists_denotes_root (hcwd : isAbsolute cwd = true) (h : load cwd dir flags file = .ok c) :
    ∃ place, Denotes c.root place := by
  have hsource := denotes_absolute hcwd dir
  rw [← (isLoaded h).sourceDir] at hsource
  obtain ⟨c₀, -, rfl⟩ := exists_of_load h
  simp only [root, anchor, setting?_map_normalize]
  cases (c₀.applyFlags flags).rootDir with
  | none => exact ⟨_, hsource⟩
  | some r => exact ⟨_, denotes_normalize (isAbsolute_join hsource.isAbsolute r)⟩

-- ---------------------------------------------------------------------------
-- Staying below
-- ---------------------------------------------------------------------------

/-- With an output directory, an output is a file below it. The directories in between lead to it as
they lead from the root directory to the source, and there are none when the source lies outside. -/
theorem outputPath_staysBelow (hcwd : isAbsolute cwd = true)
    (hload : load cwd dir flags file = .ok c) (hout : c.outDir = some d) (path : Text) :
    ∃ (down : List Text) (name : Text),
      c.outputPath cwd path outputExtension = (down ++ [name]).foldl join d ∧
      (∀ part ∈ down, IsFileName part) ∧ IsFileName name ∧ outputExtension <:+ name ∧
      let place := resolve cwd (directory (absolute cwd path))
      (place = resolve cwd c.root ++ down ∨ ¬resolve cwd c.root <+: place ∧ down = []) := by
  have hname : IsFileName (stem (fileName path) ++ outputExtension) :=
    isFileName_output (not_mem_fileName path)
  have hset : setting? c.outDir = some d := (setting?_outDir hload).trans hout
  obtain ⟨top, htop⟩ := exists_denotes_outDir (isLoaded hload) hcwd hset
  by_cases hinside : resolve cwd c.root <+: resolve cwd (directory (absolute cwd path))
  · obtain ⟨down, hdown⟩ := hinside
    refine ⟨down, _, outputPath_below htop hset hdown.symm, ?_, hname, List.suffix_append .., ?_⟩
    · intro part hpart
      exact isFileName_of_mem_resolve (hdown ▸ List.mem_append_right _ hpart)
    · exact .inl hdown.symm
  · refine ⟨[], _, outputPath_outside hset hinside, ?_, hname, List.suffix_append .., ?_⟩
    · simp
    · exact .inr ⟨hinside, rfl⟩

/-- A doubled slash in front, a detour and a directory above the sources. -/
theorem outputPath_staysBelow_detour :
    let flags : Flags := { rootDir := some "..", outDir := some "build" }
    let d : Text := "/work/proj/build"
    let path : Text := "//work/proj/..//lib/./..x/Main.peak"
    isAbsolute "/work" = true ∧ ∃ c, load "/work" "proj" flags (fun _ => .absent) = .ok c ∧
      c.outDir = some d ∧ ∃ (down : List Text) (name : Text),
        c.outputPath "/work" path outputExtension = (down ++ [name]).foldl join d ∧
        (∀ part ∈ down, IsFileName part) ∧ IsFileName name ∧ outputExtension <:+ name ∧
        let place := resolve "/work" (directory (absolute "/work" path))
        (place = resolve "/work" c.root ++ down ∨ ¬resolve "/work" c.root <+: place ∧ down = []) := by
  intro flags d path
  have hload : load "/work" "proj" flags (fun _ => .absent) = .ok
      { sourceDir := "/work/proj", rootDir := some "/work", outDir := some d } := by rfl
  exact ⟨rfl, _, hload, rfl, outputPath_staysBelow rfl hload rfl path⟩

-- ---------------------------------------------------------------------------
-- Telling sources apart
-- ---------------------------------------------------------------------------

theorem isFileName_stem_output {s : Text} (h : '/' ∉ s) : IsFileName (s ++ outputExtension) :=
  isFileName_append h (by decide) (by decide)

theorem eq_of_outputPath_beside (hout : setting? c.outDir = none) (hp : IsSourcePath p)
    (hq : IsSourcePath q)
    (h : c.outputPath cwd p outputExtension = c.outputPath cwd q outputExtension) : p = q := by
  obtain ⟨s, place, hplace, hps, hs, hslash⟩ := hp.exists_stem
  obtain ⟨t, place', hplace', hqt, ht, hslash'⟩ := hq.exists_stem
  simp only [outputPath, hout, hs, ht] at h
  obtain ⟨hdirectory, hname⟩ := hplace.join_inj hplace' (isFileName_stem_output hslash)
    (isFileName_stem_output hslash') h
  rw [hps, hqt, hdirectory, List.append_cancel_right hname]

theorem eq_of_outputPath_below {top root : List Text} (htop : Denotes d top)
    (hroot : Denotes c.root root) (hout : setting? c.outDir = some d) (hp : IsSourcePath p)
    (hq : IsSourcePath q) (hpbelow : IsBelow c.root (directory p))
    (hqbelow : IsBelow c.root (directory q))
    (h : c.outputPath cwd p outputExtension = c.outputPath cwd q outputExtension) : p = q := by
  obtain ⟨s, -, -, hps, hs, hslash⟩ := hp.exists_stem
  obtain ⟨t, -, -, hqt, ht, hslash'⟩ := hq.exists_stem
  obtain ⟨down, hdown, hpdir⟩ := hpbelow
  obtain ⟨down', hdown', hqdir⟩ := hqbelow
  have hway {p : Text} {down : List Text} (hp : IsSourcePath p)
      (hdown : ∀ part ∈ down, IsFileName part) (hdir : directory p = down.foldl join c.root) :
      resolve cwd (directory (absolute cwd p)) = resolve cwd c.root ++ down := by
    rw [hp.absolute, hdir, (hroot.foldl_join hdown).1.resolve, hroot.resolve]
  rw [outputPath_below htop hout (hway hp hdown hpdir), hs,
    outputPath_below htop hout (hway hq hdown' hqdir), ht] at h
  -- both are ways down from the output directory
  have hparts {s : Text} {down : List Text} (hs : '/' ∉ s)
      (hdown : ∀ part ∈ down, IsFileName part) :
      ∀ part ∈ down ++ [s ++ outputExtension], IsFileName part := by
    simpa [or_imp, forall_and] using ⟨hdown, isFileName_stem_output hs⟩
  have hplaces := (htop.foldl_join (hparts hslash hdown)).1.place_unique
    (h ▸ (htop.foldl_join (hparts hslash' hdown')).1)
  obtain ⟨hdowns, hname⟩ := List.append_inj' (List.append_cancel_left hplaces) rfl
  rw [hps, hqt, hpdir, hqdir, hdowns, List.append_cancel_right (List.singleton_inj.mp hname)]

/-- Two sources have two outputs. With an output directory this needs that both lie below the root
directory. -/
theorem outputPath_ne (hcwd : isAbsolute cwd = true) (hload : load cwd dir flags file = .ok c)
    (hp : IsSourcePath p) (hq : IsSourcePath q)
    (hbelow : c.outDir ≠ none → IsBelow c.root (directory p) ∧ IsBelow c.root (directory q))
    (hne : p ≠ q) :
    c.outputPath cwd p outputExtension ≠ c.outputPath cwd q outputExtension := by
  intro h
  refine hne ?_
  have hset := setting?_outDir hload
  cases hout : c.outDir with
  | none => exact eq_of_outputPath_beside (hset.trans hout) hp hq h
  | some d =>
    obtain ⟨hpbelow, hqbelow⟩ := hbelow (by simp [hout])
    obtain ⟨top, htop⟩ := exists_denotes_outDir (isLoaded hload) hcwd (hset.trans hout)
    obtain ⟨root, hroot⟩ := exists_denotes_root hcwd hload
    exact eq_of_outputPath_below htop hroot (hset.trans hout) hp hq hpbelow hqbelow h

/-- Two files of one name, one of them in a directory whose name begins with dots. -/
theorem outputPath_ne_namesakes :
    let flags : Flags := { outDir := some "build" }
    let p : Text := "/work/proj/a/Main.peak"
    let q : Text := "/work/proj/..a/Main.peak"
    isAbsolute "/work" = true ∧ IsSourcePath p ∧ IsSourcePath q ∧ p ≠ q ∧
      ∃ c, load "/work" "proj" flags (fun _ => .absent) = .ok c ∧ c.outDir ≠ none ∧
        IsBelow c.root (directory p) ∧ IsBelow c.root (directory q) ∧
        c.outputPath "/work" p outputExtension ≠ c.outputPath "/work" q outputExtension := by
  intro flags p q
  have hload : load "/work" "proj" flags (fun _ => .absent) = .ok
      { sourceDir := "/work/proj", outDir := some "/work/proj/build" } := by rfl
  have hsource {p : Text} (habsolute : isAbsolute p = true) (hnormal : normalize p = p)
      (hname : fileName p = "Main.peak") : IsSourcePath p :=
    ⟨habsolute, hnormal, "Main", hname, 'M', by decide, by decide⟩
  have hp : IsSourcePath p := hsource rfl (by decide) (by decide)
  have hq : IsSourcePath q := hsource rfl (by decide) (by decide)
  have hpbelow : IsBelow "/work/proj" (directory p) := ⟨["a"], by decide, by decide⟩
  have hqbelow : IsBelow "/work/proj" (directory q) := ⟨["..a"], by decide, by decide⟩
  have hne : p ≠ q := by decide
  exact ⟨rfl, hp, hq, hne, _, hload, nofun, hpbelow, hqbelow,
    outputPath_ne rfl hload hp hq (fun _ => ⟨hpbelow, hqbelow⟩) hne⟩

end Configuration

end Monomorph
