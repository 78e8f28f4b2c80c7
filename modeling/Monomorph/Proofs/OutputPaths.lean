import Monomorph.Proofs.PathLaws
import Monomorph.Proofs.WorkList
import Mathlib.Data.List.Nodup

/-!
# Output paths

Where outputs go when each is written beside its source. Files are told apart by their paths
without the source extension, and classes by the directory of their template and their concrete
name. Concrete names have nothing between their parts, so two classes can share one, and a class
can have the name of a file. Apart from that no two outputs go to one place
(`nodup_paths_iff`).
-/

namespace Monomorph

-- ---------------------------------------------------------------------------
-- The last component of a path
-- ---------------------------------------------------------------------------

namespace Text

variable {b : Text} {c : Char}

theorem not_mem_of_all_isNameChar (hb : b.all isNameChar = true) (hc : isNameChar c = false) :
    c ∉ b := by
  intro h
  rw [List.all_eq_true.mp hb c h] at hc
  cases hc

end Text

namespace Path

open Text

theorem base_directory (p : Text) :
    (directory p).all (· == '/') = true ∧ base (directory p) = directory p ∨
      (directory p).all (· == '/') = false ∧ base (directory p) = directory p ++ ['/'] := by
  have hlast : (directory p).all (· == '/') = true ∨ (directory p).getLast? ≠ some '/' := by
    simp only [directory]
    split
    · rename_i h
      exact .inl h
    · refine .inr fun h => ?_
      rw [List.getLast?_reverse] at h
      have := List.head?_dropWhile_not (· == '/') (throughLast '/' p).reverse
      rw [h] at this
      simp at this
  cases hall : (directory p).all (· == '/') with
  | true =>
    refine .inl ⟨rfl, if_pos ?_⟩
    cases hd : (directory p).getLast? with
    | none => exact .inl (List.getLast?_eq_none_iff.mp hd)
    | some c =>
      have hc := List.all_eq_true.mp hall c (List.mem_of_getLast? hd)
      exact .inr (by rw [beq_iff_eq.mp hc])
  | false =>
    refine .inr ⟨rfl, if_neg ?_⟩
    rintro (hnil | hd)
    · rw [hnil] at hall
      cases hall
    · rcases hlast with h | h
      · rw [h] at hall
        cases hall
      · exact h hd

theorem base_directory_inj {p q : Text} (h : base (directory p) = base (directory q)) :
    directory p = directory q := by
  rcases base_directory p with ⟨hp, hbp⟩ | ⟨hp, hbp⟩ <;>
    rcases base_directory q with ⟨hq, hbq⟩ | ⟨hq, hbq⟩ <;> rw [hbp, hbq] at h
  · exact h
  · rw [h, List.all_append, hq] at hp
    cases hp
  · rw [← h, List.all_append, hp] at hq
    cases hq
  · exact List.append_cancel_right h

theorem isAbsolute_of_isName {n : Text} (hn : n.isName = true) : isAbsolute n = false := by
  obtain ⟨c, r, rfl, hc, -⟩ := isName_iff.mp hn
  simp only [isAbsolute, List.head?_cons, beq_eq_false_iff_ne]
  rintro ⟨⟩
  exact absurd hc (by decide)

theorem slash_not_mem_of_isName {n : Text} (hn : n.isName = true) : '/' ∉ n :=
  not_mem_of_all_isNameChar (all_isNameChar_of_isName hn) (by decide)

theorem join_append (d : Text) {n : Text} (hn : n.isName = true) (x : Text) :
    join d n ++ x = join d (n ++ x) := by
  have hx : isAbsolute (n ++ x) = false := by
    obtain ⟨c, r, rfl, -⟩ := isName_iff.mp hn
    exact (isAbsolute_of_isName hn : isAbsolute (c :: r) = false)
  rw [join_eq_base d (isAbsolute_of_isName hn), join_eq_base d hx, List.append_assoc]

theorem join_directory_inj {p q m n : Text} (hm : m.isName = true) (hn : n.isName = true)
    (h : join (directory p) m = join (directory q) n) : directory p = directory q ∧ m = n := by
  rw [join_eq_base _ (isAbsolute_of_isName hm), join_eq_base _ (isAbsolute_of_isName hn)] at h
  have hname := congrArg (afterLast '/') h
  rw [afterLast_base_append _ (slash_not_mem_of_isName hm),
    afterLast_base_append _ (slash_not_mem_of_isName hn)] at hname
  subst hname
  exact ⟨base_directory_inj (List.append_cancel_right h), rfl⟩

end Path

-- ---------------------------------------------------------------------------
-- Paths beside the source
-- ---------------------------------------------------------------------------

def beside : Resolver := fun path => .ok (besideSource path)

theorem besideSource_append (y : Text) :
    besideSource (y ++ sourceExtension) = y ++ outputExtension := by
  rw [besideSource, if_pos (List.isSuffixOf_iff_suffix.mpr (List.suffix_append ..)),
    List.length_append, Nat.add_sub_cancel, List.take_left]

theorem besideSource_of_not_suffix {y : Text} (hy : ¬sourceExtension <:+ y) :
    besideSource y = y ++ outputExtension := by
  rw [besideSource, if_neg fun h => hy (List.isSuffixOf_iff_suffix.mp h)]

theorem besideSource_eq_iff {q y : Text} : besideSource q = y ++ outputExtension ↔
    q = y ++ sourceExtension ∨ q = y ∧ ¬sourceExtension <:+ y := by
  constructor
  · intro h
    by_cases hq : sourceExtension <:+ q
    · obtain ⟨z, rfl⟩ := hq
      rw [besideSource_append, List.append_left_inj] at h
      exact .inl (by rw [h])
    · rw [besideSource_of_not_suffix hq, List.append_left_inj] at h
      exact .inr ⟨h, h ▸ hq⟩
  · rintro (rfl | ⟨rfl, hq⟩)
    · exact besideSource_append y
    · exact besideSource_of_not_suffix hq

theorem besideSource_inj_iff {q r : Text} : besideSource q = besideSource r ↔ q = r ∨
    q = r ++ sourceExtension ∧ ¬sourceExtension <:+ r ∨
    r = q ++ sourceExtension ∧ ¬sourceExtension <:+ q := by
  by_cases hr : sourceExtension <:+ r
  · obtain ⟨y, rfl⟩ := hr
    rw [besideSource_append, besideSource_eq_iff]
    simp only [List.suffix_append, not_true_eq_false, and_false, false_or, List.append_left_inj]
    exact or_congr_right ⟨fun ⟨h, hy⟩ => ⟨h.symm, h ▸ hy⟩, fun ⟨h, hq⟩ => ⟨h.symm, h ▸ hq⟩⟩
  · rw [besideSource_of_not_suffix hr, besideSource_eq_iff]
    constructor
    · rintro (rfl | ⟨rfl, -⟩)
      · exact .inr (.inl ⟨rfl, hr⟩)
      · exact .inl rfl
    · rintro (rfl | ⟨rfl, -⟩ | ⟨rfl, -⟩)
      · exact .inr ⟨rfl, hr⟩
      · exact .inl rfl
      · exact absurd (List.suffix_append ..) hr

namespace Expansion

open Text Monomorph.Path

def home (p : Program) (e : TypeExpr) : Text :=
  ((p.templates.get? e.name).map fun t => directory t.2.path).getD []

theorem exists_directory_home (p : Program) (e : TypeExpr) : ∃ q, home p e = directory q := by
  unfold home
  cases p.templates.get? e.name with
  | none => exact ⟨[], rfl⟩
  | some t => exact ⟨t.2.path, rfl⟩

variable {s : Snapshot} {p : Program} {extension : Text}

theorem isName_mangle_of_mem_classes (hp : p.Scanned) {m : Made}
    (hm : m ∈ classes p beside extension) : m.expr.mangle.isName = true := by
  obtain ⟨_, _, n, -, -, -, hdist, -⟩ := content_of_mem_classes hp hm
  exact (hdist.1.wellFormed hp).isName_mangle

theorem path_of_mem_classes (hp : p.Scanned) {m : Made} (hm : m ∈ classes p beside extension) :
    m.path = join (home p m.expr) m.expr.mangle ++ outputExtension := by
  obtain ⟨t, f, n, hg, hpath, -⟩ := content_of_mem_classes hp hm
  have hname := isName_mangle_of_mem_classes hp hm
  have hhome : home p m.expr = directory f.path := by rw [home, hg]; rfl
  rw [hpath, hhome, ← besideSource_append, join_append _ hname]
  rfl

theorem filterMap_path_fileOutcome (p : Program) :
    (p.files.map (fileOutcome p beside)).filterMap Outcome.path? =
      ((p.files.filter (!·.isTemplateFile)).map fun f => f.path).map besideSource := by
  induction p.files with
  | nil => rfl
  | cons f fs ih =>
    rw [List.map_cons]
    cases hf : f.isTemplateFile with
    | true =>
      have hnone : (fileOutcome p beside f).path? = none := by simp [fileOutcome, hf, Outcome.path?]
      rw [List.filter_cons_of_neg (by simp [hf]), List.filterMap_cons_none hnone, ih]
    | false =>
      rw [List.filter_cons_of_pos (by simp [hf]), List.map_cons, List.map_cons, ← ih]
      refine List.filterMap_cons_some ?_
      simp [fileOutcome, hf, beside, Outcome.path?]

theorem nodup_exprs (p : Program) (extension : Text) :
    ((classes p beside extension).map fun m => m.expr).Nodup := by
  have h : ((classes p beside extension).map fun m => m.expr.render).Nodup :=
    (nodup_makeClasses (maxDepth + 1) [] (roots p)).1
  exact .of_map TypeExpr.render (by rwa [List.map_map])

theorem nodup_filePaths_iff {qs : List Text} (hqs : qs.Nodup) :
    (qs.map besideSource).Nodup ↔
      ∀ q ∈ qs, ∀ r ∈ qs, q = r ++ sourceExtension → sourceExtension <:+ r := by
  rw [List.nodup_map_iff_inj_on hqs]
  simp only [besideSource_inj_iff]
  constructor
  · intro h q hq r hr heq
    by_contra hsuffix
    have hqr := h q hq r hr (.inr (.inl ⟨heq, hsuffix⟩))
    rw [hqr, List.self_eq_append_right] at heq
    cases heq
  · rintro h q hq r hr (heq | ⟨heq, hn⟩ | ⟨heq, hn⟩)
    · exact heq
    · exact absurd (h q hq r hr heq) hn
    · exact absurd (h r hr q hq heq) hn

theorem nodup_classPaths_iff (hp : p.Scanned) :
    ((classes p beside extension).map fun m => m.path).Nodup ↔
      ∀ m ∈ classes p beside extension, ∀ m' ∈ classes p beside extension,
        home p m.expr = home p m'.expr → m.expr.mangle = m'.expr.mangle → m.expr = m'.expr := by
  have hinj := List.inj_on_of_nodup_map (nodup_exprs p extension)
  rw [List.nodup_map_iff_inj_on (nodup_exprs p extension).of_map]
  constructor
  · intro h m hm m' hm' hhome hmangle
    rw [h m hm m' hm' (by
      rw [path_of_mem_classes hp hm, path_of_mem_classes hp hm', hhome, hmangle])]
  · intro h m hm m' hm' hpath
    rw [path_of_mem_classes hp hm, path_of_mem_classes hp hm', List.append_left_inj] at hpath
    obtain ⟨q, hq⟩ := exists_directory_home p m.expr
    obtain ⟨r, hr⟩ := exists_directory_home p m'.expr
    rw [hq, hr] at hpath
    obtain ⟨hdir, hmangle⟩ := join_directory_inj (isName_mangle_of_mem_classes hp hm)
      (isName_mangle_of_mem_classes hp hm') hpath
    exact hinj hm hm' (h m hm m' hm' (by rw [hq, hr, hdir]) hmangle)

theorem not_suffix_join (d : Text) {n : Text} (hn : n.isName = true) :
    ¬sourceExtension <:+ join d n := by
  rintro ⟨y, hy⟩
  have hlast := congrArg (afterLast '/') hy
  rw [afterLast_append (by decide), join_eq_base d (isAbsolute_of_isName hn),
    afterLast_base_append d (slash_not_mem_of_isName hn)] at hlast
  have hdot : '.' ∉ n := not_mem_of_all_isNameChar (all_isNameChar_of_isName hn) (by decide)
  rw [← hlast] at hdot
  exact hdot (List.mem_append_right _ (by decide))

theorem besideSource_eq_path_iff (hp : p.Scanned) {m : Made} (hm : m ∈ classes p beside extension)
    {q : Text} : besideSource q = m.path ↔ q = join (home p m.expr) m.expr.mangle ∨
      q = join (home p m.expr) m.expr.mangle ++ sourceExtension := by
  have hname := isName_mangle_of_mem_classes hp hm
  rw [path_of_mem_classes hp hm, besideSource_eq_iff]
  constructor
  · rintro (heq | ⟨heq, -⟩)
    · exact .inr heq
    · exact .inl heq
  · rintro (heq | heq)
    · exact .inr ⟨heq, not_suffix_join _ hname⟩
    · exact .inl heq

theorem nodup_sourcePaths (hkeys : s.files.keys.Nodup) (h : Program.scan s = .ok p) :
    ((p.files.filter (!·.isTemplateFile)).map fun f => f.path).Nodup := by
  have hordered : (s.ordered.map Prod.fst).Nodup :=
    ((List.mergeSort_perm ..).map Prod.fst).nodup_iff.mpr hkeys
  rw [← Program.map_path_files h] at hordered
  exact hordered.sublist (List.filter_sublist.map _)

theorem filterMap_path_run (h : Program.scan s = .ok p) (extension : Text) :
    (run s beside extension).filterMap Outcome.path? =
      ((p.files.filter (!·.isTemplateFile)).map fun f => f.path).map besideSource ++
        (classes p beside extension).map fun m => m.path := by
  have hrun : run s beside extension =
      p.files.map (fileOutcome p beside) ++ (classes p beside extension).map Made.outcome := by
    rw [run, h]
    rfl
  rw [hrun, List.filterMap_append, filterMap_path_fileOutcome, List.filterMap_map]
  exact congrArg _ (congrFun List.filterMap_eq_map _)

/-- The places where two outputs of a program could meet, none of them taken twice. -/
structure NoClash (p : Program) (exprs : List TypeExpr) : Prop where
  /-- No file has the path of another up to the source extension. -/
  files : ∀ f ∈ p.files, ∀ g ∈ p.files, f.isTemplateFile = false → g.isTemplateFile = false →
    f.path = g.path ++ sourceExtension → sourceExtension <:+ g.path
  /-- No two instances of templates in one directory have one concrete name. -/
  classes : ∀ e ∈ exprs, ∀ x ∈ exprs, home p e = home p x → e.mangle = x.mangle → e = x
  /-- No file in the directory of a template has the concrete name of an instance. -/
  fileAndClass : ∀ f ∈ p.files, f.isTemplateFile = false → ∀ e ∈ exprs,
    f.path ≠ join (home p e) e.mangle ∧ f.path ≠ join (home p e) e.mangle ++ sourceExtension

/-- The outputs of a program go to different places exactly when no two of them have a name in
common. -/
theorem nodup_paths_iff (hkeys : s.files.keys.Nodup) (h : Program.scan s = .ok p)
    (extension : Text) :
    ((run s beside extension).filterMap Outcome.path?).Nodup ↔
      NoClash p ((classes p beside extension).map fun m => m.expr) := by
  have hp := Program.scanned h
  have hmem {q : Text} : q ∈ (p.files.filter (!·.isTemplateFile)).map (fun f => f.path) ↔
      ∃ f ∈ p.files, f.isTemplateFile = false ∧ f.path = q := by
    simp [and_assoc]
  rw [filterMap_path_run h, List.nodup_append, nodup_filePaths_iff (nodup_sourcePaths hkeys h),
    nodup_classPaths_iff hp]
  constructor
  · rintro ⟨hff, hcc, hfc⟩
    refine ⟨fun f hf g hg hft hgt => ?_, fun e he x hx => ?_, fun f hf hft e he => ?_⟩
    · exact hff _ (hmem.mpr ⟨f, hf, hft, rfl⟩) _ (hmem.mpr ⟨g, hg, hgt, rfl⟩)
    · obtain ⟨m, hm, rfl⟩ := List.mem_map.mp he
      obtain ⟨m', hm', rfl⟩ := List.mem_map.mp hx
      exact hcc m hm m' hm'
    · obtain ⟨m, hm, rfl⟩ := List.mem_map.mp he
      have hne := hfc _ (List.mem_map_of_mem (hmem.mpr ⟨f, hf, hft, rfl⟩)) _
        (List.mem_map_of_mem hm)
      rwa [Ne, besideSource_eq_path_iff hp hm, not_or] at hne
  · rintro ⟨hff, hcc, hfc⟩
    refine ⟨fun q hq r hr => ?_, fun m hm m' hm' => ?_, fun a ha b hb => ?_⟩
    · obtain ⟨f, hf, hft, rfl⟩ := hmem.mp hq
      obtain ⟨g, hg, hgt, rfl⟩ := hmem.mp hr
      exact hff f hf g hg hft hgt
    · exact hcc _ (List.mem_map_of_mem hm) _ (List.mem_map_of_mem hm')
    · obtain ⟨q, hq, rfl⟩ := List.mem_map.mp ha
      obtain ⟨f, hf, hft, rfl⟩ := hmem.mp hq
      obtain ⟨m, hm, rfl⟩ := List.mem_map.mp hb
      rw [Ne, besideSource_eq_path_iff hp hm, not_or]
      exact hfc f hf hft _ (List.mem_map_of_mem hm)

-- ---------------------------------------------------------------------------
-- Outputs that meet
-- ---------------------------------------------------------------------------

theorem exists_class_of_root (hp : p.Scanned) {e : TypeExpr} (he : e ∈ roots p)
    (hk : p.known e.name = true) (resolver : Resolver) (extension : Text) :
    ∃ m ∈ classes p resolver extension, m.expr = e := by
  refine (exists_mem_classes hp).mpr ⟨hk, 0, Nat.zero_le _, .root he, ?_⟩
  exact fun n hn => absurd hn (Nat.not_lt_zero n)

theorem exists_class_of_usage (hp : p.Scanned) {e : TypeExpr} (hu : e ∈ p.usages.values)
    (hk : p.known e.name = true) (resolver : Resolver) (extension : Text) :
    ∃ m ∈ classes p resolver extension, m.expr = e :=
  exists_class_of_root hp (mem_roots.mpr (.inl hu)) hk resolver extension

/-- A class with the concrete name of the file that uses it. -/
theorem nodup_paths_iff_namesake :
    let s : Snapshot :=
      { files := ⟨[("A.peak", "class A<T> {}"), ("AB.peak", "class AB { A<B> x; }")]⟩ }
    s.files.keys.Nodup ∧ ∃ p, Program.scan s = .ok p ∧
      ¬NoClash p ((classes p beside outputExtension).map fun m => m.expr) ∧
      ¬((run s beside outputExtension).filterMap Outcome.path?).Nodup := by
  intro s
  have hkeys : s.files.keys.Nodup := by decide
  have hordered : s.ordered = s.files.entries := List.mergeSort_of_pairwise (by decide +kernel)
  obtain ⟨p, h, hknown, hhome, husages, f, hf, hft, hpath⟩ : ∃ p, Program.scan s = .ok p ∧
      p.known "A" = true ∧ home p ⟨"A", [⟨"B", []⟩]⟩ = [] ∧
      p.usages.values = [⟨"A", [⟨"B", []⟩]⟩] ∧
      ∃ f ∈ p.files, f.isTemplateFile = false ∧ f.path = "AB.peak".toList := by
    refine Program.exists_ok_of_decide ?_
    rw [Program.scan, hordered, Program.withMethods_eq]
    decide +kernel
  have hclash : ¬NoClash p ((classes p beside outputExtension).map fun m => m.expr) := by
    intro hno
    obtain ⟨m, hm, he⟩ := exists_class_of_usage (Program.scanned h)
      (by rw [husages]; exact List.mem_singleton_self _) hknown beside outputExtension
    have hne := (hno.fileAndClass f hf hft m.expr (List.mem_map_of_mem hm)).2
    rw [he, hhome, hpath] at hne
    exact hne rfl
  exact ⟨hkeys, p, h, hclash, fun hnodup => hclash ((nodup_paths_iff hkeys h _).mp hnodup)⟩

/-- Two instances with one concrete name. -/
theorem exists_clash :
    let s : Snapshot :=
      { files := ⟨[("T.peak", "class A<T> {} class AB<T> {}"),
        ("U.peak", "class U { A<BC> x; AB<C> y; }")]⟩ }
    s.files.keys.Nodup ∧ (∃ p, Program.scan s = .ok p) ∧
      ¬((run s beside outputExtension).filterMap Outcome.path?).Nodup := by
  intro s
  have hordered : s.ordered = s.files.entries := List.mergeSort_of_pairwise (by decide +kernel)
  obtain ⟨p, h, hknown, hhome, husages⟩ : ∃ p, Program.scan s = .ok p ∧
      (p.known "A" = true ∧ p.known "AB" = true) ∧
      home p ⟨"A", [⟨"BC", []⟩]⟩ = home p ⟨"AB", [⟨"C", []⟩]⟩ ∧
      p.usages.values = [⟨"A", [⟨"BC", []⟩]⟩, ⟨"AB", [⟨"C", []⟩]⟩] := by
    refine Program.exists_ok_of_decide ?_
    rw [Program.scan, hordered, Program.withMethods_eq]
    decide +kernel
  have hp := Program.scanned h
  refine ⟨by decide, ⟨p, h⟩, fun hnodup => ?_⟩
  rw [filterMap_path_run h] at hnodup
  have hclasses := (nodup_classPaths_iff hp).mp hnodup.of_append_right
  obtain ⟨m, hm, he⟩ := exists_class_of_usage hp (by rw [husages]; exact List.mem_cons_self ..)
    hknown.1 beside outputExtension
  obtain ⟨m', hm', he'⟩ := exists_class_of_usage hp
    (by rw [husages]; exact List.mem_cons_of_mem _ (List.mem_singleton_self _))
    hknown.2 beside outputExtension
  have heq := hclasses m hm m' hm' (by rw [he, he', hhome]) (by rw [he, he']; rfl)
  rw [he, he'] at heq
  cases heq

end Expansion

end Monomorph
