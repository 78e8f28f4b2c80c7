import Monomorph.Proofs.OutputPaths
import Monomorph.Proofs.RunReports

/-!
# Modularity

What is made of a file depends on the file, on the names of all templates and on the methods that
are forced, and what is made of an instance on the file that declares its template besides. So two
snapshots that share these agree on the output, whatever else they hold
(`Expansion.outputs_modular`).
-/

namespace Monomorph

/-- The last file, in the order of paths, that declares a template of the given name. -/
def Snapshot.declarer? (s : Snapshot) (name : Text) : Option (Text × Text) :=
  s.ordered.reverse.find? fun f => Template.isNamedIn f.2 name

theorem Table.get?_map {κ α β : Type} [BEq κ] (f : α → β) (t : Table κ α) (k : κ) :
    (t.map f).get? k = (t.get? k).map f := by
  obtain ⟨es⟩ := t
  simp only [get?, Table.map]
  induction es with
  | nil => rfl
  | cons e es ih =>
    obtain ⟨j, a⟩ := e
    rw [List.map_cons, List.lookup_cons, List.lookup_cons]
    cases k == j with
    | true => rfl
    | false => exact ih

namespace Program

variable {s : Snapshot} {p : Program}

-- ---------------------------------------------------------------------------
-- Files of a program
-- ---------------------------------------------------------------------------

theorem exists_file (h : scan s = .ok p) {f : Text × Text} (hf : f ∈ s.files.entries) :
    ∃ g ∈ p.files, SourceFile.read f.1 f.2 = .ok g := by
  have hmem : SourceFile.read f.1 f.2 ∈ p.files.map .ok := by
    rw [← map_read_files h]
    exact List.mem_map_of_mem (f := fun f => SourceFile.read f.1 f.2) (mem_ordered.mpr hf)
  obtain ⟨g, hg, heq⟩ := List.mem_map.mp hmem
  exact ⟨g, hg, heq.symm⟩

theorem exists_read (h : scan s = .ok p) {g : SourceFile} (hg : g ∈ p.files) :
    ∃ f ∈ s.files.entries, SourceFile.read f.1 f.2 = .ok g := by
  have hmem : .ok g ∈ s.ordered.map fun f => SourceFile.read f.1 f.2 := by
    rw [map_read_files h]
    exact List.mem_map_of_mem hg
  obtain ⟨f, hf, heq⟩ := List.mem_map.mp hmem
  exact ⟨f, mem_ordered.mp hf, heq⟩

theorem path_of_read {path content : Text} {g : SourceFile}
    (h : SourceFile.read path content = .ok g) : g.path = path :=
  path_of_scan (read_eq_ok_iff.mp h).1

theorem isNamedIn_of_read {path content name : Text} {g : SourceFile}
    (h : SourceFile.read path content = .ok g) :
    Template.isNamedIn content name = true ↔ ∃ t ∈ g.templates, t.className = name := by
  rw [isNamedIn_iff path, (read_eq_ok_iff.mp h).1]
  simp

theorem known_eq_declares (h : scan s = .ok p) : p.known = s.declares := by
  funext name
  rw [Bool.eq_iff_iff, known, Table.contains_iff, (scanned h).templates, Table.mem_keys_ofList,
    Snapshot.declares, List.any_eq_true]
  simp only [List.map_flatMap, List.map_map, List.mem_flatMap, List.mem_map, Function.comp_apply]
  constructor
  · rintro ⟨g, hg, t, ht, hname⟩
    obtain ⟨f, hf, hread⟩ := exists_read h hg
    exact ⟨f, hf, (isNamedIn_of_read hread).mpr ⟨t, ht, hname⟩⟩
  · rintro ⟨f, hf, hname⟩
    obtain ⟨g, hg, hread⟩ := exists_file h hf
    obtain ⟨t, ht, hname⟩ := (isNamedIn_of_read hread).mp hname
    exact ⟨g, hg, t, ht, hname⟩

theorem get?_templates (h : scan s = .ok p) {name path content : Text}
    (hlast : s.declarer? name = some (path, content)) :
    ∃ t g, SourceFile.read path content = .ok g ∧ t ∈ g.templates ∧ t.className = name ∧
      p.templates.get? name = some (t, g) := by
  obtain ⟨hname, as, bs, hrev, has⟩ := List.find?_eq_some_iff_append.mp hlast
  have hordered : s.ordered = bs.reverse ++ (path, content) :: as.reverse := by
    rw [← s.ordered.reverse_reverse, hrev]
    simp
  have hread := map_read_files h
  rw [hordered, List.map_append, List.map_cons] at hread
  obtain ⟨before, rest, hfiles, -, hrest⟩ := List.map_eq_append_iff.mp hread.symm
  obtain ⟨g, after, rfl, hg, hafter⟩ := List.map_eq_cons_iff.mp hrest
  obtain ⟨t, ht, hclass⟩ := (isNamedIn_of_read hg.symm).mp hname
  refine ⟨t, g, hg.symm, ht, hclass, ?_⟩
  obtain ⟨front, back, hsplit⟩ := List.append_of_mem ht
  -- neither the templates behind it nor the files behind its own have one of the name
  have hback : name ∉ back.map (·.className) := by
    have hnodup := nodup_classNames (read_eq_ok_iff.mp hg.symm).1
    rw [hsplit, List.map_append, List.map_cons, hclass] at hnodup
    exact (List.nodup_cons.mp hnodup.of_append_right).1
  have hlater : ∀ f ∈ after, name ∉ f.templates.map (·.className) := by
    intro f hf hmem
    have hf : .ok f ∈ as.reverse.map fun f => SourceFile.read f.1 f.2 := by
      rw [← hafter]
      exact List.mem_map_of_mem hf
    obtain ⟨x, hx, hread⟩ := List.mem_map.mp hf
    have hnot := has x (List.mem_reverse.mp hx)
    rw [(isNamedIn_of_read hread).mpr (by simpa using hmem)] at hnot
    cases hnot
  rw [(scanned h).templates]
  refine Table.lookup_of_mem (Table.nodup_keys_ofList _) (Table.mem_ofList_iff.mpr ?_)
  refine ⟨(before.flatMap fun f => f.templates.map fun t => (t.className, t, f)) ++
    front.map fun t => (t.className, t, g), (back.map fun t => (t.className, t, g)) ++
    after.flatMap fun f => f.templates.map fun t => (t.className, t, f), ?_, ?_⟩
  · rw [hfiles, List.flatMap_append, List.flatMap_cons, hsplit]
    simp [hclass]
  · simp only [List.map_append, List.map_map, List.map_flatMap, List.mem_append, not_or]
    refine ⟨hback, fun hmem => ?_⟩
    obtain ⟨f, hf, hmem⟩ := List.mem_flatMap.mp hmem
    exact hlater f hf hmem

theorem get?_methodUsages (h : scan s = .ok p) (key : Text) : p.methodUsages.get? key =
    (s.forcedMethods.get? key).map fun texts => distinctArguments (Snapshot.readable texts) := by
  obtain ⟨-, rfl⟩ := scan_eq_ok.mp h
  exact Table.get?_map ..

end Program

-- ---------------------------------------------------------------------------
-- What an expansion depends on
-- ---------------------------------------------------------------------------

namespace Expansion

/-- Programs with templates of the same names that use methods alike. -/
structure Agree (p q : Program) : Prop where
  known : p.known = q.known
  methods : ∀ key, p.methodUsages.get? key = q.methodUsages.get? key

variable {p q : Program}

theorem Agree.concreteMethods (h : Agree p q) (known : Option (Text → Bool))
    (methods : List GenericMethod) :
    concreteMethods p known methods = concreteMethods q known methods := by
  simp only [Expansion.concreteMethods, h.methods]

theorem Agree.expandFile (h : Agree p q) (f : SourceFile) : expandFile p f = expandFile q f := by
  simp only [Expansion.expandFile, h.known, h.concreteMethods]

theorem Agree.instantiate (h : Agree p q) (t : Template) (f : SourceFile) (args : List TypeExpr) :
    instantiate p t f args = instantiate q t f args := by
  simp only [Expansion.instantiate, classBody, h.known, h.concreteMethods]

theorem agree_of_snapshots {s u : Snapshot} (hp : Program.scan s = .ok p)
    (hq : Program.scan u = .ok q) (hnames : ∀ name, s.declares name = u.declares name)
    (hmethods : ∀ key, s.forcedMethods.get? key = u.forcedMethods.get? key) : Agree p q where
  known := by
    rw [Program.known_eq_declares hp, Program.known_eq_declares hq]
    exact funext hnames
  methods key := by
    rw [Program.get?_methodUsages hp, Program.get?_methodUsages hq, hmethods]

-- ---------------------------------------------------------------------------
-- Runs without problems
-- ---------------------------------------------------------------------------

variable {s u : Snapshot} {resolver resolver' : Resolver} {extension extension' : Text}

def Clean (os : List Outcome) : Prop :=
  ∀ o ∈ os, o.problem? = none

theorem Clean.exists_scan (h : Clean (run s resolver extension)) : ∃ p, Program.scan s = .ok p := by
  by_cases hproblems : s.problems = []
  · exact ⟨_, Program.scan_eq_ok.mpr ⟨hproblems, rfl⟩⟩
  · obtain ⟨o, ho⟩ := List.exists_mem_of_ne_nil _ hproblems
    obtain ⟨source, d, rfl⟩ := Program.exists_failed_of_mem_problems ho
    rw [run, Program.scan_eq, if_neg (by simpa using hproblems)] at h
    cases h _ ho

theorem mem_run_iff (h : Program.scan s = .ok p) {o : Outcome} :
    o ∈ run s resolver extension ↔ (∃ f ∈ p.files, fileOutcome p resolver f = o) ∨
      ∃ m ∈ classes p resolver extension, m.outcome = o := by
  rw [run, h]
  simp only [ofProgram, List.mem_append, List.mem_map]

theorem clean_run (h : Program.scan s = .ok p)
    (hresolver : ∀ f ∈ p.files, ∃ target, resolver f.path = .ok target) :
    Clean (run s resolver extension) := by
  intro o ho
  rcases (mem_run_iff h).mp ho with ⟨f, hf, rfl⟩ | ⟨m, -, rfl⟩
  · obtain ⟨target, htarget⟩ := hresolver f hf
    simp only [fileOutcome, htarget]
    split <;> rfl
  · rfl

theorem nodup_paths_files (hkeys : s.files.keys.Nodup) (h : Program.scan s = .ok p) :
    (p.files.map fun f => f.path).Nodup := by
  rw [Program.map_path_files h]
  exact ((List.mergeSort_perm ..).map Prod.fst).nodup_iff.mpr hkeys

theorem exists_output (hclean : Clean (run s resolver extension)) (h : Program.scan s = .ok p)
    (hkeys : s.files.keys.Nodup) {f : SourceFile} (hf : f ∈ p.files)
    (hfile : f.isTemplateFile = false) :
    (∃ target, .output (some f.path) target (expandFile p f).text ∈ run s resolver extension) ∧
      ∀ o ∈ run s resolver extension, o.source? = some f.path →
        o.content = (expandFile p f).text := by
  have hmem : fileOutcome p resolver f ∈ run s resolver extension := mem_run h hf
  obtain ⟨target, htarget⟩ : ∃ target, resolver f.path = .ok target := by
    cases hresolver : resolver f.path with
    | ok target => exact ⟨target, rfl⟩
    | error reason =>
      have hnone := hclean _ hmem
      simp [fileOutcome, hfile, hresolver, Outcome.problem?] at hnone
  have hout := fileOutcome_eq (p := p) hfile htarget
  refine ⟨⟨target, hout ▸ hmem⟩, fun o ho hsource => ?_⟩
  rcases (mem_run_iff h).mp ho with ⟨g, hg, rfl⟩ | ⟨m, -, rfl⟩
  · rw [source?_fileOutcome, Option.some.injEq] at hsource
    rw [List.inj_on_of_nodup_map (nodup_paths_files hkeys h) hg hf hsource, hout]
    rfl
  · cases hsource

-- ---------------------------------------------------------------------------
-- Two runs
-- ---------------------------------------------------------------------------

theorem exists_declarer (h : Program.scan s = .ok p) {name : Text} (hname : p.known name = true) :
    ∃ path content, s.declarer? name = some (path, content) := by
  rw [Program.known_eq_declares h, Snapshot.declares, List.any_eq_true] at hname
  obtain ⟨f, hf, hname⟩ := hname
  have hsome : (s.declarer? name).isSome := by
    rw [Snapshot.declarer?, List.find?_isSome]
    exact ⟨f, List.mem_reverse.mpr (Program.mem_ordered.mpr hf), hname⟩
  obtain ⟨⟨path, content⟩, hlast⟩ := Option.isSome_iff_exists.mp hsome
  exact ⟨path, content, hlast⟩

theorem get?_templates_eq (hp : Program.scan s = .ok p) (hq : Program.scan u = .ok q) {name : Text}
    (hname : p.known name = true) (hlast : s.declarer? name = u.declarer? name) :
    p.templates.get? name = q.templates.get? name := by
  obtain ⟨path, content, hdeclarer⟩ := exists_declarer hp hname
  obtain ⟨t, g, hg, ht, hclass, hget⟩ := Program.get?_templates hp hdeclarer
  obtain ⟨t', g', hg', ht', hclass', hget'⟩ := Program.get?_templates hq (hlast ▸ hdeclarer)
  obtain rfl := Except.ok.inj (hg.symm.trans hg')
  have hnodup := Program.nodup_classNames (Program.read_eq_ok_iff.mp hg).1
  obtain rfl := List.inj_on_of_nodup_map hnodup ht ht' (hclass.trans hclass'.symm)
  rw [hget, hget']

theorem content_eq_instantiate (hp : p.Scanned) {m : Made} (hm : m ∈ classes p resolver extension)
    (hcontent : m.content ≠ depthComment m.expr) :
    ∃ t f, p.templates.get? m.expr.name = some (t, f) ∧
      m.content = (instantiate p t f m.expr.args).text := by
  obtain ⟨t, f, n, hget, -, -, -, heq⟩ := content_of_mem_classes hp hm
  refine ⟨t, f, hget, ?_⟩
  split at heq
  · exact absurd heq hcontent
  · exact heq

theorem content_ne_of_usage (hp : p.Scanned) {m : Made} (hm : m ∈ classes p resolver extension)
    (husage : m.expr ∈ p.usages.values) : m.content ≠ depthComment m.expr := by
  obtain ⟨t, f, n, hget, -, -, hdist, heq⟩ := content_of_mem_classes hp hm
  have hroot : IsDistance p 0 m.expr :=
    ⟨.root (mem_roots.mpr (.inl husage)), fun k hk => absurd hk (Nat.not_lt_zero k)⟩
  obtain rfl := hdist.unique hroot
  rw [heq, if_neg (by decide)]
  exact text_instantiate_ne (hp.of_get? hget).1 m.expr

theorem wellFormed_of_mem_classes (hp : p.Scanned) {m : Made}
    (hm : m ∈ classes p resolver extension) : m.expr.WellFormed := by
  obtain ⟨_, _, n, -, -, -, hdist, -⟩ := content_of_mem_classes hp hm
  exact hdist.1.wellFormed hp

theorem content_eq_of_agree (hp : Program.scan s = .ok p) (hq : Program.scan u = .ok q)
    (hagree : Agree p q) {m m' : Made} (hm : m ∈ classes p resolver extension)
    (hm' : m' ∈ classes q resolver' extension') (hrender : m.expr.render = m'.expr.render)
    (hlast : s.declarer? m.expr.name = u.declarer? m.expr.name)
    (hcontent : m.content ≠ depthComment m.expr) (hcontent' : m'.content ≠ depthComment m'.expr) :
    m.content = m'.content := by
  have hexpr : m.expr = m'.expr := TypeExpr.render_inj
    (wellFormed_of_mem_classes (Program.scanned hp) hm)
    (wellFormed_of_mem_classes (Program.scanned hq) hm') hrender
  obtain ⟨t, f, hget, heq⟩ := content_eq_instantiate (Program.scanned hp) hm hcontent
  obtain ⟨t', f', hget', heq'⟩ := content_eq_instantiate (Program.scanned hq) hm' hcontent'
  have hknown := Program.known_iff.mpr ⟨t, f, hget⟩
  rw [← hexpr, ← get?_templates_eq hp hq hknown hlast, hget] at hget'
  cases hget'
  rw [heq, heq', hexpr, hagree.instantiate]

/-- Two runs without problems, of snapshots with templates of the same names and the same forced
methods: a file without templates that both hold is expanded to the same text, and an instance
whose template the same file declares last gets the same class, unless it is beyond the last level
in one of them. -/
theorem outputs_modular (hs : Clean (run s resolver extension))
    (hu : Clean (run u resolver' extension')) (hskeys : s.files.keys.Nodup)
    (hukeys : u.files.keys.Nodup) (hnames : ∀ name, s.declares name = u.declares name)
    (hmethods : ∀ key, s.forcedMethods.get? key = u.forcedMethods.get? key) :
    (∀ path content, (path, content) ∈ s.files.entries → (path, content) ∈ u.files.entries →
      Template.isIn content = false →
      ∃ text, (∃ target, .output (some path) target text ∈ run s resolver extension) ∧
        (∃ target, .output (some path) target text ∈ run u resolver' extension') ∧
        ∀ o ∈ run s resolver extension ++ run u resolver' extension',
          o.source? = some path → o.content = text) ∧
    ∃ p q, Program.scan s = .ok p ∧ Program.scan u = .ok q ∧
      ∀ m ∈ classes p resolver extension, ∀ m' ∈ classes q resolver' extension',
        m.outcome ∈ run s resolver extension ∧ m'.outcome ∈ run u resolver' extension' ∧
        (m.expr.render = m'.expr.render →
          s.declarer? m.expr.name = u.declarer? m.expr.name →
          m.content ≠ depthComment m.expr → m'.content ≠ depthComment m'.expr →
          m.content = m'.content) := by
  obtain ⟨p, hp⟩ := hs.exists_scan
  obtain ⟨q, hq⟩ := hu.exists_scan
  have hagree := agree_of_snapshots hp hq hnames hmethods
  refine ⟨fun path content hmem hmem' hfile => ?_, p, q, hp, hq, fun m hm m' hm' => ?_⟩
  · obtain ⟨f, hf, hread⟩ := Program.exists_file hp hmem
    obtain ⟨g, hg, hread'⟩ := Program.exists_file hq hmem'
    obtain rfl := Except.ok.inj (hread.symm.trans hread')
    obtain rfl := Program.path_of_read hread
    rw [Program.isIn_eq (Program.read_eq_ok_iff.mp hread).1] at hfile
    obtain ⟨hout, hall⟩ := exists_output hs hp hskeys hf hfile
    obtain ⟨hout', hall'⟩ := exists_output hu hq hukeys hg hfile
    rw [← hagree.expandFile] at hout' hall'
    exact ⟨_, hout, hout', fun o ho => (List.mem_append.mp ho).elim (hall o) (hall' o)⟩
  · exact ⟨(mem_run_iff hp).mpr (.inr ⟨m, hm, rfl⟩), (mem_run_iff hq).mpr (.inr ⟨m', hm', rfl⟩),
      content_eq_of_agree hp hq hagree hm hm'⟩

/-- Between the runs a file comes in and another template changes. -/
theorem outputs_modular_between :
    let s : Snapshot := { files := ⟨[("A.peak", "class A { Box<B> b; }"),
      ("Box.peak", "class Box<T> { T x; Pair<T> y; }"), ("Pair.peak", "class Pair<T> { T a; }")]⟩ }
    let u : Snapshot := { files := ⟨[("A.peak", "class A { Box<B> b; }"),
      ("Box.peak", "class Box<T> { T x; Pair<T> y; }"),
      ("C.peak", "class C { Box<Box<B>> c; Box<B> d; }"),
      ("Pair.peak", "class Pair<T> { Box<T> a; Box<Pair<T>> b; }")]⟩ }
    (∃ text, (∃ target, .output (some "A.peak") target text ∈ run s beside outputExtension) ∧
      ∃ target, .output (some "A.peak") target text ∈ run u beside outputExtension) ∧
    ∃ content, .output none "BoxB.cls" content ∈ run s beside outputExtension ∧
      .output none "BoxB.cls" content ∈ run u beside outputExtension := by
  intro s u
  have hs : s.ordered = s.files.entries := List.mergeSort_of_pairwise (by decide +kernel)
  have hu : u.ordered = u.files.entries := List.mergeSort_of_pairwise (by decide +kernel)
  let box : TypeExpr := ⟨"Box", [⟨"B", []⟩]⟩
  obtain ⟨p, hp, hpkeys, hphome, hpusages⟩ : ∃ p, Program.scan s = .ok p ∧
      p.templates.keys = ["Box".toList, "Pair".toList] ∧ home p box = [] ∧
      box ∈ p.usages.values := by
    refine Program.exists_ok_of_decide ?_
    rw [Program.scan, hs, Program.withMethods_eq]
    decide +kernel
  obtain ⟨q, hq, hqkeys, hqhome, hqusages⟩ : ∃ q, Program.scan u = .ok q ∧
      q.templates.keys = ["Box".toList, "Pair".toList] ∧ home q box = [] ∧
      box ∈ q.usages.values := by
    refine Program.exists_ok_of_decide ?_
    rw [Program.scan, hu, Program.withMethods_eq]
    decide +kernel
  have hknown : p.known = q.known := by
    funext name
    rw [Bool.eq_iff_iff, Program.known, Program.known, Table.contains_iff, Table.contains_iff,
      hpkeys, hqkeys]
  have hnames : s.declares = u.declares := by
    rw [← Program.known_eq_declares hp, hknown, Program.known_eq_declares hq]
  have hbox : p.known "Box" = true := Table.contains_iff.mpr (by rw [hpkeys]; decide)
  have hlast : s.declarer? "Box" = u.declarer? "Box" := by
    rw [Snapshot.declarer?, Snapshot.declarer?, hs, hu]
    decide +kernel
  have hsclean : Clean (run s beside outputExtension) :=
    clean_run hp fun f _ => ⟨besideSource f.path, rfl⟩
  have huclean : Clean (run u beside outputExtension) :=
    clean_run hq fun f _ => ⟨besideSource f.path, rfl⟩
  obtain ⟨hfiles, p', q', hp', hq', hclasses⟩ := outputs_modular hsclean huclean (by decide)
    (by decide) (fun name => congrFun hnames name) fun _ => rfl
  cases hp.symm.trans hp'
  cases hq.symm.trans hq'
  obtain ⟨m, hm, hexpr⟩ :=
    exists_class_of_usage (Program.scanned hp) hpusages hbox beside outputExtension
  obtain ⟨m', hm', hexpr'⟩ :=
    exists_class_of_usage (Program.scanned hq) hqusages (hknown ▸ hbox) beside outputExtension
  obtain ⟨hout, hout', hcontent⟩ := hclasses m hm m' hm'
  have heq := hcontent (by rw [hexpr, hexpr']) (by rw [hexpr]; exact hlast)
    (content_ne_of_usage (Program.scanned hp) hm (hexpr ▸ hpusages))
    (content_ne_of_usage (Program.scanned hq) hm' (hexpr' ▸ hqusages))
  have hpath : m.path = "BoxB.cls" := by
    rw [path_of_mem_classes (Program.scanned hp) hm, hexpr, hphome]
    rfl
  have hpath' : m'.path = "BoxB.cls" := by
    rw [path_of_mem_classes (Program.scanned hq) hm', hexpr', hqhome]
    rfl
  refine ⟨?_, m.content, hpath ▸ hout, ?_⟩
  · obtain ⟨text, hs, hu, -⟩ := hfiles "A.peak" "class A { Box<B> b; }" (by decide) (by decide)
      (by decide +kernel)
    exact ⟨text, hs, hu⟩
  · rw [heq, ← hpath']
    exact hout'

end Expansion

end Monomorph
