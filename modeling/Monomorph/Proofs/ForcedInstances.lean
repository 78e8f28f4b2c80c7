import Monomorph.Proofs.Reachability
import Monomorph.Proofs.VariableDeclarations

/-!
# Forced and written instances

An instance can be asked for in two ways: it is forced, or a file declares a variable of that type.
The second asks for the instances nested in the type as well, the first does not, and the first
takes templates that have the name of a built-in collection. Apart from that both give the same
classes (`Expansion.forced_iff_written`).
-/

namespace Monomorph

variable {e x : TypeExpr} {path : Text}

-- ---------------------------------------------------------------------------
-- What a program uses
-- ---------------------------------------------------------------------------

namespace Program

variable {s : Snapshot} {p : Program}

theorem mem_forced : x ∈ s.forced ↔ ∃ name texts, (name, texts) ∈ s.forcedClasses.entries ∧
    ∃ text ∈ texts, ∃ args, TypeExpr.readList text = .ok args ∧ x = ⟨name, args⟩ := by
  simp only [Snapshot.forced, Snapshot.readable, List.mem_flatMap, List.mem_map,
    List.mem_filterMap, Prod.exists]
  refine exists₂_congr fun name texts => and_congr_right fun _ => ?_
  constructor
  · rintro ⟨args, ⟨text, htext, hargs⟩, rfl⟩
    cases hread : TypeExpr.readList text with
    | error e => simp [hread, Except.toOption] at hargs
    | ok args' =>
      obtain rfl : args' = args := by simpa [hread, Except.toOption] using hargs
      exact ⟨text, htext, args', hread, rfl⟩
  · rintro ⟨text, htext, args, hread, rfl⟩
    exact ⟨args, ⟨text, htext, by rw [hread]; rfl⟩, rfl⟩

theorem isName_of_known (h : scan s = .ok p) {name : Text} (hname : p.known name = true) :
    name.isName = true := by
  obtain ⟨t, f, hg⟩ := known_iff.mp hname
  obtain ⟨hdeclared, rfl⟩ := (scanned h).of_get? hg
  exact hdeclared.isName

theorem wellFormed_of_forced (h : scan s = .ok p) (hx : x ∈ s.forced) : x.WellFormed := by
  obtain ⟨name, texts, hentry, text, -, args, hargs, rfl⟩ := mem_forced.mp hx
  obtain ⟨-, hclasses, -⟩ := problems_eq_nil_iff.mp (scan_eq_ok.mp h).1
  have hname := (hclasses _ hentry).1
  rw [← known_eq_declares h] at hname
  exact TypeExpr.wellFormed_mk.mpr
    ⟨isName_of_known h hname, TypeExpr.wellFormed_of_readList hargs⟩

theorem mem_values_usages (h : scan s = .ok p) : x ∈ p.usages.values ↔
    x ∈ s.forced ∨ ∃ f ∈ p.files, ∃ k, (k, x) ∈ usagesIn p.known f := by
  have husages : p.usages = .insertAllNew ∅ (s.forced.map (fun e => (e.render, e)) ++
      p.files.flatMap (usagesIn p.known)) := by
    rw [known_eq_declares h]
    obtain ⟨-, rfl⟩ := scan_eq_ok.mp h
    rfl
  have hspells : ∀ k a, (k, a) ∈ s.forced.map (fun e => (e.render, e)) ++
      p.files.flatMap (usagesIn p.known) → Spells k a := by
    intro k a hm
    rcases List.mem_append.mp hm with hm | hm
    · obtain ⟨e, he, heq⟩ := List.mem_map.mp hm
      cases heq
      exact spells_render (wellFormed_of_forced h he)
    · obtain ⟨f, -, hm⟩ := List.mem_flatMap.mp hm
      exact (isUsage_of_usagesIn hm).spells
  have hmem (k : Text) := Table.mem_insertAllNew_iff (t := (∅ : Table Text TypeExpr)) (k := k)
    (a := x) fun k a b ha hb => (hspells k a ha).unique (hspells k b hb)
  rw [Table.mem_values, husages]
  simp only [hmem, List.mem_append, List.mem_map, List.mem_flatMap, Prod.mk.injEq]
  constructor
  · rintro ⟨k, hk | ⟨-, ⟨e, he, -, rfl⟩ | ⟨f, hf, hk⟩⟩⟩
    · cases hk
    · exact .inl he
    · exact .inr ⟨f, hf, k, hk⟩
  · rintro (hx | ⟨f, hf, k, hk⟩)
    · exact ⟨x.render, .inr ⟨List.not_mem_nil, .inl ⟨x, hx, rfl, rfl⟩⟩⟩
    · exact ⟨k, .inr ⟨List.not_mem_nil, .inr ⟨f, hf, hk⟩⟩⟩

end Program

namespace Expansion

variable {s : Snapshot} {p q : Program} {f : SourceFile}

/-- A file asks for an instance when it uses it or its concrete methods need it. -/
def AsksFor (p : Program) (f : SourceFile) (x : TypeExpr) : Prop :=
  (∃ k, (k, x) ∈ Program.usagesIn p.known f) ∨
    f.isTemplateFile = false ∧ x ∈ (expandFile p f).needs

theorem Agree.asksFor (h : Agree p q) : AsksFor p f x ↔ AsksFor q f x := by
  rw [AsksFor, AsksFor, h.known, h.expandFile]

theorem mem_roots_iff (h : Program.scan s = .ok p) :
    x ∈ roots p ↔ x ∈ s.forced ∨ ∃ f ∈ p.files, AsksFor p f x := by
  simp only [mem_roots, Program.mem_values_usages h, methodNeeds, AsksFor, List.mem_flatMap,
    List.mem_filter, Bool.not_eq_true', or_assoc, and_assoc, and_or_left, exists_or]

end Expansion

-- ---------------------------------------------------------------------------
-- Forcing an instance
-- ---------------------------------------------------------------------------

/-- One more argument text for the template `name`. -/
def Snapshot.force (s : Snapshot) (name text : Text) : Snapshot :=
  { s with forcedClasses :=
    s.forcedClasses.insert name ((s.forcedClasses.get? name).getD [] ++ [text]) }

namespace Expansion

variable {s : Snapshot} {p : Program} {name text : Text} {args : List TypeExpr}

theorem exists_entry_of_mem_getD {t : Text}
    (h : t ∈ (s.forcedClasses.get? name).getD []) :
    ∃ texts, (name, texts) ∈ s.forcedClasses.entries ∧ t ∈ texts := by
  cases hold : s.forcedClasses.get? name with
  | none => simp [hold] at h
  | some old =>
    rw [hold] at h
    exact ⟨old, Table.mem_of_get? hold, h⟩

theorem mem_forced_force (hkeys : s.forcedClasses.keys.Nodup)
    (hargs : TypeExpr.readList text = .ok args) :
    x ∈ (s.force name text).forced ↔ x ∈ s.forced ∨ x = ⟨name, args⟩ := by
  simp only [Program.mem_forced, Snapshot.force, Table.mem_insert_iff hkeys]
  constructor
  · rintro ⟨n, texts, heq | ⟨hentry, -⟩, t, ht, as, has, rfl⟩
    · obtain ⟨rfl, rfl⟩ := Prod.mk.inj heq
      rcases List.mem_append.mp ht with ht | ht
      · obtain ⟨old, hentry, ht⟩ := exists_entry_of_mem_getD ht
        exact .inl ⟨n, old, hentry, t, ht, as, has, rfl⟩
      · obtain rfl := List.mem_singleton.mp ht
        obtain rfl := Except.ok.inj (has.symm.trans hargs)
        exact .inr rfl
    · exact .inl ⟨n, texts, hentry, t, ht, as, has, rfl⟩
  · rintro (⟨n, texts, hentry, t, ht, as, has, rfl⟩ | rfl)
    · by_cases hn : n = name
      · subst hn
        have hold : s.forcedClasses.get? n = some texts := Table.lookup_of_mem hkeys hentry
        exact ⟨n, _, .inl rfl, t, List.mem_append_left _ (by rwa [hold]), as, has, rfl⟩
      · exact ⟨n, texts, .inr ⟨hentry, hn⟩, t, ht, as, has, rfl⟩
    · exact ⟨name, _, .inl rfl, text, List.mem_append_right _ (List.mem_singleton_self _), args,
        hargs, rfl⟩

theorem exists_scan_force (h : Program.scan s = .ok p) (hkeys : s.forcedClasses.keys.Nodup)
    (hname : p.known name = true) (hargs : TypeExpr.readList text = .ok args) :
    ∃ q, Program.scan (s.force name text) = .ok q ∧ Alike p q ∧
      ∀ x, x ∈ roots q ↔ x ∈ roots p ∨ x = ⟨name, args⟩ := by
  obtain ⟨hproblems, hp⟩ := Program.scan_eq_ok.mp h
  obtain ⟨hfiles, hclasses, hmethods⟩ := Program.problems_eq_nil_iff.mp hproblems
  have hclasses' : ∀ e ∈ (s.force name text).forcedClasses.entries, s.declares e.1 = true ∧
      ∀ t ∈ e.2, ∃ as, TypeExpr.readList t = .ok as := by
    intro e he
    rcases Table.mem_insert he with rfl | he
    · refine ⟨by rwa [← Program.known_eq_declares h], fun t ht => ?_⟩
      rcases List.mem_append.mp ht with ht | ht
      · obtain ⟨old, hentry, ht⟩ := exists_entry_of_mem_getD ht
        exact (hclasses _ hentry).2 t ht
      · obtain rfl := List.mem_singleton.mp ht
        exact ⟨args, hargs⟩
    · exact hclasses e he
  have hq : Program.scan (s.force name text) = .ok (s.force name text).program :=
    Program.scan_eq_ok.mpr
      ⟨Program.problems_eq_nil_iff.mpr ⟨hfiles, hclasses', hmethods⟩, rfl⟩
  have hagree := agree_of_snapshots h hq (fun _ => rfl) fun _ => rfl
  have hsame : (s.force name text).program.files = p.files := by
    rw [hp]
    rfl
  refine ⟨_, hq, ⟨hagree, fun _ => by rw [hp]; rfl⟩, fun x => ?_⟩
  rw [mem_roots_iff h, mem_roots_iff hq, mem_forced_force hkeys hargs, hsame, or_right_comm]
  simp only [hagree.asksFor]

end Expansion

-- ---------------------------------------------------------------------------
-- Writing a file
-- ---------------------------------------------------------------------------

def Snapshot.write (s : Snapshot) (path content : Text) : Snapshot :=
  { s with files := s.files.insert path content }

theorem Table.entries_insert_of_not_mem {κ α : Type} [BEq κ] [LawfulBEq κ] {t : Table κ α} {k : κ}
    (h : k ∉ t.keys) (a : α) : (t.insert k a).entries = t.entries ++ [(k, a)] := by
  obtain ⟨es⟩ := t
  simp only [insert, keys] at h ⊢
  induction es with
  | nil => rfl
  | cons e es ih =>
    obtain ⟨j, b⟩ := e
    rw [List.map_cons, List.mem_cons, not_or] at h
    rw [insert.go, if_neg (by simpa using h.1), ih h.2, List.cons_append]

section Write

variable {s : Snapshot} {content : Text}

theorem Snapshot.exists_ordered_write (hkeys : s.files.keys.Nodup) (hpath : path ∉ s.files.keys)
    (content : Text) : ∃ before after, s.ordered = before ++ after ∧
      (s.write path content).ordered = before ++ (path, content) :: after := by
  have hentries : (s.write path content).files.entries = s.files.entries ++ [(path, content)] :=
    Table.entries_insert_of_not_mem hpath content
  have hmem : (path, content) ∈ (s.write path content).ordered := by
    rw [Program.mem_ordered, hentries]
    exact List.mem_append_right _ (List.mem_singleton_self _)
  obtain ⟨before, after, hsplit⟩ := List.append_of_mem hmem
  have hsorted := (s.write path content).pairwise_ble_ordered
  have hperm : (s.write path content).ordered.Perm (s.files.entries ++ [(path, content)]) :=
    hentries ▸ List.mergeSort_perm ..
  rw [hsplit] at hsorted hperm
  have hothers : (before ++ after).Perm s.files.entries :=
    (List.perm_cons _).mp ((List.perm_middle.symm.trans hperm).trans
      (List.perm_append_singleton ..))
  refine ⟨before, after, ?_, hsplit⟩
  refine ((List.mergeSort_perm ..).trans hothers.symm).eq_of_pairwise ?_ s.pairwise_ble_ordered
    (hsorted.sublist ((List.Sublist.refl before).append (List.sublist_cons_self ..)))
  -- two files with one path are one file
  intro f g hf hg hfg hgf
  exact List.inj_on_of_nodup_map hkeys (Program.mem_ordered.mp hf) (hothers.mem_iff.mp hg)
    (Text.ble_antisymm hfg hgf)

theorem Snapshot.declarer?_write (hkeys : s.files.keys.Nodup) (hpath : path ∉ s.files.keys)
    {name : Text} (hname : Template.isNamedIn content name = false) :
    (s.write path content).declarer? name = s.declarer? name := by
  obtain ⟨before, after, hordered, hwritten⟩ := s.exists_ordered_write hkeys hpath content
  rw [declarer?, declarer?, hordered, hwritten]
  simp [List.find?_append, hname]

theorem Snapshot.declares_write (hpath : path ∉ s.files.keys) {name : Text}
    (hname : Template.isNamedIn content name = false) :
    (s.write path content).declares name = s.declares name := by
  rw [declares, declares, write, Table.entries_insert_of_not_mem hpath]
  simp [hname]

theorem Snapshot.hasMethod_write (hpath : path ∉ s.files.keys) {key : Text}
    (h : s.hasMethod key = true) : (s.write path content).hasMethod key = true := by
  rw [hasMethod] at h
  rw [hasMethod, write, Table.entries_insert_of_not_mem hpath, List.any_append, h, Bool.true_or]

end Write

namespace Expansion

variable {s : Snapshot} {p : Program}

theorem exists_scan_write (h : Program.scan s = .ok p) (hkeys : s.files.keys.Nodup)
    (hpath : path ∉ s.files.keys) {content : Text} {g : SourceFile}
    (hread : SourceFile.read path content = .ok g) (htemplates : g.templates = []) :
    ∃ q, Program.scan (s.write path content) = .ok q ∧ Alike p q ∧
      ∀ x, x ∈ roots q ↔ x ∈ roots p ∨ AsksFor p g x := by
  obtain ⟨hproblems, hp⟩ := Program.scan_eq_ok.mp h
  obtain ⟨hfiles, hclasses, hmethods⟩ := Program.problems_eq_nil_iff.mp hproblems
  have hnamed (name : Text) : Template.isNamedIn content name = false := by
    rw [Bool.eq_false_iff, ne_eq, Program.isNamedIn_of_read hread, htemplates]
    simp
  have hdeclares (name : Text) : (s.write path content).declares name = s.declares name :=
    s.declares_write hpath (hnamed name)
  have hentries : (s.write path content).files.entries = s.files.entries ++ [(path, content)] :=
    Table.entries_insert_of_not_mem hpath content
  have hfiles' : ∀ f ∈ (s.write path content).files.entries,
      ∃ g, SourceFile.read f.1 f.2 = .ok g := by
    rw [hentries]
    exact List.forall_mem_append.mpr ⟨hfiles, List.forall_mem_singleton.mpr ⟨g, hread⟩⟩
  have hq : Program.scan (s.write path content) = .ok (s.write path content).program := by
    refine Program.scan_eq_ok.mpr ⟨Program.problems_eq_nil_iff.mpr ⟨hfiles', ?_, ?_⟩, rfl⟩
    · exact fun e he => ⟨(hdeclares e.1).trans (hclasses e he).1, (hclasses e he).2⟩
    · exact fun e he => ⟨s.hasMethod_write hpath (hmethods e he).1, (hmethods e he).2⟩
  have hagree := agree_of_snapshots h hq (fun name => (hdeclares name).symm) fun _ => rfl
  have hmem (f : SourceFile) : f ∈ (s.write path content).program.files ↔ f ∈ p.files ∨ f = g := by
    have hsame : f ∈ p.files ↔ f ∈ s.sourceFiles := by rw [hp]; rfl
    have hall : f ∈ (s.write path content).program.files ↔
      f ∈ (s.write path content).sourceFiles := Iff.rfl
    rw [hsame, hall, Program.mem_sourceFiles, Program.mem_sourceFiles, hentries]
    simp only [List.mem_append, List.mem_singleton, or_and_right, exists_or, exists_eq_left, hread,
      Except.ok.injEq, eq_comm]
  refine ⟨_, hq, ⟨hagree, fun name => ?_⟩, fun x => ?_⟩
  · cases hknown : p.known name with
    | true => exact get?_templates_eq h hq hknown (s.declarer?_write hkeys hpath (hnamed name)).symm
    | false =>
      have hknown' := hknown
      rw [hagree.known] at hknown'
      rw [Option.not_isSome_iff_eq_none.mp (Bool.eq_false_iff.mp hknown),
        Option.not_isSome_iff_eq_none.mp (Bool.eq_false_iff.mp hknown')]
  · have hforced : (s.write path content).forced = s.forced := rfl
    rw [mem_roots_iff h, mem_roots_iff hq, hforced]
    simp only [hmem, ← hagree.asksFor, or_and_right, exists_or, exists_eq_left, or_assoc]

theorem asksFor_asDeclaration (he : e.WellFormed) (hs : e.isSimple = false) (path : Text) :
    AsksFor p ⟨⟨path, e.asDeclaration, []⟩, []⟩ x ↔
      x ∈ e.subterms ∧ x.isInstance p.known = true := by
  have hstripped : SourceFile.stripped ⟨⟨path, e.asDeclaration, []⟩, []⟩ = e.asDeclaration := by
    rw [SourceFile.stripped, List.map_nil, Splice.cut, Splice.cut?, List.mergeSort_nil]
    rfl
  have husages : Program.usagesIn p.known ⟨⟨path, e.asDeclaration, []⟩, []⟩ =
      (Usage.findKnown p.known e.asDeclaration).entries := by
    rw [Program.usagesIn, hstripped]
    rfl
  have hneeds : (expandFile p ⟨⟨path, e.asDeclaration, []⟩, []⟩).needs = [] := rfl
  rw [AsksFor, husages, hneeds]
  simp [Usage.mem_findKnown_asDeclaration he hs]

theorem exists_scan_declaration (h : Program.scan s = .ok p) (hkeys : s.files.keys.Nodup)
    (hpath : path ∉ s.files.keys) (he : e.WellFormed) (hs : e.isSimple = false) :
    ∃ q, Program.scan (s.write path e.asDeclaration) = .ok q ∧ Alike p q ∧
      ∀ x, x ∈ roots q ↔ x ∈ roots p ∨ x ∈ e.subterms ∧ x.isInstance p.known = true := by
  obtain ⟨q, hq, halike, hroots⟩ :=
    exists_scan_write h hkeys hpath (read_asDeclaration he hs path) rfl
  refine ⟨q, hq, halike, fun x => ?_⟩
  rw [hroots, asksFor_asDeclaration he hs]

-- ---------------------------------------------------------------------------
-- Forced against written
-- ---------------------------------------------------------------------------

theorem mem_run_class_iff (h : Program.scan s = .ok p) {resolver : Resolver}
    {extension target content : Text} :
    .output none target content ∈ run s resolver extension ↔
      ∃ m ∈ classes p resolver extension, m.path = target ∧ m.content = content := by
  rw [mem_run_iff h]
  constructor
  · rintro (⟨f, -, hf⟩ | ⟨m, hm, heq⟩)
    · have hsource := source?_fileOutcome p resolver f
      rw [hf] at hsource
      cases hsource
    · cases heq
      exact ⟨m, hm, rfl, rfl⟩
  · rintro ⟨m, hm, rfl, rfl⟩
    exact .inr ⟨m, hm, rfl⟩

/-- For every snapshot that scans without errors, every template of it and every argument text
that can be read: the instance can be forced, or a new file can declare a variable of that type.
Both scan without errors. The same classes are made just when each instance nested in the
arguments adds nothing to what is forced and, where the template has the name of a built-in
collection, the instance itself adds nothing to what is written. So it is when nothing is nested
and the name is no such name. Then the generated outputs are the same. -/
theorem forced_iff_written {name text : Text} {args : List TypeExpr}
    (h : Program.scan s = .ok p) (hfiles : s.files.keys.Nodup)
    (hforced : s.forcedClasses.keys.Nodup) (hname : p.known name = true)
    (hargs : TypeExpr.readList text = .ok args) (hpath : path ∉ s.files.keys)
    (resolver : Resolver) (extension : Text) :
    ∃ q r, Program.scan (s.force name text) = .ok q ∧
      Program.scan (s.write path (TypeExpr.asDeclaration ⟨name, args⟩)) = .ok r ∧
      ((∀ m, m ∈ classes q resolver extension ↔ m ∈ classes r resolver extension) ↔
        (∀ x ∈ TypeExpr.nestedAll args, x.isInstance p.known = true → Supplies q x) ∧
          (isBuiltin name = true → Supplies r ⟨name, args⟩)) ∧
      ((∀ m, m ∈ classes q resolver extension ↔ m ∈ classes r resolver extension) →
        ∀ target content,
          .output none target content ∈ run (s.force name text) resolver extension ↔
            .output none target content ∈
              run (s.write path (TypeExpr.asDeclaration ⟨name, args⟩)) resolver extension) := by
  have he : TypeExpr.WellFormed ⟨name, args⟩ := TypeExpr.wellFormed_mk.mpr
    ⟨Program.isName_of_known h hname, TypeExpr.wellFormed_of_readList hargs⟩
  have hs : TypeExpr.isSimple ⟨name, args⟩ = false :=
    List.isEmpty_eq_false_iff.mpr (TypeExpr.ne_nil_of_readList hargs)
  obtain ⟨q, hq, hpq, hqroots⟩ := exists_scan_force h hforced hname hargs
  obtain ⟨r, hr, hpr, hrroots⟩ := exists_scan_declaration h hfiles hpath he hs
  have halike : Alike q r := hpq.symm.trans hpr
  refine ⟨q, r, hq, hr, ?_, fun heq target content => ?_⟩
  · rw [classes_eq_iff halike (Program.scanned hq) (Program.scanned hr)]
    constructor
    · rintro ⟨hwritten, hforced⟩
      refine ⟨fun x hx hi => hwritten x ((hrroots x).mpr (.inr ⟨?_, hi⟩)), fun _ => ?_⟩
      · exact List.mem_cons_of_mem _ hx
      · exact hforced _ ((hqroots _).mpr (.inr rfl))
    · rintro ⟨hnested, hbuiltin⟩
      constructor
      · intro x hx
        rcases (hrroots x).mp hx with hx | ⟨hx, hi⟩
        · exact supplies_of_mem_roots ((hqroots x).mpr (.inl hx))
        · rcases List.mem_cons.mp hx with rfl | hx
          · exact supplies_of_mem_roots ((hqroots _).mpr (.inr rfl))
          · exact hnested x hx hi
      · intro x hx
        rcases (hqroots x).mp hx with hx | rfl
        · exact supplies_of_mem_roots ((hrroots x).mpr (.inl hx))
        · cases hb : isBuiltin name with
          | true => exact hbuiltin hb
          | false =>
            have hi := TypeExpr.isInstance_iff.mpr ⟨hs, hb, hname⟩
            exact supplies_of_mem_roots
              ((hrroots _).mpr (.inr ⟨TypeExpr.self_mem_subterms _, hi⟩))
  · rw [mem_run_class_iff hq, mem_run_class_iff hr]
    simp only [heq]

/-- A built-in collection among the arguments is no instance. -/
theorem forced_iff_written_collection :
    let s : Snapshot := { files := ⟨[("Dict.peak", "class Dict<K, V> { Queue<V> values; }"),
      ("Queue.peak", "class Queue<T> { T first; }")]⟩ }
    let e : TypeExpr := ⟨"Dict", [⟨"String", []⟩, ⟨"List", [⟨"Integer", []⟩]⟩]⟩
    (∃ content, .output none "DictStringListInteger.cls" content ∈
      run (s.force "Dict" "String, List<Integer>") beside outputExtension) ∧
    ∀ target content, .output none target content ∈
        run (s.force "Dict" "String, List<Integer>") beside outputExtension ↔
      .output none target content ∈ run (s.write "Use.peak" e.asDeclaration) beside
        outputExtension := by
  intro s e
  have hordered : s.ordered = s.files.entries := List.mergeSort_of_pairwise (by decide +kernel)
  obtain ⟨p, hp, hkeys, hhome⟩ : ∃ p, Program.scan s = .ok p ∧
      p.templates.keys = ["Dict".toList, "Queue".toList] ∧ home p e = [] := by
    refine Program.exists_ok_of_decide ?_
    rw [Program.scan, hordered, Program.withMethods_eq]
    decide +kernel
  have hdict : p.known "Dict" = true := Table.contains_iff.mpr (by rw [hkeys]; decide)
  obtain ⟨_, hargs, rfl⟩ : ∃ as, TypeExpr.readList "String, List<Integer>" = .ok as ∧ as = e.args :=
    Program.exists_ok_of_decide (by decide +kernel)
  have hpath : "Use.peak".toList ∉ s.files.keys := by decide
  have hplain : ∀ x ∈ TypeExpr.nestedAll e.args,
      x.isSimple = true ∨ isBuiltin x.name = true := by decide
  obtain ⟨q, r, hq, hr, hiff, hout⟩ :=
    forced_iff_written hp (by decide) (by decide) hdict hargs hpath beside outputExtension
  refine ⟨?_, hout (hiff.mpr ⟨fun x hx hi => ?_, fun hb => ?_⟩)⟩
  · obtain ⟨q', hq', halike, hroots⟩ := exists_scan_force hp (by decide) hdict hargs
    cases hq.symm.trans hq'
    obtain ⟨m, hm, hexpr⟩ := exists_class_of_root (Program.scanned hq)
      ((hroots _).mpr (.inr rfl)) (halike.known ▸ hdict) beside outputExtension
    have htarget : m.path = "DictStringListInteger.cls" := by
      rw [path_of_mem_classes (Program.scanned hq) hm, hexpr, home, ← halike.templates, ← home,
        hhome]
      rfl
    exact ⟨m.content, (mem_run_class_iff hq).mpr ⟨m, hm, htarget, rfl⟩⟩
  · obtain ⟨hs, hb, -⟩ := TypeExpr.isInstance_iff.mp hi
    rcases hplain x hx with h | h
    · rw [hs] at h
      cases h
    · rw [hb] at h
      cases h
  · cases hb

/-- With `Box<Queue<Integer>>` forced there is no class for `Queue<Integer>`, and with a variable
of that type declared there is one. -/
theorem forced_ne_written :
    let s : Snapshot := { files := ⟨[("T.peak", "class Box<T> { } class Queue<T> { }")]⟩ }
    let e : TypeExpr := ⟨"Box", [⟨"Queue", [⟨"Integer", []⟩]⟩]⟩
    s.files.keys.Nodup ∧ (∃ p, Program.scan s = .ok p ∧ p.known "Box" = true) ∧
    TypeExpr.readList "Queue<Integer>" = .ok e.args ∧ "U.peak".toList ∉ s.files.keys ∧
    (∃ content, .output none "QueueInteger.cls" content ∈
      run (s.write "U.peak" e.asDeclaration) beside outputExtension) ∧
    ∀ content, .output none "QueueInteger.cls" content ∉
      run (s.force "Box" "Queue<Integer>") beside outputExtension := by
  intro s e
  have hordered : s.ordered = s.files.entries := List.mergeSort_of_pairwise (by decide +kernel)
  obtain ⟨p, hp, hkeys, hroots, hhome, hget⟩ : ∃ p, Program.scan s = .ok p ∧
      p.templates.keys = ["Box".toList, "Queue".toList] ∧ roots p = [] ∧
      (home p e = [] ∧ home p ⟨"Queue", [⟨"Integer", []⟩]⟩ = []) ∧
      (p.templates.get? "Box").map (fun b => (b.1.parameters, b.1.header, b.1.body,
        b.2.methods.length)) = some (["T".toList], " ".toList, "{ }".toList, 0) := by
    refine Program.exists_ok_of_decide ?_
    rw [Program.scan, hordered, Program.withMethods_eq]
    decide +kernel
  have hbox : p.known "Box" = true := Table.contains_iff.mpr (by rw [hkeys]; decide)
  have hqueue : p.known "Queue" = true := Table.contains_iff.mpr (by rw [hkeys]; decide)
  obtain ⟨_, hargs, rfl⟩ : ∃ as, TypeExpr.readList "Queue<Integer>" = .ok as ∧ as = e.args :=
    Program.exists_ok_of_decide (by decide +kernel)
  have hpath : "U.peak".toList ∉ s.files.keys := by decide
  refine ⟨by decide, ⟨p, hp, hbox⟩, hargs, hpath, ?_, ?_⟩
  · obtain ⟨r, hr, halike, hrroots⟩ :=
      exists_scan_declaration (e := e) hp (by decide) hpath (by decide) rfl
    have hroot : (⟨"Queue", [⟨"Integer", []⟩]⟩ : TypeExpr) ∈ roots r :=
      (hrroots _).mpr (.inr ⟨by decide, TypeExpr.isInstance_iff.mpr ⟨rfl, rfl, hqueue⟩⟩)
    obtain ⟨m, hm, hexpr⟩ := exists_class_of_root (Program.scanned hr) hroot
      (halike.known ▸ hqueue) beside outputExtension
    refine ⟨m.content, (mem_run_class_iff hr).mpr ⟨m, hm, ?_, rfl⟩⟩
    rw [path_of_mem_classes (Program.scanned hr) hm, hexpr, home, ← halike.templates, ← home,
      hhome.2]
    rfl
  · obtain ⟨q, hq, halike, hqroots⟩ := exists_scan_force hp (by decide) hbox hargs
    -- the class for the instance needs nothing, so it is the only one
    have hfinds (x : TypeExpr) : ¬Finds q e x := by
      intro hf
      obtain ⟨t, f, hg, hx⟩ := halike.symm.finds hf
      have hname : p.templates.get? "Box" = some (t, f) := hg
      rw [hname, Option.map_some, Option.some.injEq, Prod.mk.injEq, Prod.mk.injEq,
        Prod.mk.injEq] at hget
      obtain ⟨hparameters, hheader, hbody, hmethods⟩ := hget
      have hclass : classBody p t f = "{ }" := by
        rw [classBody, SourceFile.methodsOf, List.length_eq_zero_iff.mp hmethods, hbody]
        rfl
      have hbindings : (Instance.bindings ["T"] e.args).entries =
          [("T".toList, "Queue<Integer>".toList)] := by decide
      have hspecial : Instance.specialized t e.args "{ }" = " { }" := by
        rw [Instance.specialized, hheader, hparameters, Substitution.substitute,
          if_neg (by decide), hbindings, Text.longestFirst, List.mergeSort_singleton]
        decide +kernel
      have hnone : (Usage.find " { }").entries = [] :=
        List.isEmpty_iff.mp (by decide +kernel)
      rw [instantiate, hclass, Instance.ofTemplate, hparameters, if_neg (by decide)] at hx
      simp only [Option.getD_some, hspecial, Instance.flatten, Usage.findKnown, Table.filter,
        Table.map, Table.values, hnone, List.map_nil, List.filter_nil, List.not_mem_nil] at hx
    have honly {n : Nat} {x : TypeExpr} (hx : ReachedIn q n x) : x = e := by
      induction hx with
      | root hx =>
        rcases (hqroots _).mp hx with hx | hx
        · rw [hroots] at hx
          cases hx
        · exact hx
      | step _ hf ih =>
        rw [ih] at hf
        exact absurd hf (hfinds _)
    intro content hmem
    obtain ⟨m, hm, htarget, -⟩ := (mem_run_class_iff hq).mp hmem
    obtain ⟨-, -, n, -, -, -, hdist, -⟩ := content_of_mem_classes (Program.scanned hq) hm
    rw [path_of_mem_classes (Program.scanned hq) hm, honly hdist.1, home, ← halike.templates,
      ← home, hhome.1] at htarget
    exact absurd htarget (by decide +kernel)

end Expansion

end Monomorph
