import Monomorph.Proofs.MethodsCut
import Monomorph.Proofs.ScanLaws

/-!
# What a run reports

A run ends in one of two ways. When anything is wrong with the files or with what the configuration
asks for, it reports all of that and makes no output. Otherwise it has one outcome for every file,
in the order of paths, and then one for every class. What is wrong with a file shows in the file
alone, and each file has one problem at most (`Expansion.run_reports`).
-/

namespace Monomorph

-- ---------------------------------------------------------------------------
-- Cutting out methods
-- ---------------------------------------------------------------------------

namespace GenericMethod

variable {length : Nat} {owner s : Text} {ms : List GenericMethod} {xs : List Text}

theorem Layout.start_le_stop (h : Layout length owner s ms xs) :
    ∀ m ∈ ms, m.span.start ≤ m.span.stop := by
  induction h with
  | last => simp
  | method _ _ _ _ _ hspan _ ih =>
    refine List.forall_mem_cons.mpr ⟨?_, ih⟩
    simp only [hspan, Text.offset, List.length_append]
    omega

theorem bounds_of_find {text : Text} {start : Nat} {stop : Option Int}
    {t : Table Text GenericMethod} (h : find text owner start stop = .ok t) :
    ∀ m ∈ t.values, m.owner = owner ∧ start ≤ m.span.stop := by
  simp only [find, Text.enter_natCast] at h
  split at h
  · cases h
  · rename_i found hscan
    cases h
    obtain ⟨xs, hlayout⟩ := exists_layout hscan
    intro m hm
    have hm := Table.mem_of_mem_values_ofList hm
    refine ⟨hlayout.owner_eq m hm, ?_⟩
    by_cases hstart : start ≤ text.length
    · have hle := hlayout.offset_le m hm
      have hstop := hlayout.start_le_stop m hm
      simp only [Text.offset, List.length_drop] at hle
      omega
    · rw [List.drop_eq_nil_of_le (by omega)] at hlayout
      rw [hlayout.eq_nil.1] at hm
      cases hm

end GenericMethod

namespace Program

variable {path content : Text}

theorem bounds_of_methodsIn {content : Text} {ts : List Template} {t : Table Text GenericMethod}
    (h : Declared.methodsIn content ts = .ok t) :
    ∀ m ∈ t.values, ∃ u ∈ ts, m.owner = u.className ∧ u.bodyStart ≤ m.span.stop := by
  induction ts generalizing t with
  | nil =>
    cases h
    intro m hm
    cases hm
  | cons u ts ih =>
    simp only [Declared.methodsIn] at h
    split at h
    · cases h
    · rename_i own hown
      split at h
      · cases h
      · rename_i more hmore
        cases h
        intro m hm
        obtain ⟨k, hk⟩ := Table.mem_values.mp hm
        rcases Table.mem_insertAll hk with hk | hk
        · obtain ⟨u, hu, hm⟩ := ih hmore m (Table.mem_values.mpr ⟨k, hk⟩)
          exact ⟨u, List.mem_cons_of_mem _ hu, hm⟩
        · exact ⟨u, by simp, GenericMethod.bounds_of_find hown m (Table.mem_values.mpr ⟨k, hk⟩)⟩

theorem cut?_eq_some {text : Text} {spans : List (Int × Int)} {offset : Int}
    (h : ∀ s ∈ spans, offset ≤ s.2) :
    Splice.cut? text spans offset = some (Splice.cut text spans offset) := by
  have hsome : (Splice.cut? text spans offset).isSome := by
    refine Splice.isSome_cutFrom? text 0 _ fun s hs => ?_
    obtain ⟨span, hspan, rfl⟩ := List.mem_map.mp hs
    exact Int.sub_nonneg_of_le (h span (List.mem_mergeSort.mp hspan))
  obtain ⟨out, hout⟩ := Option.isSome_iff_exists.mp hsome
  rw [Splice.cut, hout, Option.getD_some]

theorem mem_methodTable {g : SourceFile} (h : g.toDeclared.withMethods = .ok g) :
    ∃ t, g.toDeclared.methods = .ok t ∧ ∀ m ∈ g.methods, m ∈ t.values := by
  unfold Declared.withMethods at h
  split at h
  · rename_i t ht
    refine ⟨t, ht, fun m hm => ?_⟩
    rw [← Except.ok.inj h] at hm
    exact List.mem_mergeSort.mp hm
  · cases h

theorem cut?_eq_stripped {g : SourceFile} (h : SourceFile.read path content = .ok g) :
    Splice.cut? g.content (g.methods.map (·.cutSpan)) 0 = some g.stripped ∧
      ∀ t ∈ g.templates, Splice.cut? t.body ((g.methodsOf t.className).map (·.cutSpan))
        t.bodyStart = some (g.strippedBody t) := by
  obtain ⟨hscan, hwith⟩ := read_eq_ok_iff.mp h
  obtain ⟨table, htable, hmem⟩ := mem_methodTable hwith
  constructor
  · refine cut?_eq_some fun span hspan => ?_
    obtain ⟨m, -, rfl⟩ := List.mem_map.mp hspan
    exact Int.natCast_nonneg _
  · intro t ht
    refine cut?_eq_some fun span hspan => ?_
    obtain ⟨m, hm, rfl⟩ := List.mem_map.mp hspan
    obtain ⟨hm, howner⟩ := List.mem_filter.mp hm
    -- a file with a template has no methods but those of its templates, whose names differ
    have htemplates : g.toDeclared.isTemplateFile = true := by
      simp [Declared.isTemplateFile, List.ne_nil_of_mem ht]
    rw [Declared.methods, if_pos htemplates] at htable
    obtain ⟨u, hu, hname, hstop⟩ := bounds_of_methodsIn htable m (hmem m hm)
    have htu : t = u := List.inj_on_of_nodup_map (nodup_classNames hscan) ht hu
      ((eq_of_beq howner).symm.trans hname)
    rw [htu]
    exact Int.ofNat_le.mpr hstop

end Program

-- ---------------------------------------------------------------------------
-- The order of paths
-- ---------------------------------------------------------------------------

namespace Text

theorem ble_iff {a b : Text} :
    ble a b = true ↔ a = b ∨ List.Lex (fun c d => c.toNat < d.toNat) a b := by
  induction a generalizing b with
  | nil =>
    cases b with
    | nil => simp [ble]
    | cons d b => simp [ble]
  | cons c a ih =>
    cases b with
    | nil => simp [ble]
    | cons d b =>
      simp only [ble, Bool.or_eq_true, Bool.and_eq_true, decide_eq_true_eq, beq_iff_eq, ih,
        List.cons_lex_cons_iff, List.cons.injEq]
      tauto

theorem ble_trans {a b c : Text} (hab : ble a b = true) (hbc : ble b c = true) :
    ble a c = true := by
  induction a generalizing b c with
  | nil => rfl
  | cons x a ih =>
    cases b with
    | nil => cases hab
    | cons y b =>
      cases c with
      | nil => cases hbc
      | cons z c =>
        simp only [ble, Bool.or_eq_true, Bool.and_eq_true, decide_eq_true_eq, beq_iff_eq]
          at hab hbc ⊢
        rcases hab with hxy | ⟨rfl, hab⟩
        · rcases hbc with hyz | ⟨rfl, -⟩
          · exact .inl (Nat.lt_trans hxy hyz)
          · exact .inl hxy
        · rcases hbc with hyz | ⟨rfl, hbc⟩
          · exact .inl hyz
          · exact .inr ⟨rfl, ih hab hbc⟩

theorem ble_total (a b : Text) : (ble a b || ble b a) = true := by
  induction a generalizing b with
  | nil => rfl
  | cons x a ih =>
    cases b with
    | nil => rfl
    | cons y b =>
      have hab := ih b
      simp only [ble, Bool.or_eq_true, Bool.and_eq_true, decide_eq_true_eq, beq_iff_eq] at hab ⊢
      rcases Nat.lt_trichotomy x.toNat y.toNat with hlt | heq | hgt
      · exact .inl (.inl hlt)
      · obtain rfl : x = y := Char.toNat_inj.mp heq
        exact hab.imp (fun h => .inr ⟨rfl, h⟩) fun h => .inr ⟨rfl, h⟩
      · exact .inr (.inl hgt)

theorem ble_antisymm {a b : Text} (hab : ble a b = true) (hba : ble b a = true) : a = b := by
  induction a generalizing b with
  | nil =>
    cases b with
    | nil => rfl
    | cons y b => cases hba
  | cons x a ih =>
    cases b with
    | nil => cases hab
    | cons y b =>
      simp only [ble, Bool.or_eq_true, Bool.and_eq_true, decide_eq_true_eq, beq_iff_eq] at hab hba
      rcases hab with hlt | ⟨rfl, hab⟩
      · rcases hba with hgt | ⟨rfl, -⟩
        · exact absurd hgt (Nat.lt_asymm hlt)
        · exact absurd hlt (Nat.lt_irrefl _)
      · exact congrArg _ (ih hab (hba.resolve_left (Nat.lt_irrefl _)).2)

end Text

theorem Snapshot.pairwise_ble_ordered (s : Snapshot) :
    s.ordered.Pairwise fun f g => f.1.ble g.1 = true := by
  refine List.pairwise_mergeSort ?_ ?_ _
  · exact fun _ _ _ => Text.ble_trans
  · exact fun f g => Text.ble_total f.1 g.1

theorem Snapshot.pairwise_ordered (s : Snapshot) : s.ordered.Pairwise fun f g =>
    f.1 = g.1 ∨ List.Lex (fun c d => c.toNat < d.toNat) f.1 g.1 :=
  s.pairwise_ble_ordered.imp Text.ble_iff.mp

-- ---------------------------------------------------------------------------
-- Outcomes
-- ---------------------------------------------------------------------------

namespace Expansion

variable {s : Snapshot} {p : Program} {resolver : Resolver}

theorem source?_fileOutcome (p : Program) (resolver : Resolver) (f : SourceFile) :
    (fileOutcome p resolver f).source? = some f.path := by
  unfold fileOutcome
  split
  · rfl
  · split <;> rfl

theorem isTemplate_fileOutcome (p : Program) (resolver : Resolver) (f : SourceFile) :
    (fileOutcome p resolver f).isTemplate = f.isTemplateFile := by
  unfold fileOutcome
  split
  · rename_i h
    exact h.symm
  · rename_i h
    rw [Bool.not_eq_true] at h
    rw [h]
    split <;> rfl

theorem map_isTemplate_files (h : Program.scan s = .ok p) :
    p.files.map (fileOutcome p resolver · |>.isTemplate) =
      s.ordered.map fun f => Template.isIn f.2 := by
  simp only [isTemplate_fileOutcome]
  refine Program.map_eq_of_map_ok (Program.map_read_files h) fun f g hread => ?_
  exact (Program.isIn_eq (Program.read_eq_ok_iff.mp hread).1).symm

/-- A run reports all problems of its snapshot and nothing else, or, when there are none, one
outcome for each file in the order of paths and then the classes. No file has two problems, and
every method can be cut out of its file and of the body that it stands in. -/
theorem run_reports (s : Snapshot) (resolver : Resolver) (extension : Text) :
    s.ordered.Perm s.files.entries ∧
    (s.ordered.Pairwise fun f g =>
      f.1 = g.1 ∨ List.Lex (fun c d => c.toNat < d.toNat) f.1 g.1) ∧
    (∀ path content, templateProblem? path content = none ∨ methodProblem? path content = none) ∧
    (s.problems ≠ [] →
      run s resolver extension = s.problems ∧ ∀ o ∈ s.problems, ∃ source d, o = .failed source d) ∧
    (s.problems = [] → ∃ files classes, run s resolver extension = files ++ classes ∧
      files.map Outcome.source? = s.ordered.map (some ·.1) ∧
      files.map Outcome.isTemplate = s.ordered.map (Template.isIn ·.2) ∧
      ∀ o ∈ classes, ∃ path content, o = .output none path content) ∧
    (∀ o ∈ run s resolver extension,
      [o.problem?.isSome, o.isTemplate, o.path?.isSome].count true = 1) ∧
    ∀ f ∈ s.files.entries, ∀ g, SourceFile.read f.1 f.2 = .ok g →
      Splice.cut? g.content (g.methods.map (·.cutSpan)) 0 = some g.stripped ∧
      ∀ t ∈ g.templates, Splice.cut? t.body ((g.methodsOf t.className).map (·.cutSpan))
        t.bodyStart = some (g.strippedBody t) := by
  refine ⟨List.mergeSort_perm .., s.pairwise_ordered, Program.one_problem, fun hproblems => ?_,
    fun hproblems => ?_, fun o _ => ?_, fun f _ g => Program.cut?_eq_stripped⟩
  · have hrun : run s resolver extension = s.problems := by
      rw [run, Program.scan_eq, if_neg (by simpa using hproblems)]
    exact ⟨hrun, fun o => Program.exists_failed_of_mem_problems⟩
  · have hscan := Program.scan_eq_ok.mpr ⟨hproblems, rfl⟩
    generalize s.program = p at hscan
    refine ⟨p.files.map (fileOutcome p resolver), (classes p resolver extension).map Made.outcome,
      by rw [run, hscan]; rfl, ?_, ?_, fun o ho => ?_⟩
    · have hpaths := congrArg (List.map some) (Program.map_path_files hscan)
      simp only [List.map_map, Function.comp_def] at hpaths
      simp only [List.map_map, Function.comp_def, source?_fileOutcome, hpaths]
    · rw [List.map_map]
      exact map_isTemplate_files hscan
    · obtain ⟨m, -, rfl⟩ := List.mem_map.mp ho
      exact ⟨m.path, m.content, rfl⟩
  · cases o <;> rfl

end Expansion

end Monomorph
