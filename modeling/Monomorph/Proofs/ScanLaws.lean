import Monomorph.Proofs.ProgramLaws
import Mathlib.Data.List.Basic

/-!
# Laws of scanning

What a scan gives, told by the snapshot alone. Each file is read on its own (`SourceFile.read`).
A scan fails with the list of all problems (`Snapshot.problems`) when there are any, and else gives
the program of the snapshot (`Program.scan_eq`).
-/

namespace Monomorph

-- ---------------------------------------------------------------------------
-- Files on their own
-- ---------------------------------------------------------------------------

def Program.failure? {ε α : Type} : Except ε α → Option ε
  | .error e => some e
  | .ok _ => none

open Program (failure?)

def templateProblem? (path content : Text) : Option Diagnostic :=
  (failure? (Template.find content)).map (Diagnostic.ofFault content (some path))

/-- What keeps the generic methods of a file from being read, once its templates are. -/
def methodProblem? (path content : Text) : Option Diagnostic :=
  match Template.find content with
  | .error _ => none
  | .ok ts =>
    (failure? (Declared.methods ⟨path, content, ts.values⟩)).map (.ofFault content (some path))

def SourceFile.read (path content : Text) : Except Diagnostic SourceFile :=
  match Declared.scan path content with
  | .error e => .error e
  | .ok d => d.withMethods

/-- Whether a text declares a class template, and one of the given name. -/
def Template.isIn (content : Text) : Bool :=
  match find content with
  | .ok ts => !ts.isEmpty
  | .error _ => false

def Template.isNamedIn (content name : Text) : Bool :=
  match find content with
  | .ok ts => ts.contains name
  | .error _ => false

def SourceFile.hasMethod (path content key : Text) : Bool :=
  match read path content with
  | .ok f => f.methods.any (·.key == key)
  | .error _ => false

namespace Snapshot

variable (s : Snapshot)

def declares (name : Text) : Bool :=
  s.files.entries.any fun f => Template.isNamedIn f.2 name

def hasMethod (key : Text) : Bool :=
  s.files.entries.any fun f => SourceFile.hasMethod f.1 f.2 key

def malformed (name : Text) (texts : List Text) : List Outcome :=
  texts.filterMap fun text => (failure? (TypeExpr.readList text)).map fun e =>
    configurationProblem (.badInstantiation (name ++ '<' :: (text ++ ">")) e.message)

/-- The instance that is asked for first, or the bare name when there is none. -/
def firstAsked (name : Text) : List Text → Text
  | [] => name
  | text :: _ => name ++ '<' :: (text ++ ">")

/-- Everything that is wrong with a snapshot: templates and then methods by file, then what is
forced on classes and on methods. -/
def problems : List Outcome :=
  (s.ordered.filterMap fun f => (templateProblem? f.1 f.2).map (.failed f.1)) ++
  (s.ordered.filterMap fun f => (methodProblem? f.1 f.2).map (.failed f.1)) ++
  (s.forcedClasses.entries.flatMap fun e =>
    if s.declares e.1 then malformed e.1 e.2
    else [configurationProblem (.unknownTemplate (firstAsked e.1 e.2) e.1)]) ++
  s.forcedMethods.entries.flatMap fun e =>
    if s.hasMethod e.1 then malformed e.1 e.2
    else [configurationProblem (.unknownMethod e.1)]

def readable (texts : List Text) : List (List TypeExpr) :=
  texts.filterMap fun text => (TypeExpr.readList text).toOption

def forced : List TypeExpr :=
  s.forcedClasses.entries.flatMap fun e => (readable e.2).map fun args => ⟨e.1, args⟩

def declaredFiles : List Declared :=
  s.ordered.filterMap fun f => (Declared.scan f.1 f.2).toOption

def sourceFiles : List SourceFile :=
  s.declaredFiles.filterMap fun d => d.withMethods.toOption

def program : Program where
  files := s.sourceFiles
  templates := .ofList (s.sourceFiles.flatMap fun f => f.templates.map fun t => (t.className, t, f))
  usages := .insertAllNew ∅ (s.forced.map (fun e => (e.render, e)) ++
    s.sourceFiles.flatMap (Program.usagesIn s.declares))
  methodUsages := s.forcedMethods.map fun texts => Program.distinctArguments (readable texts)

end Snapshot

-- ---------------------------------------------------------------------------
-- Reading a file
-- ---------------------------------------------------------------------------

namespace Program

variable {path content : Text}

theorem partition_eq {ε α : Type} (rs : List (Except ε α)) :
    partition rs = (rs.filterMap failure?, rs.filterMap Except.toOption) := by
  induction rs with
  | nil => rfl
  | cons r rs ih =>
    cases r with
    | error e =>
      rw [partition, ih]
      rfl
    | ok a =>
      rw [partition, ih]
      rfl

theorem failure?_mapError {ε δ α : Type} (g : ε → δ) (r : Except ε α) :
    failure? (r.mapError g) = (failure? r).map g := by
  cases r <;> rfl

theorem toOption_mapError {ε δ α : Type} (g : ε → δ) (r : Except ε α) :
    (r.mapError g).toOption = r.toOption := by
  cases r <;> rfl

theorem failure?_scan (path content : Text) :
    failure? (Declared.scan path content) = templateProblem? path content := by
  unfold Declared.scan templateProblem?
  cases Template.find content <;> rfl

theorem failure?_withMethods (d : Declared) :
    failure? d.withMethods = (failure? d.methods).map (.ofFault d.content (some d.path)) := by
  unfold Declared.withMethods
  cases d.methods <;> rfl

theorem scan_eq_ok_iff {d : Declared} : Declared.scan path content = .ok d ↔
    ∃ ts, Template.find content = .ok ts ∧ d = ⟨path, content, ts.values⟩ := by
  unfold Declared.scan
  cases Template.find content with
  | error f => simp
  | ok ts => simp [eq_comm]

theorem methodProblem?_eq (path content : Text) : methodProblem? path content =
    (Declared.scan path content).toOption.bind fun d => failure? d.withMethods := by
  unfold methodProblem? Declared.scan
  cases Template.find content with
  | error f => rfl
  | ok ts => exact (failure?_withMethods ⟨path, content, ts.values⟩).symm

theorem one_problem (path content : Text) :
    templateProblem? path content = none ∨ methodProblem? path content = none := by
  unfold templateProblem? methodProblem?
  cases Template.find content with
  | error f => exact .inr rfl
  | ok ts => exact .inl rfl

theorem read_eq_ok_iff {f : SourceFile} : SourceFile.read path content = .ok f ↔
    Declared.scan path content = .ok f.toDeclared ∧ f.toDeclared.withMethods = .ok f := by
  unfold SourceFile.read
  cases hd : Declared.scan path content with
  | error e => simp
  | ok d =>
    simp only [Except.ok.injEq]
    constructor
    · intro h
      obtain rfl := toDeclared_of_withMethods h
      exact ⟨rfl, h⟩
    · rintro ⟨rfl, h⟩
      exact h

theorem contains_eq_any {ts : Table Text Template} {name : Text}
    (h : ∀ e ∈ ts.entries, e.2.className = e.1) :
    ts.contains name = (ts.values.map (·.className)).contains name := by
  rw [Bool.eq_iff_iff, Table.contains_iff, List.contains_iff_mem, Table.keys, Table.values,
    List.map_map]
  have hmap : ts.entries.map Prod.fst = ts.entries.map ((·.className) ∘ Prod.snd) :=
    List.map_congr_left fun e he => (h e he).symm
  rw [hmap]

theorem className_of_find {ts : Table Text Template} (h : Template.find content = .ok ts) :
    ∀ e ∈ ts.entries, e.2.className = e.1 := by
  unfold Template.find at h
  split at h
  · cases h
  · cases h
    intro e he
    obtain ⟨t, -, rfl⟩ := List.mem_map.mp (Table.mem_of_mem_ofList he)
    rfl

theorem nodup_classNames {d : Declared} (h : Declared.scan path content = .ok d) :
    (d.templates.map (·.className)).Nodup := by
  obtain ⟨ts, hts, rfl⟩ := scan_eq_ok_iff.mp h
  have hnodup : ts.keys.Nodup := by
    unfold Template.find at hts
    split at hts
    · cases hts
    · cases hts
      exact Table.nodup_keys_ofList _
  rw [Table.keys, ← List.map_congr_left (className_of_find hts)] at hnodup
  rw [Table.values, List.map_map]
  exact hnodup

theorem isNamedIn_iff (path : Text) {content name : Text} : Template.isNamedIn content name = true ↔
    ∃ d, Declared.scan path content = .ok d ∧ name ∈ d.templates.map (·.className) := by
  unfold Template.isNamedIn
  cases hts : Template.find content with
  | error f => simp [scan_eq_ok_iff, hts]
  | ok ts =>
    simp only [contains_eq_any (className_of_find hts), List.contains_iff_mem, scan_eq_ok_iff, hts,
      Except.ok.injEq, exists_eq_left', exists_eq_left]

theorem isIn_eq {d : Declared} (h : Declared.scan path content = .ok d) :
    Template.isIn content = d.isTemplateFile := by
  obtain ⟨ts, hts, rfl⟩ := scan_eq_ok_iff.mp h
  simp only [Template.isIn, hts, Declared.isTemplateFile, Table.isEmpty, Table.values,
    List.isEmpty_map]

-- ---------------------------------------------------------------------------
-- The problems of a snapshot
-- ---------------------------------------------------------------------------

variable {s : Snapshot}

theorem mem_ordered {f : Text × Text} : f ∈ s.ordered ↔ f ∈ s.files.entries :=
  List.mem_mergeSort

theorem mem_declaredFiles {d : Declared} :
    d ∈ s.declaredFiles ↔ ∃ f ∈ s.files.entries, Declared.scan f.1 f.2 = .ok d := by
  simp only [Snapshot.declaredFiles, List.mem_filterMap, mem_ordered]
  refine exists_congr fun f => and_congr_right fun _ => ?_
  cases Declared.scan f.1 f.2 <;> simp [Except.toOption]

theorem mem_sourceFiles {g : SourceFile} :
    g ∈ s.sourceFiles ↔ ∃ f ∈ s.files.entries, SourceFile.read f.1 f.2 = .ok g := by
  simp only [Snapshot.sourceFiles, List.mem_filterMap, mem_declaredFiles, read_eq_ok_iff]
  constructor
  · rintro ⟨d, ⟨f, hf, hd⟩, hg⟩
    cases hm : d.withMethods with
    | error e => simp [hm, Except.toOption] at hg
    | ok g' =>
      obtain rfl : g' = g := by simpa [hm, Except.toOption] using hg
      obtain rfl := toDeclared_of_withMethods hm
      exact ⟨f, hf, hd, hm⟩
  · rintro ⟨f, hf, hd, hg⟩
    exact ⟨g.toDeclared, ⟨f, hf, hd⟩, by rw [hg]; rfl⟩

theorem declares_eq (s : Snapshot) : s.declares =
    (s.declaredFiles.flatMap fun d => d.templates.map (·.className)).contains := by
  funext name
  rw [Bool.eq_iff_iff, Snapshot.declares, List.any_eq_true, List.contains_iff_mem,
    List.mem_flatMap]
  constructor
  · rintro ⟨f, hf, h⟩
    obtain ⟨d, hd, hname⟩ := (isNamedIn_iff f.1).mp h
    exact ⟨d, mem_declaredFiles.mpr ⟨f, hf, hd⟩, hname⟩
  · rintro ⟨d, hd, hname⟩
    obtain ⟨f, hf, hscan⟩ := mem_declaredFiles.mp hd
    exact ⟨f, hf, (isNamedIn_iff f.1).mpr ⟨d, hscan, hname⟩⟩

theorem hasMethod_eq (s : Snapshot) : s.hasMethod =
    (s.sourceFiles.flatMap fun f => f.methods.map (·.key)).contains := by
  funext key
  rw [Bool.eq_iff_iff, Snapshot.hasMethod, List.any_eq_true, List.contains_iff_mem,
    List.mem_flatMap]
  constructor
  · rintro ⟨f, hf, h⟩
    unfold SourceFile.hasMethod at h
    split at h
    · rename_i g hg
      obtain ⟨m, hm, hkey⟩ := List.any_eq_true.mp h
      exact ⟨g, mem_sourceFiles.mpr ⟨f, hf, hg⟩, List.mem_map.mpr ⟨m, hm, eq_of_beq hkey⟩⟩
    · cases h
  · rintro ⟨g, hg, h⟩
    obtain ⟨f, hf, hread⟩ := mem_sourceFiles.mp hg
    obtain ⟨m, hm, rfl⟩ := List.mem_map.mp h
    refine ⟨f, hf, ?_⟩
    rw [SourceFile.hasMethod, hread]
    exact List.any_eq_true.mpr ⟨m, hm, beq_self_eq_true _⟩

theorem readForced_eq (name : Text) (texts : List Text) :
    readForced name texts = (Snapshot.malformed name texts, Snapshot.readable texts) := by
  rw [readForced, partition_eq, List.filterMap_map, List.filterMap_map]
  refine Prod.ext (List.filterMap_congr fun text _ => ?_) (List.filterMap_congr fun text _ => ?_)
  all_goals
    simp only [Function.comp_apply]
    cases TypeExpr.readList text <;> rfl

theorem forcedClass_eq (known : Text → Bool) (name : Text) (texts : List Text) :
    forcedClass known name texts =
      if known name then
        (Snapshot.malformed name texts, (Snapshot.readable texts).map fun args => ⟨name, args⟩)
      else
        ([configurationProblem (.unknownTemplate (Snapshot.firstAsked name texts) name)], []) := by
  unfold forcedClass
  rw [readForced_eq]
  split
  · rfl
  · cases texts <;> rfl

theorem forcedMethod_eq (known : Text → Bool) (key : Text) (texts : List Text) :
    forcedMethod known key texts =
      if known key then (Snapshot.malformed key texts, Snapshot.readable texts)
      else ([configurationProblem (.unknownMethod key)], []) := by
  unfold forcedMethod
  rw [readForced_eq]

theorem templateProblems_eq (s : Snapshot) :
    partition (s.ordered.map fun f => (Declared.scan f.1 f.2).mapError (Outcome.failed f.1)) =
      (s.ordered.filterMap fun f => (templateProblem? f.1 f.2).map (.failed f.1),
        s.declaredFiles) := by
  rw [partition_eq, List.filterMap_map, List.filterMap_map, Snapshot.declaredFiles]
  refine Prod.ext (List.filterMap_congr fun f _ => ?_) (List.filterMap_congr fun f _ => ?_)
  · simp only [Function.comp_apply, failure?_mapError, failure?_scan]
  · simp only [Function.comp_apply, toOption_mapError]

theorem methodProblems_eq (s : Snapshot) :
    partition (s.declaredFiles.map fun d => d.withMethods.mapError (Outcome.failed d.path)) =
      (s.ordered.filterMap fun f => (methodProblem? f.1 f.2).map (.failed f.1),
        s.sourceFiles) := by
  rw [partition_eq, List.filterMap_map, List.filterMap_map, Snapshot.sourceFiles]
  refine Prod.ext ?_ (List.filterMap_congr fun d _ => ?_)
  · rw [Snapshot.declaredFiles, List.filterMap_filterMap]
    refine List.filterMap_congr fun f _ => ?_
    rw [methodProblem?_eq]
    cases hd : Declared.scan f.1 f.2 with
    | error e => rfl
    | ok d =>
      simp only [Except.toOption, Option.bind_some, Function.comp_apply, failure?_mapError,
        path_of_scan hd]
  · simp only [Function.comp_apply, toOption_mapError]

theorem forcedClasses_problems (s : Snapshot) :
    (s.forcedClasses.entries.map fun e => forcedClass s.declares e.1 e.2).flatMap (·.1) =
      s.forcedClasses.entries.flatMap fun e =>
        if s.declares e.1 then Snapshot.malformed e.1 e.2
        else [configurationProblem (.unknownTemplate (Snapshot.firstAsked e.1 e.2) e.1)] := by
  simp only [List.flatMap_map, forcedClass_eq, apply_ite Prod.fst]

theorem forcedMethods_problems (s : Snapshot) :
    (s.forcedMethods.entries.map fun e => (e.1, forcedMethod s.hasMethod e.1 e.2)).flatMap
        (·.2.1) =
      s.forcedMethods.entries.flatMap fun e =>
        if s.hasMethod e.1 then Snapshot.malformed e.1 e.2
        else [configurationProblem (.unknownMethod e.1)] := by
  simp only [List.flatMap_map, forcedMethod_eq, apply_ite Prod.fst]

theorem problems?_eq_none_iff : templateProblem? path content = none ∧
    methodProblem? path content = none ↔ ∃ f, SourceFile.read path content = .ok f := by
  rw [← failure?_scan, methodProblem?_eq, SourceFile.read]
  cases Declared.scan path content with
  | error e => simp [failure?]
  | ok d =>
    simp only [failure?, Except.toOption, Option.bind_some, true_and]
    cases d.withMethods <;> simp

theorem malformed_eq_nil_iff {name : Text} {texts : List Text} :
    Snapshot.malformed name texts = [] ↔
      ∀ text ∈ texts, ∃ args, TypeExpr.readList text = .ok args := by
  rw [Snapshot.malformed, List.filterMap_eq_nil_iff]
  refine forall₂_congr fun text _ => ?_
  cases TypeExpr.readList text <;> simp [failure?]

theorem forcedProblems_eq_nil_iff {known : Bool} {o : Outcome} {name : Text} {texts : List Text} :
    (if known = true then Snapshot.malformed name texts else [o]) = [] ↔
      known = true ∧ ∀ text ∈ texts, ∃ args, TypeExpr.readList text = .ok args := by
  cases known <;> simp [malformed_eq_nil_iff]

theorem problems_eq_nil_iff : s.problems = [] ↔
    (∀ f ∈ s.files.entries, ∃ g, SourceFile.read f.1 f.2 = .ok g) ∧
    (∀ e ∈ s.forcedClasses.entries, s.declares e.1 = true ∧
      ∀ text ∈ e.2, ∃ args, TypeExpr.readList text = .ok args) ∧
    ∀ e ∈ s.forcedMethods.entries, s.hasMethod e.1 = true ∧
      ∀ text ∈ e.2, ∃ args, TypeExpr.readList text = .ok args := by
  simp only [Snapshot.problems, List.append_eq_nil_iff, List.flatMap_eq_nil_iff,
    List.filterMap_eq_nil_iff, Option.map_eq_none_iff, forcedProblems_eq_nil_iff, mem_ordered,
    ← problems?_eq_none_iff, forall_and, and_assoc]

theorem forcedClasses_exprs (h : ∀ e ∈ s.forcedClasses.entries, s.declares e.1 = true) :
    (s.forcedClasses.entries.map fun e => forcedClass s.declares e.1 e.2).flatMap (·.2) =
      s.forced := by
  rw [List.flatMap_map, Snapshot.forced]
  refine List.flatMap_congr fun e he => ?_
  rw [forcedClass_eq, if_pos (h e he)]

theorem forcedMethods_lists (h : ∀ e ∈ s.forcedMethods.entries, s.hasMethod e.1 = true) :
    ((s.forcedMethods.entries.map fun e => (e.1, forcedMethod s.hasMethod e.1 e.2)).map fun m =>
        (m.1, distinctArguments m.2.2)) =
      s.forcedMethods.entries.map fun e => (e.1, distinctArguments (Snapshot.readable e.2)) := by
  rw [List.map_map]
  refine List.map_congr_left fun e he => ?_
  simp only [Function.comp_apply, forcedMethod_eq, if_pos (h e he)]

theorem scan_eq (s : Snapshot) :
    scan s = if s.problems.isEmpty then .ok s.program else .error s.problems := by
  rw [scan, templateProblems_eq]
  simp only
  rw [methodProblems_eq]
  simp only [← declares_eq, ← hasMethod_eq, forcedClasses_problems, forcedMethods_problems]
  rw [← Snapshot.problems]
  split
  · rename_i hempty
    obtain ⟨-, hclasses, hmethods⟩ := problems_eq_nil_iff.mp (List.isEmpty_iff.mp hempty)
    rw [forcedClasses_exprs fun e he => (hclasses e he).1,
      forcedMethods_lists fun e he => (hmethods e he).1]
    rfl
  · rfl

theorem scan_eq_ok {p : Program} : scan s = .ok p ↔ s.problems = [] ∧ p = s.program := by
  rw [scan_eq]
  split
  · rename_i h
    simp [List.isEmpty_iff.mp h, eq_comm]
  · rename_i h
    simp [← List.isEmpty_iff, h]

theorem exists_fault_of_templateProblem? {d : Diagnostic}
    (h : templateProblem? path content = some d) : ∃ f, d = .ofFault content (some path) f := by
  obtain ⟨f, -, rfl⟩ := Option.map_eq_some_iff.mp h
  exact ⟨f, rfl⟩

theorem exists_fault_of_methodProblem? {d : Diagnostic}
    (h : methodProblem? path content = some d) : ∃ f, d = .ofFault content (some path) f := by
  unfold methodProblem? at h
  split at h
  · cases h
  · obtain ⟨f, -, rfl⟩ := Option.map_eq_some_iff.mp h
    exact ⟨f, rfl⟩

theorem exists_issue_of_mem_problems {o : Outcome} (h : o ∈ s.problems) :
    ∃ source i position line, o = .failed source (.ofIssue i position (some source) line) := by
  have hmalformed {name : Text} {texts : List Text} (h : o ∈ Snapshot.malformed name texts) :
      ∃ i, o = configurationProblem i := by
    obtain ⟨text, -, h⟩ := List.mem_filterMap.mp h
    obtain ⟨e, -, rfl⟩ := Option.map_eq_some_iff.mp h
    exact ⟨_, rfl⟩
  simp only [Snapshot.problems, List.mem_append, List.mem_flatMap, List.mem_filterMap,
    Option.map_eq_some_iff] at h
  rcases h with ((⟨f, -, d, hd, rfl⟩ | ⟨f, -, d, hd, rfl⟩) | ⟨e, -, h⟩) | ⟨e, -, h⟩
  · obtain ⟨fault, rfl⟩ := exists_fault_of_templateProblem? hd
    exact ⟨_, _, _, _, rfl⟩
  · obtain ⟨fault, rfl⟩ := exists_fault_of_methodProblem? hd
    exact ⟨_, _, _, _, rfl⟩
  · split at h
    · obtain ⟨i, rfl⟩ := hmalformed h
      exact ⟨_, _, _, _, rfl⟩
    · exact ⟨_, _, _, _, List.mem_singleton.mp h⟩
  · split at h
    · obtain ⟨i, rfl⟩ := hmalformed h
      exact ⟨_, _, _, _, rfl⟩
    · exact ⟨_, _, _, _, List.mem_singleton.mp h⟩

theorem exists_failed_of_mem_problems {o : Outcome} (h : o ∈ s.problems) :
    ∃ source d, o = .failed source d := by
  obtain ⟨source, i, position, line, rfl⟩ := exists_issue_of_mem_problems h
  exact ⟨source, _, rfl⟩

theorem map_read_files {p : Program} (h : scan s = .ok p) :
    (s.ordered.map fun f => SourceFile.read f.1 f.2) = p.files.map .ok := by
  obtain ⟨declared, hscan, hmethods⟩ := exists_declared h
  rw [← hmethods]
  refine (map_eq_of_map_ok hscan fun f d hd => ?_).symm
  rw [SourceFile.read, hd]

end Program

end Monomorph
