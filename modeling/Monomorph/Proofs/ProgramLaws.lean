import Monomorph.Proofs.ArgumentTextLaws
import Monomorph.Proofs.TemplateLaws
import Monomorph.Proofs.UsageLaws
import Monomorph.Program

/-!
# Laws of scanned programs

What a scan without errors promises: its templates are declared in its files, and its usages are
what was forced and what the files use, each under a text that spells it.
-/

namespace Monomorph.Program

-- ---------------------------------------------------------------------------
-- Results apart
-- ---------------------------------------------------------------------------

section Partition

variable {ε α : Type} {rs : List (Except ε α)} {es : List ε} {as : List α}

theorem mem_partition_ok (h : partition rs = (es, as)) {a : α} : a ∈ as ↔ .ok a ∈ rs := by
  induction rs generalizing es as with
  | nil =>
    cases h
    simp
  | cons r rs ih =>
    cases r <;> cases h <;> simp [ih rfl]

theorem mem_partition_error (h : partition rs = (es, as)) {e : ε} : e ∈ es ↔ .error e ∈ rs := by
  induction rs generalizing es as with
  | nil =>
    cases h
    simp
  | cons r rs ih =>
    cases r <;> cases h <;> simp [ih rfl]

theorem eq_map_ok_of_partition (h : partition rs = ([], as)) : rs = as.map .ok := by
  induction rs generalizing as with
  | nil =>
    cases h
    rfl
  | cons r rs ih =>
    cases r with
    | error e => cases h
    | ok a =>
      obtain ⟨hes, rfl⟩ := Prod.mk.inj h
      rw [List.map_cons, ← ih (Prod.ext hes rfl)]

end Partition

theorem mapError_eq_ok {ε δ α : Type} {g : ε → δ} {r : Except ε α} {a : α} :
    r.mapError g = .ok a ↔ r = .ok a := by
  cases r with
  | ok b =>
    change (Except.ok b : Except δ α) = .ok a ↔ _
    rw [Except.ok.injEq, Except.ok.injEq]
  | error e => exact iff_of_false (fun h => by cases h) (fun h => by cases h)

theorem map_eq_of_partition {ε δ α β : Type} {xs : List β} {r : β → Except ε α} {g : β → ε → δ}
    {as : List α} (h : partition (xs.map fun x => (r x).mapError (g x)) = ([], as)) :
    xs.map r = as.map .ok := by
  replace h := eq_map_ok_of_partition h
  induction xs generalizing as with
  | nil =>
    cases as with
    | nil => rfl
    | cons a as => cases h
  | cons x xs ih =>
    cases as with
    | nil => cases h
    | cons a as =>
      obtain ⟨hx, hxs⟩ := List.cons.inj h
      rw [List.map_cons, List.map_cons, mapError_eq_ok.mp hx, ih hxs]

theorem map_eq_of_map_ok {ε α β γ : Type} {xs : List β} {r : β → Except ε α} {as : List α}
    {u : α → γ} {v : β → γ} (h : xs.map r = as.map .ok) (hr : ∀ x a, r x = .ok a → u a = v x) :
    as.map u = xs.map v := by
  induction xs generalizing as with
  | nil =>
    cases as with
    | nil => rfl
    | cons a as => cases h
  | cons x xs ih =>
    cases as with
    | nil => cases h
    | cons a as =>
      obtain ⟨hx, hxs⟩ := List.cons.inj h
      rw [List.map_cons, List.map_cons, hr x a hx, ih hxs]

-- ---------------------------------------------------------------------------
-- Scanned programs
-- ---------------------------------------------------------------------------

/-- What a scan without errors promises. -/
structure Scanned (p : Program) : Prop where
  declared : ∀ f ∈ p.files, ∀ t ∈ f.templates, t.IsDeclared
  templates : p.templates =
    .ofList (p.files.flatMap fun f => f.templates.map fun t => (t.className, t, f))
  usages : ∃ forced : List TypeExpr, (∀ e ∈ forced, e.WellFormed) ∧
    p.usages = .insertAllNew ∅
      (forced.map (fun e => (e.render, e)) ++ p.files.flatMap (usagesIn p.known))

variable {s : Snapshot} {p : Program}

theorem toDeclared_of_withMethods {d : Declared} {f : SourceFile} (h : d.withMethods = .ok f) :
    f.toDeclared = d := by
  unfold Declared.withMethods at h
  split at h
  · cases h
    rfl
  · cases h

theorem isDeclared_of_scan {path content : Text} {d : Declared}
    (h : Declared.scan path content = .ok d) : ∀ t ∈ d.templates, t.IsDeclared := by
  unfold Declared.scan at h
  split at h
  · rename_i ts hts
    cases h
    exact Template.isDeclared_of_find hts
  · cases h

theorem wellFormed_of_forcedClass {known : Text → Bool} {name : Text} {texts : List Text}
    (hname : known name = true → name.isName = true) {e : TypeExpr}
    (h : e ∈ (forcedClass known name texts).2) : e.WellFormed := by
  unfold forcedClass at h
  split at h
  · rename_i hk
    obtain ⟨args, hargs, rfl⟩ := List.mem_map.mp h
    obtain ⟨text, -, htext⟩ := List.mem_map.mp ((mem_partition_ok rfl).mp hargs)
    split at htext
    · rename_i es hes
      cases htext
      exact TypeExpr.wellFormed_mk.mpr ⟨hname hk, TypeExpr.wellFormed_of_readList hes⟩
    · cases htext
  · cases h

theorem mem_files {declared : List Declared} {files : List SourceFile}
    (h : partition (declared.map fun d => d.withMethods.mapError (Outcome.failed d.path)) =
      ([], files)) :
    (∀ f ∈ files, f.toDeclared ∈ declared) ∧ ∀ d ∈ declared, ∃ f ∈ files, f.toDeclared = d := by
  constructor
  · intro f hf
    obtain ⟨d, hd, hok⟩ := List.mem_map.mp ((mem_partition_ok h).mp hf)
    rwa [toDeclared_of_withMethods (mapError_eq_ok.mp hok)]
  · intro d hd
    cases hm : d.withMethods with
    | ok f =>
      have hmem : .ok f ∈ declared.map fun d => d.withMethods.mapError (Outcome.failed d.path) :=
        List.mem_map.mpr ⟨d, hd, mapError_eq_ok.mpr hm⟩
      exact ⟨f, (mem_partition_ok h).mpr hmem, toDeclared_of_withMethods hm⟩
    | error e =>
      have hmem : .error (Outcome.failed d.path e) ∈
          declared.map fun d => d.withMethods.mapError (Outcome.failed d.path) :=
        List.mem_map.mpr ⟨d, hd, by rw [hm]; rfl⟩
      exact absurd ((mem_partition_error h).mpr hmem) List.not_mem_nil

theorem contains_names {declared : List Declared} {files : List SourceFile}
    (hfiles : ∀ f ∈ files, f.toDeclared ∈ declared)
    (hall : ∀ d ∈ declared, ∃ f ∈ files, f.toDeclared = d) :
    (declared.flatMap fun d => d.templates.map (·.className)).contains = fun n =>
      (Table.ofList (files.flatMap fun f =>
        f.templates.map fun t => (t.className, t, f))).contains n := by
  funext n
  rw [Bool.eq_iff_iff, List.contains_iff_mem, Table.contains_iff, Table.mem_keys_ofList]
  simp only [List.mem_flatMap, List.mem_map, Prod.exists, Prod.mk.injEq]
  constructor
  · rintro ⟨d, hd, t, ht, rfl⟩
    obtain ⟨f, hf, rfl⟩ := hall d hd
    exact ⟨t.className, t, f, ⟨f, hf, t, ht, rfl, rfl, rfl⟩, rfl⟩
  · rintro ⟨_, _, _, ⟨f, hf, t, ht, rfl, rfl, rfl⟩, rfl⟩
    exact ⟨f.toDeclared, hfiles f hf, t, ht, rfl⟩

theorem scanned (h : scan s = .ok p) : p.Scanned := by
  unfold scan at h
  generalize hd : partition (s.ordered.map _) = pd at h
  obtain ⟨templateErrors, declared⟩ := pd
  simp only at h
  generalize hm : partition (declared.map _) = pm at h
  obtain ⟨methodErrors, files⟩ := pm
  simp only at h
  split at h
  · rename_i herr
    simp only [List.append_eq_nil_iff, List.isEmpty_iff] at herr
    obtain ⟨⟨⟨-, rfl⟩, -⟩, -⟩ := herr
    obtain ⟨hfiles, hall⟩ := mem_files hm
    have hdecl : ∀ d ∈ declared, ∀ t ∈ d.templates, t.IsDeclared := by
      intro d hdm
      obtain ⟨f, -, hok⟩ := List.mem_map.mp ((mem_partition_ok hd).mp hdm)
      exact isDeclared_of_scan (mapError_eq_ok.mp hok)
    have hname (n : Text)
        (hn : (declared.flatMap fun d => d.templates.map (·.className)).contains n = true) :
        n.isName = true := by
      obtain ⟨d, hdm, hn⟩ := List.mem_flatMap.mp (List.contains_iff_mem.mp hn)
      obtain ⟨t, ht, rfl⟩ := List.mem_map.mp hn
      exact (hdecl d hdm t ht).isName
    cases h
    refine ⟨fun f hf => hdecl _ (hfiles f hf), rfl,
      (s.forcedClasses.entries.map fun e => forcedClass _ e.1 e.2).flatMap (·.2), ?_,
      congrArg (fun known => Table.insertAllNew ∅ (_ ++ files.flatMap (usagesIn known)))
        (contains_names hfiles hall)⟩
    intro e he
    obtain ⟨c, hc, he⟩ := List.mem_flatMap.mp he
    obtain ⟨entry, -, rfl⟩ := List.mem_map.mp hc
    exact wellFormed_of_forcedClass (hname entry.1) he
  · cases h

theorem exists_declared (h : scan s = .ok p) : ∃ declared : List Declared,
    (s.ordered.map fun f => Declared.scan f.1 f.2) = declared.map .ok ∧
      declared.map Declared.withMethods = p.files.map .ok := by
  unfold scan at h
  generalize hd : partition (s.ordered.map _) = pd at h
  obtain ⟨templateErrors, declared⟩ := pd
  simp only at h
  generalize hm : partition (declared.map _) = pm at h
  obtain ⟨methodErrors, files⟩ := pm
  simp only at h
  split at h
  · rename_i herr
    simp only [List.append_eq_nil_iff, List.isEmpty_iff] at herr
    obtain ⟨⟨⟨rfl, rfl⟩, -⟩, -⟩ := herr
    cases h
    exact ⟨declared, map_eq_of_partition hd, map_eq_of_partition hm⟩
  · cases h

theorem keys_methodUsages (h : scan s = .ok p) :
    p.methodUsages.keys = s.forcedMethods.keys := by
  unfold scan at h
  generalize partition (s.ordered.map _) = pd at h
  obtain ⟨templateErrors, declared⟩ := pd
  simp only at h
  generalize partition (declared.map _) = pm at h
  obtain ⟨methodErrors, files⟩ := pm
  simp only at h
  split at h
  · cases h
    simp [Table.keys]
  · cases h

theorem path_of_scan {path content : Text} {d : Declared}
    (h : Declared.scan path content = .ok d) : d.path = path := by
  unfold Declared.scan at h
  split at h
  · cases h
    rfl
  · cases h

theorem map_path_files (h : scan s = .ok p) :
    p.files.map (fun f => f.path) = s.ordered.map Prod.fst := by
  obtain ⟨declared, hscan, hmethods⟩ := exists_declared h
  calc p.files.map (fun f => f.path)
      = declared.map (fun d => d.path) := map_eq_of_map_ok hmethods fun d f hf => by
        rw [toDeclared_of_withMethods hf]
    _ = s.ordered.map Prod.fst := map_eq_of_map_ok hscan fun _ _ => path_of_scan

-- ---------------------------------------------------------------------------
-- Templates and usages of scanned programs
-- ---------------------------------------------------------------------------

theorem known_iff {n : Text} : p.known n = true ↔ ∃ t f, p.templates.get? n = some (t, f) := by
  rw [known, Table.contains, Option.isSome_iff_exists, Prod.exists]

theorem Scanned.mem_of_get? (h : p.Scanned) {n : Text} {t : Template} {f : SourceFile}
    (hg : p.templates.get? n = some (t, f)) : f ∈ p.files ∧ t ∈ f.templates ∧ t.className = n := by
  have hm := Table.mem_of_get? hg
  rw [h.templates] at hm
  obtain ⟨f, hf, hm⟩ := List.mem_flatMap.mp (Table.mem_of_mem_ofList hm)
  obtain ⟨t, ht, heq⟩ := List.mem_map.mp hm
  cases heq
  exact ⟨hf, ht, rfl⟩

theorem Scanned.of_get? (h : p.Scanned) {n : Text} {t : Template} {f : SourceFile}
    (hg : p.templates.get? n = some (t, f)) : t.IsDeclared ∧ t.className = n := by
  obtain ⟨hf, ht, hname⟩ := h.mem_of_get? hg
  exact ⟨h.declared f hf t ht, hname⟩

theorem isUsage_of_usagesIn {known : Text → Bool} {f : SourceFile} {k : Text} {e : TypeExpr}
    (h : (k, e) ∈ usagesIn known f) : IsUsage k e := by
  unfold usagesIn at h
  split at h
  · obtain ⟨t, -, h⟩ := List.mem_flatMap.mp h
    exact (Usage.isUsage_of_findKnown (Table.mem_filter.mp h).1).1
  · exact (Usage.isUsage_of_findKnown h).1

theorem Scanned.spells (h : p.Scanned) {k : Text} {e : TypeExpr}
    (hu : (k, e) ∈ p.usages.entries) : Spells k e := by
  obtain ⟨forced, hforced, husages⟩ := h.usages
  rw [husages] at hu
  rcases List.mem_append.mp ((Table.mem_insertAllNew hu).resolve_right List.not_mem_nil) with hm | hm
  · obtain ⟨e, he, heq⟩ := List.mem_map.mp hm
    cases heq
    exact spells_render (hforced e he)
  · obtain ⟨f, -, hm⟩ := List.mem_flatMap.mp hm
    exact (isUsage_of_usagesIn hm).spells

/-- No usage of a file is lost: whatever took its text before spells the same expression. -/
theorem Scanned.mem_usages (h : p.Scanned) {f : SourceFile} (hf : f ∈ p.files) {k : Text}
    {e : TypeExpr} (hu : (k, e) ∈ usagesIn p.known f) : (k, e) ∈ p.usages.entries := by
  obtain ⟨forced, hforced, husages⟩ := h.usages
  have hall : (k, e) ∈ forced.map (fun e => (e.render, e)) ++ p.files.flatMap (usagesIn p.known) :=
    List.mem_append_right _ (List.mem_flatMap.mpr ⟨f, hf, hu⟩)
  have hkey : k ∈ p.usages.keys := by
    rw [husages, Table.mem_keys_insertAllNew]
    exact .inl (List.mem_map_of_mem hall)
  obtain ⟨e', he'⟩ := Table.mem_keys.mp hkey
  rwa [(isUsage_of_usagesIn hu).spells.unique (h.spells he')]

-- ---------------------------------------------------------------------------
-- Scanning given snapshots
-- ---------------------------------------------------------------------------

theorem withMethods_eq : Declared.withMethods = fun f =>
    match f.methods with
    | .ok ms =>
      .ok { f with methods :=
        if ms.values.Pairwise fun a b => a.span.start ≤ b.span.start then ms.values else
          ms.values.mergeSort fun a b => a.span.start ≤ b.span.start }
    | .error e => .error (.ofFault f.content (some f.path) e) := by
  funext f
  unfold Declared.withMethods
  cases f.methods with
  | error e => rfl
  | ok ms =>
    simp only
    split
    · rename_i h
      rw [List.mergeSort_of_pairwise (by simpa using h)]
    · rfl

theorem exists_ok_of_decide {ε α : Type} {r : Except ε α} {P : α → Prop} [DecidablePred P]
    (h : (match r with | .ok a => decide (P a) | .error _ => false) = true) :
    ∃ a, r = .ok a ∧ P a := by
  cases r with
  | ok a => exact ⟨a, rfl, of_decide_eq_true h⟩
  | error e => cases h

end Monomorph.Program
