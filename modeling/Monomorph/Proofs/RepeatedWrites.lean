import Monomorph.Proofs.OutputWrites

/-!
# Writing outputs once more

Outputs are written one after the other. When they are written a second time, into the tree that is
left, all goes as it went the first time, unless it ended at a companion that could not be encoded
(`addAll_again`). In that case a new companion is left that is empty, and only then
(`finished_again_iff`).
-/

namespace Monomorph.Compilation

open Path FileTree

variable {t T : FileTree} {cwd path content name : Text} {c : Configuration}

-- ---------------------------------------------------------------------------
-- The paths of outputs
-- ---------------------------------------------------------------------------

def IsOutputPath (p : Text) : Prop :=
  ∃ dir stem, Denotes p (dir ++ [stem ++ outputExtension])

theorem isFileName_companion (h : IsFileName name) : IsFileName (name ++ metaSuffix) :=
  isFileName_append h.noSlash (by decide) (by decide)

theorem IsOutputPath.effect (h : IsOutputPath path) (cwd : Text) (c : Configuration)
    (content : Text) (t : FileTree) :
    Effect c path (resolve cwd path) (resolve cwd (path ++ metaSuffix)) (Utf8.encode content)
      (written cwd c path content) t := by
  obtain ⟨dir, stem, hp⟩ := h
  have hname := isFileName_companion (hp.names _ (List.mem_concat_self ..))
  rw [hp.resolve, (hp.append hname).resolve]
  exact effect_written hp hname cwd c content t

theorem IsOutputPath.exists_place (h : IsOutputPath path) (cwd : Text) :
    ∃ dir stem, resolve cwd path = dir ++ [stem ++ outputExtension] := by
  obtain ⟨dir, stem, hp⟩ := h
  exact ⟨dir, stem, hp.resolve cwd⟩

theorem IsOutputPath.suffix (h : IsOutputPath path) : outputExtension <:+ path := by
  obtain ⟨dir, stem, hp⟩ := h
  obtain ⟨d, -, -, rfl⟩ := hp.exists_base
  exact (List.suffix_append ..).trans (List.suffix_append ..)

theorem IsOutputPath.exists_companion (h : IsOutputPath path) (cwd : Text) :
    ∃ dir stem, resolve cwd (path ++ metaSuffix) = dir ++ [stem ++ metaSuffix] := by
  obtain ⟨dir, stem, hp⟩ := h
  have hname := isFileName_companion (hp.names _ (List.mem_concat_self ..))
  exact ⟨dir, stem ++ outputExtension, (hp.append hname).resolve cwd⟩

theorem IsOutputPath.place_ne_nil (h : IsOutputPath path) (cwd : Text) : resolve cwd path ≠ [] := by
  obtain ⟨dir, stem, heq⟩ := h.exists_place cwd
  simp [heq]

theorem IsOutputPath.companion_ne_nil (h : IsOutputPath path) (cwd : Text) :
    resolve cwd (path ++ metaSuffix) ≠ [] := by
  obtain ⟨dir, stem, heq⟩ := h.exists_companion cwd
  simp [heq]

theorem IsOutputPath.companion_ne {path' : Text} (h : IsOutputPath path) (h' : IsOutputPath path')
    (cwd : Text) : resolve cwd (path ++ metaSuffix) ≠ resolve cwd path' := by
  obtain ⟨dir, stem, heq⟩ := h.exists_companion cwd
  obtain ⟨dir', stem', heq'⟩ := h'.exists_place cwd
  rw [heq, heq']
  intro hplaces
  have hnames := List.singleton_inj.mp (List.append_inj_right' hplaces rfl)
  have hlast := congrArg List.getLast? hnames
  rw [List.getLast?_append, List.getLast?_append] at hlast
  cases hlast

-- ---------------------------------------------------------------------------
-- One output after the other
-- ---------------------------------------------------------------------------

/-- How writing ends, with an error of the caller or a report, and the tree that it leaves. -/
def ending : Except (FileError × Writing) Writing → Except FileError Report × FileTree
  | .error (e, w) => (.error e, w.tree)
  | .ok w => (.ok w.report, w.tree)

def noted (report : Report) (path : Text) : Option FileError → Except FileError Report
  | none => .ok report
  | some e =>
    if isMisuse e then .error e
    else .ok (report.add (.ofIssue (.unwritable path e.message) none (some path) []))

section Run

variable {env : Environment} {showBar : Bool} {w v : Writing}
  {outputs more : List (Option Text × Text × Text)} {source : Option Text}

theorem ending_add (env : Environment) (c : Configuration) (showBar : Bool) (w : Writing)
    (source : Option Text) (path content : Text) :
    ending (w.add env c showBar source path content) =
      (noted w.report path (written env.cwd c path content w.tree).1,
        (written env.cwd c path content w.tree).2) := by
  unfold Writing.add written
  cases writeOutput w.tree env.cwd c path content with
  | ok r => rfl
  | error r =>
    obtain ⟨e, t⟩ := r
    simp only [ended, noted]
    cases isMisuse e <;> rfl

theorem addAll_cons (env : Environment) (c : Configuration) (showBar : Bool) (w : Writing)
    (source : Option Text) (path content : Text) (more : List (Option Text × Text × Text)) :
    (∃ e, noted w.report path (written env.cwd c path content w.tree).1 = .error e ∧
      ending (w.addAll env c showBar ((source, path, content) :: more)) =
        (.error e, (written env.cwd c path content w.tree).2)) ∨
    ∃ w' : Writing, noted w.report path (written env.cwd c path content w.tree).1 = .ok w'.report ∧
      w'.tree = (written env.cwd c path content w.tree).2 ∧
      w.addAll env c showBar ((source, path, content) :: more) = w'.addAll env c showBar more := by
  have hending := ending_add env c showBar w source path content
  rw [Writing.addAll]
  cases hadd : w.add env c showBar source path content with
  | error r =>
    rw [hadd] at hending
    exact .inl ⟨r.1, (congrArg Prod.fst hending).symm, congrArg (Prod.mk _ ·.2) hending⟩
  | ok w' =>
    rw [hadd] at hending
    exact .inr ⟨w', (congrArg Prod.fst hending).symm, congrArg Prod.snd hending, rfl⟩

theorem ending_singleton (env : Environment) (c : Configuration) (showBar : Bool) (w : Writing)
    (source : Option Text) (path content : Text) :
    ending (w.addAll env c showBar [(source, path, content)]) =
      (noted w.report path (written env.cwd c path content w.tree).1,
        (written env.cwd c path content w.tree).2) := by
  rw [← ending_add, Writing.addAll]
  cases w.add env c showBar source path content <;> rfl

/-- Writing has ended although paths can be taken, which is at a companion. -/
def EndsTorn (outputs : List (Option Text × Text × Text)) (r : Except FileError Report) : Prop :=
  (∃ o ∈ outputs, '\x00' ∉ o.2.1) ∧ r = .error .unencodable

theorem noted_of_isTorn {e : Option FileError} (h : IsTorn path e) (report : Report) :
    noted report path e = .error .unencodable := by
  rw [h.2]
  rfl

theorem eq_of_noted {e : Option FileError} {e' : FileError} {report : Report}
    (h : noted report path e = .error e') : e = some e' := by
  cases e with
  | none => cases h
  | some e =>
    rw [noted] at h
    split at h
    · cases h
      rfl
    · cases h

/-- Writing outputs makes directories, writes to the places of outputs and creates companions. They
are not empty unless writing ends there. -/
theorem grows_addAll (env : Environment) (c : Configuration) (showBar : Bool)
    (h : ∀ o ∈ outputs, IsOutputPath o.2.1) (w : Writing) :
    Grows
      (fun q b => (∃ o ∈ outputs, q = resolve env.cwd (o.2.1 ++ metaSuffix)) ∧
        (b = [] → EndsTorn outputs (ending (w.addAll env c showBar outputs)).1))
      (fun q => ∃ o ∈ outputs, q = resolve env.cwd o.2.1)
      w.tree (ending (w.addAll env c showBar outputs)).2 := by
  induction outputs generalizing w with
  | nil => exact .refl
  | cons o more ih =>
    obtain ⟨hpath, hpaths⟩ := List.forall_mem_cons.mp h
    obtain ⟨source, path, content⟩ := o
    have hgrows := (hpath.effect env.cwd c content w.tree).grows (hpath.place_ne_nil _)
      (hpath.companion_ne_nil _)
    obtain ⟨e, hnoted, hend⟩ | ⟨w', hnoted, htree, hmore⟩ :=
      addAll_cons env c showBar w source path content more
    · rw [hend]
      refine hgrows.mono ?_ ?_
      · rintro q b ⟨rfl, hempty⟩
        refine ⟨⟨_, List.mem_cons_self .., rfl⟩, fun hb => ?_⟩
        refine ⟨⟨_, List.mem_cons_self .., (hempty hb).1⟩, ?_⟩
        rw [← hnoted, noted_of_isTorn (hempty hb)]
      · rintro q rfl
        exact ⟨_, List.mem_cons_self .., rfl⟩
    · rw [hmore]
      refine .trans (hgrows.mono ?_ ?_) (htree ▸ (ih hpaths w').mono ?_ ?_)
      · rintro q b ⟨rfl, hempty⟩
        refine ⟨⟨_, List.mem_cons_self .., rfl⟩, fun hb => ?_⟩
        rw [noted_of_isTorn (hempty hb)] at hnoted
        cases hnoted
      · rintro q rfl
        exact ⟨_, List.mem_cons_self .., rfl⟩
      · rintro q b ⟨⟨o, ho, rfl⟩, hempty⟩
        refine ⟨⟨o, List.mem_cons_of_mem _ ho, rfl⟩, fun hb => ?_⟩
        obtain ⟨⟨o', ho', hnul⟩, herror⟩ := hempty hb
        exact ⟨⟨o', List.mem_cons_of_mem _ ho', hnul⟩, herror⟩
      · rintro q ⟨o, ho, rfl⟩
        exact ⟨o, List.mem_cons_of_mem _ ho, rfl⟩

theorem exists_empty_companion (h : ∀ o ∈ outputs, IsOutputPath o.2.1)
    (hnul : ∀ o ∈ outputs, '\x00' ∉ o.2.1)
    (herror : (ending (w.addAll env c showBar outputs)).1 = .error .unencodable) :
    ∃ o ∈ outputs, w.tree.node? (resolve env.cwd (o.2.1 ++ metaSuffix)) = none ∧
      (ending (w.addAll env c showBar outputs)).2.node?
        (resolve env.cwd (o.2.1 ++ metaSuffix)) = some (.file []) := by
  induction outputs generalizing w with
  | nil => cases herror
  | cons o more ih =>
    obtain ⟨hpath, hpaths⟩ := List.forall_mem_cons.mp h
    obtain ⟨hfirst, hrest⟩ := List.forall_mem_cons.mp hnul
    obtain ⟨source, path, content⟩ := o
    have heffect := hpath.effect env.cwd c content w.tree
    obtain ⟨e, hnoted, hend⟩ | ⟨w', hnoted, htree, hmore⟩ :=
      addAll_cons env c showBar w source path content more
    · rw [hend] at herror ⊢
      cases herror
      exact ⟨_, List.mem_cons_self .., heffect.companion_of_isTorn (hpath.companion_ne_nil _)
        (hpath.companion_ne hpath _) ⟨hfirst, eq_of_noted hnoted⟩⟩
    · rw [hmore] at herror ⊢
      obtain ⟨o, ho, hnone, hempty⟩ := ih hpaths hrest herror
      have hextends := (heffect.grows (hpath.place_ne_nil _) (hpath.companion_ne_nil _)).extends
      rw [htree] at hnone
      exact ⟨o, List.mem_cons_of_mem _ ho, hextends.none hnone, hempty⟩

theorem noted_again (h : IsOutputPath path) (hreport : v.report = w.report)
    (hu : Again w.tree v.tree T) (hT : Extends (written env.cwd c path content w.tree).2 T) :
    Again (written env.cwd c path content w.tree).2 (written env.cwd c path content v.tree).2 T ∧
      (noted v.report path (written env.cwd c path content v.tree).1 =
        noted w.report path (written env.cwd c path content w.tree).1 ∨
      '\x00' ∉ path ∧
        noted w.report path (written env.cwd c path content w.tree).1 = .error .unencodable) := by
  obtain ⟨hagain, hsame | hstop⟩ := (h.effect env.cwd c content w.tree).again (h.place_ne_nil _)
    (h.companion_ne_nil _) hu hT
  · exact ⟨hagain, .inl (by rw [hsame, hreport])⟩
  · exact ⟨hagain, .inr ⟨hstop.1, noted_of_isTorn hstop _⟩⟩

/-- Outputs that are written into the tree which writing them has left: all goes as it went, unless
it ended at a companion. -/
theorem addAll_again (h : ∀ o ∈ outputs, IsOutputPath o.2.1) (hreport : v.report = w.report)
    (hu : Again w.tree v.tree (ending (w.addAll env c showBar outputs)).2)
    (htorn : ¬EndsTorn outputs (ending (w.addAll env c showBar outputs)).1) :
    (ending (v.addAll env c showBar outputs)).1 = (ending (w.addAll env c showBar outputs)).1 ∧
      ∀ q, (ending (v.addAll env c showBar outputs)).2.node? q =
        (ending (w.addAll env c showBar outputs)).2.node? q := by
  induction outputs generalizing w v with
  | nil => exact ⟨congrArg Except.ok hreport, hu.eq⟩
  | cons o more ih =>
    obtain ⟨hpath, hpaths⟩ := List.forall_mem_cons.mp h
    obtain ⟨source, path, content⟩ := o
    have hsecond := addAll_cons env c showBar v source path content more
    obtain ⟨e, hnoted, hend⟩ | ⟨w', hnoted, htree, hmore⟩ :=
      addAll_cons env c showBar w source path content more
    · -- the first writing ends here
      rw [hend] at hu htorn ⊢
      obtain ⟨hagain, hsame | ⟨hnul, hstop⟩⟩ := noted_again hpath hreport hu (.refl _)
      · rw [hnoted] at hsame
        obtain ⟨e', hnoted', hend'⟩ | ⟨v', hnoted', -, -⟩ := hsecond
        · cases hsame.symm.trans hnoted'
          rw [hend']
          exact ⟨rfl, hagain.eq⟩
        · cases hsame.symm.trans hnoted'
      · exact absurd ⟨⟨_, List.mem_cons_self .., hnul⟩, hnoted.symm.trans hstop⟩ htorn
    · -- it goes on
      rw [hmore] at hu htorn ⊢
      have hextends := (grows_addAll env c showBar hpaths w').extends
      rw [htree] at hextends
      obtain ⟨hagain, hsame | ⟨-, hstop⟩⟩ := noted_again hpath hreport hu hextends
      · rw [hnoted] at hsame
        obtain ⟨e', hnoted', -⟩ | ⟨v', hnoted', htree', hmore'⟩ := hsecond
        · cases hsame.symm.trans hnoted'
        · rw [← htree, ← htree'] at hagain
          rw [hmore']
          refine ih hpaths (Except.ok.inj (hnoted'.symm.trans hsame)) hagain fun hends => htorn ?_
          obtain ⟨⟨o, ho, hnul⟩, herror⟩ := hends
          exact ⟨⟨o, List.mem_cons_of_mem _ ho, hnul⟩, herror⟩
      · cases hnoted.symm.trans hstop

end Run

-- ---------------------------------------------------------------------------
-- Writing all outputs
-- ---------------------------------------------------------------------------

section Finish

variable {env : Environment} {outcomes : List Outcome}

theorem mem_pending {source : Option Text} {path content : Text} :
    (source, path, content) ∈ pending outcomes ↔ .output source path content ∈ outcomes := by
  simp only [pending, List.mem_filterMap]
  constructor
  · rintro ⟨o, ho, heq⟩
    cases o <;> cases heq
    exact ho
  · exact fun h => ⟨_, h, rfl⟩

def reported (env : Environment) (t : FileTree) (r : Report) : Except Escape Nat :=
  (printed env t r).map fun _ => exitErrors

theorem reported_cases (env : Environment) (t : FileTree) (r : Report) :
    (∃ d ∈ r.items, t.leadsRound env.cwd (d.shownFile r.filename) = true ∧
      reported env t r = .error (.circularName (absolute env.cwd (d.shownFile r.filename)))) ∨
    (∀ d ∈ r.items, t.leadsRound env.cwd (d.shownFile r.filename) = false) ∧
      reported env t r = .ok exitErrors := by
  unfold reported printed
  cases hfind : (r.items.map (·.shownFile r.filename)).find? (t.leadsRound env.cwd) with
  | some name =>
    obtain ⟨d, hd, rfl⟩ := List.mem_map.mp (List.mem_of_find?_eq_some hfind)
    exact .inl ⟨d, hd, List.find?_some hfind, rfl⟩
  | none =>
    refine .inr ⟨fun d hd => ?_, rfl⟩
    simpa using List.find?_eq_none.mp hfind _ (List.mem_map_of_mem hd)

theorem reported_ne_exitOk (env : Environment) (t : FileTree) (r : Report) :
    reported env t r ≠ .ok exitOk := by
  intro h
  obtain ⟨d, -, -, heq⟩ | ⟨-, heq⟩ := reported_cases env t r
  · cases heq.symm.trans h
  · cases heq.symm.trans h

def statusOf (env : Environment) (t : FileTree) : Except FileError Report → Except Escape Nat
  | .error e => .error (.path e)
  | .ok report => if report.errorCount = 0 then .ok exitOk else reported env t report

theorem eq_of_statusOf {r : Except FileError Report} {e : FileError}
    (h : statusOf env t r = .error (.path e)) : r = .error e := by
  cases r with
  | ok report =>
    rw [statusOf] at h
    split at h
    · cases h
    · obtain ⟨d, -, -, heq⟩ | ⟨-, heq⟩ := reported_cases env t report
      · cases heq.symm.trans h
      · cases heq.symm.trans h
  | error e' =>
    cases h
    rfl

theorem leadsRound_congr (h : ∀ q, T.node? q = t.node? q) (cwd path : Text) :
    T.leadsRound cwd path = t.leadsRound cwd path := by
  have hfollow (place : List Text) (n : Node) (parts : List Text) :
      T.follow place n parts = t.follow place n parts := by
    induction parts generalizing place n with
    | nil => rfl
    | cons part parts ih => simp only [follow, h, ih]
  simp only [leadsRound, lookup, hfollow]

theorem statusOf_congr (h : ∀ q, T.node? q = t.node? q) (env : Environment)
    (r : Except FileError Report) : statusOf env T r = statusOf env t r := by
  simp only [statusOf, reported, printed, funext (leadsRound_congr h env.cwd)]

def begun (c : Configuration) (t : FileTree) (out : List Note) (outcomes : List Outcome) :
    Writing where
  tree := t
  report := { items := outcomes.filterMap Outcome.problem? }
  out := out ++ if c.verbose then (outcomes.filterMap fun
    | .template path => some path
    | _ => none).map .skippedTemplate else []
  err := []

def showsBar (env : Environment) (c : Configuration) (outcomes : List Outcome) : Bool :=
  !c.verbose && env.terminal.isTty && 1 < (pending outcomes).length

def finished (env : Environment) (c : Configuration) (t : FileTree) (out : List Note)
    (outcomes : List Outcome) : Except FileError Report × FileTree :=
  ending ((begun c t out outcomes).addAll env c (showsBar env c outcomes) (pending outcomes))

theorem hasErrors_eq (r : Report) : r.hasErrors = !decide (r.errorCount = 0) := by
  rw [Report.hasErrors, Report.errorCount, Bool.eq_iff_iff]
  simp [List.countP_eq_zero]

theorem finish_eq (env : Environment) (c : Configuration) (t : FileTree) (out : List Note)
    (outcomes : List Outcome) :
    (finish env c t out outcomes).status =
        statusOf env (finished env c t out outcomes).2 (finished env c t out outcomes).1 ∧
      (finish env c t out outcomes).tree = (finished env c t out outcomes).2 := by
  simp only [finish, finished]
  split
  · rename_i e w hadd
    have hadd : (begun c t out outcomes).addAll env c (showsBar env c outcomes) (pending outcomes) =
      .error (e, w) := hadd
    rw [hadd]
    exact ⟨rfl, rfl⟩
  · rename_i w hadd
    have hadd : (begun c t out outcomes).addAll env c (showsBar env c outcomes) (pending outcomes) =
      .ok w := hadd
    rw [hadd]
    simp only [ending, statusOf, reported]
    rw [hasErrors_eq]
    by_cases hcount : w.report.errorCount = 0
    · simp [hcount]
    · simp only [hcount, decide_false, Bool.not_false, if_true, if_false]
      cases printed env w.tree w.report <;> exact ⟨rfl, rfl⟩

/-- Outputs as a run has them: NUL is in all of the paths or in none. -/
structure AreOutputs (outcomes : List Outcome) : Prop where
  isOutputPath : ∀ {source path content}, .output source path content ∈ outcomes →
    IsOutputPath path
  nul : ∀ {source path content source' path' content'},
    .output source path content ∈ outcomes → .output source' path' content' ∈ outcomes →
    '\x00' ∈ path → '\x00' ∈ path'

theorem AreOutputs.of_pending (h : AreOutputs outcomes) :
    ∀ o ∈ pending outcomes, IsOutputPath o.2.1 :=
  fun _ ho => h.isOutputPath (mem_pending.mp ho)

theorem AreOutputs.suffix_of_place (h : AreOutputs outcomes) {q : List Text} {name cwd : Text}
    (hq : ∃ o ∈ pending outcomes, q ++ [name] = resolve cwd o.2.1) : outputExtension <:+ name := by
  obtain ⟨o, ho, heq⟩ := hq
  obtain ⟨dir, stem, hplace⟩ := (h.of_pending o ho).exists_place cwd
  rw [List.singleton_inj.mp (List.append_inj_right' (heq.trans hplace) rfl)]
  exact List.suffix_append ..

theorem AreOutputs.suffix_of_companion (h : AreOutputs outcomes) {q : List Text} {name cwd : Text}
    (hq : ∃ o ∈ pending outcomes, q ++ [name] = resolve cwd (o.2.1 ++ metaSuffix)) :
    metaSuffix <:+ name := by
  obtain ⟨o, ho, heq⟩ := hq
  obtain ⟨dir, stem, hplace⟩ := (h.of_pending o ho).exists_companion cwd
  rw [List.singleton_inj.mp (List.append_inj_right' (heq.trans hplace) rfl)]
  exact List.suffix_append ..

/-- An output has a new companion, and that is empty. -/
def HasEmptyCompanion (cwd : Text) (outcomes : List Outcome) (t u : FileTree) : Prop :=
  ∃ source path content, .output source path content ∈ outcomes ∧
    t.node? (resolve cwd (path ++ metaSuffix)) = none ∧
    u.node? (resolve cwd (path ++ metaSuffix)) = some (.file [])

theorem grows_finished (env : Environment) (c : Configuration) (h : AreOutputs outcomes)
    (t : FileTree) (out : List Note) :
    Grows
      (fun q b => (∃ o ∈ pending outcomes, q = resolve env.cwd (o.2.1 ++ metaSuffix)) ∧
        (b = [] → EndsTorn (pending outcomes) (finished env c t out outcomes).1))
      (fun q => ∃ o ∈ pending outcomes, q = resolve env.cwd o.2.1)
      t (finished env c t out outcomes).2 :=
  grows_addAll env c _ h.of_pending (begun c t out outcomes)

theorem endsTorn_iff (h : AreOutputs outcomes) (t : FileTree) (out : List Note) :
    EndsTorn (pending outcomes) (finished env c t out outcomes).1 ↔
      HasEmptyCompanion env.cwd outcomes t (finished env c t out outcomes).2 := by
  constructor
  · rintro ⟨⟨o, ho, hnul⟩, herror⟩
    have hnone : ∀ o' ∈ pending outcomes, '\x00' ∉ o'.2.1 :=
      fun o' ho' hmem => hnul (h.nul (mem_pending.mp ho') (mem_pending.mp ho) hmem)
    obtain ⟨⟨source, path, content⟩, ho, hnew⟩ := exists_empty_companion h.of_pending hnone herror
    exact ⟨source, path, content, mem_pending.mp ho, hnew⟩
  · rintro ⟨source, path, content, ho, hnone, hempty⟩
    refine ((grows_finished env c h t out).isCreated ?_ hnone hempty).2 rfl
    rintro ⟨o, ho', heq⟩
    exact (h.isOutputPath ho).companion_ne (h.of_pending o ho') env.cwd heq

theorem finished_again_iff (h : AreOutputs outcomes) (t : FileTree) (out : List Note) :
    (statusOf env (finished env c (finished env c t out outcomes).2 out outcomes).2
          (finished env c (finished env c t out outcomes).2 out outcomes).1 =
        statusOf env (finished env c t out outcomes).2 (finished env c t out outcomes).1 ∧
      ∀ q, (finished env c (finished env c t out outcomes).2 out outcomes).2.node? q =
        (finished env c t out outcomes).2.node? q) ↔
      ¬HasEmptyCompanion env.cwd outcomes t (finished env c t out outcomes).2 := by
  rw [← endsTorn_iff h]
  constructor
  · rintro ⟨hstatus, hnodes⟩ htorn
    -- the second run ends at a companion too, and that is a new one
    have herror := htorn.2
    rw [herror] at hstatus
    have htorn' := (endsTorn_iff h _ out).mp ⟨htorn.1, eq_of_statusOf hstatus⟩
    obtain ⟨source, path, content, -, hnone, hempty⟩ := htorn'
    rw [hnodes, hnone] at hempty
    cases hempty
  · intro htorn
    have hreport : (begun c (finished env c t out outcomes).2 out outcomes).report =
      (begun c t out outcomes).report := rfl
    obtain ⟨hsame, hnodes⟩ := addAll_again h.of_pending hreport (Again.start t _) htorn
    exact ⟨(statusOf_congr hnodes env _).trans (congrArg (statusOf env _) hsame), hnodes⟩

end Finish

end Monomorph.Compilation
