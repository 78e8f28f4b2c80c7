import Monomorph.Proofs.Levels

/-!
# The work-list of expansion

Expansion level by level is what a work-list does that takes instances from its front and puts
what their classes need behind its end. It comes to an end whatever the templates are, since what
lies beyond the last level is not expanded. Main result: an instance gets a class just when its
distance is at most one more than `maxDepth`, and a comment instead of one when it is just that
(`classes_exact`).
-/

namespace Monomorph.Expansion

variable {p : Program} {resolver : Resolver} {extension : Text}

-- ---------------------------------------------------------------------------
-- Runs of the work-list
-- ---------------------------------------------------------------------------

/-- Instances to be looked at with their depths, the texts of those met, and the classes made. -/
structure WorkList where
  pending : List (TypeExpr × Nat)
  seen : List Text
  made : List Made

namespace WorkList

/-- Takes the instance at the front. What its class needs goes behind all that is pending, one
deeper; beyond `maxDepth` nothing is needed any more. -/
def step (p : Program) (resolver : Resolver) (extension : Text) (w : WorkList) :
    Option WorkList :=
  match w.pending with
  | [] => none
  | (e, depth) :: pending =>
    if isFresh p w.seen e then
      let last := decide (maxDepth < depth)
      some ⟨pending ++ (if last then [] else found p e).map (·, depth + 1), e.render :: w.seen,
        w.made ++ (classFor? p resolver extension last e).toList⟩
    else some { w with pending }

inductive Runs (p : Program) (resolver : Resolver) (extension : Text) :
    WorkList → WorkList → Prop
  | done {w : WorkList} : Runs p resolver extension w w
  | step {u v w : WorkList} : step p resolver extension u = some v →
      Runs p resolver extension v w → Runs p resolver extension u w

theorem Runs.trans {u v w : WorkList} (h : Runs p resolver extension u v)
    (h' : Runs p resolver extension v w) : Runs p resolver extension u w := by
  induction h with
  | done => exact h'
  | step hs _ ih => exact .step hs (ih h')

/-- All instances of one depth stand in front of those one deeper, so they are taken as a level. -/
theorem runs_level (d : Nat) (needs : List TypeExpr) (w : Progress) (made : List Made) :
    let w' := needs.foldl (makeClass p resolver extension (decide (maxDepth < d))) w
    Runs p resolver extension
      ⟨needs.map (·, d) ++ w.next.map (·, d + 1), w.seen, made ++ w.made⟩
      ⟨w'.next.map (·, d + 1), w'.seen, made ++ w'.made⟩ := by
  induction needs generalizing w with
  | nil => exact .done
  | cons e es ih =>
    refine .step ?_ (ih (makeClass p resolver extension (decide (maxDepth < d)) w e))
    cases hf : isFresh p w.seen e with
    | true =>
      rw [makeClass_fresh hf]
      simp only [step, List.map_cons, List.cons_append, hf, if_true, List.map_append,
        List.append_assoc]
    | false =>
      rw [makeClass_skip hf]
      simp only [step, List.map_cons, List.cons_append, hf, Bool.false_eq_true, if_false]

theorem runs_levels (levels d : Nat) (hd : d + levels = maxDepth + 1) (seen : List Text)
    (needs : List TypeExpr) (made : List Made) :
    ∃ seen', Runs p resolver extension ⟨needs.map (·, d), seen, made⟩
      ⟨[], seen', made ++ makeClasses p resolver extension levels seen needs⟩ := by
  induction levels generalizing d seen needs made with
  | zero =>
    have hlast : decide (maxDepth < d) = true := decide_eq_true (by omega)
    have hlevel : Runs p resolver extension _ _ := runs_level d needs ⟨seen, [], []⟩ made
    simp only [List.map_nil, List.append_nil, hlast, foldl_makeClass, if_true] at hlevel
    rw [makeClasses, foldl_makeClass]
    exact ⟨_, hlevel⟩
  | succ levels ih =>
    have hlast : decide (maxDepth < d) = false := decide_eq_false (by omega)
    have hlevel : Runs p resolver extension _ _ := runs_level d needs ⟨seen, [], []⟩ made
    simp only [List.map_nil, List.append_nil, hlast] at hlevel
    obtain ⟨seen', hrest⟩ := ih (d + 1) (by omega)
      (needs.foldl (makeClass p resolver extension false) ⟨seen, [], []⟩).seen
      (needs.foldl (makeClass p resolver extension false) ⟨seen, [], []⟩).next
      (made ++ (needs.foldl (makeClass p resolver extension false) ⟨seen, [], []⟩).made)
    rw [makeClasses, ← List.append_assoc]
    exact ⟨seen', hlevel.trans hrest⟩

end WorkList

-- ---------------------------------------------------------------------------
-- A growing program
-- ---------------------------------------------------------------------------

/-- A template that needs ever larger instances of itself, and a file that asks for one. -/
def growing : Snapshot where
  files := ⟨[("Grow.peak", "class Grow<T> { Grow<List<T>> more; }"),
    ("Main.peak", "class Main { Grow<A> first; }")]⟩

structure IsGrown (p : Program) (t : Template) (f main : SourceFile) : Prop where
  scan : Program.scan growing = .ok p
  templates : p.templates.entries = [("Grow".toList, t, f)]
  path : f.path = "Grow.peak"
  parameters : t.parameters = ["T".toList]
  text : t.header ++ t.body = " { Grow<List<T>> more; }"
  usages : p.usages.values = [⟨"Grow", [⟨"A", []⟩]⟩]
  methods : ∀ g ∈ p.files, g.methods = []
  mem : main ∈ p.files
  mainPath : main.path = "Main.peak"
  plain : main.isTemplateFile = false
  stripped : main.stripped = "class Main { Grow<A> first; }"

theorem exists_isGrown : ∃ p t f main, IsGrown p t f main := by
  have hordered : growing.ordered = growing.files.entries :=
    List.mergeSort_of_pairwise (by decide +kernel)
  obtain ⟨p, hp, htemplates, htexts, husages, hmethods, main, hmem, hmain⟩ :
      ∃ p, Program.scan growing = .ok p ∧
        p.templates.entries.map (fun e => (e.1, e.2.2.path)) =
          [("Grow".toList, "Grow.peak".toList)] ∧
        (∀ e ∈ p.templates.entries, e.2.1.parameters = ["T".toList] ∧
          e.2.1.header ++ e.2.1.body = " { Grow<List<T>> more; }".toList) ∧
        p.usages.values = [⟨"Grow", [⟨"A", []⟩]⟩] ∧
        (∀ g ∈ p.files, g.methods.length = 0) ∧
        ∃ main ∈ p.files, main.path = "Main.peak".toList ∧ main.isTemplateFile = false ∧
          main.stripped = "class Main { Grow<A> first; }".toList := by
    refine Program.exists_ok_of_decide ?_
    rw [Program.scan, hordered, Program.withMethods_eq]
    decide +kernel
  obtain ⟨⟨n, t, f⟩, hentries, heq⟩ := List.map_eq_singleton_iff.mp htemplates
  obtain ⟨rfl, hpath⟩ := Prod.mk.inj heq
  obtain ⟨hparameters, htext⟩ := htexts _ (hentries ▸ List.mem_singleton_self _)
  exact ⟨p, t, f, main, hp, hentries, hpath, hparameters, htext, husages,
    fun g hg => List.eq_nil_of_length_eq_zero (hmethods g hg), hmem, hmain.1, hmain.2.1,
    hmain.2.2⟩

/-- The growing program needs `Grow` of an `A` in `n` lists at level `n`. -/
def grown (n : Nat) : TypeExpr :=
  ⟨"Grow", [n.repeat (fun e => ⟨"List", [e]⟩) ⟨"A", []⟩]⟩

namespace IsGrown

variable {t : Template} {f main : SourceFile}

theorem known (h : IsGrown p t f main) : p.known = fun n => n == "Grow".toList := by
  funext n
  rw [Program.known, Table.contains, Table.get?, h.templates, List.lookup_cons]
  cases n == "Grow".toList <;> rfl

theorem roots (h : IsGrown p t f main) : roots p = [grown 0] := by
  have hnone : methodNeeds p = [] := by
    refine List.flatMap_eq_nil_iff.mpr fun g hg => ?_
    rw [expandFile, concreteMethods, h.methods g (List.mem_filter.mp hg).1]
    rfl
  rw [Expansion.roots, h.usages, hnone]
  rfl

theorem get? (h : IsGrown p t f main) : p.templates.get? "Grow" = some (t, f) := by
  rw [Table.get?, h.templates]
  rfl

theorem needs (h : IsGrown p t f main) {n : Nat} (hn : n ≤ maxDepth) :
    (instantiate p t f (grown n).args).needs = [grown (n + 1)] := by
  have hfile : f ∈ p.files := ((Program.scanned h.scan).mem_of_get? h.get?).1
  have hbody : classBody p t f = t.body := by
    rw [classBody, SourceFile.methodsOf, h.methods f hfile]
    rfl
  have hneeds : ∀ n ≤ maxDepth, (Instance.flatten (fun n => n == "Grow".toList)
      (Substitution.substitute " { Grow<List<T>> more; }"
        (Instance.bindings ["T".toList] (grown n).args))).needs = [grown (n + 1)] := by
    decide +kernel
  rw [instantiate, Instance.ofTemplate, if_neg (by rw [h.parameters]; exact not_not_intro rfl),
    Option.getD_some, hbody, Instance.specialized, h.text, h.parameters, h.known]
  exact hneeds n hn

theorem reachedIn_iff (h : IsGrown p t f main) {n : Nat} (hn : n ≤ maxDepth + 1) {e : TypeExpr} :
    ReachedIn p n e ↔ e = grown n := by
  induction n generalizing e with
  | zero =>
    constructor
    · rintro ⟨hroot⟩
      rw [h.roots] at hroot
      exact List.mem_singleton.mp hroot
    · rintro rfl
      exact .root (by rw [h.roots]; exact List.mem_singleton_self _)
  | succ n ih =>
    constructor
    · rintro ⟨⟩
      rename_i x hx hfinds
      obtain rfl := (ih (by omega)).mp hx
      obtain ⟨t', f', hget, he⟩ := hfinds
      cases h.get?.symm.trans hget
      rw [h.needs (by omega)] at he
      exact List.mem_singleton.mp he
    · rintro rfl
      refine .step ((ih (by omega)).mpr rfl) ⟨t, f, h.get?, ?_⟩
      rw [h.needs (by omega)]
      exact List.mem_singleton_self _

theorem isDistance (h : IsGrown p t f main) {n : Nat} (hn : n ≤ maxDepth + 1) :
    IsDistance p n (grown n) := by
  have hne : ∀ n ≤ maxDepth + 1, ∀ m < n, grown n ≠ grown m := by decide +kernel
  refine ⟨(h.reachedIn_iff hn).mpr rfl, fun m hm hreached => ?_⟩
  exact hne n hn m hm ((h.reachedIn_iff (by omega)).mp hreached)

end IsGrown

-- ---------------------------------------------------------------------------
-- Classes and distances
-- ---------------------------------------------------------------------------

theorem mem_classes (hp : p.Scanned) {m : Made} :
    m ∈ classes p resolver extension ↔
      ∃ n ≤ maxDepth + 1, IsDistance p n m.expr ∧
        classFor? p resolver extension (n == maxDepth + 1) m.expr = some m := by
  rw [classes, mem_makeClasses hp Level.start]
  simp only [Nat.zero_add]

theorem content_of_mem_classes (hp : p.Scanned) {m : Made} (hm : m ∈ classes p resolver extension) :
    ∃ t f n, p.templates.get? m.expr.name = some (t, f) ∧
      m.path = classPath resolver extension f m.expr.mangle ∧
      n ≤ maxDepth + 1 ∧ IsDistance p n m.expr ∧
      m.content =
        if n = maxDepth + 1 then depthComment m.expr else (instantiate p t f m.expr.args).text := by
  obtain ⟨n, hn, hdist, hclass⟩ := (mem_classes hp).mp hm
  obtain ⟨⟨t, f⟩, hg, heq⟩ := Option.map_eq_some_iff.mp hclass
  have hpath := congrArg Made.path heq
  have hcontent := congrArg Made.content heq
  simp only [beq_iff_eq] at hpath hcontent
  exact ⟨t, f, n, hg, hpath.symm, hn, hdist, hcontent.symm⟩

theorem exists_mem_classes (hp : p.Scanned) {e : TypeExpr} :
    (∃ m ∈ classes p resolver extension, m.expr = e) ↔
      p.known e.name = true ∧ ∃ n ≤ maxDepth + 1, IsDistance p n e := by
  constructor
  · rintro ⟨m, hm, rfl⟩
    obtain ⟨n, hn, hdist, hclass⟩ := (mem_classes hp).mp hm
    exact ⟨known_of_classFor? hclass, n, hn, hdist⟩
  · rintro ⟨hk, n, hn, hdist⟩
    obtain ⟨t, f, hg⟩ := Program.known_iff.mp hk
    refine ⟨⟨e, classPath resolver extension f e.mangle,
      if n == maxDepth + 1 then depthComment e else (instantiate p t f e.args).text⟩,
      (mem_classes hp).mpr ⟨n, hn, hdist, ?_⟩, rfl⟩
    rw [classFor?, hg]
    rfl

/-- For every program that scans without errors: the outcomes are those of the files and one for
each class, and the work-list that starts with what the files ask for comes to an end with these
classes. An expression gets a class just when it has a template and a distance of at most one more
than `maxDepth`. The class is the comment on the depth just when the distance is one more than
`maxDepth`, and else what its template gives. -/
theorem classes_exact {s : Snapshot} (h : Program.scan s = .ok p) (resolver : Resolver)
    (extension : Text) :
    run s resolver extension =
      p.files.map (fileOutcome p resolver) ++ (classes p resolver extension).map Made.outcome ∧
    (∃ seen, WorkList.Runs p resolver extension ⟨(roots p).map (·, 0), [], []⟩
      ⟨[], seen, classes p resolver extension⟩) ∧
    (∀ e, (∃ m ∈ classes p resolver extension, m.expr = e) ↔
      p.known e.name = true ∧ ∃ n ≤ maxDepth + 1, IsDistance p n e) ∧
    ∀ m ∈ classes p resolver extension, ∃ t f,
      p.templates.get? m.expr.name = some (t, f) ∧
      m.path = classPath resolver extension f m.expr.mangle ∧
      (m.content = depthComment m.expr ↔ IsDistance p (maxDepth + 1) m.expr) ∧
      (m.content = (instantiate p t f m.expr.args).text ↔ ¬IsDistance p (maxDepth + 1) m.expr) := by
  have hp := Program.scanned h
  refine ⟨by rw [run, h]; rfl, WorkList.runs_levels (maxDepth + 1) 0 (by omega) [] (roots p) [],
    fun e => exists_mem_classes hp, fun m hm => ?_⟩
  obtain ⟨t, f, n, hg, hpath, -, hdist, hcontent⟩ := content_of_mem_classes hp hm
  have hne : (instantiate p t f m.expr.args).text ≠ depthComment m.expr :=
    text_instantiate_ne (hp.of_get? hg).1 m.expr
  refine ⟨t, f, hg, hpath, ?_⟩
  by_cases hn : n = maxDepth + 1
  · subst hn
    rw [if_pos rfl] at hcontent
    exact ⟨⟨fun _ => hdist, fun _ => hcontent⟩,
      ⟨fun h => absurd (h.symm.trans hcontent) hne, fun h => absurd hdist h⟩⟩
  · rw [if_neg hn] at hcontent
    have hother : ¬IsDistance p (maxDepth + 1) m.expr := fun h => hn (hdist.unique h)
    exact ⟨⟨fun h => absurd (hcontent.symm.trans h) hne, fun h => absurd h hother⟩,
      ⟨fun _ => hother, fun _ => hcontent⟩⟩

theorem classes_exact_growing : ∃ p, Program.scan growing = .ok p ∧
    (∃ m ∈ classes p .ok outputExtension, m.expr = grown 0 ∧ m.content ≠ depthComment m.expr) ∧
    IsDistance p (maxDepth + 1) (grown (maxDepth + 1)) ∧
    ∃ m ∈ classes p .ok outputExtension, m.expr = grown (maxDepth + 1) ∧
      m.content = depthComment m.expr := by
  obtain ⟨p, t, f, main, hgrown⟩ := exists_isGrown
  obtain ⟨-, -, hgets, hclass⟩ := classes_exact hgrown.scan .ok outputExtension
  have hknown : p.known "Grow" = true := by
    rw [hgrown.known]
    rfl
  have hroot := hgrown.isDistance (Nat.zero_le _)
  have hlast := hgrown.isDistance (Nat.le_refl (maxDepth + 1))
  obtain ⟨m, hm, he⟩ := (hgets (grown 0)).mpr ⟨hknown, 0, Nat.zero_le _, hroot⟩
  obtain ⟨l, hl, hel⟩ := (hgets _).mpr ⟨hknown, _, Nat.le_refl _, hlast⟩
  obtain ⟨-, -, -, -, hcomment, -⟩ := hclass m hm
  obtain ⟨-, -, -, -, hcomment', -⟩ := hclass l hl
  refine ⟨p, hgrown.scan, ⟨m, hm, he, fun h => ?_⟩, hlast, l, hl, hel, ?_⟩
  · cases hroot.unique (he ▸ hcomment.mp h)
  · exact hcomment'.mpr (hel ▸ hlast)

end Monomorph.Expansion
