import Monomorph.Proofs.ReplacementLaws
import Monomorph.Proofs.WorkList

/-!
# References to generated classes

Concrete names come into the output at three places: in files, in the concrete methods that are
put into files, and in generated classes. What an outcome holds is put together from the texts that
were flattened for it (`ComposedOf`). Wherever a usage in one of these gave way to a concrete name,
the class of that name is generated, once, at its own place (`exists_class_of_reference`).
-/

namespace Monomorph

-- ---------------------------------------------------------------------------
-- Concrete names in flattened text
-- ---------------------------------------------------------------------------

namespace Instance

variable {known : Text → Bool} {text : Text} {e : TypeExpr}

def pieces (known : Text → Bool) (text : Text) : List Usage.Piece :=
  Usage.piecesFrom
    (Text.longestFirst ((Usage.findKnown known text).map TypeExpr.mangle).entries) false text

theorem flatten_eq_pieces (known : Text → Bool) (text : Text) :
    (pieces known text).flatMap Usage.Piece.before = text ∧
      (flatten known text).text = (pieces known text).flatMap Usage.Piece.after := by
  refine ⟨Usage.flatMap_before_pieces .., ?_⟩
  rw [flatten, Usage.replace_eq, Usage.replaceFrom_eq_pieces, pieces]

/-- Flattening puts the concrete name of `e` in place of a usage of it. -/
def Renames (known : Text → Bool) (text : Text) (e : TypeExpr) : Prop :=
  ∃ k, Spells k e ∧ .put (k, e.mangle) ∈ pieces known text

theorem Renames.found (h : Renames known text e) :
    ∃ k, (k, e) ∈ (Usage.findKnown known text).entries := by
  obtain ⟨k, hspells, hput⟩ := h
  have hrule := Text.mem_longestFirst.mp (Usage.mem_rules_of_put hput)
  obtain ⟨x, hx, -⟩ := Table.mem_map.mp hrule
  obtain rfl := hspells.unique (Usage.isUsage_of_findKnown hx).1.spells
  exact ⟨k, hx⟩

theorem Renames.mem_needs (h : Renames known text e) : e ∈ (flatten known text).needs :=
  mem_needs_flatten.mpr h.found

theorem Renames.isKnown (h : Renames known text e) : known e.name = true := by
  obtain ⟨k, hk⟩ := h.found
  exact (Usage.isUsage_of_findKnown hk).2

end Instance

namespace Expansion

variable {p : Program} {resolver : Resolver} {extension : Text} {text : Text} {e : TypeExpr}

/-- The texts that are flattened on their way into the output: files without templates, concrete
methods of such files, and what follows the declarations of generated classes. -/
inductive Flattened (p : Program) (resolver : Resolver) (extension : Text) : Text → Prop
  | file {f : SourceFile} : f ∈ p.files → f.isTemplateFile = false →
      Flattened p resolver extension f.stripped
  | method {f : SourceFile} {m : GenericMethod} {args : List TypeExpr} :
      f ∈ p.files → f.isTemplateFile = false → m ∈ f.methods →
      args ∈ (p.methodUsages.get? m.key).getD [] → args.length = m.parameters.length →
      Flattened p resolver extension (Instance.specializedMethod m args)
  | made {m : Made} {t : Template} {f : SourceFile} :
      m ∈ classes p resolver extension → p.templates.get? m.expr.name = some (t, f) →
      m.expr.args.length = t.parameters.length →
      m.content = (instantiate p t f m.expr.args).text →
      Flattened p resolver extension (Instance.specialized t m.expr.args (classBody p t f))

theorem mem_methodNeeds {f : SourceFile} {m : GenericMethod} {args : List TypeExpr}
    (hf : f ∈ p.files) (ht : f.isTemplateFile = false) (hm : m ∈ f.methods)
    (ha : args ∈ (p.methodUsages.get? m.key).getD []) (hlen : args.length = m.parameters.length)
    (he : e ∈ (Instance.flatten p.known (Instance.specializedMethod m args)).needs) :
    e ∈ methodNeeds p := by
  refine List.mem_flatMap.mpr ⟨f, List.mem_filter.mpr ⟨hf, by rw [ht]; rfl⟩, ?_⟩
  refine List.mem_flatMap.mpr ⟨_, List.mem_flatMap.mpr ⟨m, hm, List.mem_map.mpr ⟨args, ha, rfl⟩⟩, ?_⟩
  rw [Instance.ofMethod, if_neg (not_not_intro hlen)]
  exact he

def askedMethods (p : Program) (f : SourceFile) : List (GenericMethod × List TypeExpr) :=
  f.methods.flatMap fun m => ((p.methodUsages.get? m.key).getD []).map (m, ·)

/-- The name and the text under which a concrete method goes into a file. -/
def splicedMethod (p : Program) : GenericMethod × List TypeExpr → Text × Text
  | (m, args) =>
    if args.length = m.parameters.length then
      (Instance.methodName m args,
        (Instance.flatten p.known (Instance.specializedMethod m args)).text)
    else (m.name, Instance.arityComment m.name m.parameters.length args.length)

theorem text_expandFile_eq (p : Program) (f : SourceFile) :
    (expandFile p f).text = Splice.insertMethods (Instance.flatten p.known f.stripped).text
      ((askedMethods p f).map (splicedMethod p)) := by
  have hmethod (m : GenericMethod) (args : List TypeExpr) : splicedMethod p (m, args) =
      (if args.length = m.parameters.length then Instance.methodName m args else m.name,
        (Instance.ofMethod (some p.known) m args).text) := by
    by_cases hlen : args.length = m.parameters.length <;>
      simp [splicedMethod, Instance.ofMethod, hlen]
  simp only [expandFile, concreteMethods, askedMethods, List.map_flatMap, List.map_map,
    Function.comp_def, hmethod]

/-- How an outcome is put together from texts, of which each was flattened. Files without a place
and templates have no content. Generated classes that are too deep or have the wrong number of
arguments are comments. -/
inductive ComposedOf (p : Program) (resolver : Resolver) (extension : Text) :
    Outcome → List Text → Prop
  | template {f : SourceFile} : f ∈ p.files → f.isTemplateFile = true →
      ComposedOf p resolver extension (.template f.path) []
  | failed {f : SourceFile} {d : Diagnostic} : f ∈ p.files → f.isTemplateFile = false →
      (∀ path, resolver f.path ≠ .ok path) →
      ComposedOf p resolver extension (.failed f.path d) []
  | file {f : SourceFile} {path : Text} : f ∈ p.files → f.isTemplateFile = false →
      resolver f.path = .ok path →
      ComposedOf p resolver extension
        (.output (some f.path) path (Splice.insertMethods
          (Instance.flatten p.known f.stripped).text ((askedMethods p f).map (splicedMethod p))))
        (f.stripped ::
          ((askedMethods p f).filter fun (m, args) => args.length == m.parameters.length).map
            fun (m, args) => Instance.specializedMethod m args)
  | tooDeep {m : Made} : m ∈ classes p resolver extension →
      ComposedOf p resolver extension (.output none m.path (depthComment m.expr)) []
  | arity {m : Made} {t : Template} {f : SourceFile} : m ∈ classes p resolver extension →
      p.templates.get? m.expr.name = some (t, f) → m.expr.args.length ≠ t.parameters.length →
      ComposedOf p resolver extension (.output none m.path
        (Instance.arityComment t.className t.parameters.length m.expr.args.length)) []
  | made {m : Made} {t : Template} {f : SourceFile} : m ∈ classes p resolver extension →
      p.templates.get? m.expr.name = some (t, f) → m.expr.args.length = t.parameters.length →
      ComposedOf p resolver extension
        (.output none m.path (Substitution.replaceNameInCode (Instance.plainDeclaration t ++
          (Instance.flatten p.known
            (Instance.specialized t m.expr.args (classBody p t f))).text)
          t.className m.expr.mangle))
        [Instance.specialized t m.expr.args (classBody p t f)]

theorem exists_composedOf_fileOutcome (resolver : Resolver) (extension : Text) {f : SourceFile}
    (hf : f ∈ p.files) :
    ∃ texts, ComposedOf p resolver extension (fileOutcome p resolver f) texts ∧
      ∀ text ∈ texts, Flattened p resolver extension text := by
  unfold fileOutcome
  split
  · rename_i htemplate
    exact ⟨[], .template hf htemplate, by simp⟩
  · rename_i hplain
    replace hplain := eq_false_of_ne_true hplain
    cases hresolve : resolver f.path with
    | error reason =>
      refine ⟨[], .failed hf hplain fun path hpath => ?_, by simp⟩
      cases hresolve.symm.trans hpath
    | ok path =>
      rw [text_expandFile_eq]
      refine ⟨_, .file hf hplain hresolve, List.forall_mem_cons.mpr ⟨.file hf hplain, ?_⟩⟩
      intro text htext
      obtain ⟨⟨m, args⟩, hasked, rfl⟩ := List.mem_map.mp htext
      obtain ⟨hasked, hlen⟩ := List.mem_filter.mp hasked
      obtain ⟨m, hm, hargs⟩ := List.mem_flatMap.mp hasked
      obtain ⟨args, hargs, heq⟩ := List.mem_map.mp hargs
      cases heq
      exact .method hf hplain hm hargs (eq_of_beq hlen)

theorem exists_composedOf_outcome (hp : p.Scanned) {m : Made}
    (hm : m ∈ classes p resolver extension) :
    ∃ texts, ComposedOf p resolver extension m.outcome texts ∧
      ∀ text ∈ texts, Flattened p resolver extension text := by
  obtain ⟨t, f, n, hg, -, -, -, hcontent⟩ := content_of_mem_classes hp hm
  have hexpr : (⟨t.className, m.expr.args⟩ : TypeExpr) = m.expr := by
    rw [(hp.of_get? hg).2]
    cases m.expr
    rfl
  unfold Made.outcome
  by_cases hn : n = maxDepth + 1
  · rw [if_pos hn] at hcontent
    rw [hcontent]
    exact ⟨[], .tooDeep hm, by simp⟩
  · rw [if_neg hn] at hcontent
    have htext := hcontent
    rw [instantiate, Instance.ofTemplate] at htext
    by_cases hlen : m.expr.args.length = t.parameters.length
    · rw [if_neg (not_not_intro hlen), hexpr] at htext
      rw [htext]
      exact ⟨_, .made hm hg hlen, List.forall_mem_singleton.mpr (.made hm hg hlen hcontent)⟩
    · rw [if_pos hlen] at htext
      rw [htext]
      exact ⟨[], .arity hm hg hlen, by simp⟩

theorem Flattened.reached (hp : p.Scanned) (h : Flattened p resolver extension text)
    (he : e ∈ (Instance.flatten p.known text).needs) : ∃ n ≤ maxDepth + 1, ReachedIn p n e := by
  cases h with
  | file hf ht =>
    obtain ⟨k, hk⟩ := Instance.mem_needs_flatten.mp he
    have hu : (k, e) ∈ p.usages.entries := by
      refine hp.mem_usages hf ?_
      rw [Program.usagesIn, ht]
      exact hk
    exact ⟨0, Nat.zero_le _, .root (mem_roots.mpr (.inl (Table.mem_values.mpr ⟨k, hu⟩)))⟩
  | method hf ht hm ha hlen =>
    exact ⟨0, Nat.zero_le _, .root (mem_roots.mpr (.inr (mem_methodNeeds hf ht hm ha hlen he)))⟩
  | @made m t f hm hg hlen hcontent =>
    obtain ⟨t', f', n, hg', -, hn, hdist, hcontent'⟩ := content_of_mem_classes hp hm
    -- the class is no comment, so it is not beyond the last level
    have hlast : n ≠ maxDepth + 1 := by
      rintro rfl
      rw [if_pos rfl, hcontent] at hcontent'
      exact text_instantiate_ne (hp.of_get? hg).1 m.expr hcontent'
    refine ⟨n + 1, by omega, .step hdist.1 ⟨t, f, hg, ?_⟩⟩
    rw [instantiate, Instance.ofTemplate, if_neg (not_not_intro hlen)]
    exact he

theorem filter_classes {ms : List Made} (hd : (ms.map (·.expr.render)).Nodup) {m : Made}
    (hm : m ∈ ms) : ms.filter (·.expr.render == m.expr.render) = [m] := by
  induction ms with
  | nil => cases hm
  | cons a ms ih =>
    rw [List.map_cons, List.nodup_cons] at hd
    rcases List.mem_cons.mp hm with rfl | hm
    · have hothers : ms.filter (·.expr.render == m.expr.render) = [] := by
        refine List.filter_eq_nil_iff.mpr fun x hx heq => ?_
        exact hd.1 (List.mem_map.mpr ⟨x, hx, eq_of_beq heq⟩)
      rw [List.filter_cons_of_pos (by simp), hothers]
    · have hother : a.expr.render ≠ m.expr.render := fun heq =>
        hd.1 (List.mem_map.mpr ⟨m, hm, heq.symm⟩)
      rw [List.filter_cons_of_neg (by simpa using hother), ih hd.2 hm]

/-- For every program that scans without errors: the outcomes are those of the files and one for
each class, no two classes are for one canonical text, and flattening makes its text of pieces
that stay or give way. Every outcome is composed of texts that were flattened, and wherever a usage
of a template gave way to its concrete name in one of these, there is exactly one class for it, at
the place of that name. -/
theorem exists_class_of_reference {s : Snapshot} (h : Program.scan s = .ok p)
    (resolver : Resolver) (extension : Text) :
    run s resolver extension =
      p.files.map (fileOutcome p resolver) ++ (classes p resolver extension).map Made.outcome ∧
    ((classes p resolver extension).map (·.expr.render)).Nodup ∧
    (∀ text, (Instance.pieces p.known text).flatMap Usage.Piece.before = text ∧
      (Instance.flatten p.known text).text =
        (Instance.pieces p.known text).flatMap Usage.Piece.after) ∧
    (∀ o ∈ run s resolver extension, ∃ texts, ComposedOf p resolver extension o texts ∧
      ∀ text ∈ texts, Flattened p resolver extension text) ∧
    ∀ text, Flattened p resolver extension text → ∀ e, Instance.Renames p.known text e →
      ∃ t f m, p.templates.get? e.name = some (t, f) ∧
        (classes p resolver extension).filter (·.expr.render == e.render) = [m] ∧
        m.expr = e ∧ m.path = classPath resolver extension f e.mangle := by
  have hp := Program.scanned h
  have hrun : run s resolver extension =
      p.files.map (fileOutcome p resolver) ++ (classes p resolver extension).map Made.outcome := by
    rw [run, h]
    rfl
  have hd : ((classes p resolver extension).map (·.expr.render)).Nodup :=
    (nodup_makeClasses (maxDepth + 1) [] (roots p)).1
  refine ⟨hrun, hd, Instance.flatten_eq_pieces p.known, fun o ho => ?_, fun text htext e he => ?_⟩
  · rw [hrun] at ho
    rcases List.mem_append.mp ho with ho | ho
    · obtain ⟨f, hf, rfl⟩ := List.mem_map.mp ho
      exact exists_composedOf_fileOutcome resolver extension hf
    · obtain ⟨m, hm, rfl⟩ := List.mem_map.mp ho
      exact exists_composedOf_outcome hp hm
  · obtain ⟨n, hn, hr⟩ := htext.reached hp he.mem_needs
    obtain ⟨k, hk, hdist⟩ := hr.exists_distance
    obtain ⟨m, hm, rfl⟩ := (exists_mem_classes hp).mpr ⟨he.isKnown, k, Nat.le_trans hk hn, hdist⟩
    obtain ⟨t, f, -, hg, hpath, -⟩ := content_of_mem_classes hp hm
    exact ⟨t, f, m, hg, filter_classes hd hm, rfl, hpath⟩

theorem exists_class_of_reference_growing : ∃ p m, Program.scan growing = .ok p ∧
    .output (some "Main.peak".toList) "Main.peak" "class Main { GrowA first; }" ∈
      run growing .ok outputExtension ∧
    (classes p .ok outputExtension).filter (·.expr.render == "Grow<A>".toList) = [m] ∧
    m.path = "GrowA.peak" := by
  obtain ⟨p, t, f, main, hgrown⟩ := exists_isGrown
  have hrules : ((Usage.findKnown (fun n => n == "Grow".toList)
      "class Main { Grow<A> first; }").map TypeExpr.mangle).entries =
        [("Grow<A>".toList, "GrowA".toList)] := by
    decide +kernel
  have hpieces : Instance.pieces p.known main.stripped =
      Usage.piecesFrom [("Grow<A>".toList, "GrowA".toList)] false
        "class Main { Grow<A> first; }" := by
    rw [Instance.pieces, hgrown.known, hgrown.stripped, hrules, Text.longestFirst,
      List.mergeSort_singleton]
  have hput : Instance.Renames p.known main.stripped (grown 0) := by
    refine ⟨"Grow<A>", spells_render (e := grown 0) (by decide), ?_⟩
    rw [hpieces]
    decide +kernel
  obtain ⟨hrun, -, hflatten, -, hclass⟩ :=
    exists_class_of_reference hgrown.scan .ok outputExtension
  obtain ⟨t', f', m, hget, hm, -, hpath⟩ := hclass _ (.file hgrown.mem hgrown.plain) _ hput
  cases hgrown.get?.symm.trans hget
  refine ⟨p, m, hgrown.scan, ?_, hm, ?_⟩
  · have htext : (Instance.flatten p.known main.stripped).text = "class Main { GrowA first; }" := by
      rw [(hflatten main.stripped).2, hpieces]
      decide +kernel
    have hout : fileOutcome p .ok main =
        .output (some "Main.peak".toList) "Main.peak" "class Main { GrowA first; }" := by
      simp only [fileOutcome, hgrown.plain, Bool.false_eq_true, if_false, text_expandFile_eq,
        askedMethods, hgrown.methods main hgrown.mem, htext, hgrown.mainPath]
      rfl
    rw [hrun, ← hout]
    exact List.mem_append_left _ (List.mem_map_of_mem hgrown.mem)
  · rw [hpath, classPath, hgrown.path]
    decide +kernel

end Expansion

end Monomorph
