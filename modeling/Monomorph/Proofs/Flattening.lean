import Monomorph.Proofs.ReplacementLaws
import Monomorph.Proofs.SubstitutionLaws
import Monomorph.Proofs.UsageLaws

/-!
# Flattening of canonical text

In the canonical text of an expression the search finds just its compound subterms whose names
are no built-in collections (`mem_scan_render`). Replacing the instances among them by their
concrete names flattens the expression (`replaceFrom_render`). With arguments put in for
parameters first, that is instantiation on the tree (`flatten_substitute`).
-/

namespace Monomorph

variable {e x : TypeExpr} {k : Text}

-- ---------------------------------------------------------------------------
-- What the search finds in canonical text
-- ---------------------------------------------------------------------------

theorem TypeExpr.head_render (h : e.WellFormed) :
    ∃ c r, e.render = c :: r ∧ isNameStart c = true := by
  obtain ⟨n, as⟩ := e
  obtain ⟨c, r, rfl, hc, -⟩ := Text.isName_iff.mp (wellFormed_mk.mp h).1
  cases as with
  | nil => exact ⟨c, r, by rw [render], hc⟩
  | cons a as => exact ⟨c, _, by rw [render, List.cons_append], hc⟩

theorem Spelling.mem_entries {sp : Spelling} (h : sp.text = sp.expr.render) :
    (k, x) ∈ sp.entries ↔
      sp.expr = x ∧ x.isSimple = false ∧ isBuiltin x.name = false ∧ k = x.render := by
  unfold entries
  split
  · rename_i hno
    constructor
    · intro hm
      cases hm
    · rintro ⟨rfl, hs, hb, -⟩
      rw [hs, hb] at hno
      cases hno
  · rename_i hu
    simp only [Bool.or_eq_true, not_or, Bool.not_eq_true] at hu
    rw [List.mem_singleton, Prod.mk.injEq]
    constructor
    · rintro ⟨rfl, rfl⟩
      exact ⟨rfl, hu.1, hu.2, rfl⟩
    · rintro ⟨rfl, -, -, rfl⟩
      exact ⟨rfl, rfl⟩

theorem Spelling.mem_subterms_expr {sp : Spelling} :
    x ∈ sp.expr.subterms ↔ ∃ b ∈ sp :: sp.nested, b.expr = x := by
  rw [TypeExpr.subterms, ← sp.map_expr_nested, ← List.map_cons, List.mem_map]

theorem Spelling.IsCanonical.mem_recorded {n : Name} {gap : Blanks} {args : Arguments}
    (h : (Spelling.applied n gap args).IsCanonical) :
    (k, x) ∈ (Spelling.applied n gap args).recorded ↔
      x ∈ (Spelling.applied n gap args).expr.subterms ∧
        x.isSimple = false ∧ isBuiltin x.name = false ∧ k = x.render := by
  have hall : ∀ b ∈ Spelling.applied n gap args :: (Spelling.applied n gap args).nested,
      b.text = b.expr.render := List.forall_mem_cons.mpr h
  have hown : (Spelling.applied n gap args).recorded =
      (Spelling.applied n gap args :: (Spelling.applied n gap args).nested).flatMap entries := by
    rw [recorded, List.flatMap_cons, entries, args.isSimple_applied, Bool.false_or, if_pos h.1, h.1]
  rw [hown, List.mem_flatMap, mem_subterms_expr]
  constructor
  · rintro ⟨b, hb, hm⟩
    obtain ⟨rfl, hx⟩ := (mem_entries (hall b hb)).mp hm
    exact ⟨⟨b, hb, rfl⟩, hx⟩
  · rintro ⟨⟨b, hb, rfl⟩, hx⟩
    exact ⟨b, hb, (mem_entries (hall b hb)).mpr ⟨rfl, hx⟩⟩

theorem Spelling.IsCanonical.not_isComparison {n : Name} {gap : Blanks} {args : Arguments}
    (h : (Spelling.applied n gap args).IsCanonical) (s : Text) :
    Usage.isComparison (args.text ++ s) = false := by
  obtain ⟨a, as, has⟩ := List.exists_cons_of_ne_nil args.exprs_ne_nil
  obtain ⟨c, r, hr, hc⟩ := TypeExpr.head_render (args.wellFormed a (by simp [has]))
  have hc := isNameChar_of_isNameStart hc
  have htext := h.1
  rw [Spelling.expr, has, ← List.append_nil (TypeExpr.render _), TypeExpr.render_append,
    Spelling.text] at htext
  have htext := List.append_cancel_left htext
  obtain ⟨gap, hgap⟩ := gap
  cases gap with
  | nil =>
    have hargs := (List.cons.inj htext).2
    rw [hargs, TypeExpr.renderList, hr]
    have hne : c ≠ '=' := by rintro rfl; cases hc
    simp only [List.cons_append, Usage.isComparison, not_isBlank_of_isNameChar hc, hne,
      Bool.or_false, beq_eq_false_iff_ne, ne_eq, not_false_eq_true]
  | cons b bs =>
    obtain ⟨rfl, -⟩ := List.cons.inj htext
    cases hgap

namespace Usage

theorem mem_scan_render (he : e.WellFormed) :
    (k, x) ∈ unplaced (scan e.render e.render) ↔
      x ∈ e.subterms ∧ x.isSimple = false ∧ isBuiltin x.name = false ∧ k = x.render := by
  cases hs : e.isSimple with
  | true =>
    obtain ⟨n, _ | ⟨a, as⟩⟩ := e
    · have hn := (TypeExpr.wellFormed_mk.mp he).1
      have hafter : Text.afterName n = [] := by
        have h := Text.afterNameRun_append (s := []) (Text.all_isNameChar_of_isName hn) rfl
        rw [List.append_nil] at h
        rw [Text.afterName, h]
        rfl
      obtain ⟨c, r, rfl, hc, -⟩ := Text.isName_iff.mp hn
      rw [TypeExpr.render, scan_name hc (by rw [hafter]; simp), hafter, scan_nil]
      constructor
      · intro h
        cases h
      · rintro ⟨hx, hxs, -⟩
        rw [List.mem_singleton.mp hx] at hxs
        cases hxs
    · cases hs
  | false =>
    obtain ⟨n, gap, args, rfl, hsp⟩ := TypeExpr.exists_applied he hs
    have hscan : unplaced (scan ((Spelling.applied n gap args).text ++ [])
        ((Spelling.applied n gap args).text ++ [])) =
          (Spelling.applied n gap args).recorded ++ unplaced (scan _ []) :=
      scan_reference (a := []) rfl (hsp.not_isComparison [])
    rw [scan_nil, List.append_nil, hsp.1] at hscan
    rw [hscan, ← hsp.mem_recorded]
    simp only [unplaced, List.map_nil, List.append_nil]

theorem mem_findKnown_render {known : Text → Bool} (he : e.WellFormed) :
    (k, x) ∈ (findKnown known e.render).entries ↔
      x ∈ e.subterms ∧ x.isInstance known = true ∧ k = x.render := by
  rw [findKnown, find, Table.mem_filter, Table.map_ofList, TypeExpr.isInstance_iff]
  constructor
  · rintro ⟨hm, hk⟩
    obtain ⟨hx, hs, hb, rfl⟩ := (mem_scan_render he).mp (Table.mem_of_mem_ofList hm)
    exact ⟨hx, ⟨hs, hb, hk⟩, rfl⟩
  · rintro ⟨hx, ⟨hs, hb, hk⟩, rfl⟩
    have hm := (mem_scan_render he).mpr ⟨hx, hs, hb, rfl⟩
    refine ⟨?_, hk⟩
    -- the entry under this text holds an expression with this text, so it is this one
    obtain ⟨y, hy⟩ := Table.mem_keys.mp (Table.mem_keys_ofList.mpr (List.mem_map_of_mem hm))
    obtain ⟨hym, -, -, heq⟩ := (mem_scan_render he).mp (Table.mem_of_mem_ofList hy)
    obtain rfl := TypeExpr.render_inj (he.of_mem hx) (he.of_mem hym) heq
    exact hy

-- ---------------------------------------------------------------------------
-- Concrete names in canonical text
-- ---------------------------------------------------------------------------

/-- Rules that put concrete names in place of instances, of all those inside `e` at least. -/
structure Flattens (rules : List (Text × Text)) (known : Text → Bool) (e : TypeExpr) : Prop where
  sound : ∀ {k v}, (k, v) ∈ rules →
    ∃ x : TypeExpr, x.WellFormed ∧ x.isInstance known = true ∧ k = x.render ∧ v = x.mangle
  complete : ∀ {x}, x ∈ e.subterms → x.isInstance known = true → ∃ v, (x.render, v) ∈ rules

variable {rules : List (Text × Text)} {known : Text → Bool} {s : Text}

theorem Flattens.match?_render (h : Flattens rules known e) (hx : x ∈ e.subterms)
    (hwf : x.WellFormed) (hs : TypeExpr.Closes s) :
    match? rules (x.render ++ s) =
      if x.isInstance known then some (x.render, x.mangle) else none := by
  have hfound {rule : Text × Text} (hr : match? rules (x.render ++ s) = some rule) :
      x.isInstance known = true ∧ rule = (x.render, x.mangle) := by
    obtain ⟨k, v⟩ := rule
    obtain ⟨hm, -, t, ht⟩ := mem_of_match? hr
    obtain ⟨y, hy, hi, rfl, rfl⟩ := h.sound hm
    have hc := (TypeExpr.isInstance_iff.mp hi).1
    obtain rfl := TypeExpr.eq_of_render_append hy hwf hc hs ht.symm
    exact ⟨hi, rfl⟩
  cases hr : match? rules (x.render ++ s) with
  | some rule =>
    obtain ⟨hi, rfl⟩ := hfound hr
    rw [if_pos hi]
  | none =>
    cases hi : x.isInstance known with
    | false => rfl
    | true =>
      -- the rule for `x` would have fitted
      obtain ⟨v, hv⟩ := h.complete hx hi
      obtain ⟨c, r, hcr, -⟩ := TypeExpr.head_render hwf
      have := List.find?_eq_none.mp hr (x.render, v) hv
      simp only [hcr, List.isEmpty_cons, Bool.not_false, Bool.true_and,
        List.isPrefixOf_iff_prefix, List.prefix_append, not_true_eq_false] at this

theorem getLast?_render {a : TypeExpr} {n : Text} {as : List TypeExpr} :
    (TypeExpr.render ⟨n, a :: as⟩).getLast? = some '>' := by
  rw [← List.append_nil (TypeExpr.render _), TypeExpr.render_append, ← List.cons_append,
    ← List.append_assoc, List.getLast?_concat]

theorem Flattens.replaceFrom_render (h : Flattens rules known e) (hx : x ∈ e.subterms)
    (hwf : x.WellFormed) (hs : TypeExpr.Closes s) :
    replaceFrom rules false (x.render ++ s) =
      (x.flat known).render ++ replaceFrom rules false s := by
  induction x using TypeExpr.induct generalizing s with
  | h n as ih =>
    obtain ⟨hn, has⟩ := TypeExpr.wellFormed_mk.mp hwf
    have hmatch := h.match?_render hx hwf hs
    cases as with
    | nil =>
      rw [TypeExpr.render] at hmatch
      rw [TypeExpr.flat_simple, TypeExpr.render, replaceFrom_name hn hmatch,
        replaceFrom_joined hs.not_isNameChar]
    | cons a as =>
      cases hi : TypeExpr.isInstance known ⟨n, a :: as⟩ with
      | true =>
        rw [hi, if_pos rfl] at hmatch
        obtain ⟨c, r, hcr, hc⟩ := TypeExpr.head_render hwf
        rw [hcr, List.cons_append] at hmatch
        rw [hcr, List.cons_append, replaceFrom_put hc hmatch, ← List.cons_append, ← hcr,
          List.drop_left, getLast?_render, TypeExpr.flat_of_isInstance hi, TypeExpr.render]
        rfl
      | false =>
        rw [hi, if_neg Bool.false_ne_true, TypeExpr.render_append] at hmatch
        have hargs : ∀ b ∈ a :: as, ∀ s, TypeExpr.Closes s →
            replaceFrom rules false (b.render ++ s) =
              (b.flat known).render ++ replaceFrom rules false s :=
          fun b hb s hs => ih b hb (TypeExpr.subterms_trans hx
            (TypeExpr.mem_subterms_mk.mpr (.inr ⟨b, hb, b.self_mem_subterms⟩))) (has b hb) hs
        have hkeep : ∀ c ∈ ['<', '>', ',', ' '], ∀ s,
            replaceFrom rules false (c :: s) = c :: replaceFrom rules false s := by
          intro c hc s
          simp only [List.mem_cons, List.not_mem_nil, or_false] at hc
          rcases hc with rfl | rfl | rfl | rfl <;>
            exact replaceFrom_skip (Text.afterInert?_eq_none rfl) (.inl rfl)
        rw [TypeExpr.render_append, replaceFrom_name hn hmatch, replaceFrom_joined rfl,
          TypeExpr.pass_arguments hkeep a as s hargs, TypeExpr.flat_compound hi, List.map_cons,
          TypeExpr.render_append]

end Usage

-- ---------------------------------------------------------------------------
-- Instantiation on the tree
-- ---------------------------------------------------------------------------

namespace Instance

variable {known : Text → Bool}

theorem flattens_findKnown (known : Text → Bool) (he : e.WellFormed) :
    Usage.Flattens
      (Text.longestFirst ((Usage.findKnown known e.render).map TypeExpr.mangle).entries)
      known e where
  sound := by
    intro k v h
    obtain ⟨x, hx, rfl⟩ := Table.mem_map.mp (Text.mem_longestFirst.mp h)
    obtain ⟨hsub, hi, rfl⟩ := (Usage.mem_findKnown_render he).mp hx
    exact ⟨x, he.of_mem hsub, hi, rfl, rfl⟩
  complete := by
    intro x hx hi
    have hm := (Usage.mem_findKnown_render he).mpr ⟨hx, hi, rfl⟩
    exact ⟨x.mangle, Text.mem_longestFirst.mpr (Table.mem_map.mpr ⟨x, hm, rfl⟩)⟩

theorem text_flatten_render (he : e.WellFormed) :
    (flatten known e.render).text = (e.flat known).render := by
  have h := (flattens_findKnown known he).replaceFrom_render e.self_mem_subterms he (s := [])
    trivial
  rw [List.append_nil, Usage.replaceFrom_empty, List.append_nil] at h
  rw [flatten, Usage.replace_eq, h]

theorem mem_needs_flatten_render (he : e.WellFormed) :
    x ∈ (flatten known e.render).needs ↔ x ∈ e.subterms ∧ x.isInstance known = true := by
  rw [flatten, Table.mem_values]
  constructor
  · rintro ⟨k, h⟩
    obtain ⟨hx, hi, -⟩ := (Usage.mem_findKnown_render he).mp h
    exact ⟨hx, hi⟩
  · rintro ⟨hx, hi⟩
    exact ⟨x.render, (Usage.mem_findKnown_render he).mpr ⟨hx, hi, rfl⟩⟩

theorem mem_collect {table : Table Text TypeExpr} {es : List TypeExpr}
    (hes : ∀ y ∈ es, y.WellFormed) :
    (k, x) ∈ (collect table es).entries ↔
      (k, x) ∈ table.entries ∨ k ∉ table.keys ∧ x ∈ es ∧ k = x.render := by
  have hmem {k x} : (k, x) ∈ es.map (fun e => (e.render, e)) ↔ x ∈ es ∧ k = x.render := by
    simp only [List.mem_map, Prod.mk.injEq]
    constructor
    · rintro ⟨y, hy, rfl, rfl⟩
      exact ⟨hy, rfl⟩
    · rintro ⟨hx, rfl⟩
      exact ⟨x, hx, rfl, rfl⟩
  have hfun : Table.SingleValued (es.map fun e => (e.render, e)) := by
    intro k x y hx hy
    obtain ⟨hxm, rfl⟩ := hmem.mp hx
    obtain ⟨hym, heq⟩ := hmem.mp hy
    exact TypeExpr.render_inj (hes x hxm) (hes y hym) heq
  rw [collect, Table.mem_insertAllNew_iff hfun, hmem]

/-- Arguments put in for parameters in canonical text, then concrete names for instances, give
what they give on the tree, and each instance in the tree is collected under its canonical text
unless that is taken already. -/
theorem flatten_substitute (known : Text → Bool) (params : List Text) (args : List TypeExpr)
    (e : TypeExpr) (hparams : ∀ p ∈ params, p.isName = true) (hd : params.Nodup)
    (hlen : args.length = params.length) (hargs : ∀ a ∈ args, a.WellFormed) (he : e.WellFormed)
    (hleaf : ∀ x ∈ e.subterms, x.isSimple = false → x.name ∉ params) :
    let tree := e.subst fun n => (params.zip args).lookup n
    let made := flatten known (Substitution.substitute e.render (bindings params args))
    made.text = (tree.flat known).render ∧
      ∀ table k x, (k, x) ∈ (collect table made.needs).entries ↔
        (k, x) ∈ table.entries ∨
          k ∉ table.keys ∧ (x ∈ tree.subterms ∧ x.isInstance known = true) ∧ k = x.render := by
  intro tree made
  have hzip {n a} (h : (params.zip args).lookup n = some a) : n ∈ params ∧ a ∈ args :=
    List.of_mem_zip (Table.mem_of_lookup h)
  have htree : tree.WellFormed := he.subst fun n a h => hargs a (hzip h).2
  have hkept : ∀ x ∈ e.subterms, x.isSimple = false → (params.zip args).lookup x.name = none := by
    intro x hx hs
    exact Option.eq_none_iff_forall_ne_some.mpr fun a ha => hleaf x hx hs (hzip ha).1
  have htext : Substitution.substitute e.render (bindings params args) = tree.render := by
    have hrules := Substitution.renders_bindings hparams hd hlen
    have h := hrules.replaceFrom_render he hkept (s := []) trivial
    rwa [List.append_nil, hrules.replaceFrom_empty, List.append_nil,
      ← Substitution.substitute_eq] at h
  have hmade : made = flatten known tree.render := congrArg (flatten known) htext
  have hneeds {y} : y ∈ made.needs ↔ y ∈ tree.subterms ∧ y.isInstance known = true := by
    rw [hmade, mem_needs_flatten_render htree]
  refine ⟨by rw [hmade, text_flatten_render htree], fun table k x => ?_⟩
  rw [mem_collect fun y hy => htree.of_mem (hneeds.mp hy).1, hneeds]

theorem flatten_substitute_nested :
    let known := (["Box", "Pair", "List"] : List Text).contains
    let box := fun a : TypeExpr => TypeExpr.mk "Box" [a]
    let args := [box ⟨"Int", []⟩, ⟨"List", [⟨"Pair", [⟨"T", []⟩, box ⟨"U", []⟩]⟩]⟩]
    let e : TypeExpr := ⟨"Foo", [⟨"List", [⟨"T", []⟩]⟩, box ⟨"U", []⟩]⟩
    let made := flatten known (Substitution.substitute e.render (bindings ["T", "U"] args))
    made.text = "Foo<List<BoxInt>, BoxListPairTBoxU>".toList ∧
      ("Box<U>".toList, box ⟨"U", []⟩) ∈ (collect ∅ made.needs).entries := by
  intro known box args e made
  have h := flatten_substitute known ["T", "U"] args e (by decide) (by decide) rfl (by decide)
    (by decide) (by decide)
  exact ⟨h.1.trans (by decide), (h.2 ∅ _ _).mpr (.inr (by decide))⟩

end Instance

end Monomorph
