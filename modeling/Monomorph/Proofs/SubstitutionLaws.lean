import Monomorph.Instance
import Monomorph.Proofs.TableLaws
import Monomorph.Proofs.TextLaws
import Monomorph.Proofs.TypeExprLaws

/-!
# Laws of substitution

Rules for runs of name characters replace a run that stands in a text by its value or leave it
(`ForRuns.replaceFrom_run`). Where the values are canonical texts, replacing the names in the
canonical text of an expression puts the expressions in place (`Renders.replaceFrom_render`).
-/

namespace Monomorph

namespace Substitution

def ForRuns (rules : List (Text × Text)) : Prop :=
  ∀ rule ∈ rules, rule.1 ≠ [] ∧ rule.1.all isNameChar = true

variable {rules : List (Text × Text)} {σ : Text → Option TypeExpr} {m n s : Text} {c : Char}

-- ---------------------------------------------------------------------------
-- Rules at a place
-- ---------------------------------------------------------------------------

theorem forRuns_singleton {name : Text} (h : name.isName = true) (value : Text) :
    ForRuns [(name, value)] := by
  intro rule hrule
  obtain rfl := List.mem_singleton.mp hrule
  exact ⟨Text.isName_ne_nil h, Text.all_isNameChar_of_isName h⟩

theorem mem_of_rule? {rule : Text × Text} (h : rule? rules s = some rule) :
    rule ∈ rules ∧ ∃ t, s = rule.1 ++ t ∧ t.head?.any isNameChar = false := by
  have hfit := List.find?_some h
  simp only [Bool.and_eq_true, List.isPrefixOf_iff_prefix, Bool.not_eq_true'] at hfit
  obtain ⟨⟨t, rfl⟩, ht⟩ := hfit
  rw [List.drop_left] at ht
  exact ⟨List.mem_of_find?_eq_some h, t, rfl, ht⟩

theorem fits_iff (hm : m.all isNameChar) (hn : n.all isNameChar)
    (hs : s.head?.any isNameChar = false) :
    (m.isPrefixOf (n ++ s) && !((n ++ s).drop m.length).head?.any isNameChar) = true ↔ n = m := by
  simp only [Bool.and_eq_true, List.isPrefixOf_iff_prefix, Bool.not_eq_true']
  constructor
  · rintro ⟨⟨t, ht⟩, hend⟩
    rw [← ht, List.drop_left] at hend
    exact (Text.append_inj_of_all hn hm hs hend ht.symm).1
  · rintro rfl
    rw [List.drop_left]
    exact ⟨List.prefix_append .., hs⟩

/-- At a run the first rule for just that run applies, wherever longer or shorter names stand among
the rules. -/
theorem ForRuns.rule?_run (h : ForRuns rules) (hn : n.all isNameChar)
    (hs : s.head?.any isNameChar = false) :
    rule? rules (n ++ s) = (rules.lookup n).map fun v => (n, v) := by
  induction rules with
  | nil => rfl
  | cons rule rules ih =>
    obtain ⟨m, v⟩ := rule
    obtain ⟨hm, hrules⟩ := List.forall_mem_cons.mp h
    have hfits := fits_iff (m := m) hm.2 hn hs
    have ih := ih hrules
    unfold rule? at ih ⊢
    rw [List.find?_cons, List.lookup_cons]
    by_cases hnm : n = m
    · rw [hfits.mpr hnm]
      subst hnm
      simp
    · rw [Bool.eq_false_iff.mpr (mt hfits.mp hnm), beq_eq_false_iff_ne.mpr hnm]
      exact ih

theorem ForRuns.lookup_eq_none (h : ForRuns rules)
    (hn : ¬(n ≠ [] ∧ n.all isNameChar = true)) : rules.lookup n = none := by
  cases hv : rules.lookup n with
  | none => rfl
  | some v => exact absurd (h (n, v) (Table.mem_of_lookup hv)) hn

theorem ForRuns.rule?_eq_none (h : ForRuns rules) (hs : s.head?.any isNameChar = false) :
    rule? rules s = none := by
  have hrule := h.rule?_run (n := []) rfl hs
  rwa [h.lookup_eq_none fun hn => hn.1 rfl] at hrule

-- ---------------------------------------------------------------------------
-- Steps of the replacement
-- ---------------------------------------------------------------------------

theorem replaceFrom_skip {joined : Bool} (h : joined = true ∨ rule? rules (c :: s) = none) :
    replaceFrom rules joined (c :: s) = c :: replaceFrom rules (isNameChar c) s := by
  have hnone : (if joined then none else rule? rules (c :: s)) = none := by
    rcases h with rfl | h
    · rfl
    · rw [h, ite_self]
  rw [replaceFrom, hnone]

theorem replaceFrom_rule {m v : Text} (h : rule? rules (c :: (m ++ s)) = some (c :: m, v)) :
    replaceFrom rules false (c :: (m ++ s)) =
      v ++ replaceFrom rules ((c :: m).getLast?.any isNameChar) s := by
  rw [replaceFrom, if_neg Bool.false_ne_true, h]
  simp only [List.drop_left]

theorem replaceFrom_joined_run (hn : n.all isNameChar) :
    replaceFrom rules true (n ++ s) = n ++ replaceFrom rules true s := by
  induction n with
  | nil => rfl
  | cons c n ih =>
    simp only [List.all_cons, Bool.and_eq_true] at hn
    rw [List.cons_append, replaceFrom_skip (.inl rfl), hn.1, ih hn.2, List.cons_append]

theorem ForRuns.replaceFrom_empty (h : ForRuns rules) : replaceFrom rules false [] = [] := by
  rw [replaceFrom.eq_def, h.rule?_eq_none rfl]
  rfl

theorem ForRuns.replaceFrom_other (h : ForRuns rules) (hc : isNameChar c = false) :
    replaceFrom rules false (c :: s) = c :: replaceFrom rules false s := by
  rw [replaceFrom_skip (.inr (h.rule?_eq_none hc)), hc]

theorem ForRuns.replaceFrom_joined (h : ForRuns rules) (hs : s.head?.any isNameChar = false) :
    replaceFrom rules true s = replaceFrom rules false s := by
  cases s with
  | nil => rw [h.replaceFrom_empty, replaceFrom.eq_def]; rfl
  | cons c r => rw [replaceFrom_skip (.inl rfl), replaceFrom_skip (.inr (h.rule?_eq_none hs))]

theorem ForRuns.replaceFrom_run (h : ForRuns rules) (hne : n ≠ []) (hn : n.all isNameChar)
    (hs : s.head?.any isNameChar = false) :
    replaceFrom rules false (n ++ s) = (rules.lookup n).getD n ++ replaceFrom rules false s := by
  obtain ⟨c, r, rfl⟩ := List.exists_cons_of_ne_nil hne
  have hrule := h.rule?_run hn hs
  rw [List.cons_append] at hrule ⊢
  cases hv : rules.lookup (c :: r) with
  | some v =>
    rw [hv] at hrule
    have hlast : (c :: r).getLast?.any isNameChar = true := by
      rw [List.getLast?_eq_some_getLast hne]
      exact List.all_eq_true.mp hn _ (List.getLast_mem _)
    rw [replaceFrom_rule hrule, hlast, h.replaceFrom_joined hs]
    rfl
  | none =>
    rw [hv] at hrule
    simp only [List.all_cons, Bool.and_eq_true] at hn
    rw [replaceFrom_skip (.inr hrule), hn.1, replaceFrom_joined_run hn.2, h.replaceFrom_joined hs,
      Option.getD_none, List.cons_append]

-- ---------------------------------------------------------------------------
-- Substitution in canonical text
-- ---------------------------------------------------------------------------

/-- Rules that put the canonical text of an expression in place of each name that `σ` has one
for. -/
structure Renders (rules : List (Text × Text)) (σ : Text → Option TypeExpr) : Prop where
  isName : ∀ {n v}, (n, v) ∈ rules → n.isName = true
  value : ∀ {n v}, (n, v) ∈ rules → ∃ a, σ n = some a ∧ v = a.render
  complete : ∀ {n a}, σ n = some a → ∃ v, (n, v) ∈ rules

theorem Renders.forRuns (h : Renders rules σ) : ForRuns rules := fun _ hrule =>
  ⟨Text.isName_ne_nil (h.isName hrule), Text.all_isNameChar_of_isName (h.isName hrule)⟩

theorem Renders.replaceFrom_empty (h : Renders rules σ) : replaceFrom rules false [] = [] :=
  h.forRuns.replaceFrom_empty

theorem Renders.lookup_eq (h : Renders rules σ) (n : Text) :
    rules.lookup n = (σ n).map TypeExpr.render := by
  cases hv : rules.lookup n with
  | some v =>
    obtain ⟨a, ha, rfl⟩ := h.value (Table.mem_of_lookup hv)
    rw [ha, Option.map_some]
  | none =>
    cases ha : σ n with
    | none => rfl
    | some a =>
      obtain ⟨v, hrule⟩ := h.complete ha
      simpa using List.lookup_eq_none_iff.mp hv (n, v) hrule

theorem Renders.replaceFrom_name (h : Renders rules σ) (hn : n.isName)
    (hs : s.head?.any isNameChar = false) :
    replaceFrom rules false (n ++ s) =
      (TypeExpr.subst σ ⟨n, []⟩).render ++ replaceFrom rules false s := by
  rw [h.forRuns.replaceFrom_run (Text.isName_ne_nil hn) (Text.all_isNameChar_of_isName hn) hs,
    h.lookup_eq, TypeExpr.subst_simple]
  cases σ n with
  | some a => rfl
  | none => rw [Option.map_none, Option.getD_none, Option.getD_none, TypeExpr.render]

theorem Renders.replaceFrom_render (h : Renders rules σ) {e : TypeExpr} (he : e.WellFormed)
    (hleaf : ∀ x ∈ e.subterms, x.isSimple = false → σ x.name = none) (hs : TypeExpr.Closes s) :
    replaceFrom rules false (e.render ++ s) = (e.subst σ).render ++ replaceFrom rules false s := by
  induction e using TypeExpr.induct generalizing s with
  | h n as ih =>
    obtain ⟨hn, has⟩ := TypeExpr.wellFormed_mk.mp he
    cases as with
    | nil =>
      rw [TypeExpr.render]
      exact h.replaceFrom_name hn hs.not_isNameChar
    | cons a as =>
      have hkept := hleaf ⟨n, a :: as⟩ (TypeExpr.self_mem_subterms _) rfl
      have hargs : ∀ b ∈ a :: as, ∀ s, TypeExpr.Closes s →
          replaceFrom rules false (b.render ++ s) =
            (b.subst σ).render ++ replaceFrom rules false s :=
        fun b hb s hs => ih b hb (has b hb)
          (fun x hx => hleaf x (TypeExpr.mem_subterms_mk.mpr (.inr ⟨b, hb, hx⟩))) hs
      have hkeep : ∀ c ∈ ['<', '>', ',', ' '], ∀ s,
          replaceFrom rules false (c :: s) = c :: replaceFrom rules false s := by
        intro c hc s
        refine h.forRuns.replaceFrom_other ?_
        simp only [List.mem_cons, List.not_mem_nil, or_false] at hc
        rcases hc with rfl | rfl | rfl | rfl <;> rfl
      rw [TypeExpr.render_append, h.replaceFrom_name hn rfl, TypeExpr.subst_simple, hkept,
        TypeExpr.pass_arguments hkeep a as s hargs, TypeExpr.subst_compound, List.map_cons,
        TypeExpr.render_append, Option.getD_none, TypeExpr.render]

theorem replaceFrom_nil (joined : Bool) (s : Text) : replaceFrom [] joined s = s := by
  induction s generalizing joined with
  | nil => cases joined <;> rw [replaceFrom.eq_def] <;> rfl
  | cons c s ih => rw [replaceFrom_skip (.inr rfl), ih]

theorem substitute_eq (text : Text) (table : Table Text Text) :
    substitute text table = replaceFrom (Text.longestFirst table.entries) false text := by
  unfold substitute
  split
  · rename_i h
    rw [List.isEmpty_iff.mp h, Text.longestFirst, List.mergeSort_nil, replaceFrom_nil]
  · rfl

theorem renders_bindings {params : List Text} {args : List TypeExpr}
    (hname : ∀ p ∈ params, p.isName = true) (hd : params.Nodup)
    (hlen : args.length = params.length) :
    Renders (Text.longestFirst (Instance.bindings params args).entries)
      fun n => (params.zip args).lookup n := by
  have hkeys : (params.zip args).map Prod.fst = params := List.map_fst_zip (by omega)
  have hzip : params.zip (args.map TypeExpr.render) =
      (params.zip args).map (Prod.map id TypeExpr.render) := List.zip_map_right ..
  have hmem {n v : Text}
      (h : (n, v) ∈ Text.longestFirst (Instance.bindings params args).entries) :
      ∃ a, (n, a) ∈ params.zip args ∧ v = a.render := by
    have h := Table.mem_of_mem_ofList (Text.mem_longestFirst.mp h)
    rw [hzip] at h
    obtain ⟨⟨m, a⟩, ha, heq⟩ := List.mem_map.mp h
    cases heq
    exact ⟨a, ha, rfl⟩
  constructor
  · intro n v h
    obtain ⟨a, ha, -⟩ := hmem h
    exact hname n (List.of_mem_zip ha).1
  · intro n v h
    obtain ⟨a, ha, rfl⟩ := hmem h
    exact ⟨a, Table.lookup_of_mem (hkeys.symm ▸ hd) ha, rfl⟩
  · intro n a h
    have hn : n ∈ (params.zip (args.map TypeExpr.render)).map Prod.fst := by
      rw [List.map_fst_zip (by rw [List.length_map]; omega)]
      exact (List.of_mem_zip (Table.mem_of_lookup h)).1
    obtain ⟨v, hv⟩ := Table.mem_keys.mp (Table.mem_keys_ofList.mpr hn)
    exact ⟨v, Text.mem_longestFirst.mpr hv⟩

end Substitution

end Monomorph
