import Monomorph.Proofs.TextLaws
import Monomorph.TypeExpr.Basic

/-!
# Laws of type expressions

Expressions as trees: their subterms, an induction principle over them, expressions in place of
simple ones, and concrete names in place of instances.
-/

namespace Monomorph.TypeExpr

variable {e x : TypeExpr} {n : Text} {as : List TypeExpr}

-- ---------------------------------------------------------------------------
-- Subterms
-- ---------------------------------------------------------------------------

def subterms (e : TypeExpr) : List TypeExpr :=
  e :: e.nested

theorem self_mem_subterms (e : TypeExpr) : e ∈ e.subterms :=
  List.mem_cons_self ..

theorem mem_nestedAll : x ∈ nestedAll as ↔ ∃ a ∈ as, x ∈ a.subterms := by
  induction as with
  | nil => simp [nestedAll]
  | cons a as ih =>
    simp only [nestedAll, subterms, List.mem_cons, List.mem_append, ih, exists_eq_or_imp, or_assoc]

theorem mem_subterms_mk : x ∈ subterms ⟨n, as⟩ ↔ x = ⟨n, as⟩ ∨ ∃ a ∈ as, x ∈ a.subterms := by
  rw [subterms, List.mem_cons, nested, mem_nestedAll]

theorem forall_mem_subterms_mk {P : TypeExpr → Prop} :
    (∀ x ∈ subterms ⟨n, as⟩, P x) ↔ P ⟨n, as⟩ ∧ ∀ a ∈ as, ∀ x ∈ a.subterms, P x := by
  simp only [mem_subterms_mk]
  constructor
  · intro h
    exact ⟨h ⟨n, as⟩ (.inl rfl), fun a ha x hx => h x (.inr ⟨a, ha, hx⟩)⟩
  · rintro ⟨hn, h⟩ x (rfl | ⟨a, ha, hx⟩)
    · exact hn
    · exact h a ha x hx

mutual
theorem induct {P : TypeExpr → Prop} (h : ∀ n as, (∀ a ∈ as, P a) → P ⟨n, as⟩) :
    (e : TypeExpr) → P e
  | ⟨n, as⟩ => h n as (inductAll h as)
theorem inductAll {P : TypeExpr → Prop} (h : ∀ n as, (∀ a ∈ as, P a) → P ⟨n, as⟩) :
    (as : List TypeExpr) → ∀ a ∈ as, P a
  | [] => fun _ ha => (nomatch ha)
  | b :: bs => List.forall_mem_cons.mpr ⟨induct h b, inductAll h bs⟩
end

theorem subterms_trans {y : TypeExpr} (hx : x ∈ e.subterms) (hy : y ∈ x.subterms) :
    y ∈ e.subterms := by
  induction e using induct with
  | h n as ih =>
    rcases mem_subterms_mk.mp hx with rfl | ⟨a, ha, hx⟩
    · exact hy
    · exact mem_subterms_mk.mpr (.inr ⟨a, ha, ih a ha hx⟩)

-- ---------------------------------------------------------------------------
-- Well-formed expressions
-- ---------------------------------------------------------------------------

def WellFormed (e : TypeExpr) : Prop :=
  ∀ n ∈ e.names, n.isName = true

instance : DecidablePred WellFormed := fun e =>
  inferInstanceAs (Decidable (∀ n ∈ e.names, n.isName = true))

theorem wellFormed_iff : e.WellFormed ↔ ∀ x ∈ e.subterms, x.name.isName = true := by
  simp only [WellFormed, names, subterms, List.mem_cons, List.mem_map, forall_eq_or_imp,
    forall_exists_index, and_imp, forall_apply_eq_imp_iff₂]

theorem wellFormed_mk :
    WellFormed ⟨n, as⟩ ↔ n.isName = true ∧ ∀ a ∈ as, a.WellFormed := by
  simp only [wellFormed_iff, forall_mem_subterms_mk]

theorem all_isNameChar_mangle {e : TypeExpr} (h : e.WellFormed) :
    e.mangle.all isNameChar = true := by
  induction e using induct with
  | h n as ih =>
    obtain ⟨hn, has⟩ := wellFormed_mk.mp h
    have hall : (mangleAll as).all isNameChar = true := by
      clear h
      induction as with
      | nil => rfl
      | cons a as ihs =>
        rw [mangleAll, List.all_append, ih a (by simp) (has a (by simp)),
          ihs (fun b hb => ih b (by simp [hb])) fun b hb => has b (by simp [hb])]
        rfl
    rw [mangle, List.all_append, Text.all_isNameChar_of_isName hn, hall]
    rfl

theorem WellFormed.isName_mangle {e : TypeExpr} (h : e.WellFormed) : e.mangle.isName = true := by
  obtain ⟨n, as⟩ := e
  have hall := all_isNameChar_mangle h
  obtain ⟨c, r, rfl, hc, -⟩ := Text.isName_iff.mp (wellFormed_mk.mp h).1
  simp only [mangle, List.cons_append, List.all_cons, Bool.and_eq_true] at hall ⊢
  exact Text.isName_iff.mpr ⟨c, _, rfl, hc, hall.2⟩

theorem WellFormed.of_mem (h : e.WellFormed) (hx : x ∈ e.subterms) : x.WellFormed :=
  wellFormed_iff.mpr fun _ hy => wellFormed_iff.mp h _ (subterms_trans hx hy)

-- ---------------------------------------------------------------------------
-- Expressions in place of simple ones
-- ---------------------------------------------------------------------------

mutual
/-- Puts an expression in place of each simple one that `σ` has one for. -/
def subst (σ : Text → Option TypeExpr) : TypeExpr → TypeExpr
  | ⟨n, []⟩ => (σ n).getD ⟨n, []⟩
  | ⟨n, a :: as⟩ => ⟨n, a.subst σ :: substAll σ as⟩
def substAll (σ : Text → Option TypeExpr) : List TypeExpr → List TypeExpr
  | [] => []
  | a :: as => a.subst σ :: substAll σ as
end

theorem substAll_eq_map (σ : Text → Option TypeExpr) :
    (as : List TypeExpr) → substAll σ as = as.map (subst σ)
  | [] => by rw [substAll, List.map_nil]
  | a :: as => by rw [substAll, List.map_cons, substAll_eq_map σ as]

theorem subst_simple (σ : Text → Option TypeExpr) (n : Text) :
    subst σ ⟨n, []⟩ = (σ n).getD ⟨n, []⟩ := by
  rw [subst]

theorem subst_compound (σ : Text → Option TypeExpr) (n : Text) (a : TypeExpr)
    (as : List TypeExpr) : subst σ ⟨n, a :: as⟩ = ⟨n, (a :: as).map (subst σ)⟩ := by
  rw [subst, substAll_eq_map, List.map_cons]

theorem WellFormed.subst {σ : Text → Option TypeExpr}
    (hσ : ∀ n a, σ n = some a → a.WellFormed) (h : e.WellFormed) : (e.subst σ).WellFormed := by
  induction e using induct with
  | h n as ih =>
    cases as with
    | nil =>
      rw [subst_simple]
      cases ha : σ n with
      | none => exact h
      | some a => exact hσ n a ha
    | cons a as =>
      obtain ⟨hn, has⟩ := wellFormed_mk.mp h
      rw [subst_compound]
      refine wellFormed_mk.mpr ⟨hn, fun b hb => ?_⟩
      obtain ⟨c, hc, rfl⟩ := List.mem_map.mp hb
      exact ih c hc (has c hc)

-- ---------------------------------------------------------------------------
-- Concrete names in place of instances
-- ---------------------------------------------------------------------------

/-- Whether the expression is an instance of a known template: it has arguments, and its name is
known and no built-in collection. -/
def isInstance (known : Text → Bool) (e : TypeExpr) : Bool :=
  !e.isSimple && known e.name && !isBuiltin e.name

theorem isInstance_iff {known : Text → Bool} :
    e.isInstance known = true ↔
      e.isSimple = false ∧ isBuiltin e.name = false ∧ known e.name = true := by
  simp only [isInstance, Bool.and_eq_true, Bool.not_eq_true']
  constructor
  · rintro ⟨⟨hs, hk⟩, hb⟩
    exact ⟨hs, hb, hk⟩
  · rintro ⟨hs, hb, hk⟩
    exact ⟨⟨hs, hk⟩, hb⟩

mutual
/-- Puts the concrete name in place of each outermost instance. -/
def flat (known : Text → Bool) : TypeExpr → TypeExpr
  | ⟨n, []⟩ => ⟨n, []⟩
  | ⟨n, a :: as⟩ =>
    if isInstance known ⟨n, a :: as⟩ then ⟨mangle ⟨n, a :: as⟩, []⟩
    else ⟨n, a.flat known :: flatAll known as⟩
def flatAll (known : Text → Bool) : List TypeExpr → List TypeExpr
  | [] => []
  | a :: as => a.flat known :: flatAll known as
end

theorem flatAll_eq_map (known : Text → Bool) :
    (as : List TypeExpr) → flatAll known as = as.map (flat known)
  | [] => by rw [flatAll, List.map_nil]
  | a :: as => by rw [flatAll, List.map_cons, flatAll_eq_map known as]

theorem flat_simple (known : Text → Bool) (n : Text) : flat known ⟨n, []⟩ = ⟨n, []⟩ := by
  rw [flat]

theorem flat_of_isInstance {known : Text → Bool} (h : e.isInstance known = true) :
    e.flat known = ⟨e.mangle, []⟩ := by
  obtain ⟨n, as⟩ := e
  cases as with
  | nil => cases h
  | cons a as => rw [flat, if_pos h]

theorem flat_compound {known : Text → Bool} {a : TypeExpr}
    (h : isInstance known ⟨n, a :: as⟩ = false) :
    flat known ⟨n, a :: as⟩ = ⟨n, (a :: as).map (flat known)⟩ := by
  rw [flat, h, flatAll_eq_map, List.map_cons]
  rfl

-- ---------------------------------------------------------------------------
-- Passes over canonical text
-- ---------------------------------------------------------------------------

/-- What can stand behind an expression in canonical text: nothing, a comma or a closing
bracket. -/
def Closes : Text → Prop
  | [] => True
  | c :: _ => c = ',' ∨ c = '>'

theorem Closes.not_isNameChar {s : Text} (h : Closes s) : s.head?.any isNameChar = false := by
  cases s with
  | nil => rfl
  | cons c r => rcases h with rfl | rfl <;> rfl

theorem Closes.head_ne {s : Text} (h : Closes s) : s.head? ≠ some '<' := by
  cases s with
  | nil => simp
  | cons c r => rcases h with rfl | rfl <;> simp

theorem closes_renderMore (as : List TypeExpr) {s : Text} (h : Closes s) :
    Closes (renderMore as ++ s) := by
  cases as with
  | nil => exact h
  | cons a as =>
    rw [renderMore]
    exact .inl rfl

theorem render_append (n : Text) (a : TypeExpr) (as : List TypeExpr) (s : Text) :
    render ⟨n, a :: as⟩ ++ s = n ++ '<' :: (renderList (a :: as) ++ '>' :: s) := by
  simp only [render, renderList, List.append_assoc, List.cons_append]
  rfl

section Passes

variable {f : Text → Text} {g : TypeExpr → TypeExpr}
variable (hkeep : ∀ c ∈ ['<', '>', ',', ' '], ∀ s, f (c :: s) = c :: f s)
include hkeep

/-- A pass that keeps punctuation and rewrites each expression of a list rewrites the list. -/
theorem pass_renderMore {s : Text} (hs : Closes s)
    (h : ∀ a ∈ as, ∀ s, Closes s → f (a.render ++ s) = (g a).render ++ f s) :
    f (renderMore as ++ s) = renderMore (as.map g) ++ f s := by
  induction as with
  | nil => rw [List.map_nil, renderMore, List.nil_append, List.nil_append]
  | cons a as ih =>
    have ih := ih fun b hb => h b (List.mem_cons_of_mem _ hb)
    have ha := h a (List.mem_cons_self ..) _ (closes_renderMore as hs)
    have hsep (t : Text) : ", ".toList ++ t = ',' :: ' ' :: t := rfl
    rw [List.map_cons, renderMore, renderMore]
    simp only [List.append_assoc, hsep, List.cons_append]
    rw [hkeep ',' (by simp), hkeep ' ' (by simp), ha, ih]

theorem pass_arguments (a : TypeExpr) (as : List TypeExpr) (s : Text)
    (h : ∀ b ∈ a :: as, ∀ s, Closes s → f (b.render ++ s) = (g b).render ++ f s) :
    f ('<' :: (renderList (a :: as) ++ '>' :: s)) =
      '<' :: (renderList ((a :: as).map g) ++ '>' :: f s) := by
  have hclose : Closes ('>' :: s) := .inr rfl
  have ha := h a (List.mem_cons_self ..) _ (closes_renderMore as hclose)
  have has := pass_renderMore hkeep hclose fun b hb => h b (List.mem_cons_of_mem _ hb)
  rw [List.map_cons, renderList, renderList]
  simp only [List.append_assoc]
  rw [hkeep '<' (by simp), ha, has, hkeep '>' (by simp)]

end Passes

end Monomorph.TypeExpr
