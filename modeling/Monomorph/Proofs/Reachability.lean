import Monomorph.Proofs.Modularity

/-!
# Reachability

Which instances get a class is a matter of chains of finds from what the files ask for. Two
programs in which the same class is made for each instance therefore make the same classes just
when each reaches, at the same side of the last level, whatever the other asks for leads to
(`classes_eq_iff`).
-/

namespace Monomorph.Expansion

variable {p q : Program} {resolver : Resolver} {extension : Text} {e x : TypeExpr} {d n : Nat}

-- ---------------------------------------------------------------------------
-- Chains of finds
-- ---------------------------------------------------------------------------

/-- A chain of `n` finds leads from one expression to another. -/
inductive LeadsTo (p : Program) : Nat → TypeExpr → TypeExpr → Prop
  | refl (e : TypeExpr) : LeadsTo p 0 e e
  | step {n : Nat} {x e y : TypeExpr} : LeadsTo p n x e → Finds p e y → LeadsTo p (n + 1) x y

theorem reachedIn_iff : ReachedIn p n e ↔ ∃ x ∈ roots p, LeadsTo p n x e := by
  constructor
  · intro h
    induction h with
    | root he => exact ⟨_, he, .refl _⟩
    | step _ hf ih =>
      obtain ⟨x, hx, hlead⟩ := ih
      exact ⟨x, hx, .step hlead hf⟩
  · rintro ⟨x, hx, hlead⟩
    induction hlead with
    | refl => exact .root hx
    | step _ hf ih => exact .step (ih hx) hf

/-- At most `d` finds are needed to get to an expression. -/
def ReachedBy (p : Program) (d : Nat) (e : TypeExpr) : Prop :=
  ∃ n ≤ d, ReachedIn p n e

theorem reachedBy_iff : ReachedBy p d e ↔ ∃ x ∈ roots p, ∃ n ≤ d, LeadsTo p n x e := by
  simp only [ReachedBy, reachedIn_iff]
  constructor
  · rintro ⟨n, hn, x, hx, hlead⟩
    exact ⟨x, hx, n, hn, hlead⟩
  · rintro ⟨x, hx, n, hn, hlead⟩
    exact ⟨n, hn, x, hx, hlead⟩

theorem IsDistance.reachedBy_iff (h : IsDistance p n e) : ReachedBy p d e ↔ n ≤ d := by
  constructor
  · rintro ⟨m, hm, hr⟩
    exact Nat.le_trans (Nat.not_lt.mp fun hlt => h.2 m hlt hr) hm
  · intro hn
    exact ⟨n, hn, h.1⟩

theorem ReachedBy.exists_distance (h : ReachedBy p d e) : ∃ n ≤ d, IsDistance p n e := by
  obtain ⟨k, hk, hr⟩ := h
  obtain ⟨n, hn, hdist⟩ := hr.exists_distance
  exact ⟨n, Nat.le_trans hn hk, hdist⟩

theorem mem_classes_iff (hp : p.Scanned) {m : Made} : m ∈ classes p resolver extension ↔
    ReachedBy p (maxDepth + 1) m.expr ∧ ∃ last, (last = true ↔ ¬ReachedBy p maxDepth m.expr) ∧
      classFor? p resolver extension last m.expr = some m := by
  rw [mem_classes hp]
  constructor
  · rintro ⟨n, hn, hdist, hclass⟩
    refine ⟨hdist.reachedBy_iff.mpr hn, n == maxDepth + 1, ?_, hclass⟩
    rw [hdist.reachedBy_iff, beq_iff_eq]
    omega
  · rintro ⟨hr, last, hlast, hclass⟩
    obtain ⟨n, hn, hdist⟩ := hr.exists_distance
    refine ⟨n, hn, hdist, ?_⟩
    have heq : last = (n == maxDepth + 1) := by
      rw [Bool.eq_iff_iff, hlast, hdist.reachedBy_iff, beq_iff_eq]
      omega
    rw [← heq, hclass]

theorem content_eq_depthComment_iff (hp : p.Scanned) {m : Made}
    (hm : m ∈ classes p resolver extension) :
    m.content = depthComment m.expr ↔ ¬ReachedBy p maxDepth m.expr := by
  obtain ⟨t, f, n, hg, -, hn, hdist, hcontent⟩ := content_of_mem_classes hp hm
  rw [hcontent, hdist.reachedBy_iff]
  split
  · rename_i heq
    exact iff_of_true rfl (by omega)
  · rename_i hne
    exact iff_of_false (text_instantiate_ne (hp.of_get? hg).1 m.expr) (by omega)

-- ---------------------------------------------------------------------------
-- Programs that make the same classes
-- ---------------------------------------------------------------------------

/-- Programs in which the same class is made for each instance. -/
structure Alike (p q : Program) : Prop extends Agree p q where
  templates : ∀ name, p.templates.get? name = q.templates.get? name

theorem Alike.symm (h : Alike p q) : Alike q p where
  known := h.known.symm
  methods key := (h.methods key).symm
  templates name := (h.templates name).symm

theorem Alike.trans {r : Program} (h : Alike p q) (h' : Alike q r) : Alike p r where
  known := h.known.trans h'.known
  methods key := (h.methods key).trans (h'.methods key)
  templates name := (h.templates name).trans (h'.templates name)

theorem Alike.finds (h : Alike p q) (hf : Finds p e x) : Finds q e x := by
  obtain ⟨t, f, hg, hx⟩ := hf
  rw [h.templates] at hg
  rw [h.instantiate] at hx
  exact ⟨t, f, hg, hx⟩

theorem Alike.leadsTo (h : Alike p q) (hlead : LeadsTo p n x e) : LeadsTo q n x e := by
  induction hlead with
  | refl => exact .refl _
  | step _ hf ih => exact .step ih (h.finds hf)

theorem Alike.classFor? (h : Alike p q) (last : Bool) (e : TypeExpr) :
    classFor? p resolver extension last e = classFor? q resolver extension last e := by
  simp only [Expansion.classFor?, h.templates, h.instantiate]

/-- Where all classes of one program are classes of the other, the other reaches what the one
does, and before the last level what the one reaches before it. -/
theorem reachedBy_of_classes (hp : p.Scanned) (hq : q.Scanned)
    (h : ∀ m ∈ classes p resolver extension, m ∈ classes q resolver extension)
    (hk : p.known e.name = true) (hd : d ∈ [maxDepth, maxDepth + 1]) (hr : ReachedBy p d e) :
    ReachedBy q d e := by
  have hlast : ReachedBy p (maxDepth + 1) e := by
    obtain ⟨n, hn, hr⟩ := hr
    simp only [List.mem_cons, List.not_mem_nil, or_false] at hd
    exact ⟨n, by omega, hr⟩
  obtain ⟨m, hm, rfl⟩ : ∃ m ∈ classes p resolver extension, m.expr = e :=
    (exists_mem_classes hp).mpr ⟨hk, hlast.exists_distance⟩
  simp only [List.mem_cons, List.not_mem_nil, or_false] at hd
  rcases hd with rfl | rfl
  · have hcontent := mt (content_eq_depthComment_iff hp hm).mp (not_not_intro hr)
    exact not_not.mp (mt (content_eq_depthComment_iff hq (h m hm)).mpr hcontent)
  · exact ((mem_classes_iff hq).mp (h m hm)).1

theorem classes_eq_iff_reachedBy (h : Alike p q) (hp : p.Scanned) (hq : q.Scanned) :
    (∀ m, m ∈ classes p resolver extension ↔ m ∈ classes q resolver extension) ↔
      ∀ d ∈ [maxDepth, maxDepth + 1], ∀ e, p.known e.name = true →
        (ReachedBy p d e ↔ ReachedBy q d e) := by
  constructor
  · intro heq d hd e hk
    exact ⟨reachedBy_of_classes hp hq (fun m => (heq m).mp) hk hd,
      reachedBy_of_classes hq hp (fun m => (heq m).mpr) (h.known ▸ hk) hd⟩
  · intro heq m
    rw [mem_classes_iff hp, mem_classes_iff hq]
    by_cases hk : p.known m.expr.name = true
    · rw [heq _ (by simp) m.expr hk, heq maxDepth (by simp) m.expr hk]
      simp only [h.classFor?]
    · constructor
      · rintro ⟨-, last, -, hclass⟩
        exact absurd (known_of_classFor? hclass) hk
      · rintro ⟨-, last, -, hclass⟩
        exact absurd (h.known ▸ known_of_classFor? hclass) hk

-- ---------------------------------------------------------------------------
-- What an instance adds
-- ---------------------------------------------------------------------------

/-- To ask for `x` would add nothing: whatever `x` leads to is reached by the last level, and before
the last level when `x` leads there before it. -/
def Supplies (p : Program) (x : TypeExpr) : Prop :=
  ∀ d ∈ [maxDepth, maxDepth + 1], ∀ e, p.known e.name = true → ∀ n ≤ d, LeadsTo p n x e →
    ReachedBy p d e

theorem supplies_of_mem_roots (h : x ∈ roots p) : Supplies p x :=
  fun _ _ _ _ n hn hlead => reachedBy_iff.mpr ⟨x, h, n, hn, hlead⟩

theorem classes_eq_iff (h : Alike p q) (hp : p.Scanned) (hq : q.Scanned) :
    (∀ m, m ∈ classes p resolver extension ↔ m ∈ classes q resolver extension) ↔
      (∀ x ∈ roots q, Supplies p x) ∧ ∀ x ∈ roots p, Supplies q x := by
  rw [classes_eq_iff_reachedBy h hp hq]
  constructor
  · intro heq
    refine ⟨fun x hx d hd e hk n hn hlead => ?_, fun x hx d hd e hk n hn hlead => ?_⟩
    · exact (heq d hd e hk).mpr (reachedBy_iff.mpr ⟨x, hx, n, hn, h.leadsTo hlead⟩)
    · exact (heq d hd e (h.known ▸ hk)).mp
        (reachedBy_iff.mpr ⟨x, hx, n, hn, h.symm.leadsTo hlead⟩)
  · rintro ⟨hsupplies, hsupplies'⟩ d hd e hk
    constructor
    · intro hr
      obtain ⟨x, hx, n, hn, hlead⟩ := reachedBy_iff.mp hr
      exact hsupplies' x hx d hd e (h.known ▸ hk) n hn (h.leadsTo hlead)
    · intro hr
      obtain ⟨x, hx, n, hn, hlead⟩ := reachedBy_iff.mp hr
      exact hsupplies x hx d hd e hk n hn (h.symm.leadsTo hlead)

end Monomorph.Expansion
