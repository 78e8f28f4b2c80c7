import Monomorph.Proofs.Flattening
import Monomorph.Proofs.InstanceLaws
import Monomorph.Proofs.ProgramLaws

/-!
# Levels of expansion

The distance of an expression is the length of the shortest chain of classes that leads to it,
each found in the making of the one before. Classes are made level by level, so each is made at
the level of its distance (`mem_makeClasses`), and none is made twice (`nodup_makeClasses`).
-/

namespace Monomorph.Expansion

variable {p : Program} {resolver : Resolver} {extension : Text} {seen : List Text}
  {needs : List TypeExpr} {e x : TypeExpr} {d n : Nat}

-- ---------------------------------------------------------------------------
-- Distances
-- ---------------------------------------------------------------------------

/-- Making the class for `e` finds that `x` is needed. -/
def Finds (p : Program) (e x : TypeExpr) : Prop :=
  ∃ t f, p.templates.get? e.name = some (t, f) ∧ x ∈ (instantiate p t f e.args).needs

/-- A chain of `n` finds leads from what the files ask for to an expression. -/
inductive ReachedIn (p : Program) : Nat → TypeExpr → Prop
  | root {e : TypeExpr} : e ∈ roots p → ReachedIn p 0 e
  | step {n : Nat} {e x : TypeExpr} : ReachedIn p n e → Finds p e x → ReachedIn p (n + 1) x

/-- The shortest chain that leads to an expression has `n` finds. -/
def IsDistance (p : Program) (n : Nat) (e : TypeExpr) : Prop :=
  ReachedIn p n e ∧ ∀ m < n, ¬ReachedIn p m e

theorem ReachedIn.exists_distance (h : ReachedIn p n e) : ∃ m ≤ n, IsDistance p m e := by
  induction n using Nat.strongRecOn with
  | ind n ih =>
    by_cases hmin : ∃ m < n, ReachedIn p m e
    · obtain ⟨m, hm, hr⟩ := hmin
      obtain ⟨k, hk, hd⟩ := ih m hm hr
      exact ⟨k, Nat.le_trans hk (Nat.le_of_lt hm), hd⟩
    · exact ⟨n, Nat.le_refl n, h, fun m hm hr => hmin ⟨m, hm, hr⟩⟩

theorem IsDistance.unique {m : Nat} (hm : IsDistance p m e) (hn : IsDistance p n e) : m = n :=
  Nat.le_antisymm (Nat.not_lt.mp fun h => hm.2 n h hn.1) (Nat.not_lt.mp fun h => hn.2 m h hm.1)

theorem mem_values_collect {es : List TypeExpr} (hes : ∀ y ∈ es, y.WellFormed) :
    x ∈ (Instance.collect ∅ es).values ↔ x ∈ es := by
  rw [Table.mem_values]
  constructor
  · rintro ⟨k, hk⟩
    exact ((Instance.mem_collect hes).mp hk).elim (fun h => (nomatch h)) (·.2.1)
  · intro hx
    exact ⟨x.render, (Instance.mem_collect hes).mpr (.inr ⟨fun h => (nomatch h), hx, rfl⟩)⟩

theorem Finds.wellFormed (h : Finds p e x) : x.WellFormed := by
  obtain ⟨t, f, -, hx⟩ := h
  exact Instance.wellFormed_of_ofTemplate hx

theorem wellFormed_of_methodNeeds (h : x ∈ methodNeeds p) : x.WellFormed := by
  obtain ⟨f, -, hx⟩ := List.mem_flatMap.mp h
  obtain ⟨⟨name, g⟩, hg, hx⟩ := List.mem_flatMap.mp hx
  obtain ⟨m, -, hm⟩ := List.mem_flatMap.mp hg
  obtain ⟨args, -, heq⟩ := List.mem_map.mp hm
  cases heq
  exact Instance.wellFormed_of_ofMethod hx

theorem mem_roots : x ∈ roots p ↔ x ∈ p.usages.values ∨ x ∈ methodNeeds p := by
  rw [roots, List.mem_append, mem_values_collect fun _ => wellFormed_of_methodNeeds]

theorem ReachedIn.wellFormed (hp : p.Scanned) (h : ReachedIn p n e) : e.WellFormed := by
  cases h with
  | root he =>
    rcases mem_roots.mp he with he | he
    · obtain ⟨k, hk⟩ := Table.mem_values.mp he
      exact (hp.spells hk).wellFormed
    · exact wellFormed_of_methodNeeds he
  | step _ hf => exact hf.wellFormed

-- ---------------------------------------------------------------------------
-- What a level makes
-- ---------------------------------------------------------------------------

/-- Whether an instance gets a class: it has a template and was not met before. -/
def isFresh (p : Program) (seen : List Text) (e : TypeExpr) : Bool :=
  p.known e.name && !seen.contains e.render

theorem isFresh_iff : isFresh p seen e = true ↔ p.known e.name = true ∧ e.render ∉ seen := by
  simp only [isFresh, Bool.and_eq_true, Bool.not_eq_true', List.contains_eq_mem,
    decide_eq_false_iff_not]

def classFor? (p : Program) (resolver : Resolver) (extension : Text) (last : Bool) (e : TypeExpr) :
    Option Made :=
  (p.templates.get? e.name).map fun (t, f) =>
    ⟨e, classPath resolver extension f e.mangle,
      if last then depthComment e else (instantiate p t f e.args).text⟩

def found (p : Program) (e : TypeExpr) : List TypeExpr :=
  match p.templates.get? e.name with
  | none => []
  | some (t, f) => (Instance.collect ∅ (instantiate p t f e.args).needs).values

theorem mem_found : x ∈ found p e ↔ Finds p e x := by
  unfold found Finds
  split
  · rename_i h
    simp [h]
  · rename_i t f h
    rw [mem_values_collect fun y (hy : y ∈ (instantiate p t f e.args).needs) =>
      Instance.wellFormed_of_ofTemplate hy]
    constructor
    · intro hx
      exact ⟨t, f, h, hx⟩
    · rintro ⟨t', f', h', hx⟩
      rw [h] at h'
      cases h'
      exact hx

theorem Finds.known (h : Finds p e x) : p.known e.name = true := by
  obtain ⟨t, f, hg, -⟩ := h
  exact Program.known_iff.mpr ⟨t, f, hg⟩

theorem expr_classFor? {last : Bool} {m : Made}
    (h : classFor? p resolver extension last e = some m) : m.expr = e := by
  obtain ⟨tf, -, rfl⟩ := Option.map_eq_some_iff.mp h
  rfl

theorem known_of_classFor? {last : Bool} {m : Made}
    (h : classFor? p resolver extension last e = some m) : p.known e.name = true := by
  obtain ⟨tf, hg, -⟩ := Option.map_eq_some_iff.mp h
  exact Program.known_iff.mpr ⟨tf.1, tf.2, hg⟩

theorem makeClass_fresh {last : Bool} {w : Progress} (h : isFresh p w.seen e = true) :
    makeClass p resolver extension last w e =
      ⟨e.render :: w.seen, w.made ++ (classFor? p resolver extension last e).toList,
        w.next ++ if last then [] else found p e⟩ := by
  obtain ⟨hk, hs⟩ := isFresh_iff.mp h
  obtain ⟨t, f, hg⟩ := Program.known_iff.mp hk
  have hs : ¬w.seen.contains e.render = true := by simpa using hs
  simp only [makeClass, hg, if_neg hs, classFor?, found, Option.map_some, Option.toList_some]
  cases last <;> rfl

theorem makeClass_skip {last : Bool} {w : Progress} (h : isFresh p w.seen e = false) :
    makeClass p resolver extension last w e = w := by
  unfold makeClass
  split
  · rfl
  · rename_i t f hg
    rw [isFresh, Program.known_iff.mpr ⟨t, f, hg⟩, Bool.true_and, Bool.not_eq_false'] at h
    rw [if_pos h]

def fresh (p : Program) : List Text → List TypeExpr → List TypeExpr
  | _, [] => []
  | seen, e :: es =>
    if isFresh p seen e then e :: fresh p (e.render :: seen) es else fresh p seen es

theorem foldl_makeClass (last : Bool) (w : Progress) :
    needs.foldl (makeClass p resolver extension last) w =
      ⟨((fresh p w.seen needs).map TypeExpr.render).reverse ++ w.seen,
        w.made ++ (fresh p w.seen needs).flatMap fun e =>
          (classFor? p resolver extension last e).toList,
        w.next ++ if last then [] else (fresh p w.seen needs).flatMap (found p)⟩ := by
  induction needs generalizing w with
  | nil => cases last <;> simp [fresh]
  | cons e es ih =>
    rw [List.foldl_cons, ih, fresh]
    cases hf : isFresh p w.seen e with
    | false => rw [makeClass_skip hf, if_neg Bool.false_ne_true]
    | true =>
      rw [makeClass_fresh hf, if_pos rfl]
      cases last <;> simp

theorem mem_fresh (hw : ∀ e ∈ needs, e.WellFormed) :
    e ∈ fresh p seen needs ↔ e ∈ needs ∧ p.known e.name = true ∧ e.render ∉ seen := by
  rw [← isFresh_iff]
  induction needs generalizing seen with
  | nil => simp [fresh]
  | cons a as ih =>
    obtain ⟨ha, has⟩ := List.forall_mem_cons.mp hw
    rw [fresh]
    cases hf : isFresh p seen a with
    | false =>
      rw [if_neg Bool.false_ne_true, ih has, List.mem_cons]
      constructor
      · rintro ⟨he, hfe⟩
        exact ⟨.inr he, hfe⟩
      · rintro ⟨rfl | he, hfe⟩
        · rw [hf] at hfe
          cases hfe
        · exact ⟨he, hfe⟩
    | true =>
      rw [if_pos rfl, List.mem_cons, ih has, List.mem_cons, isFresh_iff, isFresh_iff, List.mem_cons]
      constructor
      · rintro (rfl | ⟨he, hk, hs⟩)
        · exact ⟨.inl rfl, isFresh_iff.mp hf⟩
        · exact ⟨.inr he, hk, fun h => hs (.inr h)⟩
      · rintro ⟨rfl | he, hk, hs⟩
        · exact .inl rfl
        · -- an instance with the text of the one just met is that one
          by_cases heq : e.render = a.render
          · exact .inl (TypeExpr.render_inj (has e he) ha heq)
          · exact .inr ⟨he, hk, fun h => h.elim heq hs⟩

theorem known_of_mem_fresh (h : e ∈ fresh p seen needs) : p.known e.name = true := by
  induction needs generalizing seen with
  | nil => cases h
  | cons a as ih =>
    rw [fresh] at h
    split at h
    · rename_i hf
      rcases List.mem_cons.mp h with rfl | h
      · exact (isFresh_iff.mp hf).1
      · exact ih h
    · exact ih h

theorem nodup_fresh (p : Program) (seen : List Text) (needs : List TypeExpr) :
    ((fresh p seen needs).map TypeExpr.render).Nodup ∧
      ∀ k ∈ (fresh p seen needs).map TypeExpr.render, k ∉ seen := by
  induction needs generalizing seen with
  | nil => exact ⟨.nil, fun k hk => (nomatch hk)⟩
  | cons a as ih =>
    rw [fresh]
    split
    · rename_i hf
      obtain ⟨hd, hm⟩ := ih (a.render :: seen)
      rw [List.map_cons, List.nodup_cons]
      refine ⟨⟨fun h => hm _ h (List.mem_cons_self ..), hd⟩, List.forall_mem_cons.mpr ⟨?_, ?_⟩⟩
      · exact (isFresh_iff.mp hf).2
      · exact fun k hk h => hm k hk (List.mem_cons_of_mem _ h)
    · exact ih seen

-- ---------------------------------------------------------------------------
-- The level of a distance
-- ---------------------------------------------------------------------------

/-- Where expansion stands before level `d`: it has met the instances of shorter distance, and
what is needed now is reached in `d` finds and misses only what was met. -/
structure Level (p : Program) (d : Nat) (seen : List Text) (needs : List TypeExpr) : Prop where
  met : ∀ k, k ∈ seen ↔ ∃ n < d, ∃ e, ReachedIn p n e ∧ p.known e.name = true ∧ e.render = k
  reached : ∀ e ∈ needs, ReachedIn p d e
  complete : ∀ e, ReachedIn p d e → p.known e.name = true → e ∈ needs ∨ e.render ∈ seen

theorem Level.start : Level p 0 [] (roots p) where
  met _ := ⟨fun h => (nomatch h), fun ⟨_, hn, _⟩ => (nomatch hn)⟩
  reached _ he := .root he
  complete _ he _ := by
    cases he with
    | root he => exact .inl he

theorem Level.reached_of_met (hp : p.Scanned) (h : Level p d seen needs) (he : e.WellFormed)
    (hs : e.render ∈ seen) : ∃ n < d, ReachedIn p n e := by
  obtain ⟨n, hn, x, hx, -, heq⟩ := (h.met _).mp hs
  obtain rfl := TypeExpr.render_inj (hx.wellFormed hp) he heq
  exact ⟨n, hn, hx⟩

theorem Level.mem_fresh_iff (hp : p.Scanned) (h : Level p d seen needs) :
    e ∈ fresh p seen needs ↔ IsDistance p d e ∧ p.known e.name = true := by
  rw [mem_fresh fun e he => (h.reached e he).wellFormed hp]
  constructor
  · rintro ⟨he, hk, hs⟩
    exact ⟨⟨h.reached e he, fun n hn hr => hs ((h.met _).mpr ⟨n, hn, e, hr, hk, rfl⟩)⟩, hk⟩
  · rintro ⟨⟨hr, hmin⟩, hk⟩
    have hs : e.render ∉ seen := fun hs => by
      obtain ⟨n, hn, hr'⟩ := h.reached_of_met hp (hr.wellFormed hp) hs
      exact hmin n hn hr'
    exact ⟨(h.complete e hr hk).resolve_right hs, hk, hs⟩

theorem Level.next (hp : p.Scanned) (h : Level p d seen needs) :
    Level p (d + 1) (((fresh p seen needs).map TypeExpr.render).reverse ++ seen)
      ((fresh p seen needs).flatMap (found p)) := by
  have hmet (k : Text) : k ∈ ((fresh p seen needs).map TypeExpr.render).reverse ++ seen ↔
      ∃ n < d + 1, ∃ e, ReachedIn p n e ∧ p.known e.name = true ∧ e.render = k := by
    rw [List.mem_append, List.mem_reverse, List.mem_map, h.met]
    constructor
    · rintro (⟨e, he, rfl⟩ | ⟨n, hn, hrest⟩)
      · obtain ⟨⟨hr, -⟩, hk⟩ := (h.mem_fresh_iff hp).mp he
        exact ⟨d, Nat.lt_succ_self d, e, hr, hk, rfl⟩
      · exact ⟨n, Nat.lt_succ_of_lt hn, hrest⟩
    · rintro ⟨n, hn, e, hr, hk, rfl⟩
      obtain ⟨m, hm, hdist⟩ := hr.exists_distance
      rcases Nat.lt_or_eq_of_le (Nat.le_trans hm (Nat.le_of_lt_succ hn)) with hlt | rfl
      · exact .inr ⟨m, hlt, e, hdist.1, hk, rfl⟩
      · exact .inl ⟨e, (h.mem_fresh_iff hp).mpr ⟨hdist, hk⟩, rfl⟩
  refine ⟨hmet, ?_, ?_⟩
  · intro x hx
    obtain ⟨e, he, hx⟩ := List.mem_flatMap.mp hx
    exact .step ((h.mem_fresh_iff hp).mp he).1.1 (mem_found.mp hx)
  · intro x hx hk
    obtain _ | @⟨_, e, _, hr, hf⟩ := hx
    obtain ⟨m, hm, hdist⟩ := hr.exists_distance
    rcases Nat.lt_or_eq_of_le hm with hlt | rfl
    · -- `e` was met at an earlier level, so `x` was met by now
      exact .inr ((hmet _).mpr ⟨m + 1, Nat.succ_lt_succ hlt, x, .step hdist.1 hf, hk, rfl⟩)
    · have he := (h.mem_fresh_iff hp).mpr ⟨hdist, hf.known⟩
      exact .inl (List.mem_flatMap.mpr ⟨e, he, mem_found.mpr hf⟩)

/-- From level `d` on, with `levels` more to follow, classes are made for the instances whose
distance is that of a level, each as its distance demands. -/
theorem mem_makeClasses (hp : p.Scanned) {levels : Nat} (h : Level p d seen needs) {m : Made} :
    m ∈ makeClasses p resolver extension levels seen needs ↔
      ∃ n ≤ levels, IsDistance p (d + n) m.expr ∧
        classFor? p resolver extension (n == levels) m.expr = some m := by
  -- the classes of one level are those of its distance
  have hlevel {d : Nat} {seen : List Text} {needs : List TypeExpr} (h : Level p d seen needs)
      (last : Bool) :
      m ∈ ((fresh p seen needs).flatMap fun e => (classFor? p resolver extension last e).toList) ↔
        IsDistance p d m.expr ∧ classFor? p resolver extension last m.expr = some m := by
    rw [List.mem_flatMap]
    constructor
    · rintro ⟨e, he, hm⟩
      have hm := Option.mem_toList.mp hm
      obtain rfl := expr_classFor? hm
      exact ⟨((h.mem_fresh_iff hp).mp he).1, hm⟩
    · rintro ⟨hdist, hm⟩
      exact ⟨m.expr, (h.mem_fresh_iff hp).mpr ⟨hdist, known_of_classFor? hm⟩,
        Option.mem_toList.mpr hm⟩
  induction levels generalizing d seen needs with
  | zero =>
    rw [makeClasses, foldl_makeClass, List.nil_append, hlevel h]
    constructor
    · intro hm
      exact ⟨0, Nat.le_refl 0, hm⟩
    · rintro ⟨n, hn, hm⟩
      obtain rfl := Nat.le_zero.mp hn
      exact hm
  | succ levels ih =>
    have ih := ih (h.next hp)
    rw [makeClasses, foldl_makeClass, List.nil_append, List.nil_append, List.mem_append, hlevel h]
    refine (or_congr_right ih).trans ?_
    constructor
    · rintro (hm | ⟨n, hn, hdist, hm⟩)
      · exact ⟨0, Nat.zero_le _, hm⟩
      · exact ⟨n + 1, Nat.succ_le_succ hn, by rwa [Nat.add_right_comm] at hdist,
          by simpa using hm⟩
    · rintro ⟨n, hn, hdist, hm⟩
      cases n with
      | zero => exact .inl ⟨hdist, hm⟩
      | succ n =>
        exact .inr ⟨n, Nat.le_of_succ_le_succ hn, by rwa [Nat.add_right_comm], by simpa using hm⟩

theorem map_render_flatMap_classFor? {last : Bool} {es : List TypeExpr}
    (h : ∀ e ∈ es, p.known e.name = true) :
    (es.flatMap fun e => (classFor? p resolver extension last e).toList).map (·.expr.render) =
      es.map TypeExpr.render := by
  induction es with
  | nil => rfl
  | cons e es ih =>
    obtain ⟨he, hes⟩ := List.forall_mem_cons.mp h
    obtain ⟨t, f, hg⟩ := Program.known_iff.mp he
    have hclass : (classFor? p resolver extension last e).toList.map (·.expr.render) =
        [e.render] := by
      rw [classFor?, hg]
      rfl
    rw [List.flatMap_cons, List.map_append, hclass, ih hes]
    rfl

theorem makeClasses_nil (levels : Nat) (seen : List Text) :
    makeClasses p resolver extension levels seen [] = [] := by
  induction levels generalizing seen with
  | zero => rfl
  | succ levels ih => exact ih seen

theorem nodup_makeClasses (levels : Nat) (seen : List Text) (needs : List TypeExpr) :
    ((makeClasses p resolver extension levels seen needs).map (·.expr.render)).Nodup ∧
      ∀ k ∈ (makeClasses p resolver extension levels seen needs).map (·.expr.render), k ∉ seen := by
  induction levels generalizing seen needs with
  | zero =>
    rw [makeClasses, foldl_makeClass, List.nil_append,
      map_render_flatMap_classFor? fun e he => known_of_mem_fresh he]
    exact nodup_fresh p seen needs
  | succ levels ih =>
    obtain ⟨hd, hm⟩ := nodup_fresh p seen needs
    obtain ⟨hrest, hlater⟩ := ih (((fresh p seen needs).map TypeExpr.render).reverse ++ seen)
      ((fresh p seen needs).flatMap (found p))
    rw [makeClasses, foldl_makeClass, List.nil_append, List.nil_append, List.map_append,
      map_render_flatMap_classFor? fun e he => known_of_mem_fresh he]
    refine ⟨List.nodup_append.mpr ⟨hd, hrest, ?_⟩, ?_⟩
    · rintro k hk j hj rfl
      exact hlater k hj (List.mem_append_left _ (List.mem_reverse.mpr hk))
    · intro k hk
      rcases List.mem_append.mp hk with hk | hk
      · exact hm k hk
      · exact fun hs => hlater k hk (List.mem_append_right _ hs)

end Monomorph.Expansion
