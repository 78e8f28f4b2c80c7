import Monomorph.Proofs.ReaderLaws
import Monomorph.Proofs.TableLaws
import Monomorph.Usage

/-!
# Laws of usage discovery

What the search for usages records, said by the spellings of the references it meets. Each step
either passes over something or finds a reference, and a reference records the same wherever it
stands. A literal that is recorded spells its expression, so it determines it.
-/

namespace Monomorph

-- ---------------------------------------------------------------------------
-- What a reference records
-- ---------------------------------------------------------------------------

/-- What an argument is recorded under: nothing when it is no usage, else its canonical text and,
where that differs, its own. -/
def Spelling.entries (sp : Spelling) : List (Text × TypeExpr) :=
  if sp.expr.isSimple || isBuiltin sp.expr.name then []
  else if sp.text = sp.expr.render then [(sp.expr.render, sp.expr)]
  else [(sp.expr.render, sp.expr), (sp.text, sp.expr)]

/-- What a reference in code records: itself as it stands, then what is inside. -/
def Spelling.recorded (sp : Spelling) : List (Text × TypeExpr) :=
  (if isBuiltin sp.expr.name then [] else [(sp.text, sp.expr)]) ++ sp.nested.flatMap entries

/-- A literal and an expression that it spells. -/
def Spells (literal : Text) (e : TypeExpr) : Prop :=
  ∃ sp : Spelling, sp.text = literal ∧ sp.expr = e

theorem Spells.unique {k : Text} {e f : TypeExpr} (he : Spells k e) (hf : Spells k f) : e = f := by
  obtain ⟨a, rfl, rfl⟩ := he
  obtain ⟨b, hb, rfl⟩ := hf
  exact Spelling.expr_of_text hb.symm

theorem Spells.wellFormed {k : Text} {e : TypeExpr} (h : Spells k e) : e.WellFormed := by
  obtain ⟨sp, -, rfl⟩ := h
  exact sp.wellFormed

theorem spells_render {e : TypeExpr} (h : e.WellFormed) : Spells e.render e := by
  obtain ⟨sp, rfl, ht, -⟩ := e.exists_spelling h
  exact ⟨sp, ht, rfl⟩

theorem Spells.not_opensInert {k : Text} {e : TypeExpr} (h : Spells k e) :
    ∀ c ∈ k, opensInert c = false := by
  obtain ⟨sp, rfl, -⟩ := h
  exact sp.forall_mem spellingChars_not_opensInert

/-- What the search can record: a literal that spells a compound expression whose name is no
built-in collection. -/
structure IsUsage (k : Text) (e : TypeExpr) : Prop where
  spells : Spells k e
  compound : e.isSimple = false
  notBuiltin : isBuiltin e.name = false

theorem IsUsage.head {k : Text} {e : TypeExpr} (h : IsUsage k e) :
    k.head?.any isNameChar = true := by
  obtain ⟨sp, rfl, -⟩ := h.spells
  exact sp.head_text

theorem IsUsage.getLast? {k : Text} {e : TypeExpr} (h : IsUsage k e) : k.getLast? = some '>' := by
  obtain ⟨⟨sp, rfl, rfl⟩, hc, -⟩ := h
  cases sp with
  | simple n => cases hc
  | applied n gap args => simp [Spelling.text, args.getLast?_text, List.getLast?_append, List.getLast?_cons]

theorem Spelling.isUsage_of_entries {sp : Spelling} {k : Text} {e : TypeExpr}
    (h : (k, e) ∈ sp.entries) : IsUsage k e := by
  unfold entries at h
  split at h
  · cases h
  · rename_i hu
    simp only [Bool.or_eq_true, not_or, Bool.not_eq_true] at hu
    split at h
    · simp only [List.mem_singleton, Prod.mk.injEq] at h
      obtain ⟨rfl, rfl⟩ := h
      exact ⟨spells_render sp.wellFormed, hu.1, hu.2⟩
    · simp only [List.mem_cons, List.not_mem_nil, or_false, Prod.mk.injEq] at h
      obtain ⟨rfl, rfl⟩ | ⟨rfl, rfl⟩ := h
      · exact ⟨spells_render sp.wellFormed, hu.1, hu.2⟩
      · exact ⟨⟨sp, rfl, rfl⟩, hu.1, hu.2⟩

theorem Arguments.isSimple_applied (n : Name) (gap : Blanks) (args : Arguments) :
    (Spelling.applied n gap args).expr.isSimple = false := by
  simp only [Spelling.expr, TypeExpr.isSimple, List.isEmpty_eq_false_iff]
  exact args.exprs_ne_nil

theorem Spelling.isUsage_of_recorded {n : Name} {gap : Blanks} {args : Arguments} {k : Text}
    {e : TypeExpr} (h : (k, e) ∈ (Spelling.applied n gap args).recorded) : IsUsage k e := by
  rcases List.mem_append.mp h with h | h
  · split at h
    · cases h
    · rename_i hb
      simp only [List.mem_singleton, Prod.mk.injEq] at h
      obtain ⟨rfl, rfl⟩ := h
      exact ⟨⟨_, rfl, rfl⟩, args.isSimple_applied n gap, by simpa using hb⟩
  · obtain ⟨sp, -, h⟩ := List.mem_flatMap.mp h
    exact isUsage_of_entries h

-- ---------------------------------------------------------------------------
-- Steps of the search
-- ---------------------------------------------------------------------------

namespace Usage

def unplaced (us : List (Text × Located)) : List (Text × TypeExpr) :=
  us.map fun u => (u.1, u.2.toExpr)

theorem unplaced_append (us vs : List (Text × Located)) :
    unplaced (us ++ vs) = unplaced us ++ unplaced vs :=
  List.map_append

theorem unplaced_inside (a b : Text) (sp : Spelling) :
    unplaced (inside (a ++ (sp.text ++ b)) (sp.locate a.length)) =
      sp.nested.flatMap Spelling.entries := by
  let record (u : Text × TypeExpr) : List (Text × TypeExpr) :=
    if u.2.isSimple || isBuiltin u.2.name then []
    else if u.1 = u.2.render then [(u.2.render, u.2)]
    else [(u.2.render, u.2), u]
  have hl := congrArg (List.flatMap record) (sp.literals_nested a b)
  rw [List.flatMap_map, List.flatMap_map] at hl
  refine Eq.trans ?_ hl
  rw [unplaced, inside, List.map_flatMap]
  congr 1
  funext l
  obtain ⟨n, s, as⟩ := l
  have hs : (Located.toExpr ⟨n, s, as⟩).isSimple = as.isEmpty := by
    cases as <;> simp [Located.toExpr, Located.toExprs, TypeExpr.isSimple]
  have hn : (Located.toExpr ⟨n, s, as⟩).name = n := by rw [Located.toExpr]
  simp only [record, hs, hn]
  split
  · rfl
  · split <;> rfl

variable {text s r : Text} {c : Char}

theorem scan_nil : scan text [] = [] := by
  rw [scan]
  rfl

theorem scan_inert (h : s.afterInert? = some r) : scan text s = scan text r := by
  rw [scan]
  split
  · rename_i heq; rw [h] at heq; cases heq; rfl
  · rename_i heq; rw [h] at heq; cases heq

theorem scan_other (hi : Text.afterInert? (c :: r) = none) (hc : isNameChar c = false) :
    scan text (c :: r) = scan text r := by
  rw [scan]
  split
  · rename_i heq; rw [hi] at heq; cases heq
  · simp only [hc, Bool.false_eq_true, dite_false]

theorem scan_number (hc : isNameChar c) (hs : isNameStart c = false) :
    scan text (c :: r) = scan text (Text.afterNameRun (c :: r)) := by
  have hi := Text.afterInert?_eq_none (s := c :: r) (not_opensInert_of_isNameChar hc)
  rw [scan]
  split
  · rename_i heq; rw [hi] at heq; cases heq
  · simp only [hc, hs, dite_true, Bool.false_eq_true, if_false]

theorem scan_name (hs : isNameStart c) (ho : (Text.afterName (c :: r)).head? ≠ some '<') :
    scan text (c :: r) = scan text (Text.afterName (c :: r)) := by
  have hc := isNameChar_of_isNameStart hs
  have hi := Text.afterInert?_eq_none (s := c :: r) (not_opensInert_of_isNameChar hc)
  rw [scan]
  split
  · rename_i heq; rw [hi] at heq; cases heq
  · simp only [hc, hs, dite_true, if_true]
    split
    · rename_i heq; rw [heq] at ho; exact absurd rfl ho
    · rfl

theorem scan_bracket {t : Text} (hs : isNameStart c) (ht : Text.afterName (c :: r) = '<' :: t)
    (hr : isComparison t ∨ ∃ f, Located.readArguments text.length t = .error f) :
    scan text (c :: r) = scan text t := by
  have hc := isNameChar_of_isNameStart hs
  have hi := Text.afterInert?_eq_none (s := c :: r) (not_opensInert_of_isNameChar hc)
  rw [scan]
  split
  · rename_i heq; rw [hi] at heq; cases heq
  · simp only [hc, hs, dite_true, if_true]
    split
    · rename_i t' heq
      rw [ht] at heq
      cases heq
      split
      · rfl
      · rename_i hcmp
        obtain ⟨f, hf⟩ := hr.resolve_left hcmp
        simp only [hf]
    · rename_i h
      exact (h t ht).elim

theorem names_applied (n : Name) (gap : Blanks) (args : Arguments) (b : Text) :
    Text.nameRun ((Spelling.applied n gap args).text ++ b) = n.1 ∧
      Text.afterName ((Spelling.applied n gap args).text ++ b) = '<' :: (args.text ++ b) := by
  have hall := Text.all_isNameChar_of_isName n.2
  have hhead := head_blanks_append (x := '<' :: (args.text ++ b)) gap rfl
  have hsplit : (Spelling.applied n gap args).text ++ b =
      n.1 ++ (gap.1 ++ '<' :: (args.text ++ b)) := by
    simp only [Spelling.text, List.append_assoc, List.cons_append]
  rw [hsplit, Text.afterName, Text.nameRun_append hall hhead, Text.afterNameRun_append hall hhead,
    Text.dropBlank_append gap.2]
  exact ⟨rfl, Text.dropBlank_of_head rfl⟩

theorem located_applied (n : Name) (gap : Blanks) (args : Arguments) (a b : Text) (l : Nat)
    (hl : l = (a ++ ((Spelling.applied n gap args).text ++ b)).length) :
    (⟨n.1, ⟨Text.offset l ((Spelling.applied n gap args).text ++ b), Text.offset l b⟩,
      args.locate (Text.offset l (args.text ++ b))⟩ : Located) =
      (Spelling.applied n gap args).locate a.length := by
  subst hl
  simp only [Spelling.locate, Spelling.text, Text.offset, List.length_append, List.length_cons,
    Located.mk.injEq, Span.mk.injEq, true_and]
  refine ⟨⟨by omega, by omega⟩, ?_⟩
  congr 1
  omega

theorem scan_reference {n : Name} {gap : Blanks} {args : Arguments} {a b : Text}
    (ht : text = a ++ ((Spelling.applied n gap args).text ++ b))
    (hcmp : isComparison (args.text ++ b) = false) :
    unplaced (scan text ((Spelling.applied n gap args).text ++ b)) =
      (Spelling.applied n gap args).recorded ++ unplaced (scan text b) := by
  obtain ⟨hrun, hafter⟩ := names_applied n gap args b
  have htree := located_applied n gap args a b text.length (congrArg List.length ht)
  have hupTo := Text.upTo_append (Spelling.applied n gap args).text b
  have hinside := unplaced_inside a b (Spelling.applied n gap args)
  rw [← ht] at hinside
  have hname : (Spelling.applied n gap args).expr.name = n.1 := rfl
  obtain ⟨hu, hread⟩ := args.readArguments_text text.length b (by
    rw [ht]
    simp only [Spelling.text, List.length_append, List.length_cons]
    omega)
  obtain ⟨c, r, hn, hc, -⟩ := Text.isName_iff.mp n.2
  obtain ⟨r, hcr⟩ : ∃ r, (Spelling.applied n gap args).text ++ b = c :: r := by
    rw [Spelling.text, hn]
    exact ⟨_, rfl⟩
  rw [hcr] at hrun hafter hupTo htree ⊢
  have hnc := isNameChar_of_isNameStart hc
  have hi := Text.afterInert?_eq_none (s := c :: r) (not_opensInert_of_isNameChar hnc)
  rw [scan]
  split
  · rename_i heq; rw [hi] at heq; cases heq
  · simp only [hnc, hc, dite_true, if_true]
    split
    · rename_i t heq
      rw [hafter] at heq
      cases heq
      simp only [hcmp, Bool.false_eq_true, if_false, hread, hrun, hupTo, htree]
      rw [unplaced_append, unplaced_append, hinside, Spelling.recorded, hname]
      congr 2
      split
      · rfl
      · simp only [unplaced, List.map_cons, List.map_nil, Spelling.toExpr_locate]
    · rename_i h
      exact (h _ hafter).elim

/-- The search passes over the head of `s`, which is not empty. -/
def Skips (text s : Text) : Prop :=
  ∃ b r, s = b ++ r ∧ b ≠ [] ∧ scan text s = scan text r

/-- The search records the reference at the head of `s` and passes over it. -/
def Records (text s : Text) : Prop :=
  ∃ n gap args r, s = (Spelling.applied n gap args).text ++ r ∧
    unplaced (scan text s) = (Spelling.applied n gap args).recorded ++ unplaced (scan text r)

theorem skips_or_refers {a t : Text} (hs : isNameStart c)
    (ht : Text.afterName (c :: r) = '<' :: t) :
    scan (a ++ c :: r) (c :: r) = scan (a ++ c :: r) t ∨
      ∃ n gap args u, c :: r = (Spelling.applied n gap args).text ++ u ∧ t = args.text ++ u ∧
        isComparison t = false := by
  cases hcmp : isComparison t with
  | true => exact .inl (scan_bracket hs ht (.inl hcmp))
  | false =>
    cases hread : Located.readArguments (a ++ c :: r).length t with
    | error f => exact .inl (scan_bracket hs ht (.inr ⟨f, hread⟩))
    | ok found =>
      obtain ⟨args, u⟩ := found
      obtain ⟨n, w, hn, hw, heq⟩ := Text.exists_name (r := r) hs
      rw [ht] at heq
      have hlen := congrArg List.length heq
      simp only [List.length_append, List.length_cons] at hlen
      obtain ⟨args, hargs, -⟩ := exists_arguments_of_readArguments
        (by simp only [List.length_append, List.length_cons]; omega) hread
      refine .inr ⟨⟨n, hn⟩, ⟨w, hw⟩, args, u.1, ?_, hargs, rfl⟩
      simpa only [Spelling.text, List.append_assoc, List.cons_append, ← hargs] using heq

theorem skips_or_records {a t : Text} (hs : isNameStart c)
    (ht : Text.afterName (c :: r) = '<' :: t) :
    Skips (a ++ c :: r) (c :: r) ∨ Records (a ++ c :: r) (c :: r) := by
  obtain hskip | ⟨n, gap, args, u, hsp, rfl, hcmp⟩ := skips_or_refers (a := a) hs ht
  · obtain ⟨n, w, hn, -, heq⟩ := Text.exists_name (r := r) hs
    rw [ht] at heq
    refine .inl ⟨n ++ (w ++ ['<']), t, ?_, by simp [Text.isName_ne_nil hn], hskip⟩
    simp only [heq, List.append_assoc, List.cons_append, List.nil_append]
  · refine .inr ⟨n, gap, args, u, hsp, ?_⟩
    rw [hsp]
    exact scan_reference rfl hcmp

/-- Everything a step of the search can do at a place of the text. -/
theorem scan_cases (a s : Text) :
    scan (a ++ s) s = [] ∨ Skips (a ++ s) s ∨ Records (a ++ s) s := by
  cases hi : s.afterInert? with
  | some r =>
    obtain ⟨b, rfl⟩ := Text.suffix_of_afterInert? hi
    refine .inr (.inl ⟨b, r, rfl, ?_, scan_inert hi⟩)
    rintro rfl
    exact Nat.lt_irrefl _ (Text.length_lt_of_afterInert? hi)
  | none =>
    cases s with
    | nil => exact .inl scan_nil
    | cons c r =>
      cases hs : isNameStart c with
      | false =>
        cases hc : isNameChar c with
        | false => exact .inr (.inl ⟨[c], r, rfl, by simp, scan_other hi hc⟩)
        | true =>
          refine .inr (.inl ⟨Text.nameRun (c :: r), _,
            (Text.nameRun_append_afterNameRun _).symm, ?_, scan_number hc hs⟩)
          rw [Text.nameRun, List.takeWhile_cons_of_pos hc]
          simp
      | true =>
        by_cases ho : (Text.afterName (c :: r)).head? = some '<'
        · obtain ⟨t, ht⟩ := List.head?_eq_some_iff.mp ho
          exact .inr (skips_or_records hs ht)
        · obtain ⟨n, w, hn, -, heq⟩ := Text.exists_name (r := r) hs
          refine .inr (.inl ⟨n ++ w, _, ?_, by simp [Text.isName_ne_nil hn], scan_name hs ho⟩)
          rw [List.append_assoc]
          exact heq

theorem isUsage_of_scan {a s : Text} {k : Text} {e : TypeExpr}
    (h : (k, e) ∈ unplaced (scan (a ++ s) s)) : IsUsage k e := by
  obtain hnil | ⟨b, r, hs, hb, hr⟩ | ⟨n, gap, args, r, hs, hr⟩ := scan_cases a s
  · rw [hnil] at h; cases h
  · have hlt : r.length < s.length := by
      have := List.length_pos_iff.mpr hb
      rw [hs, List.length_append]
      omega
    rw [hr, show a ++ s = (a ++ b) ++ r by rw [hs, List.append_assoc]] at h
    exact isUsage_of_scan h
  · rw [hr] at h
    rcases List.mem_append.mp h with h | h
    · exact Spelling.isUsage_of_recorded h
    · have hlt : r.length < s.length := by
        rw [hs]
        simp only [Spelling.text, List.length_append, List.length_cons]
        omega
      rw [show a ++ s = (a ++ (Spelling.applied n gap args).text) ++ r by
        rw [hs, List.append_assoc]] at h
      exact isUsage_of_scan h
termination_by s.length
decreasing_by all_goals assumption

theorem isUsage_of_find {text k : Text} {l : Located} (h : (k, l) ∈ (find text).entries) :
    IsUsage k l.toExpr := by
  have hm : (k, l.toExpr) ∈ unplaced (scan ([] ++ text) text) :=
    List.mem_map.mpr ⟨(k, l), Table.mem_of_mem_ofList h, rfl⟩
  exact isUsage_of_scan hm

theorem isUsage_of_findKnown {known : Text → Bool} {text k : Text} {e : TypeExpr}
    (h : (k, e) ∈ (findKnown known text).entries) : IsUsage k e ∧ known e.name = true := by
  obtain ⟨h, hk⟩ := Table.mem_filter.mp h
  obtain ⟨l, hl, rfl⟩ := Table.mem_map.mp h
  exact ⟨isUsage_of_find hl, hk⟩

end Usage

end Monomorph
