import Monomorph.Proofs.Lexemes
import Monomorph.Proofs.UsagesInCode

/-!
# Places of usages

The places of a text are where a name begins in code. Inside a reference they are the places of its
arguments, so a literal that stands there is one of these as it is written. The search finds a usage
at every place where one stands, unless its bracket reads like a comparison (`mem_scan_of_place`),
and together with a usage it records all usages inside (`exists_nested_of_scan`). A semicolon in
code divides the search (`unplaced_scan_semicolon`).
-/

namespace Monomorph

-- ---------------------------------------------------------------------------
-- Places
-- ---------------------------------------------------------------------------

namespace Text

/-- Every place in code where a name begins. `joined` tells whether a name character stands before
`s`. -/
def places (joined : Bool) (s : Text) : List Text :=
  match _h : afterInert? s with
  | some r => places false r
  | none =>
    match s with
    | [] => []
    | c :: r =>
      if isNameStart c && !joined then (c :: r) :: places (isNameChar c) r
      else places (isNameChar c) r
termination_by s.length
decreasing_by
  · exact length_lt_of_afterInert? ‹_›
  all_goals simp

variable {joined : Bool} {n s r w : Text} {c : Char}

theorem places_nil : places joined [] = [] := by
  rw [places]
  rfl

theorem places_inert (h : afterInert? s = some r) : places joined s = places false r := by
  rw [places]
  split
  · rename_i heq; rw [h] at heq; cases heq; rfl
  · rename_i heq; rw [h] at heq; cases heq

theorem places_cons (h : afterInert? (c :: r) = none) : places joined (c :: r) =
    if isNameStart c && !joined then (c :: r) :: places (isNameChar c) r
    else places (isNameChar c) r := by
  rw [places]
  split
  · rename_i heq; rw [h] at heq; cases heq
  · rfl

theorem places_skip (hi : afterInert? (c :: r) = none) (hc : isNameStart c = false) :
    places joined (c :: r) = places (isNameChar c) r := by
  rw [places_cons hi, hc]
  rfl

theorem places_joined (hs : s.head?.any isNameChar = false) : places joined s = places false s := by
  cases s with
  | nil => rw [places_nil, places_nil]
  | cons c r =>
    have hc : isNameStart c = false :=
      Bool.eq_false_iff.mpr fun h => Bool.eq_false_iff.mp hs (isNameChar_of_isNameStart h)
    cases hi : afterInert? (c :: r) with
    | some t => rw [places_inert hi, places_inert hi]
    | none => rw [places_skip hi hc, places_skip hi hc]

theorem places_run (hn : n.all isNameChar = true) : places true (n ++ s) = places true s := by
  induction n with
  | nil => rfl
  | cons c n ih =>
    simp only [List.all_cons, Bool.and_eq_true] at hn
    have hi := afterInert?_eq_none (s := c :: (n ++ s)) (not_opensInert_of_isNameChar hn.1)
    rw [List.cons_append, places_cons hi, Bool.not_true, Bool.and_false, if_neg Bool.false_ne_true,
      hn.1, ih hn.2]

theorem places_name (hn : n.isName = true) (hs : s.head?.any isNameChar = false) :
    places false (n ++ s) = (n ++ s) :: places false s := by
  obtain ⟨c, r, rfl, hc, hr⟩ := isName_iff.mp hn
  have hname := isNameChar_of_isNameStart hc
  have hi := afterInert?_eq_none (s := c :: (r ++ s)) (not_opensInert_of_isNameChar hname)
  rw [List.cons_append, places_cons hi, hc, hname, places_run hr, places_joined hs]
  rfl

theorem places_blanks (hw : w.allBlank = true) : places false (w ++ s) = places false s := by
  induction w with
  | nil => rfl
  | cons c w ih =>
    simp only [allBlank, List.all_cons, Bool.and_eq_true] at hw
    have hc := not_isNameChar_of_isBlank hw.1
    have hi := afterInert?_eq_none (s := c :: (w ++ s)) (not_opensInert_of_isBlank hw.1)
    have hstart : isNameStart c = false :=
      Bool.eq_false_iff.mpr fun h => Bool.eq_false_iff.mp hc (isNameChar_of_isNameStart h)
    rw [List.cons_append, places_skip hi hstart, hc, ih hw.2]

theorem places_mark (hc : c ∈ ['<', ',', '>']) : places false (c :: s) = places false s := by
  simp only [List.mem_cons, List.not_mem_nil, or_false] at hc
  rcases hc with rfl | rfl | rfl <;> exact places_skip (afterInert?_eq_none rfl) rfl

theorem mem_places_append {k p : Text} (hk : ∀ c ∈ k, opensInert c = false)
    (hp : p ∈ places ((k.getLast?.map isNameChar).getD joined) s) : p ∈ places joined (k ++ s) := by
  induction k generalizing joined with
  | nil => exact hp
  | cons c k ih =>
    obtain ⟨hc, hk⟩ := List.forall_mem_cons.mp hk
    have hi := afterInert?_eq_none (s := c :: (k ++ s)) hc
    have hmem : p ∈ places (isNameChar c) (k ++ s) := by
      refine ih hk ?_
      rw [List.getLast?_cons] at hp
      cases hlast : k.getLast? with
      | none => simpa [hlast] using hp
      | some d => simpa [hlast] using hp
    rw [List.cons_append, places_cons hi]
    split
    · exact List.mem_cons_of_mem _ hmem
    · exact hmem

/-- Neither does a name go on here nor does a bracket open. -/
structure EndsName (r : Text) : Prop where
  noName : r.head?.any isNameChar = false
  noBracket : r.dropBlank.head? ≠ some '<'

theorem endsName_mark (w : Blanks) (hc : c = ',' ∨ c = '>') (s : Text) :
    EndsName (w.1 ++ c :: s) where
  noName := head_blanks_append w (by rcases hc with rfl | rfl <;> rfl)
  noBracket := by
    rw [dropBlank_append w.2]
    rcases hc with rfl | rfl <;> rw [dropBlank_of_head rfl] <;> simp

end Text

open Text

-- ---------------------------------------------------------------------------
-- Places in a reference
-- ---------------------------------------------------------------------------

theorem Spelling.places_applied (n : Name) (gap : Blanks) (args : Arguments) (s : Text) :
    places false ((Spelling.applied n gap args).text ++ s) =
      ((Spelling.applied n gap args).text ++ s) :: places false (args.text ++ s) := by
  have hsplit : (Spelling.applied n gap args).text ++ s =
      n.1 ++ (gap.1 ++ '<' :: (args.text ++ s)) := by
    simp only [Spelling.text, List.append_assoc, List.cons_append]
  rw [hsplit, places_name n.2 (head_blanks_append gap rfl), places_blanks gap.2,
    places_mark (by simp)]

mutual
theorem Spelling.places_text : (sp : Spelling) → (s : Text) → EndsName s →
    ∀ p ∈ places false (sp.text ++ s), p ∈ places false s ∨
      ∃ b ∈ sp :: sp.nested, ∃ r, p = b.text ++ r ∧ EndsName r
  | .simple n, s, hs => by
    intro p hp
    rw [Spelling.text, places_name n.2 hs.noName] at hp
    rcases List.mem_cons.mp hp with rfl | hp
    · exact .inr ⟨.simple n, by simp, s, rfl, hs⟩
    · exact .inl hp
  | .applied n gap args, s, hs => by
    intro p hp
    rw [Spelling.places_applied] at hp
    rcases List.mem_cons.mp hp with rfl | hp
    · exact .inr ⟨_, List.mem_cons_self .., s, rfl, hs⟩
    · rcases args.places_text s p hp with hp | ⟨b, hb, h⟩
      · exact .inl hp
      · exact .inr ⟨b, List.mem_cons_of_mem _ hb, h⟩
theorem Arguments.places_text : (args : Arguments) → (s : Text) →
    ∀ p ∈ places false (args.text ++ s), p ∈ places false s ∨
      ∃ b ∈ args.nested, ∃ r, p = b.text ++ r ∧ EndsName r
  | .last before arg after, s => by
    intro p hp
    simp only [Arguments.text, List.append_assoc, List.cons_append, List.nil_append] at hp
    rw [places_blanks before.2] at hp
    rcases arg.places_text _ (endsName_mark after (.inr rfl) s) p hp with hp | h
    · rw [places_blanks after.2, places_mark (by simp)] at hp
      exact .inl hp
    · exact .inr h
  | .more before arg after others, s => by
    intro p hp
    simp only [Arguments.text, List.append_assoc, List.cons_append] at hp
    rw [places_blanks before.2] at hp
    rcases arg.places_text _ (endsName_mark after (.inl rfl) _) p hp with hp | ⟨b, hb, h⟩
    · rw [places_blanks after.2, places_mark (by simp)] at hp
      rcases others.places_text s p hp with hp | ⟨b, hb, h⟩
      · exact .inl hp
      · exact .inr ⟨b, List.mem_cons_of_mem _ (List.mem_append_right _ hb), h⟩
    · refine .inr ⟨b, ?_, h⟩
      rcases List.mem_cons.mp hb with rfl | hb
      · exact List.mem_cons_self ..
      · exact List.mem_cons_of_mem _ (List.mem_append_left _ hb)
end

variable {k k' s : Text} {e e' : TypeExpr}

theorem IsUsage.exists_applied (h : IsUsage k e) :
    ∃ n gap args, (Spelling.applied n gap args).text = k ∧
      (Spelling.applied n gap args).expr = e := by
  obtain ⟨⟨sp, rfl, rfl⟩, hcompound, -⟩ := h
  cases sp with
  | simple n => cases hcompound
  | applied n gap args => exact ⟨n, gap, args, rfl, rfl⟩

theorem IsUsage.eq_of_isPrefix (h : IsUsage k e) (h' : IsUsage k' e') (hk : k <+: s)
    (hk' : k' <+: s) : k = k' ∧ e = e' := by
  obtain ⟨n, gap, args, rfl, rfl⟩ := h.exists_applied
  obtain ⟨n', gap', args', rfl, rfl⟩ := h'.exists_applied
  obtain ⟨x, rfl⟩ := hk
  obtain ⟨y, hy⟩ := hk'
  obtain ⟨hexpr, rfl⟩ := Spelling.applied_of_append hy
  exact ⟨(List.append_cancel_right hy).symm, hexpr.symm⟩

theorem IsUsage.eq_spelling {b : Spelling} {r : Text} (h : IsUsage k e) (hr : EndsName r)
    (hk : k <+: b.text ++ r) : b.text = k ∧ b.expr = e := by
  obtain ⟨n, gap, args, rfl, rfl⟩ := h.exists_applied
  obtain ⟨x, hx⟩ := hk
  cases b with
  | simple m =>
    -- the bracket of the usage would open behind the name
    simp only [Spelling.text, List.append_assoc, List.cons_append] at hx
    obtain ⟨-, rfl⟩ := append_inj_of_isName n.2 m.2 (head_blanks_append gap rfl) hr.noName hx
    have hbracket := hr.noBracket
    rw [dropBlank_append gap.2, dropBlank_of_head rfl] at hbracket
    exact absurd rfl hbracket
  | applied m gap' args' =>
    obtain ⟨hexpr, rfl⟩ := Spelling.applied_of_append hx
    exact ⟨(List.append_cancel_right hx).symm, hexpr.symm⟩

theorem Arguments.exists_nested_of_place {args : Arguments} {p : Text} (h : IsUsage k e)
    (hp : p ∈ places false (args.text ++ s)) (hk : k <+: p) :
    p ∈ places false s ∨ ∃ b ∈ args.nested, b.text = k ∧ b.expr = e := by
  rcases args.places_text s p hp with hp | ⟨b, hb, r, rfl, hr⟩
  · exact .inl hp
  · exact .inr ⟨b, hb, h.eq_spelling hr hk⟩

-- ---------------------------------------------------------------------------
-- Usages inside usages
-- ---------------------------------------------------------------------------

mutual
theorem Spelling.nested_subset : (sp : Spelling) → ∀ b ∈ sp.nested, ∀ x ∈ b.nested, x ∈ sp.nested
  | .simple _ => fun _ hb => (nomatch hb)
  | .applied _ _ args => args.nested_subset
theorem Arguments.nested_subset : (args : Arguments) →
    ∀ b ∈ args.nested, ∀ x ∈ b.nested, x ∈ args.nested
  | .last _ arg _ => by
    intro b hb x hx
    rcases List.mem_cons.mp hb with rfl | hb
    · exact List.mem_cons_of_mem _ hx
    · exact List.mem_cons_of_mem _ (arg.nested_subset b hb x hx)
  | .more _ arg _ others => by
    intro b hb x hx
    rcases List.mem_cons.mp hb with rfl | hb
    · exact List.mem_cons_of_mem _ (List.mem_append_left _ hx)
    · rcases List.mem_append.mp hb with hb | hb
      · exact List.mem_cons_of_mem _ (List.mem_append_left _ (arg.nested_subset b hb x hx))
      · exact List.mem_cons_of_mem _ (List.mem_append_right _ (others.nested_subset b hb x hx))
end

theorem Spelling.mem_entries_of_usage {b : Spelling} (hs : b.expr.isSimple = false)
    (hb : isBuiltin b.expr.name = false) :
    (b.text, b.expr) ∈ b.entries ∧ (b.expr.render, b.expr) ∈ b.entries := by
  rw [entries, hs, hb, Bool.or_self, if_neg Bool.false_ne_true]
  split
  · rename_i h
    simp [h]
  · simp

theorem Spelling.exists_nested_of_recorded {n : Name} {gap : Blanks} {args : Arguments}
    (h : (k, e) ∈ (Spelling.applied n gap args).recorded) :
    ∃ m w as, (Spelling.applied m w as).text = k ∧
      ∀ b ∈ as.nested, b.expr.isSimple = false → isBuiltin b.expr.name = false →
        (b.text, b.expr) ∈ (Spelling.applied n gap args).recorded := by
  have hinside {b : Spelling} (hb : b ∈ args.nested) {x : Text × TypeExpr} (hx : x ∈ b.entries) :
      x ∈ (Spelling.applied n gap args).recorded :=
    List.mem_append_right _ (List.mem_flatMap.mpr ⟨b, hb, hx⟩)
  rcases List.mem_append.mp h with h | h
  · -- the reference itself
    split at h
    · cases h
    · cases List.mem_singleton.mp h
      exact ⟨n, gap, args, rfl, fun b hb hs hbuiltin =>
        hinside hb (mem_entries_of_usage hs hbuiltin).1⟩
  · obtain ⟨a, ha, h⟩ := List.mem_flatMap.mp h
    have husage := isUsage_of_entries h
    -- an argument as it stands, or its canonical text with canonical arguments
    have hcases : e = a.expr ∧ (k = a.text ∨ k = a.expr.render) := by
      unfold entries at h
      split at h
      · cases h
      · split at h
        · cases List.mem_singleton.mp h
          exact ⟨rfl, .inr rfl⟩
        · rcases List.mem_cons.mp h with h | h
          · cases h
            exact ⟨rfl, .inr rfl⟩
          · cases List.mem_singleton.mp h
            exact ⟨rfl, .inl rfl⟩
    obtain ⟨rfl, rfl | rfl⟩ := hcases
    · cases a with
      | simple m => cases husage.compound
      | applied m w as =>
        exact ⟨m, w, as, rfl, fun b hb hs hbuiltin =>
          hinside (args.nested_subset _ ha b hb) (mem_entries_of_usage hs hbuiltin).1⟩
    · obtain ⟨m, w, as, hexpr, hcanonical⟩ := TypeExpr.exists_applied a.wellFormed husage.compound
      refine ⟨m, w, as, hcanonical.1.trans (by rw [hexpr]), fun b hb hs hbuiltin => ?_⟩
      have hmem : b.expr ∈ a.nested.map Spelling.expr := by
        rw [a.map_expr_nested, ← hexpr, ← Spelling.map_expr_nested]
        exact List.mem_map_of_mem hb
      obtain ⟨x, hx, hxb⟩ := List.mem_map.mp hmem
      rw [hcanonical.2 b hb, ← hxb]
      exact hinside (args.nested_subset a ha x hx)
        (mem_entries_of_usage (hxb ▸ hs) (hxb ▸ hbuiltin)).2

namespace Usage

theorem exists_nested_of_scan {x s : Text} (h : (k, e) ∈ unplaced (scan (x ++ s) s)) :
    ∃ n gap args, (Spelling.applied n gap args).text = k ∧ ∀ b ∈ args.nested,
      b.expr.isSimple = false → isBuiltin b.expr.name = false →
      (b.text, b.expr) ∈ unplaced (scan (x ++ s) s) := by
  obtain hnil | ⟨b, r, hs, hb, hr⟩ | ⟨n, gap, args, r, hs, hr⟩ := scan_cases x s
  · rw [hnil] at h
    cases h
  · have hlt : r.length < s.length := by
      have := List.length_pos_iff.mpr hb
      rw [hs, List.length_append]
      omega
    rw [hr, show x ++ s = (x ++ b) ++ r by rw [hs, List.append_assoc]] at h ⊢
    exact exists_nested_of_scan h
  · rw [hr] at h ⊢
    rcases List.mem_append.mp h with h | h
    · obtain ⟨m, w, as, htext, hnested⟩ := Spelling.exists_nested_of_recorded h
      exact ⟨m, w, as, htext, fun b hb hs hbuiltin =>
        List.mem_append_left _ (hnested b hb hs hbuiltin)⟩
    · have hlt : r.length < s.length := by
        rw [hs]
        simp only [Spelling.text, List.length_append, List.length_cons]
        omega
      rw [show x ++ s = (x ++ (Spelling.applied n gap args).text) ++ r by
        rw [hs, List.append_assoc]] at h ⊢
      obtain ⟨m, w, as, htext, hnested⟩ := exists_nested_of_scan h
      exact ⟨m, w, as, htext, fun b hb hs hbuiltin =>
        List.mem_append_right _ (hnested b hb hs hbuiltin)⟩
termination_by s.length
decreasing_by all_goals assumption

theorem singleValued_scan (text : Text) : Table.SingleValued (unplaced (scan text text)) := by
  intro k e f he hf
  exact (isUsage_of_scan (a := []) he).spells.unique (isUsage_of_scan (a := []) hf).spells

theorem mem_find {text : Text} :
    (k, e) ∈ ((find text).map Located.toExpr).entries ↔ (k, e) ∈ unplaced (scan text text) := by
  rw [find, Table.map_ofList]
  exact Table.mem_ofList_of_singleValued (singleValued_scan text)

theorem mem_findKnown {known : Text → Bool} {text : Text} :
    (k, e) ∈ (findKnown known text).entries ↔
      (k, e) ∈ unplaced (scan text text) ∧ known e.name = true := by
  rw [findKnown, Table.mem_filter, mem_find]

-- ---------------------------------------------------------------------------
-- The search at places
-- ---------------------------------------------------------------------------

/-- Whether the first bracket of a literal reads like a comparison. -/
def spaced (k : Text) : Bool :=
  match k.afterName with
  | '<' :: t => isComparison t
  | _ => false

theorem spaced_applied (n : Name) (gap : Blanks) (args : Arguments) (u : Text) :
    spaced (Spelling.applied n gap args).text = isComparison (args.text ++ u) := by
  have hafter := (names_applied n gap args []).2
  rw [List.append_nil, List.append_nil] at hafter
  rw [spaced, hafter]
  cases hargs : args.text with
  | nil =>
    have hlast := args.getLast?_text
    rw [hargs] at hlast
    cases hlast
  | cons c t => rfl

theorem places_word {c : Char} {r : Text} (hc : isNameStart c = true) :
    places false (c :: r) = (c :: r) :: places false (afterName (c :: r)) := by
  obtain ⟨w, hw, hrest⟩ := exists_blanks (afterNameRun (c :: r))
  have hplaces := places_name (isName_nameRun (r := r) hc) (head_afterNameRun (c :: r))
  rw [nameRun_append_afterNameRun] at hplaces
  rw [hplaces, hrest, places_blanks hw]
  rfl

/-- The search finds every usage that stands at a place, unless its bracket reads like a
comparison. -/
theorem mem_scan_of_place {x s p : Text} (h : IsUsage k e) (hspaced : spaced k = false)
    (hp : p ∈ places false s) (hk : k <+: p) : (k, e) ∈ unplaced (scan (x ++ s) s) := by
  -- how to go on behind what is passed over
  have onward (b y : Text) (hs : s = b ++ y) (hb : b ≠ []) (hp : p ∈ places false y) :
      (k, e) ∈ unplaced (scan (x ++ s) y) := by
    have hlt : y.length < s.length := by
      have := List.length_pos_iff.mpr hb
      rw [hs, List.length_append]
      omega
    have hmem : (k, e) ∈ unplaced (scan ((x ++ b) ++ y) y) := mem_scan_of_place h hspaced hp hk
    rwa [List.append_assoc, ← hs] at hmem
  cases hi : afterInert? s with
  | some r =>
    have hlt := length_lt_of_afterInert? hi
    obtain ⟨b, hb⟩ := suffix_of_afterInert? hi
    rw [places_inert hi] at hp
    rw [scan_inert hi]
    refine onward b r hb.symm ?_ hp
    rintro rfl
    simp [← hb] at hlt
  | none =>
    cases s with
    | nil =>
      rw [places_nil] at hp
      cases hp
    | cons c r =>
      cases hs : isNameStart c with
      | false =>
        rw [places_skip hi hs] at hp
        cases hc : isNameChar c with
        | false =>
          rw [hc] at hp
          rw [scan_other hi hc]
          exact onward [c] r rfl (by simp) hp
        | true =>
          have hrun : (nameRun r).all isNameChar = true := List.all_takeWhile
          have hafter : afterNameRun (c :: r) = afterNameRun r := List.dropWhile_cons_of_pos hc
          rw [hc, ← nameRun_append_afterNameRun r, places_run hrun,
            places_joined (head_afterNameRun r), ← hafter] at hp
          rw [scan_number hc hs]
          exact onward _ _ (nameRun_append_afterNameRun (c :: r)).symm (nameRun_ne_nil hc) hp
      | true =>
        obtain ⟨n, w, hn, -, hword⟩ := exists_name (r := r) hs
        have hne : n ≠ [] := isName_ne_nil hn
        rw [places_word hs] at hp
        rcases List.mem_cons.mp hp with rfl | hp
        · -- the usage stands right here
          obtain ⟨u, hu⟩ := hk
          obtain ⟨n, gap, args, rfl, rfl⟩ := h.exists_applied
          rw [← hu, scan_reference rfl ((spaced_applied n gap args u).symm.trans hspaced)]
          refine List.mem_append_left _ (List.mem_append_left _ ?_)
          rw [h.notBuiltin, if_neg Bool.false_ne_true]
          exact List.mem_singleton_self _
        · by_cases ho : (afterName (c :: r)).head? = some '<'
          · obtain ⟨t, ht⟩ := List.head?_eq_some_iff.mp ho
            rw [ht] at hword
            rw [ht, places_mark (by simp)] at hp
            obtain hskip | ⟨n', gap, args, u, hsp, rfl, hcmp⟩ := skips_or_refers (a := x) hs ht
            · rw [hskip]
              refine onward (n ++ (w ++ ['<'])) t ?_ (by simp [hne]) hp
              simp only [hword, List.append_assoc, List.cons_append, List.nil_append]
            · rcases Arguments.exists_nested_of_place h hp hk with hp | ⟨b, hb, rfl, rfl⟩
              · have hmem := onward _ u hsp (by simp [Spelling.text, isName_ne_nil n'.2]) hp
                rw [hsp] at hmem ⊢
                rw [scan_reference rfl hcmp]
                exact List.mem_append_right _ hmem
              · rw [hsp, scan_reference rfl hcmp]
                refine List.mem_append_left _ (List.mem_append_right _ ?_)
                exact List.mem_flatMap.mpr
                  ⟨b, hb, (Spelling.mem_entries_of_usage h.compound h.notBuiltin).1⟩
          · rw [scan_name hs ho]
            exact onward (n ++ w) _ (by rw [List.append_assoc]; exact hword) (by simp [hne]) hp
termination_by s.length

end Usage

-- ---------------------------------------------------------------------------
-- The search across a semicolon
-- ---------------------------------------------------------------------------

namespace Text

def endsInCode (a : Text) : Bool :=
  (segments (a ++ [';'])).getLast?.any (·.isCode)

theorem isCode_getLast?_pushCode {segs : List Segment} (c : Char) (h : segs ≠ []) :
    (pushCode c segs).getLast?.any (·.isCode) = segs.getLast?.any (·.isCode) := by
  obtain ⟨⟨t, isCode⟩, segs, rfl⟩ := List.exists_cons_of_ne_nil h
  cases isCode with
  | true =>
    simp only [pushCode, List.getLast?_cons]
    cases segs.getLast? <;> rfl
  | false =>
    simp only [pushCode, List.getLast?_cons, Option.getD_some]

theorem segments_ne_nil {s : Text} (h : s ≠ []) : segments s ≠ [] := by
  obtain ⟨c, r, rfl⟩ := List.exists_cons_of_ne_nil h
  cases hi : afterInert? (c :: r) with
  | some t =>
    rw [segments_inert hi]
    simp
  | none =>
    rw [segments_cons hi]
    unfold pushCode
    split <;> simp

theorem closed_of_endsInCode {a : Text} (h : endsInCode a = true) : Closed a := by
  unfold endsInCode at h
  cases hi : afterInert? (a ++ [';']) with
  | some r =>
    rw [segments_inert hi] at h
    have hlt := length_lt_of_afterInert? hi
    -- the stretch does not take the semicolon with it
    have hr : r ≠ [] := by
      rintro rfl
      rw [segments_nil] at h
      cases h
    obtain ⟨t, ht⟩ := suffix_of_afterInert? hi
    obtain ⟨b, rfl⟩ : ∃ b, r = b ++ [';'] := by
      have hlast : r.getLast? = some ';' := by
        rw [← List.getLast?_append_of_ne_nil t hr, ht, List.getLast?_concat]
      exact List.getLast?_eq_some_iff.mp hlast
    rw [← List.append_assoc, List.append_left_inj] at ht
    subst ht
    rw [List.append_assoc] at hi
    obtain ⟨hclosed, k, x, hlast⟩ := closed_of_afterInert? hr hi
    have hb : endsInCode b = true := by
      rw [List.getLast?_cons] at h
      have hne := segments_ne_nil (s := b ++ [';']) (by simp)
      cases hsegs : (segments (b ++ [';'])).getLast? with
      | none => exact absurd (List.getLast?_eq_none_iff.mp hsegs) hne
      | some seg => simpa [endsInCode, hsegs] using h
    simp only [List.length_append] at hlt
    exact hclosed.append (closed_of_endsInCode hb) (meets_of_getLast (by rw [hlast]; rfl) b)
  | none =>
    cases a with
    | nil => exact .nil
    | cons c a =>
      rw [List.cons_append] at h hi
      rw [segments_cons hi, isCode_getLast?_pushCode c (segments_ne_nil (by simp))] at h
      exact .code (afterStretch?_eq_none_of_append (afterInert?_eq_none_iff.mp hi))
        (closed_of_endsInCode h)
termination_by a.length
decreasing_by all_goals simp_all

theorem slashMeets_semicolon (a b : Text) : slashMeets a (';' :: b) = false :=
  meets_of_head a rfl

theorem CodeBefore.semicolon {c r : Text} (h : CodeBefore r c) (b : Text) :
    CodeBefore (r ++ ';' :: b) c := by
  induction c with
  | nil => trivial
  | cons d c ih =>
    refine ⟨?_, ih h.2⟩
    rw [← List.append_assoc, afterInert?_eq_none_iff]
    exact afterStretch?_append_eq_none (afterInert?_eq_none_iff.mp h.1) (slashMeets_semicolon ..)

theorem Closed.of_code {c r : Text} (h : Closed (c ++ r)) (hc : CodeBefore r c) : Closed r := by
  induction c with
  | nil => exact h
  | cons d c ih =>
    refine ih ?_ hc.2
    have hnone := afterInert?_eq_none_iff.mp hc.1
    generalize hs : d :: c ++ r = s at h
    cases h with
    | nil => cases hs
    | @stretch k t a ht ha =>
      rw [← List.cons_append, hs, ht a] at hnone
      cases hnone
    | @code e a he ha =>
      cases hs
      exact ha

end Text

namespace Usage

theorem scan_stretch {text s r : Text} {k : Bool} (h : afterStretch? s = some (k, r)) :
    scan text s = scan text r :=
  eq_of_afterStretch? scan_inert h

theorem unplaced_scan_append {a : Text} (ha : Closed a) (x y b : Text) :
    unplaced (scan (x ++ (a ++ ';' :: b)) (a ++ ';' :: b)) =
      unplaced (scan (y ++ a) a) ++ unplaced (scan (x ++ (a ++ ';' :: b)) b) := by
  obtain ⟨c, r, hs, hc, hr⟩ := a.exists_codeRun
  rw [hs] at ha
  have hends : EndsReference (r ++ ';' :: b) := by
    rcases hr with rfl | ⟨t, ht⟩
    · rfl
    · obtain ⟨u, hu⟩ := afterInert?_append ht (';' :: b)
      exact endsReference_of_stopsCode (.inr ⟨u, hu⟩)
  have hwhole := inStep_code (a := x) (b := y) (hc.semicolon b) hends
  have halone := inStep_code (a := y) (b := y) hc (endsReference_of_stopsCode hr)
  rw [InStep] at hwhole halone
  -- behind the run of code comes the semicolon or a stretch, and the search of the rest
  have hrest : unplaced (scan (x ++ (c ++ (r ++ ';' :: b))) (r ++ ';' :: b)) =
      unplaced (scan (y ++ (c ++ r)) r) ++ unplaced (scan (x ++ (c ++ (r ++ ';' :: b))) b) := by
    cases ha.of_code hc with
    | nil =>
      rw [scan_nil, List.nil_append, scan_other (afterInert?_eq_none rfl) rfl]
      rfl
    | @stretch k t d ht hd =>
      have hlt : d.length < a.length := by
        have := length_lt_of_afterStretch? (ht d)
        simp only [hs, List.length_append] at this ⊢
        omega
      rw [List.append_assoc, scan_stretch (ht d), scan_stretch (ht (d ++ ';' :: b))]
      have h := unplaced_scan_append hd (x ++ (c ++ t)) (y ++ (c ++ t)) b
      simpa only [List.append_assoc] using h
    | code hd _ =>
      rcases hr with hr | ⟨t, ht⟩
      · cases hr
      · rw [afterInert?_eq_none_iff.mpr hd] at ht
        cases ht
  rw [hs, List.append_assoc, hwhole, halone, hrest, List.append_assoc]
termination_by a.length

theorem unplaced_scan_semicolon {a : Text} (ha : Closed a) (b : Text) :
    unplaced (scan (a ++ ';' :: b) (a ++ ';' :: b)) =
      unplaced (scan a a) ++ unplaced (scan b b) := by
  have hscan := unplaced_scan_append ha [] [] b
  have hb := unplaced_scan_eq_ofSegments (a ++ [';']) b
  rw [List.append_assoc, List.singleton_append, ← unplaced_scan_eq_ofSegments []] at hb
  rwa [List.nil_append, List.nil_append, hb, List.nil_append] at hscan

theorem mem_findKnown_append {known : Text → Bool} {a : Text} (ha : Closed a) (b : Text) :
    (k, e) ∈ (findKnown known (a ++ ';' :: b)).entries ↔
      (k, e) ∈ (findKnown known a).entries ∨ (k, e) ∈ (findKnown known b).entries := by
  simp only [mem_findKnown, unplaced_scan_semicolon ha, List.mem_append, or_and_right]

end Usage

end Monomorph
