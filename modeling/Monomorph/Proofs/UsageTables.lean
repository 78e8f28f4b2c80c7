import Monomorph.Proofs.LocalFlattening
import Monomorph.Proofs.ReferenceGrammar

/-!
# Tables of usages

The literal of a usage tells its expression: read as a type argument it gives the expression back.
So tables of usages never disagree, and merging them loses nothing (`literal_tells_expression`). No
literal is the beginning of another one, so the order in which rules for usages are tried makes no
difference (`literals_prefixFree`). A text that a semicolon in code divides has the table of its
first part with that of the second put in (`find_append`).
-/

namespace Monomorph

open Text

namespace Usage

variable {k text : Text} {e : TypeExpr}

-- ---------------------------------------------------------------------------
-- Literals and expressions
-- ---------------------------------------------------------------------------

theorem isUsage_of_mem (h : (k, e) ∈ ((find text).map Located.toExpr).entries) : IsUsage k e :=
  isUsage_of_scan (a := []) (mem_find.mp h)

theorem isUsage_of_mem_keys (h : k ∈ (find text).keys) : ∃ e, IsUsage k e := by
  obtain ⟨l, hl⟩ := Table.mem_keys.mp h
  exact ⟨l.toExpr, isUsage_of_find hl⟩

theorem readsAs_of_isUsage (h : IsUsage k e) : Cursor.ReadsAs k e := by
  obtain ⟨sp, rfl, rfl⟩ := h.spells
  exact Cursor.readsAs_spelling sp

/-- Entries that searches have recorded, in whatever texts. -/
def FromSearches (es : List (Text × TypeExpr)) : Prop :=
  ∀ x ∈ es, ∃ text, x ∈ ((find text).map Located.toExpr).entries

theorem FromSearches.singleValued {es : List (Text × TypeExpr)} (h : FromSearches es) :
    Table.SingleValued es := by
  intro k e f he hf
  obtain ⟨s, hs⟩ := h (k, e) he
  obtain ⟨t, ht⟩ := h (k, f) hf
  exact (isUsage_of_mem hs).spells.unique (isUsage_of_mem ht).spells

/-- A literal determines the expression that is recorded under it. The expression is compound, its
name is that of no built-in collection, and the literal on its own is read to the end as one type
argument, which gives the expression again. So two searches agree on a literal, writing one over
during a search leaves its expression, and so does merging tables, whether the first or the last
entry for a literal stays. -/
theorem literal_tells_expression :
    (∀ text k e, (k, e) ∈ ((find text).map Located.toExpr).entries →
      e.args ≠ [] ∧ e.name ∉ (["List", "Set", "Map"] : List Text) ∧ Cursor.ReadsAs k e) ∧
    (∀ s t k e f, (k, e) ∈ ((find s).map Located.toExpr).entries →
      (k, f) ∈ ((find t).map Located.toExpr).entries → e = f) ∧
    (∀ text k e, (k, e) ∈ unplaced (scan text text) →
      ((find text).map Located.toExpr).get? k = some e) ∧
    ∀ (t : Table Text TypeExpr) (es : List (Text × TypeExpr)), FromSearches (t.entries ++ es) →
      t.insertAllNew es = t.insertAll es ∧
      ∀ k e, (k, e) ∈ t.entries ++ es → (t.insertAll es).get? k = some e := by
  refine ⟨fun text k e h => ?_, fun s t k e f he hf => ?_, fun text k e h => ?_, fun t es h => ?_⟩
  · have husage := isUsage_of_mem h
    refine ⟨?_, ?_, readsAs_of_isUsage husage⟩
    · simpa [TypeExpr.isSimple] using husage.compound
    · simpa [isBuiltin, builtins] using husage.notBuiltin
  · exact (isUsage_of_mem he).spells.unique (isUsage_of_mem hf).spells
  · rw [find, Table.map_ofList]
    exact Table.get?_ofList_of_singleValued (singleValued_scan text) h
  · exact ⟨Table.insertAllNew_eq_insertAll h.singleValued,
      fun k e hk => Table.get?_insertAll_of_singleValued h.singleValued hk⟩

/-- A usage inside another one, as it stands and under its canonical text, which a second text
records as well. -/
theorem literal_tells_expression_nested :
    let queue : TypeExpr := ⟨"Queue", [⟨"Integer", []⟩]⟩
    let s : Text := "Dict<String, Queue< Integer >> d; Queue<Integer> q;"
    let t : Text := "List<Queue<Integer>> l;"
    let first := (find s).map Located.toExpr
    let second := (find t).map Located.toExpr
    ("Queue< Integer >".toList, queue) ∈ first.entries ∧
      ("Queue<Integer>".toList, queue) ∈ unplaced (scan s s) ∧
      ("Queue<Integer>".toList, queue) ∈ second.entries ∧
      Cursor.ReadsAs "Queue< Integer >" queue ∧
      first.get? "Queue<Integer>" = some queue ∧
      first.insertAllNew second.entries = first.insertAll second.entries ∧
      (first.insertAll second.entries).get? "Queue<Integer>" = some queue := by
  intro queue s t first second
  obtain ⟨hshape, hsame, hwritten, hmerged⟩ := literal_tells_expression
  have hinside : ("Queue< Integer >".toList, queue) ∈ first.entries := by decide +kernel
  have hscan : ("Queue<Integer>".toList, queue) ∈ unplaced (scan s s) := by decide +kernel
  have hsecond : ("Queue<Integer>".toList, queue) ∈ second.entries := by decide +kernel
  have hsearches : FromSearches (first.entries ++ second.entries) := fun x hx =>
    (List.mem_append.mp hx).elim (fun h => ⟨s, h⟩) fun h => ⟨t, h⟩
  obtain ⟨hequal, hkept⟩ := hmerged first second.entries hsearches
  exact ⟨hinside, hscan, hsecond, (hshape s _ _ hinside).2.2, hwritten s _ _ hscan, hequal,
    hkept _ _ (List.mem_append_right _ hsecond)⟩

-- ---------------------------------------------------------------------------
-- Literals that begin one another
-- ---------------------------------------------------------------------------

theorem forUsages_of_keys {rules : Table Text Text} (hnodup : rules.keys.Nodup)
    (h : ∀ k ∈ rules.keys, ∃ text, k ∈ (find text).keys) : ForUsages rules.entries where
  isUsage rule hrule := by
    obtain ⟨text, htext⟩ := h rule.1 (Table.mem_keys.mpr ⟨rule.2, hrule⟩)
    exact isUsage_of_mem_keys htext
  singleValued := Table.singleValued_of_nodup hnodup

/-- No literal of a usage is the beginning of another one. So a table of rules whose keys are such
literals replaces alike in whatever order its rules are tried. -/
theorem literals_prefixFree :
    (∀ s t k j, k ∈ (find s).keys → j ∈ (find t).keys → k <+: j → k = j) ∧
    ∀ rules : Table Text Text, rules.keys.Nodup →
      (∀ k ∈ rules.keys, ∃ text, k ∈ (find text).keys) →
      ∀ order : List (Text × Text), order.Perm rules.entries →
        ∀ text, replaceFrom order false text = replace text rules := by
  constructor
  · intro s t k j hk hj hprefix
    obtain ⟨e, he⟩ := isUsage_of_mem_keys hk
    obtain ⟨f, hf⟩ := isUsage_of_mem_keys hj
    exact (he.eq_of_isPrefix hf hprefix (List.prefix_refl j)).1
  · intro rules hnodup hkeys order horder text
    have hrules := forUsages_of_keys hnodup hkeys
    have hsorted : (longestFirst rules.entries).Perm rules.entries := List.mergeSort_perm ..
    rw [replace_eq, hrules.replaceFrom_perm horder, hrules.replaceFrom_perm hsorted]

/-- A usage inside another one, tried first. -/
theorem literals_prefixFree_shortest :
    let source : Text := "Dict<String, Queue<Integer>> d; Queue<Integer> q;"
    let rules : Table Text Text :=
      .ofList [("Dict<String, Queue<Integer>>", "D"), ("Queue<Integer>", "Q")]
    let order : List (Text × Text) :=
      [("Queue<Integer>", "Q"), ("Dict<String, Queue<Integer>>", "D")]
    rules.keys.Nodup ∧ (∀ k ∈ rules.keys, k ∈ (find source).keys) ∧ order.Perm rules.entries ∧
      replaceFrom order false source = replace source rules ∧
      replace source rules = "D d; Q q;" := by
  intro source rules order
  have hnodup : rules.keys.Nodup := by decide
  have hkeys : ∀ k ∈ rules.keys, k ∈ (find source).keys := by decide +kernel
  have horder : order.Perm rules.entries := by decide
  have hsame := literals_prefixFree.2 rules hnodup (fun k hk => ⟨source, hkeys k hk⟩) order horder
  exact ⟨hnodup, hkeys, horder, hsame source, (hsame source).symm.trans (by decide +kernel)⟩

-- ---------------------------------------------------------------------------
-- Texts in two parts
-- ---------------------------------------------------------------------------

/-- The search of a text that a semicolon in code divides leaves the table of the first part with
the entries of the second put in, in this order. So it has the usages of both parts and no others:
nothing that is open at the end of the first part hides or changes a usage of the second. -/
theorem find_append {a : Text} (ha : endsInCode a = true) (b : Text) :
    (find (a ++ ';' :: b)).map Located.toExpr =
      ((find a).map Located.toExpr).insertAll ((find b).map Located.toExpr).entries ∧
    ∀ k e, (k, e) ∈ ((find (a ++ ';' :: b)).map Located.toExpr).entries ↔
      (k, e) ∈ ((find a).map Located.toExpr).entries ∨
      (k, e) ∈ ((find b).map Located.toExpr).entries := by
  have hscan := unplaced_scan_semicolon (closed_of_endsInCode ha) b
  constructor
  · simp only [find, Table.map_ofList]
    exact (congrArg Table.ofList hscan).trans (Table.ofList_append _ _)
  · intro k e
    simp only [mem_find, hscan, List.mem_append]

/-- A reference that fails, a comparison, and two brackets left open in front of the semicolon. -/
theorem find_append_open :
    let a : Text := "Foo<bar baz> x; if (i < n) '; /*' y = Queue<A, Dict<B"
    let b : Text := "C>> z; Queue<A> q"
    endsInCode a = true ∧
      (find (a ++ ';' :: b)).map Located.toExpr =
        ((find a).map Located.toExpr).insertAll ((find b).map Located.toExpr).entries ∧
      ("Queue<A>".toList, ⟨"Queue", [⟨"A", []⟩]⟩) ∈
        ((find (a ++ ';' :: b)).map Located.toExpr).entries := by
  intro a b
  have ha : endsInCode a = true := by decide +kernel
  obtain ⟨htable, hmem⟩ := find_append ha b
  exact ⟨ha, htable, (hmem _ _).mpr (.inr (by decide +kernel))⟩

end Usage

end Monomorph
