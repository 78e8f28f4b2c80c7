import Mathlib.Data.List.Forall2
import Monomorph.Proofs.CodeRuns
import Monomorph.Proofs.UsageLaws

/-!
# Usages are found in code only

The search for usages is in step with the division of a text into code and inert stretches: what
it records is what it records for each run of code on its own. Texts that agree in their code
therefore have the same usages, whatever their comments and string literals hold.
-/

namespace Monomorph.Usage

open Text (CodeBefore StopsCode)

/-- Whether a character can stand in a reference or make its bracket a comparison. -/
def inReference (c : Char) : Bool :=
  isNameChar c || isBlank c || c == '<' || c == ',' || c == '>' || c == '='

/-- No reference goes on here. -/
def EndsReference (r : Text) : Prop :=
  r.head?.any inReference = false

theorem endsReference_of_stopsCode {r : Text} (hr : StopsCode r) : EndsReference r :=
  hr.head (by decide) (by decide)

theorem EndsReference.head {r : Text} (hr : EndsReference r) {p : Char → Bool}
    (hp : ∀ c, p c = true → inReference c = true) : r.head?.any p = false := by
  cases r with
  | nil => rfl
  | cons c r => exact Bool.eq_false_iff.mpr fun h => Bool.eq_false_iff.mp hr (hp c h)

theorem spellingChars_inReference : SpellingChars fun c => inReference c = true :=
  ⟨fun c hc => by simp [inReference, hc], fun c hc => by simp [inReference, hc],
    by simp [inReference]⟩

theorem isComparison_append {r : Text} (hr : EndsReference r) (t : Text) :
    isComparison (t ++ r) = isComparison t := by
  cases t with
  | cons c t => rfl
  | nil =>
    have h := hr.head (p := fun c => c == '=' || isBlank c) fun c hc => by
      rw [Bool.or_eq_true] at hc
      rcases hc with hc | hc <;> simp [inReference, hc]
    cases r with
    | nil => rfl
    | cons c r => exact h

theorem arguments_in_code {r t u : Text} {args : Arguments} (hr : EndsReference r)
    (h : t ++ r = args.text ++ u) : ∃ v, t = args.text ++ v ∧ u = v ++ r := by
  rcases List.append_eq_append_iff.mp h with ⟨v, hargs, hv⟩ | ⟨v, ht, hu⟩
  · cases v with
    | nil => exact ⟨[], by simpa using hargs.symm, hv.symm⟩
    | cons c v =>
      -- the first character behind would be one of the arguments
      have hc := args.forall_mem spellingChars_inReference c (by rw [hargs]; simp)
      rw [hv, EndsReference, List.cons_append, List.head?_cons, Option.any_some, hc] at hr
      cases hr
  · exact ⟨v, ht, hu⟩

theorem arguments_or_errors {r t : Text} {l m : Nat} (hr : EndsReference r)
    (hl : (t ++ r).length ≤ l) (hm : t.length ≤ m) :
    (∃ (args : Arguments) (v : Text), t = args.text ++ v) ∨
      (∃ f, Located.readArguments l (t ++ r) = .error f) ∧
        ∃ f, Located.readArguments m t = .error f := by
  cases hread : Located.readArguments l (t ++ r) with
  | ok found =>
    obtain ⟨args, hargs, -⟩ := exists_arguments_of_readArguments hl hread
    obtain ⟨v, ht, -⟩ := arguments_in_code hr hargs
    exact .inl ⟨args, v, ht⟩
  | error f =>
    cases halone : Located.readArguments m t with
    | ok found =>
      obtain ⟨args, hargs, -⟩ := exists_arguments_of_readArguments hm halone
      exact .inl ⟨args, _, hargs⟩
    | error g => exact .inr ⟨⟨f, rfl⟩, ⟨g, rfl⟩⟩

-- ---------------------------------------------------------------------------
-- The search in a run of code
-- ---------------------------------------------------------------------------

/-- In front of `r` the search of `whole` records what the search of `alone` records for `c`. -/
def InStep (whole alone r c : Text) : Prop :=
  unplaced (scan whole (c ++ r)) = unplaced (scan alone c) ++ unplaced (scan whole r)

theorem InStep.skip {whole alone r c y : Text} (hy : InStep whole alone r y)
    (hw : scan whole (c ++ r) = scan whole (y ++ r)) (ha : scan alone c = scan alone y) :
    InStep whole alone r c := by
  rw [InStep, hw, ha]
  exact hy

/-- A name with a bracket behind it. The bracket is a comparison, opens no reference or opens
one, and each is the same for the run alone. -/
theorem inStep_bracket {a b c r t : Text} {d : Char} (hr : EndsReference r) (hs : isNameStart d)
    (ht : Text.afterName (d :: c) = '<' :: t)
    (hafter : Text.afterName (d :: c ++ r) = '<' :: (t ++ r))
    (onward : ∀ x y, d :: c = x ++ y → x ≠ [] →
      InStep (a ++ (d :: c ++ r)) (b ++ d :: c) r y) :
    InStep (a ++ (d :: c ++ r)) (b ++ d :: c) r (d :: c) := by
  obtain ⟨n, w, hname, hw, heq⟩ := Text.exists_name (r := c) hs
  rw [ht] at heq
  have hne := Text.isName_ne_nil hname
  have hlen := congrArg List.length heq
  simp only [List.length_append, List.length_cons] at hlen
  have hskip (h : isComparison t ∨ ∃ f, Located.readArguments (b ++ d :: c).length t = .error f)
      (h' : isComparison (t ++ r) ∨
        ∃ f, Located.readArguments (a ++ (d :: c ++ r)).length (t ++ r) = .error f) :
      InStep (a ++ (d :: c ++ r)) (b ++ d :: c) r (d :: c) := by
    refine (onward (n ++ (w ++ ['<'])) t ?_ (by simp [hne])).skip (scan_bracket hs hafter h')
      (scan_bracket hs ht h)
    simp only [heq, List.append_assoc, List.cons_append, List.nil_append]
  have hcmp' := isComparison_append hr t
  cases hcmp : isComparison t with
  | true => exact hskip (.inl hcmp) (.inl (hcmp'.trans hcmp))
  | false =>
    have hl : (t ++ r).length ≤ (a ++ (d :: c ++ r)).length := by
      simp only [List.length_append, List.length_cons]
      omega
    have hm : t.length ≤ (b ++ d :: c).length := by
      simp only [List.length_append, List.length_cons]
      omega
    obtain ⟨args, v, rfl⟩ | ⟨herr, herr'⟩ := arguments_or_errors hr hl hm
    · have hsp : d :: c = (Spelling.applied ⟨n, hname⟩ ⟨w, hw⟩ args).text ++ v := by
        simpa only [Spelling.text, List.append_assoc, List.cons_append] using heq
      have hgo := onward _ v hsp (by simp [Spelling.text, hne])
      rw [hcmp, List.append_assoc] at hcmp'
      unfold InStep at hgo ⊢
      rw [hsp, List.append_assoc] at hgo ⊢
      rw [scan_reference rfl hcmp, scan_reference rfl hcmp', hgo, List.append_assoc]
    · exact hskip (.inr herr') (.inr herr)

theorem inStep_code {a b c r : Text} (hc : CodeBefore r c) (hr : EndsReference r) :
    InStep (a ++ (c ++ r)) (b ++ c) r c := by
  have hn := hr.head (p := isNameChar) fun c hc => by simp [inReference, hc]
  have hb := hr.head (p := isBlank) fun c hc => by simp [inReference, hc]
  have ho := hr.head (p := (· == '<')) fun c hc => by simp [inReference, eq_of_beq hc]
  -- how to go on with what is left of the run
  have onward (x y : Text) (hxy : c = x ++ y) (hx : x ≠ []) :
      InStep (a ++ (c ++ r)) (b ++ c) r y := by
    have hlt : y.length < c.length := by
      have := List.length_pos_iff.mpr hx
      rw [hxy, List.length_append]
      omega
    have h : InStep ((a ++ x) ++ (y ++ r)) ((b ++ x) ++ y) r y :=
      inStep_code (hxy ▸ hc).suffix hr
    simpa only [hxy, List.append_assoc] using h
  cases c with
  | nil =>
    rw [InStep, scan_nil]
    rfl
  | cons d c =>
    cases hs : isNameStart d with
    | false =>
      cases hd : isNameChar d with
      | false =>
        have halone := hc.alone.1
        rw [List.append_nil] at halone
        exact (onward [d] c rfl (by simp)).skip (scan_other hc.1 hd) (scan_other halone hd)
      | true =>
        have hrun : Text.nameRun (d :: c) ≠ [] := by
          rw [Text.nameRun, List.takeWhile_cons_of_pos hd]
          simp
        refine (onward _ _ (Text.nameRun_append_afterNameRun _).symm hrun).skip ?_
          (scan_number hd hs)
        rw [← Text.afterNameRun_append_right hn]
        exact scan_number hd hs
    | true =>
      have hafter : Text.afterName (d :: c ++ r) = Text.afterName (d :: c) ++ r :=
        Text.afterName_append_right hn hb (d :: c)
      by_cases hx : (Text.afterName (d :: c)).head? = some '<'
      · obtain ⟨t, ht⟩ := List.head?_eq_some_iff.mp hx
        rw [ht, List.cons_append] at hafter
        exact inStep_bracket hr hs ht hafter onward
      · -- no bracket behind the name, and none at the end of the run
        have hx' : (Text.afterName (d :: c ++ r)).head? ≠ some '<' := by
          rw [hafter]
          cases ht : Text.afterName (d :: c) with
          | nil =>
            intro h
            rw [List.nil_append] at h
            rw [h] at ho
            cases ho
          | cons x t =>
            rw [ht] at hx
            exact hx
        obtain ⟨n, w, hname, -, heq⟩ := Text.exists_name (r := c) hs
        have hne : n ++ w ≠ [] := by simp [Text.isName_ne_nil hname]
        refine (onward (n ++ w) _ (by rw [List.append_assoc]; exact heq) hne).skip ?_
          (scan_name hs hx)
        rw [← hafter]
        exact scan_name hs hx'
termination_by c.length

def ofSegments (segs : List Text.Segment) : List (Text × TypeExpr) :=
  segs.flatMap fun seg => if seg.isCode then unplaced (scan seg.text seg.text) else []

theorem unplaced_scan_eq_ofSegments (a s : Text) :
    unplaced (scan (a ++ s) s) = ofSegments s.segments := by
  obtain ⟨c, r, hs, hc, hr⟩ := s.exists_codeRun
  cases c with
  | nil =>
    rw [List.nil_append] at hs
    rcases hr with hnil | ⟨t, ht⟩
    · rw [hs, hnil, scan_nil, Text.segments_nil]
      rfl
    · rw [← hs] at ht
      have hlt := Text.length_lt_of_afterInert? ht
      obtain ⟨b, hb⟩ := Text.suffix_of_afterInert? ht
      have ih := unplaced_scan_eq_ofSegments (a ++ b) t
      rw [List.append_assoc, hb] at ih
      rw [scan_inert ht, Text.segments_inert ht, ih]
      rfl
  | cons d c =>
    have hlt : r.length < s.length := by
      rw [hs, List.length_append, List.length_cons]
      omega
    have ih := unplaced_scan_eq_ofSegments (a ++ d :: c) r
    rw [List.append_assoc] at ih
    have hrun : unplaced (scan (a ++ (d :: c ++ r)) (d :: c ++ r)) =
        unplaced (scan (d :: c) (d :: c)) ++ unplaced (scan (a ++ (d :: c ++ r)) r) :=
      inStep_code (b := []) hc (endsReference_of_stopsCode hr)
    rw [hs, hrun, ih, List.cons_append, Text.segments_code hc hr]
    rfl
termination_by s.length
decreasing_by all_goals assumption

def SameCode (x y : Text.Segment) : Prop :=
  x.isCode = y.isCode ∧ (x.isCode = true → x.text = y.text)

instance : DecidableRel SameCode := fun _ _ => inferInstanceAs (Decidable (_ ∧ _))

theorem ofSegments_congr {xs ys : List Text.Segment} (h : List.Forall₂ SameCode xs ys) :
    ofSegments xs = ofSegments ys := by
  induction h with
  | nil => rfl
  | @cons x y _ _ hxy _ ih =>
    have hseg : (if x.isCode then unplaced (scan x.text x.text) else []) =
        if y.isCode then unplaced (scan y.text y.text) else [] := by
      rw [← hxy.1]
      split
      · rename_i hcode; rw [hxy.2 hcode]
      · rfl
    rw [ofSegments, ofSegments, List.flatMap_cons, List.flatMap_cons, ← ofSegments, ← ofSegments,
      ih, hseg]

/-- Comments and string literals have no part in the search: texts that are divided alike and
agree in their code have the same usages, under the same literals and in the same order. -/
theorem find_eq_of_sameCode {s t : Text} (h : List.Forall₂ SameCode s.segments t.segments) :
    (find s).map Located.toExpr = (find t).map Located.toExpr := by
  rw [find, find, Table.map_ofList, Table.map_ofList]
  have hs := unplaced_scan_eq_ofSegments [] s
  have ht := unplaced_scan_eq_ofSegments [] t
  exact congrArg Table.ofList (hs.trans ((ofSegments_congr h).trans ht.symm))

/-- A comment between a name and its bracket, an escaped quote, and stretches left open: what they
hold may change, and the one reference in code is found in both texts. -/
theorem find_eq_of_sameCode_commented :
    List.Forall₂ SameCode
      (Text.segments "Queue<Dict<A, B>> x; Stack/*1*/<C> 'it\\'s' /*")
      (Text.segments "Queue<Dict<A, B>> x; Stack// Map<X, Y>\n<C> '' // Set<Queue<D>>") ∧
    (find "Queue<Dict<A, B>> x; Stack/*1*/<C> 'it\\'s' /*").map Located.toExpr =
      (find "Queue<Dict<A, B>> x; Stack// Map<X, Y>\n<C> '' // Set<Queue<D>>").map Located.toExpr :=
  have h : List.Forall₂ SameCode
      (Text.segments "Queue<Dict<A, B>> x; Stack/*1*/<C> 'it\\'s' /*")
      (Text.segments "Queue<Dict<A, B>> x; Stack// Map<X, Y>\n<C> '' // Set<Queue<D>>") := by
    decide +kernel
  ⟨h, find_eq_of_sameCode h⟩

end Monomorph.Usage
