import Monomorph.Proofs.CodeMarks
import Monomorph.Proofs.CutLaws
import Monomorph.Proofs.RunwiseSubstitution

/-!
# Parts of a text and names in them

The parts of a text are an exact partition into code and the rest (`IsPartition`). A name is renamed
part by part, where what stands beyond the border of a part is out of sight. This makes no
difference, because no name runs from one part into the next (`Segment.Parted`): behind an inert
part that is followed by anything stands the end of a line, a slash or a quote, and before one a
slash or a quote. So the runs of name characters of the whole text are those of its parts, and the
runs in code that are the name give way to the new one (`isPartition_and_replaceNameInCode_eq`).
-/

namespace Monomorph

namespace Text

/-- Parts that make up a text: none is empty, together they are the text with the marks of its
characters, no two parts of code touch, and no part of code holds what would open a comment or a
literal. -/
structure IsPartition (s : Text) (segs : List Segment) : Prop where
  text_ne_nil : ∀ seg ∈ segs, seg.text ≠ []
  flatMap_text : segs.flatMap (·.text) = s
  flatMap_marked : segs.flatMap Segment.marked = s.marked
  apart : segs.IsChain fun a b => ¬(a.isCode = true ∧ b.isCode = true)
  plain : ∀ seg ∈ segs, seg.isCode = true →
    '\'' ∉ seg.text ∧ ¬['/', '/'] <:+: seg.text ∧ ¬['/', '*'] <:+: seg.text

def markedRuns (s : Text) : List (List Marked) :=
  s.marked.splitBy fun x y => isNameChar x.char && isNameChar y.char

variable {a r t : Text}

-- ---------------------------------------------------------------------------
-- The partition
-- ---------------------------------------------------------------------------

@[elab_as_elim]
theorem segments_induct {motive : Text → Prop} (nil : motive [])
    (inert : ∀ a r, afterInert? (a ++ r) = some r → segments (a ++ r) = ⟨a, false⟩ :: segments r →
      motive r → motive (a ++ r))
    (code : ∀ a r, a ≠ [] → CodeBefore r a → StopsCode r →
      segments (a ++ r) = ⟨a, true⟩ :: segments r → motive r → motive (a ++ r))
    (s : Text) : motive s := by
  cases hi : afterInert? s with
  | some r =>
    have hlt := length_lt_of_afterInert? hi
    obtain ⟨a, rfl⟩ := suffix_of_afterInert? hi
    have hseg := segments_inert hi
    rw [upTo_append] at hseg
    exact inert a r hi hseg (segments_induct nil inert code r)
  | none =>
    obtain ⟨a, r, rfl, ha, hr⟩ := exists_codeRun s
    cases a with
    | nil =>
      rcases hr with rfl | ⟨t, ht⟩
      · exact nil
      · rw [List.nil_append, ht] at hi
        cases hi
    | cons d a =>
      exact code (d :: a) r (List.cons_ne_nil d a) ha hr (segments_code ha hr)
        (segments_induct nil inert code r)
termination_by s.length

theorem forall_mem_segments {P : Segment → Prop}
    (inert : ∀ a r, afterInert? (a ++ r) = some r → P ⟨a, false⟩)
    (code : ∀ a r, a ≠ [] → CodeBefore r a → P ⟨a, true⟩) (s : Text) :
    ∀ seg ∈ s.segments, P seg := by
  induction s using segments_induct with
  | nil => simp [segments_nil]
  | inert a r hi hseg ih =>
    rw [hseg]
    exact List.forall_mem_cons.mpr ⟨inert a r hi, ih⟩
  | code a r hne ha _ hseg ih =>
    rw [hseg]
    exact List.forall_mem_cons.mpr ⟨code a r hne ha, ih⟩

theorem CodeBefore.plain (h : CodeBefore r a) :
    '\'' ∉ a ∧ ¬['/', '/'] <:+: a ∧ ¬['/', '*'] <:+: a := by
  refine ⟨fun hmem => ?_, ?_, ?_⟩
  · obtain ⟨x, y, rfl⟩ := List.append_of_mem hmem
    cases h.suffix.1
  · rintro ⟨x, y, rfl⟩
    rw [List.append_assoc] at h
    cases h.suffix.1
  · rintro ⟨x, y, rfl⟩
    rw [List.append_assoc] at h
    cases h.suffix.1

-- ---------------------------------------------------------------------------
-- Borders
-- ---------------------------------------------------------------------------

/-- Two parts that follow one another: not both are code, and no name runs from one into the
other. -/
structure Segment.Parted (a b : Segment) : Prop where
  apart : ¬(a.isCode = true ∧ b.isCode = true)
  names : ∀ x ∈ a.text.getLast?, ∀ y ∈ b.text.head?, (isNameChar x && isNameChar y) = false

theorem getLast?_of_afterInert? {a r : Text} (hr : r ≠ []) (h : afterInert? (a ++ r) = some r) :
    a.getLast?.any isNameChar = false := by
  induction h using inert_induct hr with
  | last k t ht =>
    obtain ⟨c, hc, hname, -⟩ := getLast?_of_afterStretch? ht
    rw [hc, Option.any_some, hname]
  | more k t b _ hb _ ih =>
    rwa [List.getLast?_append_of_ne_nil t (ne_nil_of_afterInert? hb)]

theorem parted_inert (hr : r ≠ []) (hi : afterInert? (a ++ r) = some r) (seg : Segment) :
    Segment.Parted ⟨a, false⟩ seg := by
  refine ⟨by simp, fun x hx y _ => ?_⟩
  have hlast := getLast?_of_afterInert? hr hi
  rw [Option.mem_def.mp hx, Option.any_some] at hlast
  rw [hlast, Bool.false_and]

theorem parted_code (hi : afterInert? (t ++ r) = some r) (a : Text) :
    Segment.Parted ⟨a, true⟩ ⟨t, false⟩ := by
  refine ⟨by simp, fun x _ y hy => ?_⟩
  have hhead : (t ++ r).head?.any isNameChar = false := StopsCode.head (.inr ⟨r, hi⟩) rfl rfl
  rw [List.head?_append_of_ne_nil _ (ne_nil_of_afterInert? hi), Option.mem_def.mp hy,
    Option.any_some] at hhead
  rw [hhead, Bool.and_false]

theorem isChain_segments (s : Text) : s.segments.IsChain Segment.Parted := by
  induction s using segments_induct with
  | nil =>
    rw [segments_nil]
    exact .nil
  | inert a r hi hseg ih =>
    rw [hseg, List.isChain_cons]
    refine ⟨fun seg hmem => parted_inert ?_ hi seg, ih⟩
    rintro rfl
    simp [segments_nil] at hmem
  | code a r _ _ hr hseg ih =>
    rw [hseg, List.isChain_cons]
    refine ⟨fun seg hmem => ?_, ih⟩
    rcases hr with rfl | ⟨t, ht⟩
    · simp [segments_nil] at hmem
    · obtain ⟨b, rfl⟩ := suffix_of_afterInert? ht
      rw [segments_inert ht, upTo_append, List.head?_cons, Option.mem_some_iff] at hmem
      exact hmem ▸ parted_code ht a

theorem isPartition_segments (s : Text) : s.IsPartition s.segments where
  text_ne_nil := forall_mem_segments (fun _ _ hi => ne_nil_of_afterInert? hi) (fun _ _ ha _ => ha) s
  flatMap_text := flatMap_text_segments s
  flatMap_marked := flatMap_marked_segments s
  apart := (isChain_segments s).imp fun _ _ h => h.apart
  plain := forall_mem_segments (fun _ _ _ => nofun) (fun _ _ _ ha _ => ha.plain) s

-- ---------------------------------------------------------------------------
-- Runs of the whole text
-- ---------------------------------------------------------------------------

theorem splitBy_map {α β : Type} (q : β → β → Bool) (f : α → β) (l : List α) :
    (l.map f).splitBy q = (l.splitBy fun x y => q (f x) (f y)).map (List.map f) := by
  rw [List.splitBy_eq_iff]
  refine ⟨?_, ?_, ?_, ?_⟩
  · rw [← List.map_flatten, List.flatten_splitBy]
  · simp
  · intro m hm
    obtain ⟨run, hrun, rfl⟩ := List.mem_map.mp hm
    rw [List.isChain_map]
    exact List.isChain_of_mem_splitBy hrun
  · rw [List.isChain_map]
    refine (List.isChain_getLast_head_splitBy _ l).imp ?_
    rintro x y ⟨hx, hy, hxy⟩
    exact ⟨by simpa using hx, by simpa using hy, by simpa using hxy⟩

theorem map_char_markedRuns (s : Text) :
    s.markedRuns.map (List.map Marked.char) = s.runs := by
  rw [markedRuns, ← splitBy_map (fun c d => isNameChar c && isNameChar d), map_char_marked, runs]

theorem Segment.Parted.marked {seg next : Segment} (h : Segment.Parted seg next) :
    ∀ x ∈ seg.marked.getLast?, ∀ y ∈ next.marked.head?,
      (isNameChar x.char && isNameChar y.char) = false := by
  intro x hx y hy
  rw [Segment.marked, List.getLast?_map, Option.mem_def, Option.map_eq_some_iff] at hx
  rw [Segment.marked, List.head?_map, Option.mem_def, Option.map_eq_some_iff] at hy
  obtain ⟨c, hc, rfl⟩ := hx
  obtain ⟨d, hd, rfl⟩ := hy
  exact h.names c hc d hd

theorem splitBy_flatMap_marked {segs : List Segment} (hne : ∀ seg ∈ segs, seg.text ≠ [])
    (hparted : segs.IsChain Segment.Parted) :
    (segs.flatMap Segment.marked).splitBy (fun x y => isNameChar x.char && isNameChar y.char) =
      segs.flatMap fun seg => seg.text.runs.map (List.map (⟨·, seg.isCode⟩)) := by
  induction segs with
  | nil => rfl
  | cons seg segs ih =>
    obtain ⟨-, hsegs⟩ := List.forall_mem_cons.mp hne
    obtain ⟨hborder, hchain⟩ := List.isChain_cons.mp hparted
    have hnames : ∀ x ∈ seg.marked.getLast?, ∀ y ∈ (segs.flatMap Segment.marked).head?,
        (isNameChar x.char && isNameChar y.char) = false := by
      cases segs with
      | nil => simp
      | cons next segs =>
        have hnext : next.marked ≠ [] := by simpa [Segment.marked] using hsegs next (by simp)
        rw [List.flatMap_cons, List.head?_append_of_ne_nil _ hnext]
        exact (hborder next rfl).marked
    rw [List.flatMap_cons, List.flatMap_cons, List.splitBy_append hnames, ih hsegs hchain,
      Segment.marked, splitBy_map, runs]

theorem markedRuns_eq (s : Text) : s.markedRuns =
    s.segments.flatMap fun seg => seg.text.runs.map (List.map (⟨·, seg.isCode⟩)) := by
  rw [markedRuns, ← flatMap_marked_segments]
  exact splitBy_flatMap_marked s.isPartition_segments.text_ne_nil s.isChain_segments

end Text

-- ---------------------------------------------------------------------------
-- Renaming
-- ---------------------------------------------------------------------------

namespace Substitution

variable {name value : Text}

/-- What becomes of a run: in code, the name gives way to the value. -/
def renamed (name value : Text) (run : List Marked) : Text :=
  if run.all Marked.isCode = true ∧ run.map Marked.char = name then value
  else run.map Marked.char

theorem renamed_code (run : Text) :
    renamed name value (run.map (⟨·, true⟩)) = if run = name then value else run := by
  simp [renamed, Function.comp_def]

theorem renamed_inert (hne : name ≠ []) (run : Text) :
    renamed name value (run.map (⟨·, false⟩)) = run := by
  cases run with
  | nil => simp [renamed, hne.symm]
  | cons c run => simp [renamed, Function.comp_def]

theorem replaceName_eq_runs (hne : name ≠ []) (hall : name.all isNameChar = true) (s : Text) :
    replaceName s name value = s.runs.flatMap fun run => if run = name then value else run := by
  have hrules : ForRuns [(name, value)] := by simpa [ForRuns, hne] using hall
  rw [replaceName, hrules.replaceFrom_eq_runs]
  congr 1
  funext run
  by_cases hrun : run = name <;> simp [List.lookup_singleton, hrun]

theorem replaceNameInCode_eq_runs (hne : name ≠ []) (hall : name.all isNameChar = true)
    (text : Text) :
    replaceNameInCode text name value = text.markedRuns.flatMap (renamed name value) := by
  rw [replaceNameInCode, Text.markedRuns_eq, List.flatMap_assoc]
  congr 1
  funext seg
  rw [List.flatMap_map]
  cases seg.isCode with
  | true =>
    simp only [renamed_code]
    exact replaceName_eq_runs hne hall seg.text
  | false =>
    simp only [renamed_inert hne]
    simp [Text.runs]

/-- The parts of a text are an exact partition of it. Renaming in code, which goes part by part, is
renaming in the whole text: the runs of name characters that are the name and lie in code give way
to the value, and every other run and character stays. -/
theorem isPartition_and_replaceNameInCode_eq (text : Text) :
    text.IsPartition text.segments ∧
    text.markedRuns.map (List.map Marked.char) = text.runs ∧
    ∀ name value : Text, name ≠ [] → name.all isNameChar = true →
      replaceNameInCode text name value = text.markedRuns.flatMap (renamed name value) :=
  ⟨text.isPartition_segments, text.map_char_markedRuns,
    fun _ _ hne hall => replaceNameInCode_eq_runs hne hall text⟩

/-- The name right behind and right before comments and literals, one of them with an escaped quote
and one that is never closed, and as a piece of a longer name. -/
theorem isPartition_and_replaceNameInCode_eq_borders :
    let text : Text := "T/*T*/T'T\\'T'T//T\nT/T_T+T'T"
    let name : Text := "T"
    name ≠ [] ∧ name.all isNameChar = true ∧
      text.segments.map (·.isCode) = [true, false, true, false, true, false, true, false] ∧
      replaceNameInCode text name "Q<T>" = "Q<T>/*T*/Q<T>'T\\'T'Q<T>//T\nQ<T>/T_T+Q<T>'T" := by
  intro text name
  have hne : name ≠ [] := by decide
  have hall : name.all isNameChar = true := rfl
  obtain ⟨-, -, hrename⟩ := isPartition_and_replaceNameInCode_eq text
  refine ⟨hne, hall, by decide +kernel, (hrename name "Q<T>" hne hall).trans ?_⟩
  decide +kernel

end Substitution

end Monomorph
