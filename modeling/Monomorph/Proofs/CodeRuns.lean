import Monomorph.Proofs.TextLaws

/-!
# Runs of code

Every text is a run of code followed by nothing or by an inert stretch. `segments` follows this
division, so what a scanner does with a text can be said run by run.
-/

namespace Monomorph.Text

/-- No inert stretch begins in the text when `r` follows it. -/
def CodeBefore (r : Text) : Text → Prop
  | [] => True
  | d :: c => afterInert? (d :: (c ++ r)) = none ∧ CodeBefore r c

/-- The places where a run of code ends. -/
def StopsCode (r : Text) : Prop :=
  r = [] ∨ ∃ t, afterInert? r = some t

theorem exists_codeRun (s : Text) : ∃ c r, s = c ++ r ∧ CodeBefore r c ∧ StopsCode r := by
  induction s with
  | nil => exact ⟨[], [], rfl, trivial, .inl rfl⟩
  | cons d s ih =>
    cases hi : afterInert? (d :: s) with
    | some t => exact ⟨[], d :: s, rfl, trivial, .inr ⟨t, hi⟩⟩
    | none =>
      obtain ⟨c, r, rfl, hc, hr⟩ := ih
      exact ⟨d :: c, r, rfl, ⟨hi, hc⟩, hr⟩

theorem CodeBefore.suffix {r b c : Text} (h : CodeBefore r (b ++ c)) : CodeBefore r c := by
  induction b with
  | nil => exact h
  | cons d b ih => exact ih h.2

theorem StopsCode.head {r : Text} (h : StopsCode r) {p : Char → Bool} (hs : p '/' = false)
    (hq : p '\'' = false) : r.head?.any p = false := by
  rcases h with rfl | ⟨t, ht⟩
  · rfl
  · have hh := head_of_afterInert? ht
    cases r with
    | nil => rfl
    | cons c r =>
      simp only [List.head?_cons, Option.any_some, opensInert, Bool.or_eq_true, beq_iff_eq] at hh ⊢
      rcases hh with rfl | rfl
      · exact hs
      · exact hq

theorem afterInert?_append {s t : Text} (h : afterInert? s = some t) (r : Text) :
    ∃ u, afterInert? (s ++ r) = some u := by
  unfold afterInert? at h
  split at h
  · rename_i v hv
    unfold afterComment? at hv
    split at hv
    · exact ⟨_, by simp only [afterInert?, afterComment?, List.cons_append]; rfl⟩
    · exact ⟨_, by simp only [afterInert?, afterComment?, List.cons_append]; rfl⟩
    · cases hv
  · unfold afterString? at h
    split at h
    · exact ⟨_, by simp only [afterInert?, afterComment?, afterString?, List.cons_append]; rfl⟩
    · cases h

theorem CodeBefore.alone {r c : Text} (h : CodeBefore r c) : CodeBefore [] c := by
  induction c with
  | nil => trivial
  | cons d c ih =>
    refine ⟨?_, ih h.2⟩
    rw [List.append_nil]
    cases hi : afterInert? (d :: c) with
    | none => rfl
    | some t =>
      obtain ⟨u, hu⟩ := afterInert?_append hi r
      rw [List.cons_append, h.1] at hu
      cases hu

-- ---------------------------------------------------------------------------
-- Segments
-- ---------------------------------------------------------------------------

theorem segments_nil : segments [] = [] := by
  rw [segments]
  rfl

theorem segments_inert {s r : Text} (h : afterInert? s = some r) :
    segments s = ⟨s.upTo r, false⟩ :: segments r := by
  rw [segments]
  split
  · rename_i heq; rw [h] at heq; cases heq; rfl
  · rename_i heq; rw [h] at heq; cases heq

theorem segments_cons {c : Char} {r : Text} (h : afterInert? (c :: r) = none) :
    segments (c :: r) = pushCode c (segments r) := by
  rw [segments]
  split
  · rename_i heq; rw [h] at heq; cases heq
  · rfl

theorem segments_code {d : Char} {c r : Text} (hc : CodeBefore r (d :: c)) (hr : StopsCode r) :
    segments (d :: (c ++ r)) = ⟨d :: c, true⟩ :: segments r := by
  induction c generalizing d with
  | nil =>
    rw [segments_cons hc.1, List.nil_append]
    rcases hr with rfl | ⟨t, ht⟩
    · rw [segments_nil]
      rfl
    · rw [segments_inert ht]
      rfl
  | cons e c ih =>
    rw [segments_cons hc.1, List.cons_append, ih hc.2]
    rfl

end Monomorph.Text
