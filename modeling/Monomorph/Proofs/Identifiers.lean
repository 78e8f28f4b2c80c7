import Monomorph.Proofs.InertFrame
import Monomorph.Proofs.Tokens

/-!
# Identifiers

The identifiers of a text are the names among the maximal runs of name characters in its code.
They are the words among its tokens that are names (`identifiers_eq_tokens`).
-/

namespace Monomorph

def Token.word? : Token → Option Text
  | word n => some n
  | _ => none

def Token.identifier? (t : Token) : Option Text :=
  t.word?.filter Text.isName

namespace Text

def nameRuns (s : Text) : List Text :=
  match s with
  | [] => []
  | c :: r =>
    if _h : isNameChar c then nameRun (c :: r) :: nameRuns (afterNameRun (c :: r)) else nameRuns r
termination_by s.length
decreasing_by
  · exact length_afterNameRun_lt _h
  · exact Nat.lt_succ_self _

def words (s : Text) : List Text :=
  s.segments.flatMap fun part => if part.isCode then nameRuns part.text else []

def identifiers (s : Text) : List Text :=
  s.words.filter isName

variable {n r s : Text} {c : Char} {k : Bool}

theorem nameRuns_nil : nameRuns [] = [] := by
  rw [nameRuns]

theorem nameRuns_other (hc : isNameChar c = false) : nameRuns (c :: r) = nameRuns r := by
  rw [nameRuns, dif_neg (by simp [hc])]

theorem nameRuns_run (hne : n ≠ []) (hn : n.all isNameChar = true)
    (hs : s.head?.any isNameChar = false) : nameRuns (n ++ s) = n :: nameRuns s := by
  obtain ⟨c, m, rfl⟩ := List.exists_cons_of_ne_nil hne
  have hc : isNameChar c = true := (Bool.and_eq_true_iff.mp hn).1
  rw [List.cons_append, nameRuns, dif_pos hc, ← List.cons_append, nameRun_append hn hs,
    afterNameRun_append hn hs]

-- ---------------------------------------------------------------------------
-- Words of a text
-- ---------------------------------------------------------------------------

theorem segments_head (s : Text) : s = [] ∧ s.segments = [] ∨
    (∃ t l, s.segments = ⟨t, true⟩ :: l ∧ t.head? = s.head?) ∨
    ∃ t l, s.segments = ⟨t, false⟩ :: l := by
  cases hi : afterInert? s with
  | some r => exact .inr (.inr ⟨_, _, segments_inert hi⟩)
  | none =>
    cases s with
    | nil => exact .inl ⟨rfl, segments_nil⟩
    | cons c r =>
      refine .inr (.inl ?_)
      rw [segments_cons hi]
      rcases segments r with _ | ⟨⟨t, _ | _⟩, l⟩ <;> exact ⟨_, _, rfl, rfl⟩

theorem words_nil : words [] = [] := by
  simp [words, segments_nil]

theorem words_inert (h : afterInert? s = some r) : words s = words r := by
  simp [words, segments_inert h]

theorem words_stretch (h : afterStretch? s = some (k, r)) : words s = words r :=
  eq_of_afterStretch? words_inert h

theorem words_other (hi : afterInert? (c :: r) = none) (hc : isNameChar c = false) :
    words (c :: r) = words r := by
  simp only [words, segments_cons hi]
  rcases r.segments with _ | ⟨⟨t, _ | _⟩, l⟩ <;>
    simp [pushCode, nameRuns_other hc, nameRuns_nil]

theorem words_run (hne : n ≠ []) (hn : n.all isNameChar = true)
    (hs : s.head?.any isNameChar = false) : words (n ++ s) = n :: words s := by
  have hplain (d : Char) (hd : d ∈ n) : opensInert d = false :=
    not_opensInert_of_isNameChar (List.all_eq_true.mp hn d hd)
  have halone : nameRuns n = [n] := by
    simpa [nameRuns_nil] using nameRuns_run (s := []) hne hn rfl
  obtain ⟨c, m, rfl⟩ := List.exists_cons_of_ne_nil hne
  rw [words, words, segments_append_of_plain hplain, foldr_pushCode]
  obtain ⟨rfl, hseg⟩ | ⟨t, l, hseg, ht⟩ | ⟨t, l, hseg⟩ := segments_head s
  · simp [hseg, halone]
  · have hrun := nameRuns_run hne hn (s := t) (by rwa [ht])
    simp only [hseg, List.flatMap_cons, if_true]
    rw [← List.cons_append, hrun, List.cons_append]
  · simp [hseg, halone]

theorem words_eq_tokens (s : Text) : words s = (tokens s).filterMap Token.word? := by
  cases h : afterStretch? s with
  | some found =>
    obtain ⟨k, r⟩ := found
    have hlt := length_lt_of_afterStretch? h
    rw [words_stretch h, tokens_stretch h, words_eq_tokens r]
    rfl
  | none =>
    cases s with
    | nil => rw [words_nil, tokens_nil, List.filterMap_nil]
    | cons c r =>
      have hi := afterInert?_eq_none_iff.mpr h
      cases hc : isNameChar c with
      | true =>
        have hle : (afterNameRun (c :: r)).length ≤ r.length :=
          Nat.le_of_lt_succ (length_afterNameRun_lt hc)
        have hrun : nameRun (c :: r) ≠ [] := nameRun_ne_nil hc
        have hall : (nameRun (c :: r)).all isNameChar = true := List.all_takeWhile
        have hhead := head_afterNameRun (c :: r)
        rw [← nameRun_append_afterNameRun (c :: r), words_run hrun hall hhead,
          tokens_run hrun hall hhead, words_eq_tokens (afterNameRun (c :: r))]
        rfl
      | false =>
        rw [words_other hi hc, words_eq_tokens r]
        cases hb : isBlank c with
        | true => rw [tokens_blank hb]
        | false =>
          rw [tokens_mark hi hc hb]
          rfl
termination_by s.length

theorem identifiers_eq_tokens (s : Text) :
    identifiers s = (tokens s).filterMap Token.identifier? := by
  rw [identifiers, words_eq_tokens, List.filter_filterMap]
  rfl

end Text

end Monomorph
