import Monomorph.Proofs.TextLaws
import Monomorph.Usage

/-!
# Laws of replacement

Steps of putting other text in place of literals, one lemma for each thing a step can do.
-/

namespace Monomorph.Usage

variable {rules : List (Text × Text)} {rule : Text × Text} {joined : Bool} {n s r : Text} {c : Char}

theorem mem_of_match? (h : match? rules s = some rule) :
    rule ∈ rules ∧ rule.1 ≠ [] ∧ ∃ t, s = rule.1 ++ t := by
  have hfit := List.find?_some h
  simp only [Bool.and_eq_true, Bool.not_eq_true', List.isEmpty_eq_false_iff,
    List.isPrefixOf_iff_prefix] at hfit
  obtain ⟨hne, t, ht⟩ := hfit
  exact ⟨List.mem_of_find?_eq_some h, hne, t, ht.symm⟩

theorem replaceFrom_empty : replaceFrom rules joined [] = [] := by
  rw [replaceFrom]
  rfl

theorem replaceFrom_inert (h : s.afterInert? = some r) :
    replaceFrom rules joined s = s.upTo r ++ replaceFrom rules false r := by
  rw [replaceFrom]
  split
  · rename_i heq; rw [h] at heq; cases heq; rfl
  · rename_i heq; rw [h] at heq; cases heq

theorem replaceFrom_skip (hi : Text.afterInert? (c :: s) = none)
    (h : (isNameStart c && !joined) = false ∨ match? rules (c :: s) = none) :
    replaceFrom rules joined (c :: s) = c :: replaceFrom rules (isNameChar c) s := by
  have hnone : (if isNameStart c && !joined then match? rules (c :: s) else none) = none := by
    rcases h with h | h
    · rw [h]
      rfl
    · rw [h, ite_self]
  rw [replaceFrom]
  split
  · rename_i heq; rw [hi] at heq; cases heq
  · simp only
    split
    · rename_i heq; rw [hnone] at heq; cases heq
    · rfl

theorem replaceFrom_put (hc : isNameStart c) (h : match? rules (c :: s) = some rule) :
    replaceFrom rules false (c :: s) =
      rule.2 ++ replaceFrom rules (rule.1.getLast?.any isNameChar)
        ((c :: s).drop rule.1.length) := by
  have hi := Text.afterInert?_eq_none (s := c :: s)
    (not_opensInert_of_isNameChar (isNameChar_of_isNameStart hc))
  rw [replaceFrom]
  split
  · rename_i heq; rw [hi] at heq; cases heq
  · simp only
    split
    · rename_i heq
      simp only [hc, Bool.not_false, Bool.and_self, if_true, h] at heq
      cases heq
      rfl
    · rename_i heq
      simp only [hc, Bool.not_false, Bool.and_self, if_true, h] at heq
      cases heq

/-- What stands before makes a difference only where a name could start. -/
theorem replaceFrom_joined (hs : s.head?.any isNameChar = false) :
    replaceFrom rules joined s = replaceFrom rules false s := by
  cases s with
  | nil => rw [replaceFrom_empty, replaceFrom_empty]
  | cons c s =>
    have hc : isNameStart c = false :=
      Bool.eq_false_iff.mpr fun h => Bool.eq_false_iff.mp hs (isNameChar_of_isNameStart h)
    cases hi : Text.afterInert? (c :: s) with
    | some r => rw [replaceFrom_inert hi, replaceFrom_inert hi]
    | none =>
      rw [replaceFrom_skip hi (.inl (by rw [hc]; rfl)), replaceFrom_skip hi (.inl (by rw [hc]; rfl))]

theorem replaceFrom_run (hn : n.all isNameChar) :
    replaceFrom rules true (n ++ s) = n ++ replaceFrom rules true s := by
  induction n with
  | nil => rfl
  | cons c n ih =>
    simp only [List.all_cons, Bool.and_eq_true] at hn
    have hi := Text.afterInert?_eq_none (s := c :: (n ++ s)) (not_opensInert_of_isNameChar hn.1)
    rw [List.cons_append, replaceFrom_skip hi (.inl (by simp)), hn.1, ih hn.2, List.cons_append]

theorem replaceFrom_name (hn : n.isName) (h : match? rules (n ++ s) = none) :
    replaceFrom rules false (n ++ s) = n ++ replaceFrom rules true s := by
  obtain ⟨c, r, rfl, -, hr⟩ := Text.isName_iff.mp hn
  have hc := Text.all_isNameChar_of_isName hn
  simp only [List.all_cons, Bool.and_eq_true] at hc
  have hi := Text.afterInert?_eq_none (s := c :: (r ++ s)) (not_opensInert_of_isNameChar hc.1)
  rw [List.cons_append, replaceFrom_skip hi (.inr h), hc.1, replaceFrom_run hc.2, List.cons_append]

theorem replaceFrom_nil (joined : Bool) (s : Text) : replaceFrom [] joined s = s := by
  cases hi : s.afterInert? with
  | some r =>
    have hlt := Text.length_lt_of_afterInert? hi
    obtain ⟨b, rfl⟩ := Text.suffix_of_afterInert? hi
    rw [replaceFrom_inert hi, Text.upTo_append, replaceFrom_nil false r]
  | none =>
    cases s with
    | nil => rw [replaceFrom_empty]
    | cons c s => rw [replaceFrom_skip hi (.inr rfl), replaceFrom_nil _ s]
termination_by s.length

theorem replace_eq (text : Text) (table : Table Text Text) :
    replace text table = replaceFrom (Text.longestFirst table.entries) false text := by
  unfold replace
  split
  · rename_i h
    rw [List.isEmpty_iff.mp h, Text.longestFirst, List.mergeSort_nil, replaceFrom_nil]
  · rfl

-- ---------------------------------------------------------------------------
-- The pieces of a replacement
-- ---------------------------------------------------------------------------

/-- A stretch of text that stays, or a literal with what is put in its place. -/
inductive Piece where
  | kept (text : Text)
  | put (rule : Text × Text)
deriving DecidableEq, Repr

def Piece.before : Piece → Text
  | kept text => text
  | put rule => rule.1

def Piece.after : Piece → Text
  | kept text => text
  | put rule => rule.2

/-- The stretches into which a replacement cuts its text. -/
def piecesFrom (rules : List (Text × Text)) (joined : Bool) (s : Text) : List Piece :=
  match _hi : s.afterInert? with
  | some r => .kept (s.upTo r) :: piecesFrom rules false r
  | none =>
    match s with
    | [] => []
    | c :: r =>
      match _hm : if isNameStart c && !joined then match? rules (c :: r) else none with
      | some rule =>
        .put rule ::
          piecesFrom rules (rule.1.getLast?.any isNameChar) ((c :: r).drop rule.1.length)
      | none => .kept [c] :: piecesFrom rules (isNameChar c) r
termination_by s.length
decreasing_by
  · exact Text.length_lt_of_afterInert? ‹_›
  · split at _hm
    · exact length_drop_of_match? _hm
    · cases _hm
  · simp

theorem rule_of_found (h : (if isNameStart c && !joined then match? rules (c :: r) else none) =
    some rule) : isNameStart c = true ∧ joined = false ∧ match? rules (c :: r) = some rule := by
  split at h
  · rename_i hc
    simp only [Bool.and_eq_true, Bool.not_eq_true'] at hc
    exact ⟨hc.1, hc.2, h⟩
  · cases h

theorem no_rule_of_not_found
    (h : (if isNameStart c && !joined then match? rules (c :: r) else none) = none) :
    (isNameStart c && !joined) = false ∨ match? rules (c :: r) = none := by
  split at h
  · exact .inr h
  · rename_i hc
    exact .inl (Bool.not_eq_true _ ▸ hc)

theorem replaceFrom_eq_pieces (rules : List (Text × Text)) (joined : Bool) (s : Text) :
    replaceFrom rules joined s = (piecesFrom rules joined s).flatMap Piece.after := by
  fun_induction piecesFrom rules joined s with
  | case1 joined s r hi ih => rw [replaceFrom_inert hi, ih, List.flatMap_cons, Piece.after]
  | case2 joined hi => rw [replaceFrom_empty, List.flatMap_nil]
  | case3 joined c r hi rule hm ih =>
    obtain ⟨hc, rfl, hrule⟩ := rule_of_found hm
    rw [replaceFrom_put hc hrule, ih, List.flatMap_cons, Piece.after]
  | case4 joined c r hi hm ih =>
    rw [replaceFrom_skip hi (no_rule_of_not_found hm), ih, List.flatMap_cons, Piece.after]
    rfl

theorem flatMap_before_pieces (rules : List (Text × Text)) (joined : Bool) (s : Text) :
    (piecesFrom rules joined s).flatMap Piece.before = s := by
  fun_induction piecesFrom rules joined s with
  | case1 joined s r hi ih =>
    obtain ⟨b, rfl⟩ := Text.suffix_of_afterInert? hi
    rw [List.flatMap_cons, ih, Piece.before, Text.upTo_append]
  | case2 joined hi => rw [List.flatMap_nil]
  | case3 joined c r hi rule hm ih =>
    obtain ⟨-, -, hrule⟩ := rule_of_found hm
    obtain ⟨-, -, t, ht⟩ := mem_of_match? hrule
    rw [List.flatMap_cons, ih, Piece.before, ht, List.drop_left]
  | case4 joined c r hi hm ih =>
    rw [List.flatMap_cons, ih, Piece.before]
    rfl

theorem mem_rules_of_put (h : .put rule ∈ piecesFrom rules joined s) : rule ∈ rules := by
  fun_induction piecesFrom rules joined s with
  | case1 joined s r hi ih => exact ih ((List.mem_cons.mp h).resolve_left nofun)
  | case2 joined hi => cases h
  | case3 joined c r hi found hm ih =>
    rcases List.mem_cons.mp h with heq | h
    · cases heq
      obtain ⟨-, -, hrule⟩ := rule_of_found hm
      exact (mem_of_match? hrule).1
    · exact ih h
  | case4 joined c r hi hm ih => exact ih ((List.mem_cons.mp h).resolve_left nofun)

end Monomorph.Usage
