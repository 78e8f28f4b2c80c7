import Monomorph.Lexical.Inert
import Monomorph.Lexical.Name

/-!
# Laws of texts

How blanks, name runs and prefixes behave on texts put together from parts. What stands behind a
part matters only through its first character, so side conditions speak of `head?.any`.
-/

namespace Monomorph

-- ---------------------------------------------------------------------------
-- Character classes
-- ---------------------------------------------------------------------------

theorem isNameChar_bounds {c : Char} (h : isNameChar c) : 48 ≤ c.toNat ∧ c.toNat ≤ 122 := by
  change (decide ('A'.val ≤ c.val ∧ c.val ≤ 'Z'.val) || ('a'.val ≤ c.val && c.val ≤ 'z'.val) ||
    ('0'.val ≤ c.val && c.val ≤ '9'.val) || c == '_') = true at h
  simp only [Bool.or_eq_true, Bool.and_eq_true, decide_eq_true_eq, beq_iff_eq,
    UInt32.le_iff_toNat_le] at h
  rcases h with ((h | h) | h) | rfl
  · exact ⟨Nat.le_trans (by decide) h.1, Nat.le_trans h.2 (by decide)⟩
  · exact ⟨Nat.le_trans (by decide) h.1, h.2⟩
  · exact ⟨h.1, Nat.le_trans h.2 (by decide)⟩
  · decide

theorem not_isBlank_of_isNameChar {c : Char} (h : isNameChar c) : isBlank c = false := by
  have hb := isNameChar_bounds h
  simp only [isBlank, inRanges, blankRanges, List.any_cons, List.any_nil, Bool.or_eq_false_iff,
    Bool.and_eq_false_iff, decide_eq_false_iff_not, and_true]
  omega

theorem not_isNameChar_of_isBlank {c : Char} (h : isBlank c) : isNameChar c = false := by
  cases hn : isNameChar c with
  | false => rfl
  | true =>
    rw [not_isBlank_of_isNameChar hn] at h
    cases h

def opensInert (c : Char) : Bool :=
  c == '/' || c == '\''

theorem not_opensInert_of_isNameChar {c : Char} (h : isNameChar c) : opensInert c = false := by
  simp only [opensInert, Bool.or_eq_false_iff, beq_eq_false_iff_ne]
  constructor <;> rintro rfl <;> exact absurd h (by decide)

theorem not_opensInert_of_isBlank {c : Char} (h : isBlank c) : opensInert c = false := by
  simp only [opensInert, Bool.or_eq_false_iff, beq_eq_false_iff_ne]
  constructor <;> rintro rfl <;> exact absurd h (by decide)

namespace Text

theorem mem_longestFirst {rules : List (Text × Text)} {rule : Text × Text} :
    rule ∈ longestFirst rules ↔ rule ∈ rules :=
  List.mem_mergeSort

theorem filter_longestFirst (rules : List (Text × Text)) (n : Text) :
    (longestFirst rules).filter (·.1 == n) = rules.filter (·.1 == n) := by
  have hname (a : Text × Text) (ha : a ∈ rules.filter (·.1 == n)) : a.1 = n :=
    beq_iff_eq.mp (List.mem_filter.mp ha).2
  have hsorted : (rules.filter (·.1 == n)).Pairwise fun a b => b.1.length ≤ a.1.length := by
    refine List.pairwise_of_forall_mem_list fun a ha b hb => Nat.le_of_eq ?_
    rw [hname a ha, hname b hb]
  have hsub : (rules.filter (·.1 == n)).Sublist (longestFirst rules) := by
    refine List.sublist_mergeSort ?_ ?_ (hsorted.imp decide_eq_true) List.filter_sublist
    · intro a b c hab hbc
      simp only [decide_eq_true_eq] at hab hbc ⊢
      exact Nat.le_trans hbc hab
    · intro a b
      simpa using Nat.le_total b.1.length a.1.length
  have hfilter := hsub.filter (·.1 == n)
  simp only [List.filter_filter, Bool.and_self] at hfilter
  refine (hfilter.eq_of_length ?_).symm
  exact ((List.mergeSort_perm rules _).filter _).length_eq.symm

theorem lookup_longestFirst (rules : List (Text × Text)) (n : Text) :
    (longestFirst rules).lookup n = rules.lookup n := by
  have hfirst (l : List (Text × Text)) :
      l.lookup n = ((l.filter (·.1 == n)).head?).map Prod.snd := by
    rw [List.head?_filter]
    induction l with
    | nil => rfl
    | cons e l ih =>
      rw [List.lookup_cons, List.find?_cons, BEq.comm]
      cases e.1 == n with
      | true => rfl
      | false => exact ih
  rw [hfirst, hfirst, filter_longestFirst]

-- ---------------------------------------------------------------------------
-- Runs of a class of characters
-- ---------------------------------------------------------------------------

section Runs

variable {p : Char → Bool} {m n s t : Text}

theorem takeWhile_run (hn : n.all p) (hs : s.head?.any p = false) : (n ++ s).takeWhile p = n := by
  rw [List.takeWhile_append_of_pos (List.all_eq_true.mp hn)]
  cases s with
  | nil => simp
  | cons c r => rw [List.takeWhile_cons_of_neg (by simpa using hs), List.append_nil]

theorem dropWhile_run (hn : n.all p) (hs : s.head?.any p = false) : (n ++ s).dropWhile p = s := by
  rw [List.dropWhile_append_of_pos (List.all_eq_true.mp hn)]
  cases s with
  | nil => rfl
  | cons c r => exact List.dropWhile_cons_of_neg (by simpa using hs)

/-- Two runs of one class in front of something outside it: the runs and what follows them are told
apart by the text. -/
theorem append_inj_of_all (hm : m.all p) (hn : n.all p) (hs : s.head?.any p = false)
    (ht : t.head?.any p = false) (h : m ++ s = n ++ t) : m = n ∧ s = t :=
  ⟨by rw [← takeWhile_run hm hs, h, takeWhile_run hn ht],
    by rw [← dropWhile_run hm hs, h, dropWhile_run hn ht]⟩

theorem head_dropWhile (p : Char → Bool) (s : Text) : (s.dropWhile p).head?.any p = false := by
  cases h : s.dropWhile p with
  | nil => rfl
  | cons c r =>
    have := List.head?_dropWhile_not p s
    rw [h] at this
    simpa using this

end Runs

-- ---------------------------------------------------------------------------
-- Blanks
-- ---------------------------------------------------------------------------

theorem upTo_of_eq_append {s a e : Text} (h : s = a ++ e) : s.upTo e = a :=
  h ▸ upTo_append a e

theorem dropBlank_append {b : Text} (hb : b.allBlank) (s : Text) :
    dropBlank (b ++ s) = dropBlank s :=
  List.dropWhile_append_of_pos (List.all_eq_true.mp hb)

theorem dropBlank_of_head {s : Text} (h : s.head?.any isBlank = false) : dropBlank s = s := by
  cases s with
  | nil => rfl
  | cons c r => exact List.dropWhile_cons_of_neg (by simpa using h)

theorem head_dropBlank (s : Text) : s.dropBlank.head?.any isBlank = false :=
  head_dropWhile isBlank s

theorem exists_blanks (s : Text) : ∃ b : Text, b.allBlank ∧ s = b ++ s.dropBlank :=
  ⟨s.takeWhile isBlank, List.all_takeWhile, List.takeWhile_append_dropWhile.symm⟩

theorem dropBlank_append_right {r : Text} (hr : r.head?.any isBlank = false) (s : Text) :
    dropBlank (s ++ r) = dropBlank s ++ r := by
  obtain ⟨b, hb, hs⟩ := s.exists_blanks
  have hd := s.head_dropBlank
  rw [hs, List.append_assoc, dropBlank_append hb, dropBlank_append hb, dropBlank_of_head hd]
  cases h : s.dropBlank with
  | nil => exact dropBlank_of_head hr
  | cons c t => rw [h] at hd; exact dropBlank_of_head hd

theorem head_append_of_allBlank {b s : Text} (hb : b.allBlank)
    (hs : s.head?.any isNameChar = false) : (b ++ s).head?.any isNameChar = false := by
  cases b with
  | nil => exact hs
  | cons c b => exact not_isNameChar_of_isBlank (List.all_eq_true.mp hb c (by simp))

theorem allBlank_append {b c : Text} (hb : b.allBlank) (hc : c.allBlank) :
    (b ++ c).allBlank := by
  simp only [allBlank, List.all_append, Bool.and_eq_true]
  exact ⟨hb, hc⟩

-- ---------------------------------------------------------------------------
-- Names
-- ---------------------------------------------------------------------------

theorem nameRun_append {n s : Text} (hn : n.all isNameChar) (hs : s.head?.any isNameChar = false) :
    nameRun (n ++ s) = n :=
  takeWhile_run hn hs

theorem afterNameRun_append {n s : Text} (hn : n.all isNameChar)
    (hs : s.head?.any isNameChar = false) : afterNameRun (n ++ s) = s :=
  dropWhile_run hn hs

theorem head_afterNameRun (s : Text) : s.afterNameRun.head?.any isNameChar = false :=
  head_dropWhile isNameChar s

theorem afterNameRun_append_right {r : Text} (hr : r.head?.any isNameChar = false) (s : Text) :
    afterNameRun (s ++ r) = afterNameRun s ++ r := by
  have hn : s.nameRun.all isNameChar := List.all_takeWhile
  have hs := s.nameRun_append_afterNameRun
  have hd := s.head_afterNameRun
  rw [← hs, List.append_assoc, afterNameRun_append hn hd]
  apply afterNameRun_append hn
  cases h : s.afterNameRun with
  | nil => exact hr
  | cons c t => rw [h] at hd; exact hd

theorem afterName_append_right {r : Text} (hn : r.head?.any isNameChar = false)
    (hb : r.head?.any isBlank = false) (s : Text) : afterName (s ++ r) = afterName s ++ r := by
  rw [afterName, afterNameRun_append_right hn, dropBlank_append_right hb, afterName]

theorem isName_iff {n : Text} :
    n.isName ↔ ∃ c r, n = c :: r ∧ isNameStart c ∧ r.all isNameChar := by
  cases n with
  | nil => exact ⟨fun h => (nomatch h), fun ⟨_, _, h, _⟩ => (nomatch h)⟩
  | cons c r =>
    simp only [isName, Bool.and_eq_true]
    constructor
    · intro h
      exact ⟨c, r, rfl, h⟩
    · rintro ⟨_, _, h, hn⟩
      cases h
      exact hn

theorem isName_ne_nil {n : Text} (h : n.isName) : n ≠ [] := by
  obtain ⟨c, r, rfl, -⟩ := isName_iff.mp h
  simp

theorem all_isNameChar_of_isName {n : Text} (h : n.isName) : n.all isNameChar := by
  obtain ⟨c, r, rfl, hc, hr⟩ := isName_iff.mp h
  simp only [List.all_cons, Bool.and_eq_true]
  exact ⟨isNameChar_of_isNameStart hc, hr⟩

theorem isName_nameRun {c : Char} {r : Text} (h : isNameStart c) : (nameRun (c :: r)).isName := by
  rw [nameRun, List.takeWhile_cons_of_pos (isNameChar_of_isNameStart h)]
  simp only [isName, Bool.and_eq_true]
  exact ⟨h, List.all_takeWhile⟩

theorem isName_append {n w : Text} (hn : n.isName = true) (hw : w.all isNameChar = true) :
    (n ++ w).isName = true := by
  obtain ⟨c, r, rfl, hc, hr⟩ := isName_iff.mp hn
  exact isName_iff.mpr ⟨c, r ++ w, rfl, hc, by simp [hr, hw]⟩

theorem nameRun_ne_nil {c : Char} {r : Text} (h : isNameChar c) : nameRun (c :: r) ≠ [] := by
  simp [nameRun, h]

theorem exists_name {c : Char} {r : Text} (h : isNameStart c) :
    ∃ n w : Text, n.isName ∧ w.allBlank ∧ c :: r = n ++ (w ++ afterName (c :: r)) := by
  obtain ⟨w, hw, hs⟩ := exists_blanks (afterNameRun (c :: r))
  exact ⟨nameRun (c :: r), w, isName_nameRun h, hw, by
    rw [afterName, ← hs, nameRun_append_afterNameRun]⟩

theorem append_inj_of_isName {m n s t : Text} (hm : m.isName) (hn : n.isName)
    (hs : s.head?.any isNameChar = false) (ht : t.head?.any isNameChar = false)
    (h : m ++ s = n ++ t) : m = n ∧ s = t :=
  append_inj_of_all (all_isNameChar_of_isName hm) (all_isNameChar_of_isName hn) hs ht h

-- ---------------------------------------------------------------------------
-- The last occurrence of a character
-- ---------------------------------------------------------------------------

theorem exists_last {α : Type} {x : α} {l : List α} (h : x ∈ l) :
    ∃ xs ys, l = xs ++ x :: ys ∧ x ∉ ys := by
  obtain ⟨ys, xs, hl, hys⟩ := List.eq_append_cons_of_mem (List.mem_reverse.mpr h)
  refine ⟨xs.reverse, ys.reverse, ?_, by simpa using hys⟩
  simpa using congrArg List.reverse hl

theorem bne_of_mem_reverse {b : Text} {c : Char} (hb : c ∉ b) :
    ∀ d ∈ b.reverse, (d != c) = true := by
  intro d hd
  simp only [bne_iff_ne, ne_eq]
  rintro rfl
  exact hb (List.mem_reverse.mp hd)

theorem not_mem_afterLast (c : Char) (t : Text) : c ∉ afterLast c t := by
  intro h
  rw [afterLast, List.mem_reverse] at h
  simpa using List.all_eq_true.mp List.all_takeWhile c h

theorem afterLast_append {a b : Text} {c : Char} (hb : c ∉ b) :
    afterLast c (a ++ b) = afterLast c a ++ b := by
  simp only [afterLast, List.reverse_append,
    List.takeWhile_append_of_pos (bne_of_mem_reverse hb), List.reverse_reverse]

theorem afterLast_concat {a : Text} {c : Char} : afterLast c (a ++ [c]) = [] := by
  simp [afterLast]

theorem afterLast_append_cons {a b : Text} {c : Char} (hb : c ∉ b) :
    afterLast c (a ++ c :: b) = b := by
  rw [List.append_cons, afterLast_append hb, afterLast_concat, List.nil_append]

theorem throughLast_append {c : Char} {s : Text} (hs : c ∉ s) (a : Text) :
    throughLast c (a ++ c :: s) = a ++ [c] := by
  simp [throughLast, List.dropWhile_append_of_pos (bne_of_mem_reverse hs)]

-- ---------------------------------------------------------------------------
-- Inert stretches
-- ---------------------------------------------------------------------------

theorem afterInert?_eq_none {s : Text} (h : s.head?.any opensInert = false) :
    afterInert? s = none := by
  cases s with
  | nil => rfl
  | cons c r =>
    simp only [List.head?_cons, Option.any_some, opensInert, Bool.or_eq_false_iff,
      beq_eq_false_iff_ne] at h
    have hc : afterComment? (c :: r) = none := by
      unfold afterComment?
      split
      · rename_i heq; cases heq; exact absurd rfl h.1
      · rename_i heq; cases heq; exact absurd rfl h.1
      · rfl
    have hs : afterString? (c :: r) = none := by
      unfold afterString?
      split
      · rename_i heq; cases heq; exact absurd rfl h.2
      · rfl
    simp only [afterInert?, hc, hs]

theorem suffix_of_afterComment? {s r : Text} (h : afterComment? s = some r) : r <:+ s := by
  unfold afterComment? at h
  split at h
  · cases h
    exact (afterLine_suffix _).trans ((List.suffix_cons ..).trans (List.suffix_cons ..))
  · cases h
    exact (afterBlock_suffix _).trans ((List.suffix_cons ..).trans (List.suffix_cons ..))
  · cases h

theorem afterComments_suffix (s : Text) : afterComments s <:+ s := by
  fun_induction afterComments s with
  | case1 s r h ih => exact ih.trans (suffix_of_afterComment? h)
  | case2 s h => exact List.suffix_rfl

theorem suffix_of_afterInert? {s r : Text} (h : afterInert? s = some r) : r <:+ s := by
  unfold afterInert? at h
  split at h
  · rename_i t ht
    cases h
    exact (afterComments_suffix t).trans (suffix_of_afterComment? ht)
  · unfold afterString? at h
    split at h
    · cases h
      exact (afterQuote_suffix _).trans (List.suffix_cons ..)
    · cases h

theorem ne_nil_of_afterInert? {a r : Text} (h : afterInert? (a ++ r) = some r) : a ≠ [] := by
  rintro rfl
  exact absurd (length_lt_of_afterInert? h) (Nat.lt_irrefl _)

theorem head_of_afterInert? {s r : Text} (h : afterInert? s = some r) :
    s.head?.any opensInert = true := by
  cases hs : s.head?.any opensInert with
  | true => rfl
  | false => rw [afterInert?_eq_none hs] at h; cases h

end Text

end Monomorph
