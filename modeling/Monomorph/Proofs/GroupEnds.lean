import Monomorph.Cursor
import Monomorph.Proofs.CodeMarks
import Monomorph.Proofs.Nesting

/-!
# Ends of groups

The search for the end of a group counts brackets while it jumps over comments and literals. On the
marked characters of the text, it goes on as long as more brackets are open than closed
(`StaysOpen`) and ends behind the bracket that closes the last of them (`Finds`). So a cursor on an
opening bracket moves behind the shortest beginning of what lies ahead that has as many closing as
opening brackets in code, and to the end of the text if there is none
(`Cursor.skipGroup_balanced`).
-/

namespace Monomorph

namespace Marked

/-- The opening brackets in code, less the closing ones. -/
def balance (opening closing : Char) (l : List Marked) : Int :=
  l.count ⟨opening, true⟩ - l.count ⟨closing, true⟩

/-- A beginning of `l`, not empty, with as many closing as opening brackets in code. -/
structure IsBalanced (opening closing : Char) (l p : List Marked) : Prop where
  isPrefix : p <+: l
  ne_nil : p ≠ []
  count_eq : p.count ⟨closing, true⟩ = p.count ⟨opening, true⟩

structure IsShortest (opening closing : Char) (l p : List Marked) : Prop
    extends IsBalanced opening closing l p where
  length_le : ∀ q, IsBalanced opening closing l q → p.length ≤ q.length

/-- Behind `n` open brackets, some are open behind every character. -/
def StaysOpen (opening closing : Char) (n : Int) (l : List Marked) : Prop :=
  ∀ p, p <+: l → 0 < n + balance opening closing p

/-- What a search behind `n` open brackets gives: nothing if some stay open to the end, and else
what follows the bracket that closes the last one. -/
def Finds (opening closing : Char) (n : Int) (l : List Marked) : Option Text → Prop
  | none => StaysOpen opening closing n l
  | some r => ∃ p, l = p ++ ⟨closing, true⟩ :: r.marked ∧ StaysOpen opening closing n p ∧
      n + balance opening closing p = 1

variable {o c d : Char} {n : Int} {l p : List Marked} {x : Marked} {found : Option Text}

-- ---------------------------------------------------------------------------
-- Balance step by step
-- ---------------------------------------------------------------------------

@[simp] theorem balance_nil : balance o c [] = 0 :=
  rfl

theorem balance_append (l p : List Marked) :
    balance o c (l ++ p) = balance o c l + balance o c p := by
  simp only [balance, List.count_append]
  omega

theorem balance_cons (x : Marked) (l : List Marked) :
    balance o c (x :: l) = balance o c [x] + balance o c l :=
  balance_append [x] l

theorem balance_inert (d : Char) : balance o c [⟨d, false⟩] = 0 := by
  simp [balance]

theorem balance_opening (h : o ≠ c) : balance o c [⟨o, true⟩] = 1 := by
  simp [balance, h]

theorem balance_closing (h : o ≠ c) : balance o c [⟨c, true⟩] = -1 := by
  simp [balance, h.symm]

theorem balance_other (ho : d ≠ o) (hc : d ≠ c) : balance o c [⟨d, true⟩] = 0 := by
  simp [balance, ho, hc]

theorem balance_eq_zero_iff :
    balance o c p = 0 ↔ p.count ⟨c, true⟩ = p.count ⟨o, true⟩ := by
  rw [balance]
  omega

theorem staysOpen_nil (hn : 0 < n) : StaysOpen o c n [] := by
  intro p hp
  rw [List.prefix_nil.mp hp]
  simpa using hn

theorem StaysOpen.cons (hn : 0 < n) (h : StaysOpen o c (n + balance o c [x]) l) :
    StaysOpen o c n (x :: l) := by
  intro p hp
  rcases List.prefix_cons_iff.mp hp with rfl | ⟨q, rfl, hq⟩
  · simpa using hn
  · have := h q hq
    rw [balance_cons]
    omega

theorem Finds.cons (hn : 0 < n) (h : Finds o c (n + balance o c [x]) l found) :
    Finds o c n (x :: l) found := by
  cases found with
  | none => exact StaysOpen.cons hn h
  | some r =>
    obtain ⟨p, rfl, hopen, hone⟩ := h
    refine ⟨x :: p, rfl, hopen.cons hn, ?_⟩
    rw [balance_cons]
    omega

theorem Finds.inert (hn : 0 < n) (h : Finds o c n l found) (a : Text) :
    Finds o c n (a.inertMarks ++ l) found := by
  induction a with
  | nil => exact h
  | cons d a ih =>
    refine .cons hn ?_
    rwa [balance_inert, Int.add_zero]

end Marked

namespace Text

open Marked

variable {o c : Char} {n : Int}

-- ---------------------------------------------------------------------------
-- The search
-- ---------------------------------------------------------------------------

/-- The induction follows the search, and every step adds what was passed in front. -/
theorem finds_afterClosing? (hne : o ≠ c) (hn : 0 < n) (s : Text) :
    Finds o c n s.marked (afterClosing? o c n s) := by
  fun_induction afterClosing? o c n s with
  | case1 n s r hi ih =>
    obtain ⟨a, rfl⟩ := suffix_of_afterInert? hi
    rw [marked_inert hi]
    exact (ih hn).inert hn a
  | case2 n hi => exact staysOpen_nil hn
  | case3 n r hi ih =>
    rw [marked_code hi]
    refine .cons hn ?_
    rw [balance_opening hne]
    exact ih (by omega)
  | case4 r hi =>
    rw [marked_code hi]
    exact ⟨[], rfl, staysOpen_nil hn, rfl⟩
  | case5 n r hone hi _ ih =>
    rw [marked_code hi]
    refine .cons hn ?_
    rw [balance_closing hne]
    exact ih (by omega)
  | case6 n d r hi ho hc ih =>
    rw [marked_code hi]
    refine .cons hn ?_
    rw [balance_other ho hc, Int.add_zero]
    exact ih hn

theorem finds_afterGroup? (hne : o ≠ c) (ho : opensInert o = false) (t : Text) :
    Finds o c 1 t.marked (afterGroup? o c (o :: t)) := by
  rw [afterGroup?, List.head?_cons, if_pos rfl, afterClosing?_opening (afterInert?_eq_none ho)]
  exact finds_afterClosing? hne (by decide) t

end Text

-- ---------------------------------------------------------------------------
-- The shortest balanced beginning
-- ---------------------------------------------------------------------------

namespace Marked

variable {o c : Char} {l l' p : List Marked} {r : Text}

theorem IsBalanced.of_length_le (h : IsBalanced o c (l ++ l') p) (hlen : p.length ≤ l.length) :
    IsBalanced o c l p :=
  ⟨List.prefix_of_prefix_length_le h.isPrefix (List.prefix_append ..) hlen, h.ne_nil, h.count_eq⟩

theorem IsShortest.length_eq {q : List Marked} (hp : IsShortest o c l p)
    (hq : IsShortest o c l q) : p.length = q.length :=
  Nat.le_antisymm (hp.length_le q hq.toIsBalanced) (hq.length_le p hp.toIsBalanced)

theorem StaysOpen.not_isBalanced (hne : o ≠ c) (h : StaysOpen o c 1 l) :
    ¬IsBalanced o c (⟨o, true⟩ :: l) p := by
  rintro ⟨hpre, hnil, hcount⟩
  rcases List.prefix_cons_iff.mp hpre with rfl | ⟨q, rfl, hq⟩
  · exact hnil rfl
  · have hopen := h q hq
    rw [← balance_eq_zero_iff, balance_cons, balance_opening hne] at hcount
    omega

theorem StaysOpen.isShortest (hne : o ≠ c) (h : StaysOpen o c 1 l) (hzero : balance o c l = 0) :
    IsShortest o c (⟨o, true⟩ :: (l ++ ⟨c, true⟩ :: l')) (⟨o, true⟩ :: (l ++ [⟨c, true⟩])) := by
  refine ⟨⟨⟨l', by simp⟩, List.cons_ne_nil _ _, ?_⟩, fun q hq => ?_⟩
  · rw [← balance_eq_zero_iff, balance_cons, balance_append, balance_opening hne,
      balance_closing hne, hzero]
    rfl
  · by_contra hlt
    refine h.not_isBalanced hne (IsBalanced.of_length_le (l := ⟨o, true⟩ :: l) hq ?_)
    simp only [List.length_cons, List.length_append, List.length_nil] at hlt ⊢
    omega

end Marked

theorem Text.afterGroup?_cases {o c : Char} {s : Text} (hne : o ≠ c) (ho : opensInert o = false)
    (hs : s.head? = some o) :
    (∃ p r, Marked.IsShortest o c s.marked p ∧ afterGroup? o c s = some r ∧
      s.length = p.length + r.length) ∨
    (¬∃ p, Marked.IsBalanced o c s.marked p) ∧ afterGroup? o c s = none := by
  obtain ⟨t, rfl⟩ := List.head?_eq_some_iff.mp hs
  have hmarked : marked (o :: t) = ⟨o, true⟩ :: marked t := marked_code (afterInert?_eq_none ho)
  have hfinds := finds_afterGroup? hne ho t
  cases hgroup : afterGroup? o c (o :: t) with
  | none =>
    rw [hgroup] at hfinds
    refine .inr ⟨?_, rfl⟩
    rintro ⟨p, hp⟩
    exact Marked.StaysOpen.not_isBalanced hne hfinds (hmarked ▸ hp)
  | some r =>
    rw [hgroup] at hfinds
    obtain ⟨p, hp, hopen, hone⟩ := hfinds
    rw [hp] at hmarked
    refine .inl ⟨_, r, hmarked ▸ hopen.isShortest hne (by omega), rfl, ?_⟩
    rw [← length_marked, hmarked]
    simp only [List.length_cons, List.length_append, List.length_nil, length_marked]
    omega

-- ---------------------------------------------------------------------------
-- Cursors
-- ---------------------------------------------------------------------------

namespace Cursor

open Marked

variable {opening closing : Char}

theorem skipGroup_on {text : Text} {pos : Nat} (h : text[pos]? = some opening) :
    (⟨text, pos⟩ : Cursor).skipGroup [opening] [closing] =
      match Text.afterGroup? opening closing (text.drop pos) with
      | some r => (true, ⟨text, text.length - r.length⟩)
      | none => (false, ⟨text, text.length⟩) := by
  obtain ⟨hlt, -⟩ := List.getElem?_eq_some_iff.mp h
  have hpos : ¬((pos : Int) < 0) := by omega
  have hcurrent : current ⟨text, pos⟩ = opening := by
    simp [current, peek, hpos, h]
  have hend : atEnd ⟨text, pos⟩ = false := by
    simp [atEnd, hlt]
  have hahead : afterGroup? ⟨text, pos⟩ opening closing =
      Text.afterGroup? opening closing (text.drop pos) := by
    simp [afterGroup?, rest, hpos]
  rw [skipGroup, hcurrent, hend, if_neg (by simp)]
  simp only [hahead, goTo, seek, List.length_nil]
  cases Text.afterGroup? opening closing (text.drop pos) with
  | none => simp
  | some r => rfl

/-- A cursor on an opening bracket. There is a whole group just when some beginning of what lies
ahead, not empty, has as many closing as opening brackets in code. The cursor then moves behind the
shortest one, and else to the end of the text. -/
theorem skipGroup_balanced (text : Text) (pos : Nat) (hon : text[pos]? = some opening)
    (hne : opening ≠ closing) (hslash : opening ≠ '/') (hquote : opening ≠ '\'') :
    let found := (⟨text, pos⟩ : Cursor).skipGroup [opening] [closing]
    let ahead := Text.marked (text.drop pos)
    (found.1 = true ↔ ∃ p, IsBalanced opening closing ahead p) ∧
    (∀ p, IsShortest opening closing ahead p → found = (true, ⟨text, pos + p.length⟩)) ∧
    ((¬∃ p, IsBalanced opening closing ahead p) → found = (false, ⟨text, text.length⟩)) := by
  intro found ahead
  have hfound : found = _ := skipGroup_on hon
  have hplain : opensInert opening = false := by simp [opensInert, hslash, hquote]
  have hhead : (text.drop pos).head? = some opening := by rw [List.head?_drop, hon]
  rcases Text.afterGroup?_cases hne hplain hhead with ⟨p, r, hp, hgroup, hlen⟩ | ⟨hnone, hgroup⟩
  · have hpos : (text.length : Int) - r.length = pos + p.length := by
      have hlt := (List.getElem?_eq_some_iff.mp hon).1
      rw [List.length_drop] at hlen
      omega
    simp only [hgroup, hpos] at hfound
    refine ⟨?_, fun q hq => ?_, fun hnone => absurd ⟨p, hp.toIsBalanced⟩ hnone⟩
    · rw [hfound]
      exact ⟨fun _ => ⟨p, hp.toIsBalanced⟩, fun _ => rfl⟩
    · rw [hfound, hp.length_eq hq]
  · rw [hgroup] at hfound
    refine ⟨?_, fun q hq => absurd ⟨q, hq.toIsBalanced⟩ hnone, fun _ => hfound⟩
    rw [hfound]
    exact ⟨fun h => absurd h Bool.false_ne_true, fun h => absurd h hnone⟩

/-- Brackets in a literal behind an escaped quote, in both kinds of comment, nested and to spare. -/
theorem skipGroup_balanced_escaped :
    let text : Text := "a(b')\\')'/*)*/(//)\n)c)d)"
    let ahead := Text.marked (text.drop 1)
    text[1]? = some '(' ∧ IsShortest '(' ')' ahead (ahead.take 21) ∧
      (⟨text, 1⟩ : Cursor).skipGroup ['('] [')'] = (true, ⟨text, 22⟩) := by
  intro text ahead
  have hon : text[1]? = some '(' := rfl
  have hshorter : ∀ k < 21, k = 0 ∨
      (ahead.take k).count ⟨')', true⟩ ≠ (ahead.take k).count ⟨'(', true⟩ := by
    decide +kernel
  have hshortest : IsShortest '(' ')' ahead (ahead.take 21) := by
    refine ⟨⟨List.take_prefix .., by decide +kernel, by decide +kernel⟩, fun q hq => ?_⟩
    by_contra hlt
    have hlen : q.length < 21 := Nat.lt_of_lt_of_le (Nat.lt_of_not_le hlt) (List.length_take_le ..)
    rcases hshorter q.length hlen with hnil | hcount
    · exact hq.ne_nil (List.length_eq_zero_iff.mp hnil)
    · rw [← List.prefix_iff_eq_take.mp hq.isPrefix] at hcount
      exact hcount hq.count_eq
  refine ⟨hon, hshortest, ?_⟩
  exact (skipGroup_balanced text 1 hon (by decide) (by decide) (by decide)).2.1 _ hshortest

end Cursor

end Monomorph
