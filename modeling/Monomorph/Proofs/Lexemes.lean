import Monomorph.Proofs.CodeRuns

/-!
# Lexemes

A text is read as a sequence of lexemes: single characters of code, whole comments and whole
string literals. A lexeme is found from its own text and at most one character behind it, so the
lexemes of two texts put together are those of the one and then those of the other, unless a
comment or literal of the first is left open (`Closed`) or a slash meets what makes it a comment
(`slashMeets`).
-/

namespace Monomorph

/-- A character of code, or a comment or string literal as a whole. -/
inductive Lexeme where
  | code (c : Char)
  | inert (isComment : Bool) (text : Text)
deriving DecidableEq, Repr

def Lexeme.text : Lexeme → Text
  | code c => [c]
  | inert _ t => t

namespace Text

/-- What follows the comment or string literal at the head of `s`, with whether it is a comment. -/
def afterStretch? (s : Text) : Option (Bool × Text) :=
  match afterComment? s with
  | some r => some (true, r)
  | none => (afterString? s).map (false, ·)

variable {s r r' t : Text} {c : Char} {k : Bool}

theorem afterStretch?_cases (h : afterStretch? s = some (k, r)) :
    (∃ t, s = '/' :: '/' :: t ∧ k = true ∧ r = afterLine t) ∨
    (∃ t, s = '/' :: '*' :: t ∧ k = true ∧ r = afterBlock t) ∨
    (∃ t, s = '\'' :: t ∧ k = false ∧ r = afterQuote t) := by
  unfold afterStretch? afterComment? at h
  split at h
  · rename_i u hu
    cases h
    split at hu
    · cases hu
      exact .inl ⟨_, rfl, rfl, rfl⟩
    · cases hu
      exact .inr (.inl ⟨_, rfl, rfl, rfl⟩)
    · cases hu
  · unfold afterString? at h
    split at h
    · cases h
      exact .inr (.inr ⟨_, rfl, rfl, rfl⟩)
    · cases h

theorem afterStretch?_line (t : Text) :
    afterStretch? ('/' :: '/' :: t) = some (true, afterLine t) :=
  rfl

theorem afterStretch?_block (t : Text) :
    afterStretch? ('/' :: '*' :: t) = some (true, afterBlock t) :=
  rfl

theorem afterStretch?_quote (t : Text) : afterStretch? ('\'' :: t) = some (false, afterQuote t) :=
  rfl

theorem length_lt_of_afterStretch? (h : afterStretch? s = some (k, r)) : r.length < s.length := by
  obtain ⟨t, rfl, -, rfl⟩ | ⟨t, rfl, -, rfl⟩ | ⟨t, rfl, -, rfl⟩ := afterStretch?_cases h
  · have := (afterLine_suffix t).length_le
    simp only [List.length_cons]
    omega
  · have := (afterBlock_suffix t).length_le
    simp only [List.length_cons]
    omega
  · have := (afterQuote_suffix t).length_le
    simp only [List.length_cons]
    omega

theorem suffix_of_afterStretch? (h : afterStretch? s = some (k, r)) : r <:+ s := by
  obtain ⟨t, rfl, -, rfl⟩ | ⟨t, rfl, -, rfl⟩ | ⟨t, rfl, -, rfl⟩ := afterStretch?_cases h
  · exact (afterLine_suffix t).trans ((List.suffix_cons ..).trans (List.suffix_cons ..))
  · exact (afterBlock_suffix t).trans ((List.suffix_cons ..).trans (List.suffix_cons ..))
  · exact (afterQuote_suffix t).trans (List.suffix_cons ..)

theorem afterStretch?_cons_eq_none_iff : afterStretch? (c :: r) = none ↔
    c ≠ '\'' ∧ (c = '/' → r.head? ≠ some '/' ∧ r.head? ≠ some '*') := by
  constructor
  · intro h
    refine ⟨?_, ?_⟩
    · rintro rfl
      rw [afterStretch?_quote] at h
      cases h
    · rintro rfl
      cases r with
      | nil => simp
      | cons d r =>
        refine ⟨?_, ?_⟩ <;> intro hd <;> cases hd
        · rw [afterStretch?_line] at h
          cases h
        · rw [afterStretch?_block] at h
          cases h
  · rintro ⟨hq, hs⟩
    rw [Option.eq_none_iff_forall_not_mem]
    rintro ⟨k, t⟩ ht
    obtain ⟨u, heq, -⟩ | ⟨u, heq, -⟩ | ⟨u, heq, -⟩ := afterStretch?_cases ht
    · cases heq
      exact (hs rfl).1 rfl
    · cases heq
      exact (hs rfl).2 rfl
    · cases heq
      exact hq rfl

theorem afterInert?_eq_none_iff : afterInert? s = none ↔ afterStretch? s = none := by
  unfold afterInert? afterStretch?
  cases afterComment? s <;> simp

theorem afterComments_of_some (h : afterComment? s = some r) :
    afterComments s = afterComments r := by
  rw [afterComments]
  split
  · rename_i heq; rw [h] at heq; cases heq; rfl
  · rename_i heq; rw [h] at heq; cases heq

theorem afterComments_of_none (h : afterComment? s = none) : afterComments s = s := by
  rw [afterComments]
  split
  · rename_i heq; rw [h] at heq; cases heq
  · rfl

theorem afterInert?_of_afterStretch? (h : afterStretch? s = some (k, r)) :
    afterInert? s = some r ∨ k = true ∧ ∃ t, afterComment? r = some t ∧
      afterInert? r = some (afterComments t) ∧ afterInert? s = some (afterComments t) := by
  unfold afterStretch? at h
  cases hc : afterComment? s with
  | none =>
    simp only [hc, Option.map_eq_some_iff, Prod.mk.injEq] at h
    obtain ⟨t, ht, -, rfl⟩ := h
    exact .inl (by simp only [afterInert?, hc, ht])
  | some t =>
    simp only [hc, Option.some.injEq, Prod.mk.injEq] at h
    obtain ⟨rfl, rfl⟩ := h
    cases hr : afterComment? t with
    | none => exact .inl (by rw [afterInert?, hc]; exact congrArg some (afterComments_of_none hr))
    | some u =>
      refine .inr ⟨rfl, u, rfl, by simp only [afterInert?, hr], ?_⟩
      rw [afterInert?, hc]
      exact congrArg some (afterComments_of_some hr)

theorem eq_of_afterStretch? {α : Type} {f : Text → α}
    (hf : ∀ {s r : Text}, afterInert? s = some r → f s = f r)
    (h : afterStretch? s = some (k, r)) : f s = f r := by
  obtain hi | ⟨-, t, -, hr, hs⟩ := afterInert?_of_afterStretch? h
  · exact hf hi
  · rw [hf hs, hf hr]

-- ---------------------------------------------------------------------------
-- What ends a stretch
-- ---------------------------------------------------------------------------

theorem afterBlock_skip (h : ¬(c = '*' ∧ r.head? = some '/')) :
    afterBlock (c :: r) = afterBlock r := by
  rw [afterBlock]
  rintro t rfl rfl
  exact h ⟨rfl, rfl⟩

theorem afterQuote_skip (hq : c ≠ '\'') (hb : c ≠ '\\') : afterQuote (c :: r) = afterQuote r := by
  rw [afterQuote]
  · exact hq
  · rintro _ _ rfl
    exact absurd rfl hb

theorem length_afterLine_lt (hs : s ≠ []) : (afterLine s).length < s.length := by
  obtain ⟨c, t, rfl⟩ := List.exists_cons_of_ne_nil hs
  have := (afterLine_suffix t).length_le
  simp only [afterLine, List.length_cons]
  split <;> omega

theorem afterLine_of_not_mem {v : Text} (hv : '\n' ∉ v) (s : Text) :
    afterLine (v ++ s) = afterLine s := by
  induction v with
  | nil => rfl
  | cons c v ih =>
    rw [List.mem_cons, not_or] at hv
    rw [List.cons_append, afterLine, if_neg (Ne.symm hv.1), ih hv.2]

theorem length_afterBlock_lt (hs : s ≠ []) : (afterBlock s).length < s.length := by
  obtain ⟨c, t, rfl⟩ := List.exists_cons_of_ne_nil hs
  by_cases h : c = '*' ∧ t.head? = some '/'
  · obtain ⟨rfl, ht⟩ := h
    obtain ⟨u, rfl⟩ := List.head?_eq_some_iff.mp ht
    simp only [afterBlock, List.length_cons]
    omega
  · have := (afterBlock_suffix t).length_le
    rw [afterBlock_skip h, List.length_cons]
    omega

theorem length_afterQuote_lt (hs : s ≠ []) : (afterQuote s).length < s.length := by
  obtain ⟨c, t, rfl⟩ := List.exists_cons_of_ne_nil hs
  have hlen := (afterQuote_suffix t).length_le
  by_cases hq : c = '\''
  · rw [hq, afterQuote, List.length_cons]
    omega
  · by_cases hb : c = '\\'
    · cases t with
      | nil => rw [hb]; decide
      | cons d t =>
        have := (afterQuote_suffix t).length_le
        rw [hb, afterQuote]
        simp only [List.length_cons]
        omega
    · rw [afterQuote_skip hq hb, List.length_cons]
      omega

theorem afterLine_swap {a r r' : Text} (hr : r ≠ []) (h : afterLine (a ++ r) = r) :
    afterLine (a ++ r') = r' := by
  induction a with
  | nil => exact absurd (congrArg List.length h) (Nat.ne_of_lt (length_afterLine_lt hr))
  | cons c a ih =>
    simp only [List.cons_append, afterLine] at h ⊢
    by_cases hc : c = '\n'
    · rw [if_pos hc, List.append_left_eq_self] at h
      rw [if_pos hc, h, List.nil_append]
    · rw [if_neg hc] at h ⊢
      exact ih h

theorem afterBlock_swap {a r r' : Text} (hr : r ≠ []) (h : afterBlock (a ++ r) = r) :
    afterBlock (a ++ r') = r' := by
  have hlt := length_afterBlock_lt hr
  induction a with
  | nil => exact absurd (congrArg List.length h) (Nat.ne_of_lt hlt)
  | cons c a ih =>
    rw [List.cons_append] at h ⊢
    cases a with
    | nil =>
      -- the two characters that end a block do not lie on both sides of the border
      have h := congrArg List.length h
      rw [List.nil_append] at h
      by_cases hc : c = '*' ∧ r.head? = some '/'
      · obtain ⟨rfl, hd⟩ := hc
        obtain ⟨t, rfl⟩ := List.head?_eq_some_iff.mp hd
        simp only [afterBlock, List.length_cons] at h
        omega
      · rw [afterBlock_skip hc] at h
        omega
    | cons d a =>
      by_cases hc : c = '*' ∧ d = '/'
      · obtain ⟨rfl, rfl⟩ := hc
        simp only [List.cons_append, afterBlock, List.append_left_eq_self] at h ⊢
        exact h
      · have hskip (x : Text) : afterBlock (c :: (d :: a ++ x)) = afterBlock (d :: a ++ x) :=
          afterBlock_skip (by simpa using hc)
        rw [hskip] at h ⊢
        exact ih h

theorem afterQuote_swap {a r r' : Text} (hr : r ≠ []) (h : afterQuote (a ++ r) = r) :
    afterQuote (a ++ r') = r' := by
  have hlt := length_afterQuote_lt hr
  cases a with
  | nil => exact absurd (congrArg List.length h) (Nat.ne_of_lt hlt)
  | cons c a =>
    rw [List.cons_append] at h ⊢
    by_cases hq : c = '\''
    · rw [hq] at h ⊢
      rw [afterQuote, List.append_left_eq_self] at h
      rw [afterQuote, h, List.nil_append]
    · by_cases hb : c = '\\'
      · rw [hb] at h ⊢
        cases a with
        | nil =>
          -- the backslash would take the first character behind the border with it
          obtain ⟨d, t, rfl⟩ := List.exists_cons_of_ne_nil hr
          have hlen := (afterQuote_suffix t).length_le
          have h := congrArg List.length h
          simp only [List.nil_append, afterQuote, List.length_cons] at h
          omega
        | cons d a => exact afterQuote_swap hr h
      · rw [afterQuote_skip hq hb] at h ⊢
        exact afterQuote_swap hr h
termination_by a.length

theorem afterStretch?_swap {a r r' : Text} (hr : r ≠ [])
    (h : afterStretch? (a ++ r) = some (k, r)) : afterStretch? (a ++ r') = some (k, r') := by
  obtain ⟨t, heq, rfl, hrest⟩ | ⟨t, heq, rfl, hrest⟩ | ⟨t, heq, rfl, hrest⟩ := afterStretch?_cases h
  · obtain ⟨b, hb⟩ := afterLine_suffix t
    rw [← hrest] at hb
    subst hb
    obtain rfl : a = '/' :: '/' :: b := List.append_cancel_right heq
    exact congrArg (fun x => some (true, x)) (afterLine_swap hr hrest.symm)
  · obtain ⟨b, hb⟩ := afterBlock_suffix t
    rw [← hrest] at hb
    subst hb
    obtain rfl : a = '/' :: '*' :: b := List.append_cancel_right heq
    exact congrArg (fun x => some (true, x)) (afterBlock_swap hr hrest.symm)
  · obtain ⟨b, hb⟩ := afterQuote_suffix t
    rw [← hrest] at hb
    subst hb
    obtain rfl : a = '\'' :: b := List.append_cancel_right heq
    exact congrArg (fun x => some (false, x)) (afterQuote_swap hr hrest.symm)

theorem afterStretch?_eq_comment_iff :
    afterStretch? s = some (true, r) ↔ afterComment? s = some r := by
  unfold afterStretch?
  cases afterComment? s <;> simp

theorem afterComment?_swap {a r t : Text} (hr : r ≠ []) (ht : r <:+ t)
    (h : afterComment? (a ++ r) = some t) :
    ∃ b, t = b ++ r ∧ b.length < a.length ∧ ∀ r', afterComment? (a ++ r') = some (b ++ r') := by
  have hlt := length_lt_of_afterComment? h
  obtain ⟨b, rfl⟩ := ht
  obtain ⟨d, hd⟩ := suffix_of_afterComment? h
  rw [← List.append_assoc, List.append_left_inj] at hd
  subst hd
  refine ⟨b, rfl, by simp only [List.length_append] at hlt ⊢; omega, fun r' => ?_⟩
  rw [List.append_assoc] at h ⊢
  exact afterStretch?_eq_comment_iff.mp
    (afterStretch?_swap (by simp [hr]) (afterStretch?_eq_comment_iff.mpr h))

theorem afterComments_swap {a r r' : Text} (hr : r ≠ []) (hr' : afterComment? r' = none)
    (h : afterComments (a ++ r) = r) : afterComments (a ++ r') = r' := by
  cases hc : afterComment? (a ++ r) with
  | none =>
    rw [afterComments_of_none hc, List.append_left_eq_self] at h
    rw [h, List.nil_append, afterComments_of_none hr']
  | some t =>
    rw [afterComments_of_some hc] at h
    obtain ⟨b, rfl, hlt, hswap⟩ := afterComment?_swap hr (h ▸ afterComments_suffix t) hc
    rw [afterComments_of_some (hswap r')]
    exact afterComments_swap hr hr' h
termination_by a.length

theorem afterComment?_afterComments (s : Text) : afterComment? (afterComments s) = none := by
  fun_induction afterComments s with
  | case1 s r h ih => exact ih
  | case2 s h => exact h

/-- A run of comments or a literal that ends before the end of the text ends there whatever
follows, as long as no comment is added to the run. -/
theorem afterInert?_swap {a r r' : Text} (hr : r ≠ [])
    (hr' : afterComment? r = none → afterComment? r' = none)
    (h : afterInert? (a ++ r) = some r) : afterInert? (a ++ r') = some r' := by
  cases hc : afterComment? (a ++ r) with
  | none =>
    have hs : afterStretch? (a ++ r) = some (false, r) := by
      simp only [afterInert?, hc] at h
      simp only [afterStretch?, hc, h, Option.map_some]
    have hs' : afterStretch? (a ++ r') = some (false, r') := afterStretch?_swap hr hs
    obtain hi | ⟨hk, -⟩ := afterInert?_of_afterStretch? hs'
    · exact hi
    · cases hk
  | some t =>
    have ht : afterComments t = r := by
      simpa only [afterInert?, hc, Option.some.injEq] using h
    obtain ⟨b, rfl, -, hswap⟩ := afterComment?_swap hr (ht ▸ afterComments_suffix t) hc
    rw [afterInert?, hswap r']
    exact congrArg some (afterComments_swap hr (hr' (ht ▸ afterComment?_afterComments _)) ht)

theorem exists_stretch_of_afterInert? {a r : Text} (hr : r ≠ [])
    (h : afterInert? (a ++ r) = some r) :
    ∃ k t b, a = t ++ b ∧ b.length < a.length ∧ (∀ x, afterStretch? (t ++ x) = some (k, x)) ∧
      (b = [] ∨ afterInert? (b ++ r) = some r) := by
  cases hs : afterStretch? (a ++ r) with
  | none => rw [afterInert?_eq_none_iff.mpr hs] at h; cases h
  | some found =>
    obtain ⟨k, u⟩ := found
    have hlt := length_lt_of_afterStretch? hs
    have hrest : u = r ∨ afterInert? u = some r := by
      obtain hi | ⟨-, v, -, hu, hi⟩ := afterInert?_of_afterStretch? hs
      · exact .inl (Option.some.inj (hi.symm.trans h))
      · exact .inr (hu.trans (hi.symm.trans h))
    obtain ⟨b, rfl⟩ : r <:+ u := by
      rcases hrest with rfl | hu
      · exact List.suffix_rfl
      · exact suffix_of_afterInert? hu
    obtain ⟨t, ht⟩ := suffix_of_afterStretch? hs
    rw [← List.append_assoc, List.append_left_inj] at ht
    subst ht
    rw [List.append_assoc] at hs
    refine ⟨k, t, b, rfl, by simp only [List.length_append] at hlt ⊢; omega,
      fun x => afterStretch?_swap (by simp [hr]) hs, ?_⟩
    rcases hrest with hb | hb
    · exact .inl (List.append_left_eq_self.mp hb)
    · exact .inr hb

/-- Induction over the comments and literals of an inert stretch in front of `r`. -/
@[elab_as_elim]
theorem inert_induct {r : Text} (hr : r ≠ []) {motive : ∀ a, afterInert? (a ++ r) = some r → Prop}
    (last : ∀ k t (_ : ∀ x, afterStretch? (t ++ x) = some (k, x))
      (h : afterInert? (t ++ r) = some r), motive t h)
    (more : ∀ k t b (_ : ∀ x, afterStretch? (t ++ x) = some (k, x))
      (hb : afterInert? (b ++ r) = some r) (h : afterInert? (t ++ b ++ r) = some r),
      motive b hb → motive (t ++ b) h)
    {a : Text} (h : afterInert? (a ++ r) = some r) : motive a h := by
  obtain ⟨k, t, b, rfl, hlt, ht, rfl | hb⟩ := exists_stretch_of_afterInert? hr h
  · simp only [List.append_nil]
    exact last k t ht _
  · exact more k t b ht hb h (inert_induct hr last more hb)
termination_by a.length

-- ---------------------------------------------------------------------------
-- The lexemes of a text
-- ---------------------------------------------------------------------------

def lexemes (s : Text) : List Lexeme :=
  match _h : afterStretch? s with
  | some (k, r) => .inert k (s.upTo r) :: lexemes r
  | none =>
    match s with
    | [] => []
    | c :: r => .code c :: lexemes r
termination_by s.length
decreasing_by
  · exact length_lt_of_afterStretch? ‹_›
  · exact Nat.lt_succ_self _

@[simp] theorem lexemes_nil : lexemes [] = [] := by
  rw [lexemes]
  rfl

theorem lexemes_stretch (a : Text) (h : afterStretch? (a ++ r) = some (k, r)) :
    lexemes (a ++ r) = .inert k a :: lexemes r := by
  rw [lexemes]
  split
  · rename_i heq
    rw [h] at heq
    cases heq
    rw [upTo_append]
  · rename_i heq
    rw [h] at heq
    cases heq

theorem lexemes_code (h : afterStretch? (c :: r) = none) :
    lexemes (c :: r) = .code c :: lexemes r := by
  rw [lexemes]
  split
  · rename_i heq
    rw [h] at heq
    cases heq
  · rfl

theorem lexemes_cases (s : Text) : s = [] ∨
    (∃ k a r, s = a ++ r ∧ r.length < s.length ∧ afterStretch? (a ++ r) = some (k, r) ∧
      lexemes s = .inert k a :: lexemes r) ∨
    ∃ c r, s = c :: r ∧ afterStretch? (c :: r) = none ∧ lexemes s = .code c :: lexemes r := by
  cases h : afterStretch? s with
  | some found =>
    obtain ⟨k, r⟩ := found
    obtain ⟨a, rfl⟩ := suffix_of_afterStretch? h
    exact .inr (.inl ⟨k, a, r, rfl, length_lt_of_afterStretch? h, h, lexemes_stretch a h⟩)
  | none =>
    cases s with
    | nil => exact .inl rfl
    | cons c r => exact .inr (.inr ⟨c, r, rfl, h, lexemes_code h⟩)

theorem flatMap_text_lexemes (s : Text) : (lexemes s).flatMap Lexeme.text = s := by
  obtain rfl | ⟨k, a, r, hs, hlt, -, hl⟩ | ⟨c, r, hs, -, hl⟩ := lexemes_cases s
  · rw [lexemes_nil, List.flatMap_nil]
  · rw [hl, List.flatMap_cons, flatMap_text_lexemes r, hs, Lexeme.text]
  · rw [hl, List.flatMap_cons, flatMap_text_lexemes r, hs, Lexeme.text, List.singleton_append]
termination_by s.length
decreasing_by
  · exact hlt
  · rw [hs]
    exact Nat.lt_succ_self _

theorem lexemes_append_of_plain {n : Text} (hn : ∀ c ∈ n, opensInert c = false) (s : Text) :
    lexemes (n ++ s) = n.map .code ++ lexemes s := by
  induction n with
  | nil => rfl
  | cons c n ih =>
    obtain ⟨hc, hn⟩ := List.forall_mem_cons.mp hn
    have hnone : afterStretch? (c :: (n ++ s)) = none :=
      afterInert?_eq_none_iff.mp (afterInert?_eq_none (by simpa using hc))
    rw [List.cons_append, lexemes_code hnone, ih hn, List.map_cons, List.cons_append]

theorem lexemes_of_plain {n : Text} (hn : ∀ c ∈ n, opensInert c = false) :
    lexemes n = n.map .code := by
  simpa using lexemes_append_of_plain hn []

-- ---------------------------------------------------------------------------
-- Closed texts
-- ---------------------------------------------------------------------------

/-- Every comment and string literal of the text ends in it, so what follows is code again. -/
inductive Closed : Text → Prop
  | nil : Closed []
  | stretch {k : Bool} {t a : Text} : (∀ x, afterStretch? (t ++ x) = some (k, x)) → Closed a →
      Closed (t ++ a)
  | code {c : Char} {a : Text} : afterStretch? (c :: a) = none → Closed a → Closed (c :: a)

/-- Whether the last lexeme of `a` and the first character of `b` are as told. -/
def meets (p : Lexeme → Bool) (q : Char → Bool) (a b : Text) : Bool :=
  (lexemes a).getLast?.any p && b.head?.any q

/-- A slash that becomes a comment by what follows. -/
def slashMeets : Text → Text → Bool :=
  meets (· == .code '/') fun c => c == '/' || c == '*'

variable {p : Lexeme → Bool} {q : Char → Bool}

theorem meets_of_cons {a a' b : Text} {l : Lexeme} (hl : lexemes a = l :: lexemes a')
    (h : meets p q a b = false) : meets p q a' b = false := by
  rw [meets, hl, List.getLast?_cons] at h
  rw [meets]
  cases ha : (lexemes a').getLast? with
  | none => rfl
  | some x =>
    rw [ha] at h
    exact h

theorem meets_of_head {b : Text} (a : Text) (hb : b.head?.any q = false) :
    meets p q a b = false := by
  rw [meets, hb, Bool.and_false]

theorem meets_of_getLast {a : Text} (ha : (lexemes a).getLast?.any p = false) (b : Text) :
    meets p q a b = false := by
  rw [meets, ha, Bool.false_and]

theorem afterStretch?_append_eq_none {a b : Text} (h : afterStretch? (c :: a) = none)
    (hs : slashMeets (c :: a) b = false) : afterStretch? (c :: (a ++ b)) = none := by
  rw [afterStretch?_cons_eq_none_iff] at h ⊢
  refine ⟨h.1, fun hc => ?_⟩
  cases a with
  | cons d a => exact h.2 hc
  | nil =>
    subst hc
    have hl : lexemes ['/'] = [.code '/'] := by
      rw [lexemes_code rfl, lexemes_nil]
    rw [slashMeets, meets, hl, List.getLast?_singleton, Option.any_some, beq_self_eq_true,
      Bool.true_and] at hs
    cases b with
    | nil => simp
    | cons d b =>
      simp only [List.head?_cons, Option.any_some, Bool.or_eq_false_iff, beq_eq_false_iff_ne] at hs
      simpa using hs

theorem Closed.lexemes_append {a b : Text} (ha : Closed a) (hs : slashMeets a b = false) :
    lexemes (a ++ b) = lexemes a ++ lexemes b := by
  induction ha with
  | nil => rw [lexemes_nil, List.nil_append, List.nil_append]
  | @stretch k t a ht ha ih =>
    have hl := lexemes_stretch t (ht a)
    rw [hl, List.append_assoc, lexemes_stretch t (ht (a ++ b)), ih (meets_of_cons hl hs),
      List.cons_append]
  | @code c a hc ha ih =>
    have hl := lexemes_code hc
    rw [hl, List.cons_append, lexemes_code (afterStretch?_append_eq_none hc hs),
      ih (meets_of_cons hl hs), List.cons_append]

theorem afterStretch?_eq_none_of_append {a b : Text} (h : afterStretch? (c :: (a ++ b)) = none) :
    afterStretch? (c :: a) = none := by
  rw [afterStretch?_cons_eq_none_iff] at h ⊢
  refine ⟨h.1, fun hc => ?_⟩
  cases a with
  | nil => simp
  | cons d a => exact h.2 hc

theorem Closed.append {a b : Text} (ha : Closed a) (hb : Closed b) (hs : slashMeets a b = false) :
    Closed (a ++ b) := by
  induction ha with
  | nil => exact hb
  | @stretch k t a ht ha ih =>
    rw [List.append_assoc]
    exact .stretch ht (ih (meets_of_cons (lexemes_stretch t (ht a)) hs))
  | @code c a hc ha ih =>
    exact .code (afterStretch?_append_eq_none hc hs) (ih (meets_of_cons (lexemes_code hc) hs))

theorem Closed.of_append {a b : Text} (h : Closed (a ++ b)) (ha : Closed a)
    (hs : slashMeets a b = false) : Closed b := by
  induction ha with
  | nil => exact h
  | @stretch k t a ht ha ih =>
    refine ih ?_ (meets_of_cons (lexemes_stretch t (ht a)) hs)
    have hhead := ht (a ++ b)
    rw [← List.append_assoc] at hhead
    generalize t ++ a ++ b = s at h hhead
    cases h with
    | nil => cases hhead
    | @stretch k' u v hu hv =>
      rw [hu v] at hhead
      cases hhead
      exact hv
    | code hc =>
      rw [hc] at hhead
      cases hhead
  | @code c a hc ha ih =>
    refine ih ?_ (meets_of_cons (lexemes_code hc) hs)
    have hhead := afterStretch?_append_eq_none hc hs
    generalize hwhole : c :: a ++ b = s at h
    cases h with
    | nil => cases hwhole
    | @stretch k u v hu hv =>
      rw [← List.cons_append, hwhole, hu v] at hhead
      cases hhead
    | code hd hv =>
      cases hwhole
      exact hv

theorem lexemes_eq_nil {a : Text} (h : lexemes a = []) : a = [] := by
  rw [← flatMap_text_lexemes a, h, List.flatMap_nil]

theorem closed_of_afterInert? {a r : Text} (hr : r ≠ []) (h : afterInert? (a ++ r) = some r) :
    Closed a ∧ ∃ k t, (lexemes a).getLast? = some (.inert k t) := by
  induction h using inert_induct hr with
  | last k t ht =>
    have hclosed : Closed (t ++ []) := .stretch ht .nil
    have hlexemes := lexemes_stretch t (ht [])
    rw [List.append_nil] at hclosed hlexemes
    exact ⟨hclosed, k, t, by simp [hlexemes]⟩
  | more k t b ht _ _ ih =>
    obtain ⟨hclosed, k', u, hlast⟩ := ih
    refine ⟨.stretch ht hclosed, k', u, ?_⟩
    simp [lexemes_stretch t (ht b), List.getLast?_cons, hlast]

theorem meets_append {a b r : Text} (hl : lexemes (a ++ b) = lexemes a ++ lexemes b)
    (ha : meets p q a (b ++ r) = false) (hb : meets p q b r = false) :
    meets p q (a ++ b) r = false := by
  rw [meets, hl, List.getLast?_append]
  cases hlast : (lexemes b).getLast? with
  | none =>
    obtain rfl := lexemes_eq_nil (List.getLast?_eq_none_iff.mp hlast)
    exact ha
  | some l =>
    rw [meets, hlast] at hb
    exact hb

theorem Closed.of_plain_append {n a : Text} (hn : ∀ c ∈ n, opensInert c = false) (h : Closed a) :
    Closed (n ++ a) := by
  induction n with
  | nil => exact h
  | cons c n ih =>
    obtain ⟨hc, hn⟩ := List.forall_mem_cons.mp hn
    exact .code (afterInert?_eq_none_iff.mp (afterInert?_eq_none (by simpa using hc))) (ih hn)

theorem closed_of_plain {n : Text} (hn : ∀ c ∈ n, opensInert c = false) : Closed n := by
  simpa using Closed.nil.of_plain_append hn

end Text

end Monomorph
