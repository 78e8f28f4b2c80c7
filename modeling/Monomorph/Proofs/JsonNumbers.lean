import Monomorph.Json
import Monomorph.Proofs.TextLaws

/-!
# What spells a JSON number

A number is read as far as it goes, so what ends it belongs to its spelling: a number that ends
before a delimiter is the same before every delimiter (`exists_number`). An integer is refused when
it has more than `maxDigits` digits and neither fraction nor exponent
(`readNumber_eq_oversized_iff`).
-/

namespace Monomorph.Json

variable {c : Char} {r s t u w x y : Text} {n : Nat} {v : Json} {e : Error}

-- ---------------------------------------------------------------------------
-- The parts of a number
-- ---------------------------------------------------------------------------

/-- The digits of an integer: no needless zero stands in front. -/
structure IsWhole (ds : Text) : Prop where
  ne_nil : ds ≠ []
  digits : ds.all Char.isDigit = true
  zero : ds.head? = some '0' → ds = ['0']

inductive IsInteger : Text → Prop where
  | positive {ds : Text} (h : IsWhole ds) : IsInteger ds
  | negative {ds : Text} (h : IsWhole ds) : IsInteger ('-' :: ds)

/-- The fraction of a number, or nothing. -/
inductive IsFraction : Text → Prop where
  | none : IsFraction []
  | some {ds : Text} (hne : ds ≠ []) (hds : ds.all Char.isDigit = true) : IsFraction ('.' :: ds)

/-- The exponent of a number, or nothing. -/
inductive IsExponent : Text → Prop where
  | none : IsExponent []
  | some {e : Char} {sign ds : Text} (he : e = 'e' ∨ e = 'E')
      (hsign : sign = [] ∨ sign = ['-'] ∨ sign = ['+']) (hne : ds ≠ [])
      (hds : ds.all Char.isDigit = true) : IsExponent (e :: (sign ++ ds))

theorem afterDigits_append {ds : Text} (hds : ds.all Char.isDigit = true)
    (hr : r.head?.any Char.isDigit = false) : afterDigits (ds ++ r) = r :=
  Text.dropWhile_run hds hr

theorem exists_digits (h : s.head?.any Char.isDigit = true) :
    ∃ ds, ds ≠ [] ∧ ds.all Char.isDigit = true ∧ s = ds ++ afterDigits s := by
  refine ⟨s.takeWhile Char.isDigit, ?_, List.all_takeWhile, List.takeWhile_append_dropWhile.symm⟩
  cases s with
  | nil => cases h
  | cons c s => simp_all

theorem afterDigits_cons (hc : c.isDigit = true) (r : Text) :
    afterDigits (c :: r) = afterDigits r :=
  List.dropWhile_cons_of_pos hc

theorem afterFraction_append (hx : IsFraction x) (hr : r.head?.any Char.isDigit = false)
    (hdot : r.head? ≠ some '.') : afterFraction (x ++ r) = r := by
  cases hx with
  | none =>
    simp only [List.nil_append, afterFraction]
    split
    · exact absurd rfl hdot
    · rfl
  | @some ds hne hds =>
    obtain ⟨d, ds, rfl⟩ := List.exists_cons_of_ne_nil hne
    obtain ⟨hd, hds⟩ := Bool.and_eq_true_iff.mp hds
    simp only [List.cons_append, afterFraction, hd, if_true]
    exact afterDigits_append hds hr

theorem exists_fraction (s : Text) : ∃ x, IsFraction x ∧ s = x ++ afterFraction s := by
  unfold afterFraction
  split
  · rename_i d r
    split
    · rename_i hd
      obtain ⟨ds, hne, hds, heq⟩ := exists_digits (s := d :: r) hd
      rw [afterDigits_cons hd] at heq
      exact ⟨'.' :: ds, .some hne hds, congrArg ('.' :: ·) heq⟩
    · exact ⟨[], .none, rfl⟩
  · exact ⟨[], .none, rfl⟩

def afterSign (s : Text) : Text :=
  match s with
  | sign :: t => if sign = '-' ∨ sign = '+' then t else s
  | [] => []

theorem afterExponent_cons (e : Char) (r : Text) :
    afterExponent (e :: r) =
      if e = 'e' ∨ e = 'E' then
        if (afterSign r).head?.any Char.isDigit then afterDigits (afterSign r) else e :: r
      else e :: r :=
  rfl

theorem exists_sign (s : Text) :
    ∃ sign, s = sign ++ afterSign s ∧ (sign = [] ∨ sign = ['-'] ∨ sign = ['+']) := by
  cases s with
  | nil => exact ⟨[], rfl, .inl rfl⟩
  | cons c t =>
    simp only [afterSign]
    split
    · rename_i hc
      refine ⟨[c], rfl, .inr ?_⟩
      obtain rfl | rfl := hc <;> simp
    · exact ⟨[], rfl, .inl rfl⟩

theorem afterSign_append {sign ds : Text} (hsign : sign = [] ∨ sign = ['-'] ∨ sign = ['+'])
    (hne : ds ≠ []) (hds : ds.all Char.isDigit = true) (r : Text) :
    afterSign (sign ++ (ds ++ r)) = ds ++ r := by
  obtain ⟨d, ds, rfl⟩ := List.exists_cons_of_ne_nil hne
  have hd : ¬(d = '-' ∨ d = '+') := by
    have hd := (Bool.and_eq_true_iff.mp hds).1
    rintro (rfl | rfl) <;> cases hd
  obtain rfl | rfl | rfl := hsign
  · exact if_neg hd
  · rfl
  · rfl

theorem head_append_of_digits {ds : Text} (hne : ds ≠ []) (hds : ds.all Char.isDigit = true)
    (r : Text) : (ds ++ r).head?.any Char.isDigit = true := by
  obtain ⟨d, ds, rfl⟩ := List.exists_cons_of_ne_nil hne
  exact (Bool.and_eq_true_iff.mp hds).1

theorem afterExponent_append (hx : IsExponent x) (hr : r.head?.any Char.isDigit = false)
    (he : r.head? ≠ some 'e') (hE : r.head? ≠ some 'E') : afterExponent (x ++ r) = r := by
  cases hx with
  | none =>
    cases r with
    | nil => rfl
    | cons c r =>
      have hc : ¬(c = 'e' ∨ c = 'E') := by simp_all
      rw [List.nil_append, afterExponent_cons, if_neg hc]
  | @some e sign ds he hsign hne hds =>
    rw [List.cons_append, List.append_assoc, afterExponent_cons, if_pos he,
      afterSign_append hsign hne hds, if_pos (head_append_of_digits hne hds r),
      afterDigits_append hds hr]

theorem exists_exponent (s : Text) : ∃ x, IsExponent x ∧ s = x ++ afterExponent s := by
  have hnone (s : Text) : ∃ x, IsExponent x ∧ s = x ++ s := ⟨[], .none, rfl⟩
  cases s with
  | nil => exact hnone []
  | cons e r =>
    rw [afterExponent_cons]
    split
    · rename_i he
      split
      · rename_i hd
        obtain ⟨sign, hr, hsign⟩ := exists_sign r
        obtain ⟨ds, hne, hds, heq⟩ := exists_digits hd
        refine ⟨e :: (sign ++ ds), .some he hsign hne hds, ?_⟩
        rw [List.cons_append, List.append_assoc, ← heq, ← hr]
      · exact hnone _
    · exact hnone _

def afterRun? : Text → Option Text
  | '0' :: r => some r
  | d :: r => if d.isDigit then some (afterDigits r) else none
  | [] => none

theorem afterWhole?_minus (s : Text) : afterWhole? ('-' :: s) = afterRun? s :=
  rfl

theorem afterWhole?_of_ne (h : s.head? ≠ some '-') : afterWhole? s = afterRun? s := by
  unfold afterWhole?
  split
  · exact absurd rfl h
  · rfl

theorem afterRun?_append (hw : IsWhole w) (hr : r.head?.any Char.isDigit = false) :
    afterRun? (w ++ r) = some r := by
  obtain ⟨hne, hds, hzero⟩ := hw
  obtain ⟨d, ds, rfl⟩ := List.exists_cons_of_ne_nil hne
  obtain ⟨hd, hmore⟩ := Bool.and_eq_true_iff.mp hds
  rw [List.cons_append]
  unfold afterRun?
  split
  · rename_i heq
    obtain ⟨rfl, rfl⟩ := List.cons.inj heq
    cases hzero rfl
    rfl
  · rename_i heq
    obtain ⟨rfl, rfl⟩ := List.cons.inj heq
    rw [if_pos hd, afterDigits_append hmore hr]
  · rename_i heq
    cases heq

theorem exists_whole (h : afterRun? s = some r) : ∃ w, IsWhole w ∧ s = w ++ r ∧
    (w = ['0'] ∨ r.head?.any Char.isDigit = false) := by
  unfold afterRun? at h
  split at h
  · cases h
    exact ⟨['0'], ⟨by simp, rfl, fun _ => rfl⟩, rfl, .inl rfl⟩
  · rename_i d t hd0
    split at h
    · rename_i hd
      cases h
      obtain ⟨ds, hne, hds, heq⟩ := exists_digits (s := d :: t) hd
      rw [afterDigits_cons hd] at heq
      refine ⟨ds, ⟨hne, hds, fun hhead => ?_⟩, heq, .inr (Text.head_dropWhile ..)⟩
      cases ds with
      | nil => cases hhead
      | cons c ds =>
        cases hhead
        exact absurd (List.cons.inj heq).1 hd0
    · cases h
  · cases h

theorem IsWhole.head?_ne (h : IsWhole w) (hc : c.isDigit = false) (r : Text) :
    (w ++ r).head? ≠ some c := by
  obtain ⟨d, ds, rfl⟩ := List.exists_cons_of_ne_nil h.ne_nil
  rintro ⟨⟩
  have hd := (Bool.and_eq_true_iff.mp h.digits).1
  rw [hc] at hd
  cases hd

theorem IsInteger.ne_nil (h : IsInteger w) : w ≠ [] := by
  cases h with
  | positive h => exact h.ne_nil
  | negative => exact List.cons_ne_nil _ _

theorem afterWhole?_append (hw : IsInteger w) (hr : r.head?.any Char.isDigit = false) :
    afterWhole? (w ++ r) = some r := by
  cases hw with
  | positive h => rw [afterWhole?_of_ne (h.head?_ne rfl r), afterRun?_append h hr]
  | negative h => rw [List.cons_append, afterWhole?_minus, afterRun?_append h hr]

theorem exists_integer (h : afterWhole? s = some r) : ∃ w, IsInteger w ∧ s = w ++ r ∧
    (w.countP Char.isDigit ≤ 1 ∨ r.head?.any Char.isDigit = false) := by
  by_cases hs : s.head? = some '-'
  · obtain ⟨t, rfl⟩ := List.head?_eq_some_iff.mp hs
    rw [afterWhole?_minus] at h
    obtain ⟨ds, hds, rfl, hend⟩ := exists_whole h
    refine ⟨'-' :: ds, .negative hds, rfl, hend.imp_left ?_⟩
    rintro rfl
    decide
  · obtain ⟨ds, hds, rfl, hend⟩ := exists_whole (afterWhole?_of_ne hs ▸ h)
    refine ⟨ds, .positive hds, rfl, hend.imp_left ?_⟩
    rintro rfl
    decide

-- ---------------------------------------------------------------------------
-- Numbers
-- ---------------------------------------------------------------------------

/-- Nothing at the head of a text goes on with an integer. -/
structure EndsInteger (r : Text) : Prop where
  digit : r.head?.any Char.isDigit = false
  fraction : ∀ x, IsFraction x → x <+: r → x = []
  exponent : ∀ x, IsExponent x → x <+: r → x = []

theorem length_afterDigits_le (s : Text) : (afterDigits s).length ≤ s.length :=
  (List.dropWhile_suffix _).length_le

theorem length_afterFraction_lt (hx : IsFraction x) (hne : x ≠ []) (h : x <+: s) :
    (afterFraction s).length < s.length := by
  obtain ⟨t, rfl⟩ := h
  cases hx with
  | none => exact absurd rfl hne
  | @some ds hds hdigits =>
    obtain ⟨d, ds, rfl⟩ := List.exists_cons_of_ne_nil hds
    have hd := (Bool.and_eq_true_iff.mp hdigits).1
    have hle := length_afterDigits_le (ds ++ t)
    simp only [List.cons_append, afterFraction, hd, if_true, List.length_cons]
    omega

theorem length_afterExponent_lt (hx : IsExponent x) (hne : x ≠ []) (h : x <+: s) :
    (afterExponent s).length < s.length := by
  obtain ⟨t, rfl⟩ := h
  cases hx with
  | none => exact absurd rfl hne
  | @some e sign ds he hsign hds hdigits =>
    have hle := length_afterDigits_le (ds ++ t)
    rw [List.cons_append, List.append_assoc, afterExponent_cons, if_pos he,
      afterSign_append hsign hds hdigits, if_pos (head_append_of_digits hds hdigits t)]
    simp only [List.length_cons, List.length_append] at hle ⊢
    omega

theorem endsInteger_iff : EndsInteger r ↔ r.head?.any Char.isDigit = false ∧
    (afterExponent (afterFraction r)).length = r.length := by
  obtain ⟨x, hx, hfraction⟩ := exists_fraction r
  obtain ⟨y, hy, hexponent⟩ := exists_exponent (afterFraction r)
  have hlengths := congrArg List.length hfraction
  have hlengths' := congrArg List.length hexponent
  rw [List.length_append] at hlengths hlengths'
  constructor
  · rintro ⟨hdigit, hnofraction, hnoexponent⟩
    refine ⟨hdigit, ?_⟩
    cases hnofraction x hx ⟨_, hfraction.symm⟩
    rw [List.nil_append] at hfraction
    rw [← hfraction] at hexponent hlengths' ⊢
    cases hnoexponent y hy ⟨_, hexponent.symm⟩
    exact congrArg List.length hexponent.symm
  · rintro ⟨hdigit, hlength⟩
    have hr : afterFraction r = r := by
      have hx : x = [] := List.length_eq_zero_iff.mp (by omega)
      rw [hx] at hfraction
      exact hfraction.symm
    -- A fraction or an exponent at the head would be read, and less would be left.
    refine ⟨hdigit, fun z hz hpre => ?_, fun z hz hpre => ?_⟩
    · refine Decidable.byContradiction fun hne => ?_
      have := length_afterFraction_lt hz hne hpre
      omega
    · refine Decidable.byContradiction fun hne => ?_
      have := length_afterExponent_lt hz hne hpre
      rw [hr] at hlength
      omega

theorem readNumber_of_whole (h : afterWhole? (w ++ r) = some r) :
    readNumber (w ++ r) =
      if (afterExponent (afterFraction r)).length = r.length ∧ maxDigits < w.countP Char.isDigit
      then .error (.oversized (w.countP Char.isDigit))
      else .ok (.number ((w ++ r).upTo (afterExponent (afterFraction r))),
        afterExponent (afterFraction r)) := by
  simp only [readNumber, h, Text.upTo_append]

theorem readNumber_cases (s : Text) : readNumber s = .error (.malformed .expectedValue s) ∨
    ∃ w t, s = w ++ t ∧ IsInteger w ∧ afterWhole? (w ++ t) = some t ∧
      (w.countP Char.isDigit ≤ 1 ∨ t.head?.any Char.isDigit = false) := by
  cases hwhole : afterWhole? s with
  | none =>
    left
    simp only [readNumber, hwhole]
  | some t =>
    obtain ⟨w, hw, rfl, hend⟩ := exists_integer hwhole
    exact .inr ⟨w, t, rfl, hw, hwhole, hend⟩

theorem readNumber_eq_oversized_iff : readNumber s = .error (.oversized n) ↔
    ∃ w r, s = w ++ r ∧ IsInteger w ∧ EndsInteger r ∧ w.countP Char.isDigit = n ∧
      maxDigits < n := by
  constructor
  · intro h
    obtain hnone | ⟨w, r, rfl, hw, hwhole, hend⟩ := readNumber_cases s
    · rw [hnone] at h
      cases h
    · rw [readNumber_of_whole hwhole] at h
      split at h
      · rename_i hlong
        cases h
        -- A digit could follow only a zero, which is not too long.
        refine ⟨w, r, rfl, hw, endsInteger_iff.mpr ⟨?_, hlong.1⟩, rfl, hlong.2⟩
        exact hend.resolve_left fun hle => absurd hlong.2 (by unfold maxDigits; omega)
      · cases h
  · rintro ⟨w, r, rfl, hw, hr, rfl, hlong⟩
    obtain ⟨hdigit, hstop⟩ := endsInteger_iff.mp hr
    rw [readNumber_of_whole (afterWhole?_append hw hdigit), if_pos ⟨hstop, hlong⟩]

def isDelimiter (c : Char) : Bool :=
  isSpace c || c == ',' || c == ']' || c == '\x7d'

def EndsValue (r : Text) : Prop :=
  r.head?.any isDelimiter = true

theorem EndsValue.head_ne (h : EndsValue r) (hc : isDelimiter c = false) : r.head? ≠ some c := by
  intro hhead
  rw [EndsValue, hhead, Option.any_some, hc] at h
  cases h

theorem EndsValue.no_digit (h : EndsValue r) : r.head?.any Char.isDigit = false := by
  cases r with
  | nil => rfl
  | cons c r =>
    simp only [EndsValue, List.head?_cons, Option.any_some, isDelimiter, isSpace, Bool.or_eq_true,
      beq_iff_eq, or_assoc] at h
    obtain rfl | rfl | rfl | rfl | rfl | rfl | rfl := h <;> rfl

theorem no_digit_of_exponent (hx : IsExponent x) (hr : r.head?.any Char.isDigit = false) :
    (x ++ r).head?.any Char.isDigit = false := by
  cases hx with
  | none => exact hr
  | some he => obtain rfl | rfl := he <;> rfl

theorem no_digit_of_fraction (hx : IsFraction x) (hr : r.head?.any Char.isDigit = false) :
    (x ++ r).head?.any Char.isDigit = false := by
  cases hx with
  | none => exact hr
  | some => rfl

theorem readNumber_append (hw : IsInteger w) (hx : IsFraction x) (hy : IsExponent y)
    (hr : EndsValue r) :
    readNumber (w ++ (x ++ (y ++ r))) =
      if (x = [] ∧ y = []) ∧ maxDigits < w.countP Char.isDigit
      then .error (.oversized (w.countP Char.isDigit))
      else .ok (.number (w ++ (x ++ y)), r) := by
  have hdigit := no_digit_of_exponent hy hr.no_digit
  have hdot : (y ++ r).head? ≠ some '.' := by
    cases hy with
    | none => exact hr.head_ne rfl
    | some he => obtain rfl | rfl := he <;> simp
  have hstop : afterExponent (afterFraction (x ++ (y ++ r))) = r := by
    rw [afterFraction_append hx hdigit hdot,
      afterExponent_append hy hr.no_digit (hr.head_ne rfl) (hr.head_ne rfl)]
  have hlength : r.length = (x ++ (y ++ r)).length ↔ x = [] ∧ y = [] := by
    simp only [List.length_append, ← List.length_eq_zero_iff]
    omega
  have happend : w ++ (x ++ (y ++ r)) = w ++ (x ++ y) ++ r := by simp
  rw [readNumber_of_whole (afterWhole?_append hw (no_digit_of_fraction hx hdigit)), hstop]
  simp only [hlength]
  rw [happend, Text.upTo_append]

theorem exists_number (h : readNumber s = .ok (v, r)) (hr : EndsValue r) :
    ∃ w x y, IsInteger w ∧ s = w ++ (x ++ (y ++ r)) ∧
      ∀ r', EndsValue r' → readNumber (w ++ (x ++ (y ++ r'))) = .ok (v, r') := by
  obtain hnone | ⟨w, t, rfl, hw, hwhole, -⟩ := readNumber_cases s
  · rw [hnone] at h
    cases h
  · obtain ⟨x, hx, hfraction⟩ := exists_fraction t
    obtain ⟨y, hy, hexponent⟩ := exists_exponent (afterFraction t)
    have hstop : afterExponent (afterFraction t) = r := by
      rw [readNumber_of_whole hwhole] at h
      split at h
      · cases h
      · cases h
        rfl
    rw [hexponent, hstop] at hfraction
    subst hfraction
    refine ⟨w, x, y, hw, rfl, fun r' hr' => ?_⟩
    rw [readNumber_append hw hx hy hr] at h
    rw [readNumber_append hw hx hy hr']
    split at h
    · cases h
    · rename_i hshort
      cases h
      rw [if_neg hshort]

-- ---------------------------------------------------------------------------
-- Plain values
-- ---------------------------------------------------------------------------

theorem readPlain_word (h : (w, v) ∈ words) (r : Text) :
    readPlain (w ++ r) = .ok (v, r) := by
  simp only [words, List.mem_cons, List.not_mem_nil, or_false, Prod.mk.injEq] at h
  obtain ⟨rfl, rfl⟩ | ⟨rfl, rfl⟩ | ⟨rfl, rfl⟩ | ⟨rfl, rfl⟩ | ⟨rfl, rfl⟩ | ⟨rfl, rfl⟩ := h <;> rfl

def beginsNumber : Text → Bool
  | '-' :: c :: _ => c.isDigit
  | c :: _ => c.isDigit
  | [] => false

theorem beginsNumber_of_ne (hc : c ≠ '-') (r : Text) : beginsNumber (c :: r) = c.isDigit := by
  simp [beginsNumber, hc]

theorem beginsNumber_word (h : (w, v) ∈ words) (r : Text) :
    beginsNumber (w ++ r) = false := by
  simp only [words, List.mem_cons, List.not_mem_nil, or_false, Prod.mk.injEq] at h
  obtain ⟨rfl, rfl⟩ | ⟨rfl, rfl⟩ | ⟨rfl, rfl⟩ | ⟨rfl, rfl⟩ | ⟨rfl, rfl⟩ | ⟨rfl, rfl⟩ := h <;> rfl

theorem beginsNumber_integer (hw : IsInteger w) (r : Text) : beginsNumber (w ++ r) = true := by
  cases hw with
  | positive h =>
    obtain ⟨c, ds, rfl⟩ := List.exists_cons_of_ne_nil h.ne_nil
    have hc : c.isDigit = true := (Bool.and_eq_true_iff.mp h.digits).1
    have hminus : c ≠ '-' := by
      rintro rfl
      cases hc
    rw [List.cons_append, beginsNumber_of_ne hminus, hc]
  | negative h =>
    obtain ⟨c, ds, rfl⟩ := List.exists_cons_of_ne_nil h.ne_nil
    exact (Bool.and_eq_true_iff.mp h.digits).1

theorem readPlain_integer (hw : IsInteger w) (r : Text) :
    readPlain (w ++ r) = readNumber (w ++ r) := by
  have hnone : words.find? (·.1.isPrefixOf (w ++ r)) = none := by
    refine List.find?_eq_none.mpr fun word hword hpre => ?_
    obtain ⟨t, ht⟩ := List.isPrefixOf_iff_prefix.mp hpre
    have hinteger := beginsNumber_integer hw r
    rw [← ht, beginsNumber_word hword] at hinteger
    cases hinteger
  simp only [readPlain, hnone]

theorem exists_plain (h : readPlain s = .ok (v, r)) (hr : EndsValue r) :
    ∃ w, s = w ++ r ∧ ∀ r', EndsValue r' → readPlain (w ++ r') = .ok (v, r') := by
  unfold readPlain at h
  split at h
  · rename_i w v hfind
    cases h
    have hmem := List.mem_of_find?_eq_some hfind
    have hpre : w.isPrefixOf s := by simpa using List.find?_some hfind
    obtain ⟨t, rfl⟩ := List.isPrefixOf_iff_prefix.mp hpre
    refine ⟨w, by rw [List.drop_left], fun r' _ => readPlain_word hmem r'⟩
  · obtain ⟨w, x, y, hw, rfl, hread⟩ := exists_number h hr
    refine ⟨w ++ (x ++ y), by simp, fun r' hr' => ?_⟩
    have happend : w ++ (x ++ y) ++ r' = w ++ (x ++ (y ++ r')) := by simp
    rw [happend, readPlain_integer hw, hread r' hr']

theorem length_lt_of_readPlain (h : readPlain s = .ok (v, r)) : r.length < s.length := by
  unfold readPlain at h
  split at h
  · rename_i w v hfind
    cases h
    have hmem := List.mem_of_find?_eq_some hfind
    have hpre : w.isPrefixOf s := by simpa using List.find?_some hfind
    obtain ⟨t, rfl⟩ := List.isPrefixOf_iff_prefix.mp hpre
    have hne : w ≠ [] := by
      rintro rfl
      cases readPlain_word hmem []
    have hlength := List.length_pos_iff.mpr hne
    rw [List.drop_left, List.length_append]
    omega
  · obtain hnone | ⟨w, t, rfl, hw, hwhole, -⟩ := readNumber_cases s
    · rw [hnone] at h
      cases h
    · rw [readNumber_of_whole hwhole] at h
      split at h
      · cases h
      · cases h
        obtain ⟨x, -, hfraction⟩ := exists_fraction t
        obtain ⟨y, -, hexponent⟩ := exists_exponent (afterFraction t)
        have hlength := List.length_pos_iff.mpr hw.ne_nil
        have hlength' := congrArg List.length hfraction
        have hlength'' := congrArg List.length hexponent
        simp only [List.length_append] at hlength' hlength'' ⊢
        omega

end Monomorph.Json
