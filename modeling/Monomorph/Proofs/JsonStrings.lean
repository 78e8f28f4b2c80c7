import Monomorph.Json

/-!
# What spells a JSON string

The reader of strings does not look behind the closing quote, so what it takes for a string is one
before every text (`exists_spellsString`). An escape that might be half of a pair looks ahead, but
within the string.
-/

namespace Monomorph.Json

variable {c : Char} {start r s t u w x : Text} {ls : List Letter} {n : Nat} {e : Error}

-- ---------------------------------------------------------------------------
-- One step of the reader
-- ---------------------------------------------------------------------------

def takeString (start s : Text) : Except Error (List Letter × Text) :=
  (readString start s).map fun p => (p.1, p.2.1)

theorem readString_of_takeString (h : takeString start s = .ok (ls, r)) :
    ∃ hr, readString start s = .ok (ls, ⟨r, hr⟩) := by
  unfold takeString at h
  cases hread : readString start s with
  | error e =>
    rw [hread] at h
    cases h
  | ok p =>
    rw [hread] at h
    cases h
    exact ⟨p.2.2, rfl⟩

theorem takeString_eq_error_iff :
    takeString start s = .error e ↔ readString start s = .error e := by
  unfold takeString
  cases readString start s <;> simp [Except.map]

theorem takeString_nil (start : Text) :
    takeString start [] = .error (.malformed .unterminated start) := by
  rw [takeString, readString_nil]
  rfl

theorem takeString_backslash (start : Text) :
    takeString start ['\\'] = .error (.malformed .unterminated start) := by
  unfold takeString
  rw [readString]
  rfl

theorem takeString_quote (start r : Text) : takeString start ('"' :: r) = .ok ([], r) := by
  unfold takeString
  rw [readString]
  rfl

theorem takeString_unit {l : Letter} (h : readUnit ('u' :: r) r = .ok (l, n)) :
    takeString start ('\\' :: 'u' :: r) =
      (takeString start (r.drop n)).map fun p => (l :: p.1, p.2) := by
  unfold takeString
  rw [readString, h]
  simp only
  cases readString start (r.drop n) <;> rfl

theorem takeString_escape {d : Char} (hc : c ≠ 'u') (h : escape? c = some d) :
    takeString start ('\\' :: c :: r) =
      (takeString start r).map fun p => (.char d :: p.1, p.2) := by
  unfold takeString
  rw [readString, h]
  simp only
  · cases readString start r <;> rfl
  · exact hc

theorem takeString_char (hquote : c ≠ '"') (hslash : c ≠ '\\') (hc : ¬c.toNat < 0x20) :
    takeString start (c :: r) = (takeString start r).map fun p => (.char c :: p.1, p.2) := by
  unfold takeString
  rw [readString, if_neg hc]
  · cases readString start r <;> rfl
  all_goals simp_all

-- ---------------------------------------------------------------------------
-- Escapes of code units
-- ---------------------------------------------------------------------------

/-- The text `w` is a string from behind its opening quote through the closing one. -/
def SpellsString (w : Text) (ls : List Letter) : Prop :=
  ∀ start r, takeString start (w ++ r) = .ok (ls, r)

theorem unit?_append (hx : x.length = 4) (r : Text) : unit? (x ++ r) = unit? x := by
  match x, hx with
  | [_, _, _, _], _ => rfl

theorem readUnit_eq_ok {place : Text} {l : Letter} (h : readUnit place s = .ok (l, n)) :
    5 ≤ s.length ∧ ∃ high, unit? s = some high := by
  unfold readUnit at h
  split at h
  · cases h
  · rename_i hlength
    refine ⟨by omega, ?_⟩
    split at h
    · cases h
    · rename_i high hhigh
      exact ⟨high, hhigh⟩

theorem exists_readUnit (h : takeString start ('\\' :: 'u' :: t) = .ok (ls, r)) :
    ∃ l n, readUnit ('u' :: t) t = .ok (l, n) := by
  cases hunit : readUnit ('u' :: t) t with
  | ok p => exact ⟨p.1, p.2, rfl⟩
  | error e =>
    unfold takeString at h
    rw [readString, hunit] at h
    cases h

theorem SpellsString.ne_nil (h : SpellsString w ls) : w ≠ [] := by
  rintro rfl
  have hread := h [] []
  rw [List.append_nil, takeString_nil] at hread
  cases hread

theorem SpellsString.ahead (h : SpellsString w ls) : (∀ r t, w ++ r ≠ '\\' :: 'u' :: t) ∨
    ∃ t low, w = '\\' :: 'u' :: t ∧ 5 ≤ t.length ∧ ∀ r, unit? (t ++ r) = some low := by
  have hread := h [] []
  rw [List.append_nil] at hread
  cases w with
  | nil => exact absurd rfl h.ne_nil
  | cons c w =>
    by_cases hc : c = '\\'
    · subst hc
      cases w with
      | nil =>
        rw [takeString_backslash] at hread
        cases hread
      | cons d t =>
        by_cases hd : d = 'u'
        · subst hd
          obtain ⟨l, n, hunit⟩ := exists_readUnit hread
          obtain ⟨hlength, low, hlow⟩ := readUnit_eq_ok hunit
          have hsplit : t.take 4 ++ t.drop 4 = t := List.take_append_drop ..
          have hfour : (t.take 4).length = 4 := List.length_take_of_le (by omega)
          rw [← hsplit, unit?_append hfour] at hlow
          refine .inr ⟨t, low, rfl, hlength, fun r => ?_⟩
          rw [← hsplit, List.append_assoc, unit?_append hfour, hlow]
        · exact .inl fun r t h => hd (List.cons.inj (List.cons.inj h).2).1
    · exact .inl fun r t h => hc (List.cons.inj h).1

/-- The letter of a code unit and the length of its spelling, when `rest` follows: that may begin with
the other half of a pair. -/
def unitBefore (high : Nat) (rest : Text) : Except Error (Letter × Nat) :=
  match rest with
  | '\\' :: 'u' :: t =>
    if isHighSurrogate high && 5 ≤ t.length then
      match unit? t with
      | none => .error (.malformed .badUnicodeEscape ('u' :: t))
      | some low =>
        if isLowSurrogate low then
          .ok (.char (Char.ofNat (0x10000 + (high - 0xD800) * 0x400 + (low - 0xDC00))), 10)
        else .ok (unitLetter high, 4)
    else .ok (unitLetter high, 4)
  | _ => .ok (unitLetter high, 4)

theorem readUnit_append {high : Nat} (hx : x.length = 4) (hhigh : unit? x = some high) (hr : r ≠ [])
    (place : Text) : readUnit place (x ++ r) = unitBefore high r := by
  have hlength := List.length_pos_iff.mpr hr
  have hdrop : (x ++ r).drop 4 = r := List.drop_left' hx
  unfold readUnit
  rw [if_neg (by rw [List.length_append]; omega), unit?_append hx, hhigh, hdrop]
  rfl

theorem unitBefore_of_ne (high : Nat) (h : ∀ t, r ≠ '\\' :: 'u' :: t) :
    unitBefore high r = .ok (unitLetter high, 4) := by
  unfold unitBefore
  split
  · rename_i t
    exact absurd rfl (h t)
  · rfl

theorem unitBefore_escape (high : Nat) {low : Nat} (ht : 5 ≤ t.length) (hlow : unit? t = some low) :
    unitBefore high ('\\' :: 'u' :: t) =
      if isHighSurrogate high && isLowSurrogate low then
        .ok (.char (Char.ofNat (0x10000 + (high - 0xD800) * 0x400 + (low - 0xDC00))), 10)
      else .ok (unitLetter high, 4) := by
  simp only [unitBefore, ht, hlow, decide_true, Bool.and_true]
  cases isHighSurrogate high <;> rfl

theorem unitBefore_alone {high : Nat} {l : Letter} (hw : SpellsString w ls)
    (h : unitBefore high (w ++ u) = .ok (l, 4)) (r : Text) :
    unitBefore high (w ++ r) = .ok (l, 4) := by
  obtain hno | ⟨t, low, rfl, ht, hlow⟩ := hw.ahead
  · rw [unitBefore_of_ne high (hno u)] at h
    rw [unitBefore_of_ne high (hno r), h]
  · have hlong (r : Text) : 5 ≤ (t ++ r).length := by
      rw [List.length_append]
      omega
    simp only [List.cons_append, unitBefore_escape high (hlong _) (hlow _)] at h ⊢
    exact h

theorem unitBefore_pair {high : Nat} {l : Letter} (h : unitBefore high r = .ok (l, n)) (hn : n ≠ 4) :
    n = 10 ∧ ∃ z t, r = '\\' :: 'u' :: (z ++ t) ∧ z.length = 4 ∧
      ∀ t', t' ≠ [] → unitBefore high ('\\' :: 'u' :: (z ++ t')) = .ok (l, 10) := by
  by_cases hescape : ∃ t, r = '\\' :: 'u' :: t
  · obtain ⟨t, rfl⟩ := hescape
    have hpair : 5 ≤ t.length ∧ ∃ low, unit? t = some low := by
      simp only [unitBefore] at h
      split at h
      · rename_i hlong
        simp only [Bool.and_eq_true, decide_eq_true_eq] at hlong
        split at h
        · cases h
        · rename_i low hlow
          exact ⟨hlong.2, low, hlow⟩
      · cases h
        exact absurd rfl hn
    obtain ⟨ht, low, hlow⟩ := hpair
    have hz : (t.take 4).length = 4 := List.length_take_of_le (by omega)
    have hsplit : t.take 4 ++ t.drop 4 = t := List.take_append_drop ..
    rw [unitBefore_escape high ht hlow] at h
    split at h
    · rename_i hhalves
      cases h
      refine ⟨rfl, t.take 4, t.drop 4, by rw [hsplit], hz, fun t' ht' => ?_⟩
      rw [← hsplit, unit?_append hz] at hlow
      have hlong : 5 ≤ (t.take 4 ++ t').length := by
        rw [List.length_append, hz]
        exact Nat.add_le_add_left (List.length_pos_iff.mpr ht') 4
      rw [unitBefore_escape high hlong ((unit?_append hz t').trans hlow), if_pos hhalves]
    · cases h
      exact absurd rfl hn
  · rw [unitBefore_of_ne high (not_exists.mp hescape)] at h
    cases h
    exact absurd rfl hn

theorem readUnit_spells {place : Text} {l : Letter} (h : readUnit place s = .ok (l, n))
    (hw : SpellsString w ls) (hs : s.drop n = w ++ u) :
    (s.take n).length = n ∧ ∀ place' r, readUnit place' (s.take n ++ (w ++ r)) = .ok (l, n) := by
  obtain ⟨hlength, high, hhigh⟩ := readUnit_eq_ok h
  obtain ⟨x, y, hx, hy, rfl⟩ : ∃ x y, x.length = 4 ∧ y ≠ [] ∧ s = x ++ y :=
    ⟨s.take 4, s.drop 4, List.length_take_of_le (by omega),
      List.length_pos_iff.mp (by rw [List.length_drop]; omega), (List.take_append_drop 4 s).symm⟩
  have hwr (r : Text) : w ++ r ≠ [] := List.append_ne_nil_of_left_ne_nil hw.ne_nil r
  rw [unit?_append hx] at hhigh
  rw [readUnit_append hx hhigh hy] at h
  -- Four digits for a unit that stands alone, ten characters for both halves of a pair.
  by_cases hn : n = 4
  · subst hn
    rw [List.drop_left' hx] at hs
    rw [List.take_left' hx]
    refine ⟨hx, fun place' r => ?_⟩
    rw [readUnit_append hx hhigh (hwr r), unitBefore_alone hw (hs ▸ h) r]
  · obtain ⟨rfl, z, t, rfl, hz, hpair⟩ := unitBefore_pair h hn
    have hfront : (x ++ '\\' :: 'u' :: z).length = 10 := by simp [hx, hz]
    have happend (t : Text) : x ++ '\\' :: 'u' :: (z ++ t) = x ++ '\\' :: 'u' :: z ++ t := by simp
    rw [happend, List.drop_left' hfront] at hs
    rw [happend, List.take_left' hfront]
    refine ⟨hfront, fun place' r => ?_⟩
    rw [← happend, readUnit_append hx hhigh (by simp), hpair _ (hwr r)]

-- ---------------------------------------------------------------------------
-- Strings
-- ---------------------------------------------------------------------------

theorem SpellsString.cons {l : Letter} (hw : SpellsString w ls)
    (hx : ∀ start r, takeString start (x ++ (w ++ r)) =
      (takeString start (w ++ r)).map fun p => (l :: p.1, p.2)) :
    SpellsString (x ++ w) (l :: ls) := by
  intro start r
  rw [List.append_assoc, hx, hw]
  rfl

theorem exists_spellsString (h : takeString start s = .ok (ls, r)) :
    ∃ w, s = w ++ r ∧ SpellsString w ls := by
  unfold takeString at h
  fun_induction readString start s generalizing ls r with
  | case2 t =>
    cases h
    exact ⟨['"'], rfl, fun start r => takeString_quote start r⟩
  | case6 t l n hunit ls u hread ih =>
    cases h
    obtain ⟨w, hw, hspells⟩ := ih (congrArg _ hread)
    obtain ⟨hlength, hunits⟩ := readUnit_spells hunit hspells hw
    refine ⟨'\\' :: 'u' :: t.take n ++ w, ?_, hspells.cons fun start r => ?_⟩
    · rw [List.append_assoc, ← hw, List.cons_append, List.cons_append, List.take_append_drop]
    · rw [List.cons_append, List.cons_append, takeString_unit (hunits _ r),
        List.drop_left' hlength]
  | case9 c t hc d hd ls u hread ih =>
    cases h
    obtain ⟨w, hw, hspells⟩ := ih (congrArg _ hread)
    refine ⟨['\\', c] ++ w, ?_, hspells.cons fun start r => takeString_escape hc hd⟩
    exact congrArg ('\\' :: c :: ·) hw
  | case12 c t hquote hend _ hmore hc ls u hread ih =>
    cases h
    obtain ⟨w, hw, hspells⟩ := ih (congrArg _ hread)
    have hslash : c ≠ '\\' := by
      intro hc
      cases t with
      | nil => exact hend hc rfl
      | cons d t => exact hmore d t hc rfl
    refine ⟨[c] ++ w, ?_, hspells.cons fun start r => takeString_char hquote hslash hc⟩
    exact congrArg (c :: ·) hw
  | _ => cases h

end Monomorph.Json
