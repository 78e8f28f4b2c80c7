import Monomorph.Text.Utf8
import Mathlib.Tactic.SplitIfs

/-!
# Octets and texts

Decoding is the inverse of encoding: octets are decoded exactly when they encode a text, and then to
that text (`decode_eq_ok_iff`).
-/

namespace Monomorph.Utf8

variable {a b : UInt8} {n pos : Nat} {r x : Bytes} {t : Text}

-- ---------------------------------------------------------------------------
-- Octets as numbers
-- ---------------------------------------------------------------------------

theorem isTail_iff : isTail b = true ↔ 0x80 ≤ b.toNat ∧ b.toNat < 0xC0 := by
  simp [isTail, UInt8.le_iff_toNat_le, UInt8.lt_iff_toNat_lt]

theorem follows_iff : follows a b = true ↔ (0x80 ≤ b.toNat ∧ b.toNat < 0xC0) ∧
    (a.toNat = 0xE0 → 0xA0 ≤ b.toNat) ∧ (a.toNat = 0xED → b.toNat < 0xA0) ∧
    (a.toNat = 0xF0 → 0x90 ≤ b.toNat) ∧ (a.toNat = 0xF4 → b.toNat < 0x90) := by
  have hlead (k : UInt8) : a = k ↔ a.toNat = k.toNat := UInt8.toNat_inj.symm
  simp only [follows, Bool.and_eq_true, isTail_iff, hlead]
  split_ifs <;> simp_all [UInt8.le_iff_toNat_le, UInt8.lt_iff_toNat_lt]

theorem toNat_ofNat (h : n.isValidChar) : (Char.ofNat n).val.toNat = n := by
  rw [Char.ofNat, dif_pos h]
  rfl

-- ---------------------------------------------------------------------------
-- One character
-- ---------------------------------------------------------------------------

/-- The octets of a character in each of the four lengths, with the number that they stand for. -/
inductive Octets : Nat → Bytes → Prop where
  | one {a : UInt8} (ha : a.toNat < 0x80) : Octets a.toNat [a]
  | two {a b : UInt8} (ha : 0xC2 ≤ a.toNat) (ha' : a.toNat < 0xE0) (hb : follows a b = true) :
      Octets (a.toNat % 32 * 64 + b.toNat % 64) [a, b]
  | three {a b c : UInt8} (ha : 0xE0 ≤ a.toNat) (ha' : a.toNat < 0xF0) (hb : follows a b = true)
      (hc : isTail c = true) :
      Octets ((a.toNat % 16 * 64 + b.toNat % 64) * 64 + c.toNat % 64) [a, b, c]
  | four {a b c d : UInt8} (ha : 0xF0 ≤ a.toNat) (ha' : a.toNat < 0xF5) (hb : follows a b = true)
      (hc : isTail c = true) (hd : isTail d = true) :
      Octets (((a.toNat % 8 * 64 + b.toNat % 64) * 64 + c.toNat % 64) * 64 + d.toNat % 64)
        [a, b, c, d]

theorem ofNat_eq_iff {k : Nat} : UInt8.ofNat k = a ↔ k % 256 = a.toNat := by
  rw [← UInt8.toNat_inj, UInt8.toNat_ofNat']

theorem Octets.isValidChar (h : Octets n x) : n.isValidChar := by
  unfold Nat.isValidChar
  cases h with
  | one | two => omega
  | three ha ha' hb hc | four ha ha' hb hc =>
    rw [follows_iff] at hb
    omega

theorem Octets.eq_encode (h : Octets n x) : String.utf8EncodeChar (Char.ofNat n) = x := by
  have hval := toNat_ofNat h.isValidChar
  simp only [String.utf8EncodeChar, hval]
  cases h with
  | one ha =>
    rw [if_pos (by omega)]
    simp
  | two ha ha' hb =>
    rw [follows_iff] at hb
    rw [if_neg (by omega), if_pos (by omega)]
    simp only [List.cons.injEq, ofNat_eq_iff, and_true]
    omega
  | three ha ha' hb hc =>
    rw [follows_iff] at hb
    rw [isTail_iff] at hc
    rw [if_neg (by omega), if_neg (by omega), if_pos (by omega)]
    simp only [List.cons.injEq, ofNat_eq_iff, and_true]
    omega
  | four ha ha' hb hc hd =>
    rw [follows_iff] at hb
    rw [isTail_iff] at hc hd
    rw [if_neg (by omega), if_neg (by omega), if_neg (by omega)]
    simp only [List.cons.injEq, ofNat_eq_iff, and_true]
    omega

theorem exists_octets (c : Char) : ∃ x, Octets c.val.toNat x := by
  have hvalid : c.val.toNat.isValidChar := c.valid
  unfold Nat.isValidChar at hvalid
  generalize c.val.toNat = n at hvalid
  have octet (k : Nat) (hk : k < 256) : ∃ a : UInt8, a.toNat = k :=
    ⟨UInt8.ofNat k, by rw [UInt8.toNat_ofNat', Nat.mod_eq_of_lt hk]⟩
  -- the lowest six bits make up the last octet, unless it is the only one
  obtain ⟨z, hz⟩ := octet (n % 64 + 128) (by omega)
  obtain ⟨y, hy⟩ := octet (n / 64 % 64 + 128) (by omega)
  obtain h | h | h | h : n < 0x80 ∨ 0x80 ≤ n ∧ n < 0x800 ∨ 0x800 ≤ n ∧ n < 0x10000 ∨ 0x10000 ≤ n := by
    omega
  · obtain ⟨a, ha⟩ := octet n (by omega)
    exact ⟨[a], ha ▸ .one (by omega)⟩
  · obtain ⟨a, ha⟩ := octet (n / 64 + 192) (by omega)
    have hn : n = a.toNat % 32 * 64 + z.toNat % 64 := by omega
    refine ⟨[a, z], hn ▸ .two (by omega) (by omega) (follows_iff.mpr ?_)⟩
    omega
  · obtain ⟨a, ha⟩ := octet (n / 4096 + 224) (by omega)
    have hn : n = (a.toNat % 16 * 64 + y.toNat % 64) * 64 + z.toNat % 64 := by omega
    refine ⟨[a, y, z], hn ▸ .three (by omega) (by omega) (follows_iff.mpr ?_) (isTail_iff.mpr ?_)⟩
    all_goals omega
  · obtain ⟨a, ha⟩ := octet (n / 262144 + 240) (by omega)
    obtain ⟨b, hb⟩ := octet (n / 4096 % 64 + 128) (by omega)
    have hn : n = ((a.toNat % 8 * 64 + b.toNat % 64) * 64 + y.toNat % 64) * 64 + z.toNat % 64 := by
      omega
    refine ⟨[a, b, y, z], hn ▸ .four (by omega) (by omega) (follows_iff.mpr ?_) (isTail_iff.mpr ?_)
      (isTail_iff.mpr ?_)⟩
    all_goals omega

theorem ofNat_val (c : Char) : Char.ofNat c.val.toNat = c :=
  Char.ofNat_toNat c

theorem octets_encode (c : Char) : Octets c.val.toNat (String.utf8EncodeChar c) := by
  obtain ⟨x, hx⟩ := exists_octets c
  have hencode := hx.eq_encode
  rw [ofNat_val] at hencode
  exact hencode ▸ hx

theorem decodeFrom_append (h : Octets n x) (pos : Nat) (r : Bytes) :
    decodeFrom pos (x ++ r) = (Char.ofNat n :: ·) <$> decodeFrom (pos + x.length) r := by
  conv => lhs; unfold decodeFrom
  cases h with
  | one ha => exact if_pos (UInt8.lt_iff_toNat_lt.mpr ha)
  | two ha ha' hb =>
    simp only [List.cons_append, UInt8.lt_iff_toNat_lt, UInt8.le_iff_toNat_le, UInt8.reduceToNat]
    rw [if_neg (by omega), if_neg (by omega), hb, if_pos ha']
    rfl
  | three ha ha' hb hc =>
    simp only [List.cons_append, UInt8.lt_iff_toNat_lt, UInt8.le_iff_toNat_le, UInt8.reduceToNat]
    rw [if_neg (by omega), if_neg (by omega), hb, hc, if_neg (by omega : ¬_ < 224), if_pos ha']
    rfl
  | four ha ha' hb hc hd =>
    simp only [List.cons_append, UInt8.lt_iff_toNat_lt, UInt8.le_iff_toNat_le, UInt8.reduceToNat]
    rw [if_neg (by omega), if_neg (by omega), hb, hc, hd, if_neg (by omega : ¬_ < 224),
      if_neg (by omega : ¬_ < 240)]
    rfl

/-- An ASCII octet stands for itself and is part of no other character. -/
theorem Octets.eq_of_mem (h : Octets n x) (ha : a ∈ x) (hascii : a.toNat < 0x80) :
    n = a.toNat := by
  cases h with
  | one => rw [List.mem_singleton.mp ha]
  | two hlead _ hb =>
    rw [follows_iff] at hb
    simp only [List.mem_cons, List.not_mem_nil, or_false] at ha
    rcases ha with rfl | rfl <;> omega
  | three hlead _ hb hc =>
    rw [follows_iff] at hb
    rw [isTail_iff] at hc
    simp only [List.mem_cons, List.not_mem_nil, or_false] at ha
    rcases ha with rfl | rfl | rfl <;> omega
  | four hlead _ hb hc hd =>
    rw [follows_iff] at hb
    rw [isTail_iff] at hc hd
    simp only [List.mem_cons, List.not_mem_nil, or_false] at ha
    rcases ha with rfl | rfl | rfl | rfl <;> omega

-- ---------------------------------------------------------------------------
-- Texts
-- ---------------------------------------------------------------------------

theorem decodeFrom_encode (t : Text) (pos : Nat) : decodeFrom pos (encode t) = .ok t := by
  induction t generalizing pos with
  | nil => rfl
  | cons c t ih =>
    have hencode : encode (c :: t) = String.utf8EncodeChar c ++ encode t := rfl
    rw [hencode, decodeFrom_append (octets_encode c), ih, ofNat_val]
    rfl

theorem map_cons_eq_ok {c : Char} {e : Except DecodeError Text}
    (h : (c :: ·) <$> e = .ok t) : ∃ u, e = .ok u ∧ t = c :: u := by
  cases e with
  | error => cases h
  | ok u =>
    cases h
    exact ⟨u, rfl, rfl⟩

theorem encode_append_of_map (hx : Octets n x) (ih : ∀ {t}, decodeFrom pos r = .ok t → r = encode t)
    (h : (Char.ofNat n :: ·) <$> decodeFrom pos r = .ok t) : x ++ r = encode t := by
  obtain ⟨u, hu, rfl⟩ := map_cons_eq_ok h
  rw [ih hu, ← hx.eq_encode]
  rfl

theorem eq_encode_of_decodeFrom (h : decodeFrom pos r = .ok t) : r = encode t := by
  have hlead {a : UInt8} (h : ¬(a < 0xC2 ∨ 0xF5 ≤ a)) : 0xC2 ≤ a.toNat ∧ a.toNat < 0xF5 := by
    simpa [UInt8.lt_iff_toNat_lt, UInt8.le_iff_toNat_le] using h
  have hupper {a : UInt8} (k : UInt8) (h : ¬a < k) : k.toNat ≤ a.toNat :=
    Nat.not_lt.mp fun hlt => h (UInt8.lt_iff_toNat_lt.mpr hlt)
  fun_induction decodeFrom pos r generalizing t with
  | case1 =>
    cases h
    rfl
  | case2 pos a r ha ih => exact encode_append_of_map (.one (UInt8.lt_iff_toNat_lt.mp ha)) ih h
  | case6 pos a _ ha b r hb ha' ih =>
    exact encode_append_of_map
      (.two (hlead ha).1 (UInt8.lt_iff_toNat_lt.mp ha') (by simpa using hb)) ih h
  | case9 pos a _ _ b hb ha c r hc ha' ih =>
    exact encode_append_of_map (.three (hupper 0xE0 ha) (UInt8.lt_iff_toNat_lt.mp ha')
      (by simpa using hb) (by simpa using hc)) ih h
  | case12 pos a _ ha b hb _ c hc ha' d r hd ih =>
    exact encode_append_of_map (.four (hupper 0xF0 ha') (hlead ha).2 (by simpa using hb)
      (by simpa using hc) (by simpa using hd)) ih h
  | _ => cases h

theorem decode_eq_ok_iff {bytes : Bytes} : decode bytes = .ok t ↔ bytes = encode t :=
  ⟨eq_encode_of_decodeFrom, fun h => h ▸ decodeFrom_encode t 0⟩

theorem mem_encode_iff (hascii : a.toNat < 0x80) : a ∈ encode t ↔ Char.ofNat a.toNat ∈ t := by
  rw [encode, List.mem_flatMap]
  constructor
  · rintro ⟨c, hc, ha⟩
    rw [← (octets_encode c).eq_of_mem ha hascii, ofNat_val]
    exact hc
  · intro hmem
    refine ⟨_, hmem, ?_⟩
    rw [(Octets.one hascii).eq_encode]
    exact List.mem_singleton_self a

theorem encode_injective {u : Text} (h : encode t = encode u) : t = u := by
  have ht := decodeFrom_encode t 0
  rw [h, decodeFrom_encode u 0] at ht
  exact (Except.ok.inj ht).symm

theorem unifyNewlines_of_not_mem (h : '\r' ∉ t) : t.unifyNewlines = t := by
  fun_induction Text.unifyNewlines t with
  | case1 => rfl
  | case2 r ih => exact absurd (List.mem_cons_self ..) h
  | case3 r _ ih => exact absurd (List.mem_cons_self ..) h
  | case4 c r _ _ ih => rw [ih fun hr => h (List.mem_cons_of_mem c hr)]

theorem not_mem_unifyNewlines (t : Text) : '\r' ∉ t.unifyNewlines := by
  fun_induction Text.unifyNewlines t with
  | case1 => simp
  | case2 r ih => simpa using ih
  | case3 r _ ih => simpa using ih
  | case4 c r _ hc ih =>
    have hne : '\r' ≠ c := fun h => hc h.symm
    simp [hne, ih]

theorem unifyNewlines_eq_self_iff : t.unifyNewlines = t ↔ '\r' ∉ t :=
  ⟨fun h => h ▸ not_mem_unifyNewlines t, unifyNewlines_of_not_mem⟩

end Monomorph.Utf8
