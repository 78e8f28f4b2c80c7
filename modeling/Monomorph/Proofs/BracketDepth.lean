import Monomorph.Proofs.Nesting

/-!
# Bracket depth

The depth of a text is the number of brackets of one kind that its code opens, less the number that
it closes. A group begins with an opening bracket, and its depth comes back to zero at its last
character and not before (`IsGroup`). The search for the end of a group passes over a group in this
sense, and over nothing else (`afterGroup?_iff`), so it does not depend on what follows.
-/

namespace Monomorph.Text

open Bracket

variable {a g p r s t x : Text} {c d o : Char} {k : Bool} {n : Int}

def depth (opening closing : Char) (s : Text) : Int :=
  s.brackets.count opening - s.brackets.count closing

structure IsGroup (opening closing : Char) (g : Text) : Prop where
  head : g.head? = some opening
  depth_eq : depth opening closing g = 0
  first : ∀ p, p <+: g → p ≠ [] → p ≠ g → 0 < depth opening closing p

-- ---------------------------------------------------------------------------
-- Depth step by step
-- ---------------------------------------------------------------------------

@[simp] theorem depth_nil (o c : Char) : depth o c [] = 0 := by
  simp [depth, brackets_nil]

theorem depth_stretch (h : afterStretch? s = some (k, r)) : depth o c s = depth o c r := by
  rw [depth, brackets_stretch h, depth]

theorem depth_opening (hp : partner? o = some c) (hi : afterInert? (o :: r) = none) :
    depth o c (o :: r) = depth o c r + 1 := by
  have hne : o ≠ c := by
    obtain ⟨rfl, rfl⟩ | ⟨rfl, rfl⟩ := partner?_cases hp <;> decide
  rw [depth, depth, brackets_bracket hi (isBracket_of_partner? hp).1, List.count_cons_self,
    List.count_cons_of_ne hne]
  omega

theorem depth_closing (hp : partner? o = some c) (hi : afterInert? (c :: r) = none) :
    depth o c (c :: r) = depth o c r - 1 := by
  have hne : c ≠ o := by
    obtain ⟨rfl, rfl⟩ | ⟨rfl, rfl⟩ := partner?_cases hp <;> decide
  rw [depth, depth, brackets_bracket hi (isBracket_of_partner? hp).2, List.count_cons_self,
    List.count_cons_of_ne hne]
  omega

theorem depth_other (hi : afterInert? (d :: r) = none) (ho : d ≠ o) (hc : d ≠ c) :
    depth o c (d :: r) = depth o c r := by
  rw [depth, depth, brackets_cons hi]
  cases hd : isBracket d <;> simp [hd, ho, hc]

theorem prefix_append_cases (h : p <+: a ++ r) : p <+: a ∨ ∃ q, q <+: r ∧ p = a ++ q := by
  rcases List.prefix_or_prefix_of_prefix h (List.prefix_append a r) with hp | ⟨q, rfl⟩
  · exact .inl hp
  · exact .inr ⟨q, (List.prefix_append_right_inj a).mp h, rfl⟩

theorem brackets_of_prefix_stretch (h : ∀ x, afterStretch? (t ++ x) = some (k, x)) (hp : p <+: t) :
    brackets p = [] := by
  obtain ⟨u, rfl⟩ := hp
  have hall := h []
  rw [List.append_nil] at hall
  cases hs : afterStretch? p with
  | some found =>
    obtain ⟨k', y⟩ := found
    suffices y = [] by rw [brackets_stretch hs, this, brackets_nil]
    by_contra hy
    -- a stretch that ends inside `p` ends there in the whole text as well
    obtain ⟨z, rfl⟩ := suffix_of_afterStretch? hs
    have hshort : afterStretch? (z ++ (y ++ u)) = some (k', y ++ u) := afterStretch?_swap hy hs
    rw [List.append_assoc, hshort] at hall
    simp [hy] at hall
  | none =>
    cases p with
    | nil => exact brackets_nil
    | cons e p =>
      obtain ⟨hquote, hslash⟩ := afterStretch?_cons_eq_none_iff.mp hs
      have hopen : ¬(e ≠ '\'' ∧
          (e = '/' → (p ++ u).head? ≠ some '/' ∧ (p ++ u).head? ≠ some '*')) := by
        rw [← afterStretch?_cons_eq_none_iff, ← List.cons_append, hall]
        simp
      have he : e = '/' := by
        by_contra he
        exact hopen ⟨hquote, fun h => absurd h he⟩
      subst he
      rw [brackets_other (afterInert?_eq_none_iff.mpr hs) rfl]
      cases p with
      | nil => exact brackets_nil
      | cons f p => exact absurd ⟨hquote, hslash⟩ hopen

theorem brackets_of_prefix_inert {a p r : Text} (hr : r ≠ []) (h : afterInert? (a ++ r) = some r)
    (hp : p <+: a) : brackets p = [] := by
  induction h using inert_induct hr generalizing p with
  | last k t ht => exact brackets_of_prefix_stretch ht hp
  | more k t b ht _ _ ih =>
    rcases prefix_append_cases hp with hp | ⟨q, hq, rfl⟩
    · exact brackets_of_prefix_stretch ht hp
    · rw [brackets_stretch (ht q), ih hq]

theorem depth_inert (hr : r ≠ []) (h : afterInert? (a ++ r) = some r) (s : Text) :
    depth o c (a ++ s) = depth o c s := by
  have hnone := brackets_of_prefix_inert hr h List.prefix_rfl
  rw [depth, (Splits.inert hr h s).brackets_append, hnone, List.nil_append, depth]

-- ---------------------------------------------------------------------------
-- The search for the end of a group
-- ---------------------------------------------------------------------------

/-- Behind `n` open brackets, the text closes the last of them at its end and not before. -/
structure Returns (opening closing : Char) (n : Int) (g : Text) : Prop where
  depth_eq : n + depth opening closing g = 0
  first : ∀ p, p <+: g → p ≠ g → 0 < n + depth opening closing p

theorem Returns.cons {m : Int} (h : Returns o c m g) (hn : 0 < n)
    (hd : ∀ p, p <+: g → n + depth o c (d :: p) = m + depth o c p) : Returns o c n (d :: g) := by
  refine ⟨(hd g List.prefix_rfl).trans h.depth_eq, fun p hp hne => ?_⟩
  rcases List.prefix_cons_iff.mp hp with rfl | ⟨q, rfl, hq⟩
  · simpa using hn
  · rw [hd q hq]
    exact h.first q hq fun heq => hne (by rw [heq])

theorem afterInert?_of_isPrefix (h : afterInert? (d :: r) = none) (hp : p <+: r) :
    afterInert? (d :: p) = none := by
  obtain ⟨u, rfl⟩ := hp
  rw [afterInert?_eq_none_iff] at h ⊢
  exact afterStretch?_eq_none_of_append h

theorem returns_of_afterClosing? (hp : partner? o = some c) (hn : 0 < n)
    (h : afterClosing? o c n s = some r) : ∃ g, s = g ++ r ∧ Returns o c n g := by
  have hcode {e : Char} {g q : Text} (hi : afterInert? (e :: (g ++ r)) = none) (hq : q <+: g) :
      afterInert? (e :: q) = none :=
    afterInert?_of_isPrefix hi (hq.trans (List.prefix_append g r))
  fun_induction afterClosing? o c n s with
  | case1 n s t ht ih =>
    obtain ⟨g, rfl, hg⟩ := ih hn h
    obtain ⟨a, rfl⟩ := suffix_of_afterInert? ht
    have hne : g ++ r ≠ [] := by
      have := length_lt_of_afterClosing? h
      intro hnil
      simp [hnil] at this
    refine ⟨a ++ g, by rw [List.append_assoc], ?_, fun p hpre hproper => ?_⟩
    · rw [depth_inert hne ht, hg.depth_eq]
    · rcases prefix_append_cases hpre with hpre | ⟨q, hq, rfl⟩
      · rw [depth, brackets_of_prefix_inert hne ht hpre]
        simpa using hn
      · rw [depth_inert hne ht]
        exact hg.first q hq fun heq => hproper (by rw [heq])
  | case2 => cases h
  | case3 n t hi ih =>
    obtain ⟨g, rfl, hg⟩ := ih (by omega) h
    refine ⟨o :: g, rfl, hg.cons hn fun q hq => ?_⟩
    rw [depth_opening hp (hcode hi hq)]
    omega
  | case4 t hi =>
    cases h
    refine ⟨[c], rfl, ?_, fun q hq hne => ?_⟩
    · rw [depth_closing hp (hcode (g := []) hi List.prefix_rfl), depth_nil]
      omega
    · rcases List.prefix_cons_iff.mp hq with rfl | ⟨u, rfl, hu⟩
      · simp
      · rw [List.prefix_nil.mp hu] at hne
        exact absurd rfl hne
  | case5 n t hone hi _ ih =>
    obtain ⟨g, rfl, hg⟩ := ih (by omega) h
    refine ⟨c :: g, rfl, hg.cons hn fun q hq => ?_⟩
    rw [depth_closing hp (hcode hi hq)]
    omega
  | case6 n e t hi hopen hclose ih =>
    obtain ⟨g, rfl, hg⟩ := ih hn h
    refine ⟨e :: g, rfl, hg.cons hn fun q hq => ?_⟩
    rw [depth_other (hcode hi hq) hopen hclose]

theorem afterClosing?_inert (h : afterInert? s = some r) :
    afterClosing? o c n s = afterClosing? o c n r := by
  rw [afterClosing?]
  split
  · rename_i heq
    rw [h] at heq
    cases heq
    rfl
  · rename_i heq
    rw [h] at heq
    cases heq

theorem afterClosing?_stretch (h : afterStretch? s = some (k, r)) :
    afterClosing? o c n s = afterClosing? o c n r :=
  eq_of_afterStretch? afterClosing?_inert h

theorem afterClosing?_code (hi : afterInert? (d :: r) = none) :
    afterClosing? o c n (d :: r) =
      if d = o then afterClosing? o c (n + 1) r
      else if d = c then if n = 1 then some r else afterClosing? o c (n - 1) r
      else afterClosing? o c n r := by
  rw [afterClosing?]
  split
  · rename_i heq
    rw [hi] at heq
    cases heq
  · rfl

theorem Returns.tail {m : Int} (h : Returns o c n (d :: g))
    (hd : ∀ p, p <+: g → n + depth o c (d :: p) = m + depth o c p) : Returns o c m g := by
  refine ⟨(hd g List.prefix_rfl).symm.trans h.depth_eq, fun p hp hne => ?_⟩
  rw [← hd p hp]
  exact h.first (d :: p) ((List.prefix_cons_inj d).mpr hp) fun heq => hne (List.cons.inj heq).2

theorem Returns.of_stretch (h : Returns o c n (a ++ r)) (hr : r ≠ [])
    (ha : afterStretch? (a ++ r) = some (k, r)) : Returns o c n r := by
  refine ⟨depth_stretch ha ▸ h.depth_eq, fun p hpre hne => ?_⟩
  have hfirst := h.first (a ++ p) ((List.prefix_append_right_inj a).mpr hpre)
    fun heq => hne (List.append_cancel_left heq)
  rwa [depth_stretch (afterStretch?_swap hr ha)] at hfirst

theorem Returns.eq_closing (hp : partner? o = some c) (hn : 0 < n) (h : Returns o c n [d])
    (hi : afterInert? [d] = none) : d = c := by
  by_contra hc
  have hzero := h.depth_eq
  by_cases ho : d = o
  · rw [ho, depth_opening hp (ho ▸ hi), depth_nil] at hzero
    omega
  · rw [depth_other hi ho hc, depth_nil] at hzero
    omega

theorem Returns.code_append (hp : partner? o = some c) (hn : 0 < n) (h : Returns o c n (d :: r))
    (hcode : afterStretch? (d :: r) = none) (x : Text) : afterInert? (d :: (r ++ x)) = none := by
  cases r with
  | nil =>
    rw [h.eq_closing hp hn (afterInert?_eq_none_iff.mpr hcode)]
    refine afterInert?_eq_none ?_
    obtain ⟨-, rfl⟩ | ⟨-, rfl⟩ := partner?_cases hp <;> rfl
  | cons e r =>
    rw [afterStretch?_cons_eq_none_iff] at hcode
    rw [afterInert?_eq_none_iff, afterStretch?_cons_eq_none_iff]
    exact hcode

/-- The search ends where the depth first comes back, whatever follows. -/
theorem Returns.afterClosing? {o c : Char} {n : Int} {g : Text} (hp : partner? o = some c)
    (hn : 0 < n) (h : Returns o c n g) (x : Text) : afterClosing? o c n (g ++ x) = some x := by
  obtain rfl | ⟨k, a, r, rfl, hlt, ha, -⟩ | ⟨d, r, rfl, hcode, -⟩ := lexemes_cases g
  · have := h.depth_eq
    simp only [depth_nil] at this
    omega
  · have hr : r ≠ [] := by
      rintro rfl
      have := h.depth_eq
      rw [depth_stretch ha, depth_nil] at this
      omega
    rw [List.append_assoc, afterClosing?_stretch (afterStretch?_swap hr ha)]
    exact (h.of_stretch hr ha).afterClosing? hp hn x
  · have hpart {p : Text} (hpre : p <+: r) : afterInert? (d :: p) = none :=
      afterInert?_of_isPrefix (afterInert?_eq_none_iff.mpr hcode) hpre
    rw [List.cons_append, afterClosing?_code (h.code_append hp hn hcode x)]
    split
    · rename_i ho
      subst ho
      have hrest : Returns d c (n + 1) r := h.tail fun p hpre => by
        rw [depth_opening hp (hpart hpre)]
        omega
      exact hrest.afterClosing? hp (by omega) x
    · split
      · rename_i hc
        subst hc
        have hrest : Returns o d (n - 1) r := h.tail fun p hpre => by
          rw [depth_closing hp (hpart hpre)]
          omega
        split
        · rename_i hone
          -- the depth is back already, so nothing is left of the text
          have hnil : r = [] := by
            by_contra hne
            have := hrest.first [] List.nil_prefix (Ne.symm hne)
            simp only [depth_nil] at this
            omega
          rw [hnil, List.nil_append]
        · exact hrest.afterClosing? hp (by omega) x
      · rename_i ho hc
        have hrest : Returns o c n r := h.tail fun p hpre => by
          rw [depth_other (hpart hpre) ho hc]
        exact hrest.afterClosing? hp hn x
termination_by g.length

theorem afterGroup?_iff (hp : partner? o = some c) :
    afterGroup? o c s = some r ↔ ∃ g, s = g ++ r ∧ IsGroup o c g := by
  have hinert (r : Text) : afterInert? (o :: r) = none := by
    refine afterInert?_eq_none ?_
    obtain ⟨rfl, -⟩ | ⟨rfl, -⟩ := partner?_cases hp <;> rfl
  have hdepth (p : Text) : depth o c (o :: p) = 1 + depth o c p := by
    rw [depth_opening hp (hinert p), Int.add_comm]
  constructor
  · intro h
    rw [afterGroup?] at h
    split at h
    · rename_i hhead
      obtain ⟨t, rfl⟩ := List.head?_eq_some_iff.mp hhead
      rw [afterClosing?_opening (hinert t)] at h
      obtain ⟨g, rfl, hg⟩ := returns_of_afterClosing? hp (by decide) h
      refine ⟨o :: g, rfl, rfl, (hdepth g).trans hg.depth_eq, fun p hpre hne hproper => ?_⟩
      rcases List.prefix_cons_iff.mp hpre with rfl | ⟨q, rfl, hq⟩
      · exact absurd rfl hne
      · rw [hdepth q]
        exact hg.first q hq fun heq => hproper (by rw [heq])
    · cases h
  · rintro ⟨g, rfl, hg⟩
    obtain ⟨t, rfl⟩ := List.head?_eq_some_iff.mp hg.head
    have hreturns : Returns o c 1 t := by
      refine ⟨(hdepth t).symm.trans hg.depth_eq, fun p hpre hne => ?_⟩
      rw [← hdepth p]
      exact hg.first (o :: p) ((List.prefix_cons_inj o).mpr hpre) (List.cons_ne_nil o p)
        fun heq => hne (List.cons.inj heq).2
    rw [List.cons_append, afterGroup?, List.head?_cons, if_pos rfl,
      afterClosing?_opening (hinert _)]
    exact hreturns.afterClosing? hp (by decide) r

end Monomorph.Text
