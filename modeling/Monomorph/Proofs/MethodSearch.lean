import Monomorph.Proofs.TokenReaders

/-!
# The search for generic methods

What a search passes over, step by step (`Found`): anything that is no modifier, a modifier that
joins the current run, a candidate without a body, or a method. From it follows how the text is laid
out (`Layout`): gaps with the methods between them, where each gap ends before a token, and not
with a modifier.
-/

namespace Monomorph.GenericMethod

open Text

-- ---------------------------------------------------------------------------
-- Steps of the search
-- ---------------------------------------------------------------------------

/-- A candidate for a method opens at `s`: a modifier, and behind it the bracket before `t`. -/
def Opens (s t : Text) : Prop :=
  ∃ n ∈ modifierWords, ∃ w, allBlank w = true ∧ s = n ++ (w ++ '<' :: t)

/-- No name begins here, nor behind blanks. -/
def Idle (s : Text) : Prop :=
  s.head?.any (fun c => isNameStart c || isBlank c) = false

/-- What a search from `s` on passes when it gives `ms`; `run` is where the current run of modifiers
begins. It may end anywhere. -/
inductive Found (length : Nat) (owner : Text) : Option Text → Text → List GenericMethod → Prop
  | ended {run : Option Text} {s : Text} : Found length owner run s []
  | stretch {run : Option Text} {k : Bool} {s r : Text} {ms : List GenericMethod} :
      afterStretch? s = some (k, r) → Found length owner run r ms → Found length owner run s ms
  | blank {run : Option Text} {c : Char} {r : Text} {ms : List GenericMethod} :
      isBlank c = true → Found length owner run r ms → Found length owner run (c :: r) ms
  | mark {run : Option Text} {c : Char} {r : Text} {ms : List GenericMethod} :
      afterInert? (c :: r) = none → isBlank c = false → isNameChar c = false →
      Found length owner none r ms → Found length owner run (c :: r) ms
  | word {run : Option Text} {n r : Text} {ms : List GenericMethod} : n ≠ [] →
      n.all isNameChar = true → r.head?.any isNameChar = false → n ∉ modifierWords →
      Found length owner none r ms → Found length owner run (n ++ r) ms
  | modifier {run : Option Text} {n w b : Text} {ms : List GenericMethod} : n ∈ modifierWords →
      w.allBlank = true → (w ++ b).head?.any isNameChar = false →
      Found length owner (some (run.getD (n ++ (w ++ b)))) b ms →
      Found length owner run (n ++ (w ++ b)) ms
  | unnamed {run : Option Text} {s t r : Text} {ms : List GenericMethod} : Opens s t →
      Reaches t r → Idle r → Found length owner none r ms → Found length owner run s ms
  | bodiless {run : Option Text} {s t r : Text} {ms : List GenericMethod} : Opens s t →
      Closes ')' t r → Found length owner none r ms → Found length owner run s ms
  | method {run : Option Text} {s t stop : Text} {m : GenericMethod} {ms : List GenericMethod} :
      Opens s t → stop = [] ∨ Closes '}' t stop → m.owner = owner →
      m.span = ⟨offset length (run.getD s), offset length stop⟩ →
      Found length owner none stop ms → Found length owner run s (m :: ms)

variable {length keep : Nat} {owner : Text} {run : Option Text} {s r t : Text}
  {ms : List GenericMethod}

theorem Opens.length_lt (h : Opens s t) : t.length < s.length := by
  obtain ⟨n, -, w, -, rfl⟩ := h
  simp only [List.length_append, List.length_cons]
  omega

theorem exists_modifier {n : Text} (h : n ∈ modifierWords) :
    ∃ c r, n = c :: r ∧ isNameStart c = true ∧ n.all isNameChar = true := by
  have hall : ∀ m ∈ modifierWords, m.isName = true := by decide
  obtain ⟨c, r, rfl, hc, -⟩ := isName_iff.mp (hall n h)
  exact ⟨c, r, rfl, hc, all_isNameChar_of_isName (hall _ h)⟩

theorem exists_opens {params : List Text} {p : Rest s.afterName} {name : Option Text}
    {u : {r : Text // r.length ≤ p.1.length}} (hs : s.nameRun ∈ modifierWords)
    (hread : Parameters.read true s.afterName = .ok (params, p))
    (hskip : skipReturnType keep 0 p.1 = (name, u)) : ∃ t, Opens s t ∧ Reaches t u.1 := by
  obtain ⟨t, ht, hp⟩ := Parameters.reaches_of_read hread
  obtain ⟨w, hw, hrest⟩ := s.afterNameRun.exists_blanks
  have hopens : Opens s t := by
    refine ⟨_, hs, w, hw, ?_⟩
    rw [← ht, afterName, ← hrest, nameRun_append_afterNameRun]
  have hreach := reaches_skipReturnType keep 0 p.1
  rw [hskip] at hreach
  exact ⟨t, hopens, hp.trans hreach⟩

theorem Found.eq_nil (h : Found length owner run [] ms) : ms = [] := by
  have hopens {t : Text} (ht : Opens [] t) : False := by
    have := ht.length_lt
    simp at this
  generalize hs : ([] : Text) = s at h
  cases h with
  | ended => rfl
  | stretch hr =>
    subst hs
    cases hr
  | blank | mark => cases hs
  | word hn => exact absurd (List.append_eq_nil_iff.mp hs.symm).1 hn
  | modifier hn =>
    obtain ⟨c, r, rfl, -⟩ := exists_modifier hn
    cases hs
  | unnamed ht | bodiless ht | method ht =>
    subst hs
    exact (hopens ht).elim

theorem Found.inert {a r : Text} (hi : afterInert? (a ++ r) = some r)
    (h : Found length owner run r ms) : Found length owner run (a ++ r) ms := by
  by_cases hr : r = []
  · subst hr
    rw [h.eq_nil]
    exact .ended
  · induction hi using inert_induct hr with
    | last k t ht => exact .stretch (ht r) h
    | more k t b ht _ _ ih =>
      rw [List.append_assoc]
      exact .stretch (ht _) ih

theorem Found.blanks {w : Text} (hw : w.allBlank = true) (h : Found length owner run r ms) :
    Found length owner run (w ++ r) ms := by
  induction w with
  | nil => exact h
  | cons c w ih =>
    simp only [allBlank, List.all_cons, Bool.and_eq_true] at hw
    exact .blank hw.1 (ih hw.2)

theorem Found.gap (h : Found length owner run s.afterGap ms) : Found length owner run s ms := by
  have hblanks (s : Text) (h : Found length owner run s.dropBlank ms) :
      Found length owner run s ms := by
    obtain ⟨w, hw, hs⟩ := s.exists_blanks
    rw [hs]
    exact .blanks hw h
  fun_induction afterGap s with
  | case1 s r hr ih => exact hblanks s (.stretch (afterStretch?_eq_comment_iff.mpr hr) (ih h))
  | case2 s hr => exact hblanks s h

theorem idle_skipReturnType (keep depth : Nat) (s : Text)
    (h : (skipReturnType keep depth s).1 = none) :
    (skipReturnType keep depth s).2.1.length ≤ keep ∨ Idle (skipReturnType keep depth s).2.1 := by
  fun_induction skipReturnType keep depth s with
  | case1 depth s hkeep => exact .inl hkeep
  | case2 => exact .inl (Nat.zero_le _)
  | case3 depth s _ _ r n t ht hs _ ih =>
    rw [ht] at ih
    exact ih h
  | case4 depth s _ _ r n t ht hs _ _ ih =>
    rw [ht] at ih
    exact ih h
  | case5 depth s _ _ c r hs _ _ _ _ n t ht ih =>
    rw [ht] at ih
    exact ih h
  | case6 => cases h
  | case7 s _ _ c r hs _ _ _ _ _ _ _ _ n t ht ih =>
    rw [ht] at ih
    exact ih h
  | case8 depth s _ _ c r hs _ _ _ _ _ _ _ _ n t ht ih =>
    rw [ht] at ih
    exact ih h
  | case9 depth s _ _ c r hs =>
    rename_i hc
    have hblank := head_afterGap s
    rw [hs] at hblank
    refine .inr ?_
    simpa [Idle, hc] using hblank

theorem found_of_scan {run : Option Text} {s : Text} {ms : List GenericMethod}
    (h : scan length keep owner run s = .ok ms) : Found length owner run s ms := by
  fun_induction scan length keep owner run s generalizing ms with
  | case1 | case3 | case9 =>
    cases h
    exact .ended
  | case2 run s _ r hi ih =>
    obtain ⟨a, rfl⟩ := suffix_of_afterInert? hi
    exact .inert hi (ih h)
  | case4 run c r _ hb _ ih => exact .blank hb (ih h)
  | case5 run c r _ _ hc hmod _ ih =>
    rw [← nameRun_append_afterNameRun (c :: r)]
    exact .word (nameRun_ne_nil hc) List.all_takeWhile (head_afterNameRun _) (by simpa using hmod)
      (ih h)
  | case6 run c r _ _ _ hmod =>
    rename_i ih
    obtain ⟨w, hw, hs⟩ := (afterNameRun (c :: r)).exists_blanks
    have hhead := head_afterNameRun (c :: r)
    have hrun := nameRun_append_afterNameRun (c :: r)
    rw [hs] at hhead hrun
    rw [← hrun]
    exact .modifier (by simpa using hmod) hw hhead (by rw [hrun]; exact ih h)
  | case7 | case11 => cases h
  | case8 run c r _ _ _ hmod _ _ params p hread u hu =>
    rename_i ih
    obtain ⟨t, ht, hreach⟩ := exists_opens (by simpa using hmod) hread hu
    have hidle := idle_skipReturnType keep 0 p.1
    rw [hu] at hidle
    rcases hidle rfl with hkeep | hidle
    · -- the return type ran into the end of what is searched
      rw [scan, if_pos hkeep] at h
      cases h
      exact .ended
    · exact .unnamed ht hreach hidle (ih h)
  | case10 run c r _ _ _ hmod _ _ params p hread name u hu v hv =>
    rename_i ih
    obtain ⟨t, ht, hreach⟩ := exists_opens (by simpa using hmod) hread hu
    exact .bodiless ht (hreach.closes (closes_of_afterGroup? hv)) (ih h).gap
  | case12 run c r _ _ _ hmod _ _ _ params p hread name u hu v hv =>
    rename_i hmore _ ih
    obtain ⟨t, ht, hreach⟩ := exists_opens (by simpa using hmod) hread hu
    have hparen := hreach.closes (closes_of_afterGroup? hv)
    have hgap := (hparen.reaches rfl (by decide) rfl).trans (reaches_afterGap v)
    cases h
    exact .method ht hgap.closes_afterGroup rfl rfl (ih hmore)
  | case13 run c r hi hb hc _ ih =>
    exact .mark hi (by simpa using hb) (by simpa using hc) (ih h)

-- ---------------------------------------------------------------------------
-- Gaps and methods
-- ---------------------------------------------------------------------------

/-- The last token is no modifier. -/
def Unmodified (x : Text) : Prop :=
  ∀ n ∈ modifierWords, x.tokens.getLast? ≠ some (.word n)

/-- A text is made of gaps with methods between them. A method begins with a name and ends with a
brace in code, or with the text. -/
inductive Layout (length : Nat) (owner : Text) : Text → List GenericMethod → List Text → Prop
  | last (x : Text) : Layout length owner x [] [x]
  | method {x b r : Text} {m : GenericMethod} {ms : List GenericMethod} {xs : List Text} :
      Splits x (b ++ r) → Unmodified x → b.head?.any isNameChar = true →
      r = [] ∨ Closes '}' (b ++ r) r → m.owner = owner →
      m.span = ⟨offset length (b ++ r), offset length r⟩ → Layout length owner r ms xs →
      Layout length owner (x ++ (b ++ r)) (m :: ms) (x :: xs)

variable {a p q x : Text}

theorem unmodified_nil : Unmodified [] := by
  intro n _
  simp [tokens_nil]

theorem unmodified_append {tok : Token} (h : Splits x (a ++ r)) (ha : a.tokens.getLast? = some tok)
    (htok : ∀ n ∈ modifierWords, tok ≠ .word n) : Unmodified (x ++ a) := by
  have hsplits : Splits x a := by
    apply h.congr
    cases a with
    | nil =>
      rw [tokens_nil] at ha
      cases ha
    | cons c a => rfl
  intro n hn hlast
  rw [hsplits.tokens_append, List.getLast?_append, ha, Option.some_or] at hlast
  exact htok n hn (Option.some.inj hlast)

theorem Unmodified.blank {c : Char} (h : Unmodified x) (hx : Splits x (c :: r))
    (hc : isBlank c = true) : Unmodified (x ++ [c]) := by
  intro n hn
  rw [(hx.congr (s := [c]) rfl).tokens_append, tokens_blank hc, tokens_nil, List.append_nil]
  exact h n hn

theorem not_idle (h : s.head?.any isNameStart = true) : ¬Idle s := by
  cases s with
  | nil => cases h
  | cons c r =>
    have hc : isNameStart c = true := h
    simp [Idle, hc]

theorem head_modifier {n : Text} (h : n ∈ modifierWords) (r : Text) :
    (n ++ r).head?.any isNameStart = true := by
  obtain ⟨c, n, rfl, hc, -⟩ := exists_modifier h
  exact hc

theorem Opens.head (h : Opens s t) : s.head?.any isNameStart = true := by
  obtain ⟨n, hn, w, -, rfl⟩ := h
  exact head_modifier hn _

theorem Opens.reaches (h : Opens s t) : Reaches s t := by
  obtain ⟨n, hn, w, hw, rfl⟩ := h
  obtain ⟨-, -, -, -, hall⟩ := exists_modifier hn
  have hhead := head_append_of_allBlank (s := '<' :: t) hw rfl
  have hname : Reaches (n ++ (w ++ '<' :: t)) (w ++ '<' :: t) := .inr ⟨n, rfl, .word hall hhead⟩
  have hblank : Reaches (w ++ '<' :: t) ('<' :: t) := .inr ⟨w, rfl, .blanks hw _⟩
  exact (hname.trans hblank).trans (.mark rfl rfl)

/-- Where a search stands in a text: behind the gap `p` and the run of modifiers `q`. -/
structure Pending (run : Option Text) (p q s : Text) : Prop where
  run_eq : run = none ∧ q = [] ∨ run = some (q ++ s) ∧ (q ++ s).head?.any isNameStart = true
  gap : Splits p (q ++ s)
  inside : Splits q s
  calm : Unmodified p ∨ Idle (q ++ s)

theorem Pending.start (s : Text) : Pending none [] [] s :=
  ⟨.inl ⟨rfl, rfl⟩, .nil _, .nil _, .inl unmodified_nil⟩

theorem Pending.getD (h : Pending run p q s) : run.getD s = q ++ s := by
  rcases h.run_eq with ⟨rfl, rfl⟩ | ⟨rfl, -⟩ <;> rfl

theorem Pending.head (h : Pending run p q s) (hs : s.head?.any isNameStart = true) :
    (q ++ s).head?.any isNameStart = true := by
  rcases h.run_eq with ⟨-, rfl⟩ | ⟨-, hhead⟩
  · exact hs
  · exact hhead

theorem Pending.unmodified (h : Pending run p q s) (hs : s.head?.any isNameStart = true) :
    Unmodified p :=
  h.calm.resolve_right (not_idle (h.head hs))

theorem Pending.splits (h : Pending run p q s) : Splits (p ++ q) s :=
  h.gap.trans h.inside

theorem Pending.leave (h : Pending run p q (a ++ s)) (ha : Splits a s)
    (hcalm : Unmodified (p ++ q ++ a) ∨ Idle s) : Pending none (p ++ q ++ a) [] s :=
  ⟨.inl ⟨rfl, rfl⟩, h.splits.trans ha, .nil s, hcalm⟩

theorem Pending.stay (h : Pending run p q (a ++ s)) (ha : Splits a s)
    (hcalm : Splits p (a ++ s) → Unmodified p ∨ Idle (a ++ s) → Unmodified (p ++ a)) :
    ∃ p' q', p' ++ (q' ++ s) = p ++ (q ++ (a ++ s)) ∧ Pending run p' q' s := by
  rcases h.run_eq with ⟨rfl, rfl⟩ | ⟨rfl, hhead⟩
  · exact ⟨p ++ a, [], by simp, .inl ⟨rfl, rfl⟩, Splits.trans (b := a) h.gap ha, .nil s,
      .inl (hcalm h.gap h.calm)⟩
  · refine ⟨p, q ++ a, by simp, ?_⟩
    rw [← List.append_assoc] at hhead ⊢
    exact ⟨.inr ⟨rfl, hhead⟩, by simpa using h.gap, h.inside.trans ha,
      .inl (h.calm.resolve_right (not_idle (by simpa using hhead)))⟩

theorem Pending.modifier {n w b : Text} (h : Pending run p q (n ++ (w ++ b)))
    (hn : n ∈ modifierWords) (hw : w.allBlank = true)
    (hhead : (w ++ b).head?.any isNameChar = false) :
    Pending (some (run.getD (n ++ (w ++ b)))) p (q ++ (n ++ w)) b := by
  have hname := head_modifier hn (w ++ b)
  obtain ⟨-, -, -, -, hall⟩ := exists_modifier hn
  have hsplits : Splits (n ++ w) b := Splits.trans (.word hall hhead) (.blanks hw b)
  have heq : q ++ (n ++ w) ++ b = q ++ (n ++ (w ++ b)) := by simp
  refine ⟨.inr ⟨by rw [h.getD, heq], by rw [heq]; exact h.head hname⟩, by rw [heq]; exact h.gap,
    Splits.trans ?_ hsplits, .inl (h.unmodified hname)⟩
  rw [List.append_assoc]
  exact h.inside

theorem exists_of_closes {b : Text} {c : Char} (h : Closes c (b ++ r) r) :
    ∃ a, b = a ++ [c] ∧ Closed a := by
  obtain ⟨a, heq, ha⟩ := h
  rw [List.append_cons, List.append_left_inj] at heq
  exact ⟨a, heq, ha⟩

theorem head_method {b : Text} (hhead : (b ++ r).head?.any isNameStart = true)
    (hlast : r = [] ∨ Closes '}' (b ++ r) r) : b.head?.any isNameChar = true := by
  cases b with
  | nil =>
    rcases hlast with rfl | hlast
    · cases hhead
    · obtain ⟨a, heq, -⟩ := exists_of_closes hlast
      simp at heq
  | cons c b => exact isNameChar_of_isNameStart hhead

-- The induction carries the gap `p` and the run `q` of modifiers that may yet belong to a method.
theorem Found.layout (h : Found length owner run s ms) :
    ∀ p q, Pending run p q s → ∃ xs, Layout length owner (p ++ (q ++ s)) ms xs := by
  induction h with
  | ended =>
    intro p q _
    exact ⟨_, .last _⟩
  | @stretch run k s r ms hr hfound ih =>
    intro p q hp
    by_cases hnil : r = []
    · subst hnil
      rw [hfound.eq_nil]
      exact ⟨_, .last _⟩
    · obtain ⟨a, rfl⟩ := suffix_of_afterStretch? hr
      have ha (x : Text) : afterStretch? (a ++ x) = some (k, x) := afterStretch?_swap hnil hr
      have htokens : tokens a = [.inert] := by
        simpa [tokens_nil] using tokens_stretch (ha [])
      obtain ⟨p', q', heq, hp'⟩ := hp.stay (.stretch ha r) fun hsplits _ =>
        unmodified_append hsplits (by rw [htokens]; rfl) (by simp)
      rw [← heq]
      exact ih p' q' hp'
  | @blank run c r ms hc hfound ih =>
    intro p q hp
    have hidle : ¬Idle ([c] ++ r) := by simp [Idle, hc]
    obtain ⟨p', q', heq, hp'⟩ := hp.stay (a := [c]) (.blank hc r) fun hsplits hcalm =>
      (hcalm.resolve_right hidle).blank hsplits hc
    rw [← List.singleton_append, ← heq]
    exact ih p' q' hp'
  | @mark run c r ms hi hb hn hfound ih =>
    intro p q hp
    have halone : afterInert? [c] = none := afterInert?_eq_none_iff.mpr
      (afterStretch?_eq_none_of_append (b := r) (afterInert?_eq_none_iff.mp hi))
    have htokens : tokens [c] = [.mark c] := by rw [tokens_mark halone hn hb, tokens_nil]
    have hp' := hp.leave (a := [c]) (.mark hi hn)
      (.inl (unmodified_append (a := [c]) hp.splits (by rw [htokens]; rfl) (by simp)))
    simpa using ih _ _ hp'
  | @word run n r ms hne hall hr hn hfound ih =>
    intro p q hp
    have htokens : n.tokens = [.word n] := by
      simpa [tokens_nil] using tokens_run (s := []) hne hall rfl
    have hnot : ∀ m ∈ modifierWords, Token.word n ≠ .word m := by
      rintro m hm ⟨⟩
      exact hn hm
    have hp' := hp.leave (.word hall hr)
      (.inl (unmodified_append hp.splits (by rw [htokens]; rfl) hnot))
    simpa using ih _ _ hp'
  | @modifier run n w b ms hn hw hhead hfound ih =>
    intro p q hp
    simpa using ih _ _ (hp.modifier hn hw hhead)
  | @unnamed run s t r ms ht hr hidle hfound ih =>
    intro p q hp
    rcases ht.reaches.trans hr with rfl | ⟨a, rfl, ha⟩
    · rw [hfound.eq_nil]
      exact ⟨_, .last _⟩
    · simpa using ih _ _ (hp.leave ha (.inr hidle))
  | @bodiless run s t r ms ht hr hfound ih =>
    intro p q hp
    obtain ⟨a, rfl, ha⟩ := ht.reaches.closes hr
    have hsplits : Splits a (')' :: r) := .before ha (by decide) rfl
    have hmark : Splits [')'] r := .mark (afterInert?_eq_none rfl) rfl
    have hclosed : Splits (p ++ q ++ a) ([')'] ++ r) := hp.splits.trans hsplits
    have hlast : (tokens [')']).getLast? = some (.mark ')') := by decide +kernel
    have hcalm : Unmodified (p ++ q ++ (a ++ [')'])) := by
      rw [← List.append_assoc]
      exact unmodified_append hclosed hlast (by simp)
    rw [List.append_cons] at hp
    simpa using ih _ _ (hp.leave (hsplits.trans hmark) (.inl hcalm))
  | @method run s t stop m ms ht hstop howner hspan hfound ih =>
    intro p q hp
    obtain ⟨xs, hxs⟩ := ih [] [] (.start stop)
    obtain ⟨b, hb, hlast⟩ : ∃ b, q ++ s = b ++ stop ∧ (stop = [] ∨ Closes '}' (b ++ stop) stop) := by
      rcases hstop with rfl | hclose
      · exact ⟨q ++ s, by simp, .inl rfl⟩
      · have hinside : Reaches (q ++ s) s := .inr ⟨q, rfl, hp.inside⟩
        obtain ⟨a, hs, ha⟩ := hinside.closes (ht.reaches.closes hclose)
        exact ⟨a ++ ['}'], by simpa using hs, .inr ⟨a, by simp, ha⟩⟩
    have hhead := hp.head ht.head
    have hgap := hp.gap
    rw [hp.getD] at hspan
    rw [hb] at hhead hgap hspan ⊢
    exact ⟨p :: xs, .method hgap (hp.unmodified ht.head) (head_method hhead hlast) hlast howner
      hspan hxs⟩

theorem exists_layout (h : scan length keep owner none s = .ok ms) :
    ∃ xs, Layout length owner s ms xs :=
  (found_of_scan h).layout [] [] (.start s)

end Monomorph.GenericMethod
