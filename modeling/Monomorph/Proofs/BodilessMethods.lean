import Monomorph.Proofs.MethodSearch

/-!
# Declarations without a body

A modifier before a bracket opens a candidate for a generic method. When the tokens behind the
bracket are a list of type parameters, and a semicolon comes before any brace with all parentheses
closed, the candidate has no body. A text in which every candidate is like that has no generic
methods (`scan_eq_nil`).
-/

namespace Monomorph

namespace Token

def isParameter (seen : List Text) (n : Text) : Bool :=
  n.length == 1 && n.all Char.isAlpha && !seen.contains n

/-- What follows a list of type parameters, none of which is in `seen` or comes twice. -/
def afterParameters? (seen : List Text) : List Token → Option (List Token)
  | word n :: mark c :: ts =>
    if !isParameter seen n then none
    else if c = '>' then if ts.head? = some (mark '>') then none else some ts
    else if c = ',' then afterParameters? (seen ++ [n]) ts
    else none
  | _ => none

def nest (depth : Int) (c : Char) : Int :=
  if c = '(' then depth + 1 else if c = ')' then depth - 1 else depth

/-- Whether a semicolon comes before any brace, with all parentheses closed there, of which `depth`
are open at the start. -/
def endsBare (depth : Int) : List Token → Bool
  | [] => false
  | word _ :: ts => endsBare depth ts
  | inert :: ts => endsBare depth ts
  | mark c :: ts => if c = ';' then depth == 0 else c != '{' && endsBare (nest depth c) ts

/-- A candidate at the head of the tokens, if there is one, has no body. -/
def bodilessAt : List Token → Bool
  | word n :: mark '<' :: ts =>
    !GenericMethod.modifierWords.contains n || (afterParameters? [] ts).any (endsBare 0)
  | _ => true

def bodiless : List Token → Bool
  | [] => true
  | t :: ts => bodilessAt (t :: ts) && bodiless ts

variable {t : Token} {ts us rest : List Token} {c : Char} {n : Text} {depth : Int}
  {seen : List Text}

theorem bodilessAt_iff : bodilessAt ts = true ↔
    ∀ n us, ts = word n :: mark '<' :: us → n ∈ GenericMethod.modifierWords →
      ∃ rest, afterParameters? [] us = some rest ∧ endsBare 0 rest = true := by
  unfold bodilessAt
  split
  · rename_i n us
    simp only [Bool.or_eq_true, Bool.not_eq_true', List.contains_eq_mem, decide_eq_false_iff_not,
      Option.any_eq_true]
    constructor
    · rintro h _ _ ⟨⟩ hn
      exact h.resolve_left fun h => h hn
    · intro h
      by_cases hn : n ∈ GenericMethod.modifierWords
      · exact .inr (h n us rfl hn)
      · exact .inl hn
  · rename_i hts
    simp only [true_iff]
    rintro n us rfl
    exact (hts n us rfl).elim

theorem bodiless_of_suffix (h : us <:+ ts) (hts : bodiless ts = true) : bodiless us = true := by
  obtain ⟨a, rfl⟩ := h
  induction a with
  | nil => exact hts
  | cons t a ih =>
    rw [List.cons_append, bodiless, Bool.and_eq_true] at hts
    exact ih hts.2

theorem endsBare_append (h : endsBare depth ts = true) (us : List Token) :
    endsBare depth (ts ++ us) = true := by
  induction ts generalizing depth with
  | nil => cases h
  | cons t ts ih =>
    cases t with
    | word n => exact ih h
    | inert => exact ih h
    | mark c =>
      rw [List.cons_append, endsBare]
      rw [endsBare] at h
      split at h
      · rename_i hc
        rw [if_pos hc]
        exact h
      · rename_i hc
        rw [Bool.and_eq_true] at h
        rw [if_neg hc, h.1, ih h.2, Bool.and_self]

theorem afterParameters?_append (h : afterParameters? seen ts = some rest) (hrest : rest ≠ [])
    (us : List Token) : afterParameters? seen (ts ++ us) = some (rest ++ us) := by
  fun_induction afterParameters? seen ts with
  | case3 seen n ts hn hhead =>
    cases h
    simpa [afterParameters?, hn, hrest] using hhead
  | case4 seen n ts hn _ ih => simpa [afterParameters?, hn] using ih h
  | case1 | case2 | case5 | case6 => cases h

theorem bodilessAt_append (h : bodilessAt (t :: ts) = true)
    (ht : ts = [] → ∀ n ∈ GenericMethod.modifierWords, t ≠ word n) (us : List Token) :
    bodilessAt (t :: (ts ++ us)) = true := by
  rw [bodilessAt_iff] at h ⊢
  intro n vs heq hn
  obtain ⟨rfl, hvs⟩ := List.cons.inj heq
  cases ts with
  | nil => exact absurd rfl (ht rfl n hn)
  | cons t ts =>
    obtain ⟨rfl, rfl⟩ := List.cons.inj hvs
    obtain ⟨rest, hrest, hbare⟩ := h n ts rfl hn
    have hne : rest ≠ [] := by
      rintro rfl
      cases hbare
    exact ⟨rest ++ us, afterParameters?_append hrest hne us, endsBare_append hbare us⟩

theorem bodiless_append (hts : bodiless ts = true) (hus : bodiless us = true)
    (hlast : ∀ n ∈ GenericMethod.modifierWords, ts.getLast? ≠ some (word n)) :
    bodiless (ts ++ us) = true := by
  induction ts with
  | nil => exact hus
  | cons t ts ih =>
    rw [bodiless, Bool.and_eq_true] at hts
    rw [List.cons_append, bodiless, Bool.and_eq_true]
    refine ⟨bodilessAt_append hts.1 ?_ us, ih hts.2 ?_⟩
    · rintro rfl n hn rfl
      exact hlast n hn rfl
    · intro n hn hts'
      exact hlast n hn (by simp [List.getLast?_cons, hts'])

theorem afterParameters?_cases (h : afterParameters? seen ts = some rest) :
    ∃ n c us, ts = word n :: mark c :: us ∧ isParameter seen n = true ∧
      (c = '>' ∧ us.head? ≠ some (mark '>') ∧ rest = us ∨
        c = ',' ∧ afterParameters? (seen ++ [n]) us = some rest) := by
  unfold afterParameters? at h
  split at h
  · rename_i n c us
    split at h
    · cases h
    · rename_i hn
      refine ⟨n, c, us, rfl, by simpa using hn, ?_⟩
      split at h
      · rename_i hc
        split at h
        · cases h
        · rename_i hhead
          exact .inl ⟨hc, hhead, (Option.some.inj h).symm⟩
      · split at h
        · rename_i hc
          exact .inr ⟨hc, h⟩
        · cases h
  · cases h

theorem endsBare_push (joins : Bool) : endsBare depth (push c joins ts) = endsBare depth ts := by
  rcases ts with _ | ⟨n | d | _, ts⟩ <;> cases joins <;> rfl

end Token

namespace Text

open Token

variable {s r : Text} {n : Text} {c : Char} {ts rest : List Token} {depth : Int}

-- ---------------------------------------------------------------------------
-- Texts by their first token
-- ---------------------------------------------------------------------------

theorem tokens_dropBlank (s : Text) : tokens s.dropBlank = tokens s := by
  obtain ⟨b, hb, hs⟩ := s.exists_blanks
  conv => rhs; rw [hs]
  exact (tokens_blanks_append hb _).symm

theorem tokens_nameRun (hc : isNameChar c = true) (r : Text) :
    tokens (c :: r) = .word (nameRun (c :: r)) :: tokens (afterNameRun (c :: r)) := by
  have h := tokens_run (nameRun_ne_nil (r := r) hc) List.all_takeWhile (head_afterNameRun (c :: r))
  rwa [nameRun_append_afterNameRun] at h

theorem tokens_cases (s : Text) (h : s.head?.any isBlank = false) : s = [] ∨
    (∃ r, tokens s = .inert :: tokens r) ∨
    (∃ c r, s = c :: r ∧ tokens s = .word s.nameRun :: tokens s.afterNameRun) ∨
    ∃ c r, s = c :: r ∧ tokens s = .mark c :: tokens r := by
  cases hi : afterStretch? s with
  | some found => exact .inr (.inl ⟨_, tokens_stretch hi⟩)
  | none =>
    cases s with
    | nil => exact .inl rfl
    | cons c r =>
      cases hc : isNameChar c with
      | true => exact .inr (.inr (.inl ⟨c, r, rfl, tokens_nameRun hc r⟩))
      | false => exact .inr (.inr (.inr ⟨c, r, rfl,
          tokens_mark (afterInert?_eq_none_iff.mpr hi) hc (by simpa using h)⟩))

theorem nameRun_of_tokens (h : tokens s = .word n :: ts) :
    s.dropBlank.nameRun = n ∧ tokens s.dropBlank.afterNameRun = ts := by
  rw [← tokens_dropBlank] at h
  obtain hnil | ⟨r, hr⟩ | ⟨c, r, -, hr⟩ | ⟨c, r, -, hr⟩ := tokens_cases _ s.head_dropBlank
  · rw [hnil, tokens_nil] at h
    cases h
  · rw [hr] at h
    cases h
  · rw [hr] at h
    cases h
    exact ⟨rfl, rfl⟩
  · rw [hr] at h
    cases h

theorem exists_mark_of_tokens (h : tokens s = .mark c :: ts) :
    ∃ r, s.dropBlank = c :: r ∧ tokens r = ts := by
  rw [← tokens_dropBlank] at h
  obtain hnil | ⟨r, hr⟩ | ⟨d, r, -, hr⟩ | ⟨d, r, hs, hr⟩ := tokens_cases _ s.head_dropBlank
  · rw [hnil, tokens_nil] at h
    cases h
  · rw [hr] at h
    cases h
  · rw [hr] at h
    cases h
  · rw [hr] at h
    cases h
    exact ⟨r, hs, rfl⟩

-- ---------------------------------------------------------------------------
-- Groups before the semicolon
-- ---------------------------------------------------------------------------

theorem endsBare_mark (hc : opensInert c = false) (hn : isNameChar c = false)
    (hb : isBlank c = false) (hsemi : c ≠ ';') (hbrace : c ≠ '{') (r : Text) :
    endsBare depth (tokens (c :: r)) = endsBare (nest depth c) (tokens r) := by
  simp [tokens_mark (afterInert?_eq_none (by simpa using hc)) hn hb, endsBare, hsemi, hbrace]

theorem endsBare_inert {a r : Text} (hr : r ≠ []) (h : afterInert? (a ++ r) = some r) :
    endsBare depth (tokens (a ++ r)) = endsBare depth (tokens r) := by
  induction h using inert_induct hr with
  | last k t ht => rw [tokens_stretch (ht r), endsBare]
  | more k t b ht _ _ ih => rw [List.append_assoc, tokens_stretch (ht _), endsBare, ih]

theorem endsBare_afterGap (s : Text) :
    endsBare depth (tokens s) = endsBare depth (tokens s.afterGap) := by
  fun_induction afterGap s with
  | case1 s r h ih =>
    rw [← tokens_dropBlank, tokens_stretch (afterStretch?_eq_comment_iff.mpr h), endsBare, ih]
  | case2 s h => rw [tokens_dropBlank]

theorem endsBare_afterNameRun (s : Text) :
    endsBare depth (tokens s) = endsBare depth (tokens s.afterNameRun) := by
  cases s with
  | nil => rfl
  | cons c r =>
    cases hc : isNameChar c with
    | true => rw [tokens_nameRun hc, endsBare]
    | false => rw [afterNameRun, List.dropWhile_cons_of_neg (by simp [hc])]

theorem endsBare_of_afterClosing? (hdepth : 0 < depth) (h : afterClosing? '(' ')' depth s = some r)
    (hs : endsBare depth (tokens s) = true) : endsBare 0 (tokens r) = true := by
  fun_induction afterClosing? '(' ')' depth s with
  | case1 depth s t ht ih =>
    have hne : t ≠ [] := by
      obtain ⟨a, rfl, -⟩ := closes_of_afterClosing? h
      simp
    obtain ⟨a, rfl⟩ := suffix_of_afterInert? ht
    rw [endsBare_inert hne ht] at hs
    exact ih hdepth h hs
  | case2 => cases h
  | case3 depth r' _ ih =>
    rw [endsBare_mark rfl rfl rfl (by decide) (by decide)] at hs
    exact ih (Int.add_pos hdepth Int.one_pos) h hs
  | case4 r' =>
    cases h
    rwa [endsBare_mark rfl rfl rfl (by decide) (by decide)] at hs
  | case5 depth r' _ _ hone ih =>
    rw [endsBare_mark rfl rfl rfl (by decide) (by decide)] at hs
    exact ih (by omega) h hs
  | case6 depth c r' hi hopen hclose ih =>
    refine ih hdepth h ?_
    cases hn : isNameChar c with
    | true => rwa [tokens_name hn, endsBare_push] at hs
    | false =>
      cases hb : isBlank c with
      | true => rwa [tokens_blank hb] at hs
      | false =>
        rw [tokens_mark hi hn hb, endsBare] at hs
        split at hs
        · rw [beq_iff_eq] at hs
          omega
        · rw [nest, if_neg hopen, if_neg hclose, Bool.and_eq_true] at hs
          exact hs.2

theorem endsBare_of_afterGroup? (h : afterGroup? '(' ')' s = some r)
    (hs : endsBare 0 (tokens s) = true) : endsBare 0 (tokens r) = true := by
  unfold afterGroup? at h
  split at h
  · rename_i hhead
    obtain ⟨t, rfl⟩ := List.head?_eq_some_iff.mp hhead
    have hnone : afterInert? ('(' :: t) = none := afterInert?_eq_none rfl
    rw [endsBare_mark rfl rfl rfl (by decide) (by decide)] at hs
    rw [afterClosing?] at h
    split at h
    · rename_i hi
      rw [hnone] at hi
      cases hi
    · exact endsBare_of_afterClosing? (by decide) h hs
  · cases h

end Text

namespace Parameters

open Text Token

/-- What the tokens of a list say about its text: the first parameter, and what follows it. -/
structure First (seen : List Text) (s : Text) (rest : List Token) : Prop where
  length_eq : s.dropBlank.nameRun.length = 1
  isAlpha : s.dropBlank.nameRun.all Char.isAlpha = true
  fresh : seen.contains s.dropBlank.nameRun = false
  behind : (∃ r, s.dropBlank.afterNameRun.dropBlank = '>' :: r ∧ r.head? ≠ some '>' ∧
      tokens r = rest) ∨
    ∃ r, s.dropBlank.afterNameRun.dropBlank = ',' :: r ∧
      afterParameters? (seen ++ [s.dropBlank.nameRun]) (tokens r) = some rest

theorem first_of_tokens {seen : List Text} {s : Text} {rest : List Token}
    (h : afterParameters? seen (tokens s) = some rest) : First seen s rest := by
  obtain ⟨n, c, us, hs, hn, hc⟩ := afterParameters?_cases h
  obtain ⟨rfl, hrun⟩ := nameRun_of_tokens hs
  obtain ⟨r, hr, rfl⟩ := exists_mark_of_tokens hrun
  simp only [isParameter, Bool.and_eq_true, beq_iff_eq, Bool.not_eq_true'] at hn
  refine ⟨hn.1.1, hn.1.2, hn.2, ?_⟩
  rcases hc with ⟨rfl, hhead, hrest⟩ | ⟨rfl, hrest⟩
  · refine .inl ⟨r, hr, ?_, hrest.symm⟩
    intro hr
    obtain ⟨r', rfl⟩ := List.head?_eq_some_iff.mp hr
    rw [tokens_mark (afterInert?_eq_none rfl) rfl rfl] at hhead
    exact hhead rfl
  · exact .inr ⟨r, hr, hrest⟩

theorem First.not_closing {seen : List Text} {s r : Text} {rest : List Token}
    (h : First seen s rest) : s.dropBlank ≠ '>' :: r := by
  intro hs
  have := h.length_eq
  rw [hs, nameRun, List.takeWhile_cons_of_neg (by decide)] at this
  cases this

theorem exists_readMore {seen : List Text} {s : Text} {rest : List Token}
    (h : afterParameters? seen (tokens s) = some rest) :
    ∃ params t, readMore true seen s = .ok (params, t) ∧ tokens t.1 = rest := by
  fun_induction readMore true seen s generalizing rest with
  | case1 seen s r hd => exact absurd hd (first_of_tokens h).not_closing
  | case2 seen s =>
    rename_i hnil
    have := (first_of_tokens h).length_eq
    rw [show s.dropBlank.nameRun = [] from hnil] at this
    cases this
  | case3 =>
    rename_i hone
    exact absurd (first_of_tokens h).length_eq hone
  | case4 =>
    rename_i halpha
    rw [(first_of_tokens h).isAlpha] at halpha
    cases halpha
  | case5 =>
    rename_i hseen
    rw [(first_of_tokens h).fresh] at hseen
    cases hseen
  | case6 =>
    rename_i hb
    rcases (first_of_tokens h).behind with ⟨r, hr, hhead, -⟩ | ⟨r, hr, -⟩
    · obtain ⟨-, rfl⟩ := List.cons.inj (hb.symm.trans hr)
      exact absurd rfl hhead
    · cases hb.symm.trans hr
  | case7 =>
    rename_i hb
    rcases (first_of_tokens h).behind with ⟨r, hr, -, hrest⟩ | ⟨r, hr, -⟩
    · obtain ⟨-, rfl⟩ := List.cons.inj (hb.symm.trans hr)
      exact ⟨_, _, rfl, hrest⟩
    · cases hb.symm.trans hr
  | case8 =>
    rename_i hb _ hmore ih
    rcases (first_of_tokens h).behind with ⟨r, hr, -⟩ | ⟨r, hr, hrest⟩
    · cases hb.symm.trans hr
    · obtain ⟨-, rfl⟩ := List.cons.inj (hb.symm.trans hr)
      obtain ⟨params, t, hread, ht⟩ := ih hrest
      cases hread.symm.trans hmore
      exact ⟨_, _, rfl, ht⟩
  | case9 =>
    rename_i hb _ hmore ih
    rcases (first_of_tokens h).behind with ⟨r, hr, -⟩ | ⟨r, hr, hrest⟩
    · cases hb.symm.trans hr
    · obtain ⟨-, rfl⟩ := List.cons.inj (hb.symm.trans hr)
      obtain ⟨params, t, hread, -⟩ := ih hrest
      cases hread.symm.trans hmore
  | case10 =>
    rename_i hclosing hcomma
    rcases (first_of_tokens h).behind with ⟨r, hr, -⟩ | ⟨r, hr, -⟩
    · exact (hclosing r hr).elim
    · exact (hcomma r hr).elim

theorem exists_read {s : Text} {rest : List Token}
    (h : afterParameters? [] (tokens s) = some rest) :
    ∃ params t, read true ('<' :: s) = .ok (params, t) ∧ tokens t.1 = rest := by
  obtain ⟨params, t, hread, ht⟩ := exists_readMore h
  refine ⟨params, t.cons '<', ?_, ht⟩
  have hopening (r : Text) : s ≠ '<' :: r := by
    rintro rfl
    rw [tokens_mark (afterInert?_eq_none rfl) rfl rfl] at h
    cases h
  rw [read, hread]
  exact hopening

end Parameters

namespace GenericMethod

open Text Token

variable {length keep : Nat} {owner : Text}

theorem endsBare_skipReturnType (keep depth : Nat) (s : Text) :
    endsBare 0 (tokens s) = endsBare 0 (tokens (skipReturnType keep depth s).2.1) := by
  refine skipReturnType_induct (R := fun s r => endsBare 0 (tokens s) = endsBare 0 (tokens r))
    (fun _ => rfl) Eq.trans endsBare_afterGap ?_ endsBare_afterNameRun
    (fun s => by rw [tokens_dropBlank]) keep depth s
  intro c r hc
  simp only [List.mem_cons, List.not_mem_nil, or_false] at hc
  rcases hc with rfl | rfl | rfl | rfl | rfl | rfl <;>
    exact endsBare_mark rfl rfl rfl (by decide) (by decide) r

theorem tokens_of_modifier {s t : Text} (hs : s.nameRun ∈ modifierWords)
    (ht : s.afterName = '<' :: t) : tokens s = .word s.nameRun :: .mark '<' :: tokens t := by
  rw [← tokens_mark (afterInert?_eq_none rfl) rfl rfl, ← ht, afterName, tokens_dropBlank]
  obtain ⟨c, n, hn, hc, -⟩ := exists_modifier hs
  cases s with
  | nil => cases hn
  | cons d r =>
    cases hd : isNameChar d with
    | true => exact tokens_nameRun hd r
    | false =>
      rw [nameRun, List.takeWhile_cons_of_neg (by simp [hd])] at hn
      cases hn

theorem exists_read_of_bodiless {s : Text} (hs : s.nameRun ∈ modifierWords)
    (hhead : s.afterName.head? = some '<') (h : bodiless (tokens s) = true) :
    ∃ params p, Parameters.read true s.afterName = .ok (params, p) ∧
      endsBare 0 (tokens p.1) = true := by
  obtain ⟨t, ht⟩ := List.head?_eq_some_iff.mp hhead
  rw [tokens_of_modifier hs ht, bodiless, Bool.and_eq_true, bodilessAt_iff] at h
  obtain ⟨rest, hrest, hbare⟩ := h.1 _ _ rfl hs
  rw [ht]
  obtain ⟨params, p, hread, rfl⟩ := Parameters.exists_read hrest
  exact ⟨params, p, hread, hbare⟩

theorem head_of_bodiless {s : Text} {params : List Text} {p : Rest s.afterName} {name : Option Text}
    {u : {r : Text // r.length ≤ p.1.length}} {v : Text} (hs : s.nameRun ∈ modifierWords)
    (hhead : s.afterName.head? = some '<') (h : bodiless (tokens s) = true)
    (hread : Parameters.read true s.afterName = .ok (params, p))
    (hskip : skipReturnType keep 0 p.1 = (name, u)) (hv : afterGroup? '(' ')' u.1 = some v) :
    v.afterGap.head? ≠ some '{' := by
  intro hbrace
  obtain ⟨g, hg⟩ := List.head?_eq_some_iff.mp hbrace
  obtain ⟨params', p', hread', hbare⟩ := exists_read_of_bodiless hs hhead h
  obtain ⟨rfl, rfl⟩ := Prod.mk.inj (Except.ok.inj (hread.symm.trans hread'))
  rw [endsBare_skipReturnType keep 0, hskip] at hbare
  have hbehind := endsBare_of_afterGroup? hv hbare
  rw [endsBare_afterGap, hg, tokens_mark (afterInert?_eq_none rfl) rfl rfl] at hbehind
  cases hbehind

theorem bodiless_of_reaches {s r : Text} (h : bodiless (tokens s) = true) (hr : Reaches s r) :
    bodiless (tokens r) = true :=
  bodiless_of_suffix hr.tokens_suffix h

theorem scan_eq_nil {run : Option Text} {s : Text} (h : bodiless (tokens s) = true) :
    scan length keep owner run s = .ok [] := by
  fun_induction scan length keep owner run s with
  | case1 | case3 | case9 => rfl
  | case2 run s _ r hi ih => exact ih (bodiless_of_reaches h (reaches_of_afterInert? hi))
  | case4 run c r _ hb _ ih =>
    exact ih (bodiless_of_reaches h
      (.mark (not_opensInert_of_isBlank hb) (not_isNameChar_of_isBlank hb)))
  | case5 run c r _ _ _ _ _ ih => exact ih (bodiless_of_reaches h (reaches_afterNameRun _))
  | case6 =>
    rename_i ih
    exact ih (bodiless_of_reaches h (reaches_afterName _))
  | case7 run c r _ _ _ hmod _ hhead =>
    rename_i herror _
    obtain ⟨params, p, hread, -⟩ :=
      exists_read_of_bodiless (by simpa using hmod) (Decidable.not_not.mp hhead) h
    cases hread.symm.trans herror
  | case8 run c r _ _ _ hmod _ _ params p hread u hu =>
    rename_i ih
    obtain ⟨t, ht, hreach⟩ := exists_opens (by simpa using hmod) hread hu
    exact ih (bodiless_of_reaches h (ht.reaches.trans hreach))
  | case10 run c r _ _ _ hmod _ _ params p hread name u hu v hv =>
    rename_i ih
    obtain ⟨t, ht, hreach⟩ := exists_opens (by simpa using hmod) hread hu
    have hparen := (ht.reaches.trans hreach).closes (closes_of_afterGroup? hv)
    have hgap := (hparen.reaches rfl (by decide) rfl).trans (reaches_afterGap v)
    exact ih (bodiless_of_reaches h hgap)
  | case11 run c r _ _ _ hmod _ hhead params p hread name u hu v hv _ hbrace =>
    exact absurd (Decidable.not_not.mp hbrace)
      (head_of_bodiless (by simpa using hmod) (Decidable.not_not.mp hhead) h hread hu hv)
  | case12 run c r _ _ _ hmod _ _ hhead params p hread name u hu v hv _ hbrace =>
    exact absurd (Decidable.not_not.mp hbrace)
      (head_of_bodiless (by simpa using hmod) (Decidable.not_not.mp hhead) h hread hu hv)
  | case13 run c r hi _ hc _ ih =>
    have hsplits : Splits [c] r := .mark hi (by simpa using hc)
    exact ih (bodiless_of_reaches h (.inr ⟨[c], rfl, hsplits⟩))

end GenericMethod

end Monomorph
