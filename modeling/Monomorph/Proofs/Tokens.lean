import Monomorph.Proofs.Lexemes

/-!
# Tokens

The lexemes of a text without blanks, with the characters of each name run taken together: words,
other characters of code, and inert stretches. The tokens of two texts put together are those of
the one and then those of the other, where the border is one of lexemes and does not lie inside a
run (`tokens_append`).
-/

namespace Monomorph

inductive Token where
  | word (name : Text)
  | mark (c : Char)
  | inert
deriving DecidableEq, Repr

def Lexeme.isNameChar : Lexeme → Bool
  | code c => Monomorph.isNameChar c
  | inert _ _ => false

/-- Puts a name character in front, joining it to the run that starts right behind it. -/
def Token.push (c : Char) (joins : Bool) : List Token → List Token
  | word n :: ts => if joins then word (c :: n) :: ts else word [c] :: word n :: ts
  | ts => word [c] :: ts

def Token.group : List Lexeme → List Token
  | [] => []
  | .inert _ _ :: ls => inert :: group ls
  | .code c :: ls =>
    if isNameChar c then push c (ls.head?.any Lexeme.isNameChar) (group ls)
    else if isBlank c then group ls
    else mark c :: group ls

namespace Token

variable {c : Char} {l : Lexeme} {ls ms : List Lexeme} {ts : List Token}

theorem push_false (c : Char) (ts : List Token) : push c false ts = word [c] :: ts := by
  rcases ts with _ | ⟨n | d | _, ts⟩ <;> rfl

theorem group_head (h : ls.head?.any Lexeme.isNameChar = true) :
    ∃ n ts, group ls = word n :: ts := by
  rcases ls with _ | ⟨c | ⟨k, t⟩, ls⟩
  · cases h
  · have hc : isNameChar c = true := h
    simp only [group, hc, if_true]
    rcases group ls with _ | ⟨n | d | _, ts⟩ <;> simp only [push]
    · exact ⟨_, _, rfl⟩
    · split <;> exact ⟨_, _, rfl⟩
    · exact ⟨_, _, rfl⟩
    · exact ⟨_, _, rfl⟩
  · cases h

theorem group_append
    (h : (ls.getLast?.any Lexeme.isNameChar && ms.head?.any Lexeme.isNameChar) = false) :
    group (ls ++ ms) = group ls ++ group ms := by
  induction ls with
  | nil => rfl
  | cons l ls ih =>
    have ih : group (ls ++ ms) = group ls ++ group ms := by
      apply ih
      cases hl : ls.getLast? with
      | none => rfl
      | some x => simpa [List.getLast?_cons, hl] using h
    rcases l with c | ⟨k, t⟩
    · simp only [List.cons_append, group, ih]
      split
      · rename_i hc
        cases ls with
        | nil =>
          have hms : ms.head?.any Lexeme.isNameChar = false := by
            simpa [Lexeme.isNameChar, hc] using h
          rw [List.nil_append, hms, push_false]
          rfl
        | cons l ls =>
          simp only [List.cons_append, List.head?_cons]
          cases hj : (some l).any Lexeme.isNameChar with
          | false => simp only [push_false, List.cons_append]
          | true =>
            obtain ⟨n, ts, hts⟩ : ∃ n ts, group (l :: ls) = word n :: ts := group_head hj
            simp only [hts, List.cons_append, push, if_true]
      · split <;> rfl
    · simp only [List.cons_append, group, ih]

theorem mem_push {n : Text} {joins : Bool} (hc : isNameChar c = true)
    (h : word n ∈ push c joins ts) (hts : ∀ m, word m ∈ ts → m ≠ [] ∧ m.all isNameChar = true) :
    n ≠ [] ∧ n.all isNameChar = true := by
  have hone : [c] ≠ [] ∧ [c].all isNameChar = true := by simp [hc]
  cases joins with
  | false =>
    rw [push_false] at h
    rcases List.mem_cons.mp h with h | h
    · cases h
      exact hone
    · exact hts n h
  | true =>
    rcases ts with _ | ⟨m | d | _, ts⟩ <;> rcases List.mem_cons.mp h with h | h
    · cases h
      exact hone
    · cases h
    · cases h
      simpa [hc] using (hts m (by simp)).2
    · exact hts n (by simp [h])
    · cases h
      exact hone
    · exact hts n h
    · cases h
      exact hone
    · exact hts n h

theorem mem_group {n : Text} (h : word n ∈ group ls) : n ≠ [] ∧ n.all isNameChar = true := by
  induction ls generalizing n with
  | nil => cases h
  | cons l ls ih =>
    rcases l with c | ⟨k, t⟩
    · simp only [group] at h
      split at h
      · rename_i hc
        exact mem_push hc h fun m hm => ih hm
      · split at h
        · exact ih h
        · exact ih ((List.mem_cons.mp h).resolve_left nofun)
    · exact ih ((List.mem_cons.mp h).resolve_left nofun)

theorem mark_mem_push {d : Char} {joins : Bool} (h : mark d ∈ push c joins ts) : mark d ∈ ts := by
  rcases ts with _ | ⟨n | e | _, ts⟩
  · simp [push] at h
  · cases joins <;> simpa [push] using h
  · simpa [push] using h
  · simpa [push] using h

theorem mark_mem_group (h : mark c ∈ group ls) :
    .code c ∈ ls ∧ isNameChar c = false ∧ isBlank c = false := by
  induction ls with
  | nil => cases h
  | cons l ls ih =>
    rcases l with d | ⟨k, t⟩
    · simp only [group] at h
      split at h
      · exact (ih (mark_mem_push h)).imp_left (List.mem_cons_of_mem _)
      · rename_i hname
        split at h
        · exact (ih h).imp_left (List.mem_cons_of_mem _)
        · rename_i hblank
          rcases List.mem_cons.mp h with h | h
          · cases h
            exact ⟨List.mem_cons_self .., by simpa using hname, by simpa using hblank⟩
          · exact (ih h).imp_left (List.mem_cons_of_mem _)
    · exact (ih ((List.mem_cons.mp h).resolve_left nofun)).imp_left (List.mem_cons_of_mem _)

end Token

namespace Text

open Token

def tokens (s : Text) : List Token :=
  group (lexemes s)

variable {a b r s t n : Text} {c : Char} {k : Bool}

theorem tokens_nil : tokens [] = [] := by
  simp [tokens, group]

theorem tokens_stretch (h : afterStretch? s = some (k, r)) : tokens s = .inert :: tokens r := by
  obtain ⟨t, rfl⟩ := suffix_of_afterStretch? h
  rw [tokens, lexemes_stretch t h]
  rfl

theorem tokens_mark (hi : afterInert? (c :: r) = none) (hn : isNameChar c = false)
    (hb : isBlank c = false) : tokens (c :: r) = .mark c :: tokens r := by
  simp [tokens, lexemes_code (afterInert?_eq_none_iff.mp hi), group, hn, hb]

theorem tokens_blank (hb : isBlank c = true) : tokens (c :: r) = tokens r := by
  have hi : afterInert? (c :: r) = none := afterInert?_eq_none (not_opensInert_of_isBlank hb)
  simp [tokens, lexemes_code (afterInert?_eq_none_iff.mp hi), group, not_isNameChar_of_isBlank hb,
    hb]

theorem head_lexemes (s : Text) :
    (lexemes s).head?.any Lexeme.isNameChar = s.head?.any isNameChar := by
  obtain rfl | ⟨k, a, r, rfl, -, h, hl⟩ | ⟨c, r, rfl, -, hl⟩ := lexemes_cases s
  · simp
  · have hne : afterInert? (a ++ r) ≠ none := by simp [afterInert?_eq_none_iff, h]
    obtain ⟨t, ht⟩ := Option.ne_none_iff_exists'.mp hne
    rw [hl]
    exact (StopsCode.head (.inr ⟨t, ht⟩) rfl rfl).symm
  · simp [hl, Lexeme.isNameChar]

theorem tokens_name (hc : isNameChar c = true) :
    tokens (c :: r) = push c (r.head?.any isNameChar) (tokens r) := by
  have hi : afterInert? (c :: r) = none := afterInert?_eq_none (not_opensInert_of_isNameChar hc)
  rw [tokens, lexemes_code (afterInert?_eq_none_iff.mp hi), group, if_pos hc, head_lexemes]
  rfl

/-- Two name characters that become one run. -/
def namesMeet : Text → Text → Bool :=
  meets Lexeme.isNameChar isNameChar

/-- The border between two texts is one between tokens. -/
structure Splits (a b : Text) : Prop where
  closed : Closed a
  slash : slashMeets a b = false
  names : namesMeet a b = false

theorem Splits.tokens_append (h : Splits a b) : tokens (a ++ b) = tokens a ++ tokens b := by
  rw [tokens, h.closed.lexemes_append h.slash]
  apply group_append
  rw [head_lexemes]
  exact h.names

theorem Splits.nil (b : Text) : Splits [] b :=
  ⟨.nil, by simp [slashMeets, meets], by simp [namesMeet, meets]⟩

theorem Splits.congr (h : Splits a b) (hb : s.head? = b.head?) : Splits a s := by
  refine ⟨h.closed, ?_, ?_⟩
  · rw [slashMeets, meets, hb]
    exact h.slash
  · rw [namesMeet, meets, hb]
    exact h.names

theorem Splits.trans (ha : Splits a (b ++ r)) (hb : Splits b r) : Splits (a ++ b) r := by
  have hslash : slashMeets a b = false := by
    cases b with
    | nil => exact meets_of_head a rfl
    | cons c b => exact ha.slash
  have hl := ha.closed.lexemes_append hslash
  exact ⟨ha.closed.append hb.closed hslash, meets_append hl ha.slash hb.slash,
    meets_append hl ha.names hb.names⟩

theorem Splits.inert (hr : r ≠ []) (h : afterInert? (a ++ r) = some r) (b : Text) :
    Splits a b := by
  obtain ⟨hclosed, k, t, hlast⟩ := closed_of_afterInert? hr h
  exact ⟨hclosed, meets_of_getLast (by rw [hlast]; rfl) b, meets_of_getLast (by rw [hlast]; rfl) b⟩

theorem Splits.mark (hi : afterInert? (c :: r) = none) (hc : isNameChar c = false) :
    Splits [c] r := by
  have hstretch := afterInert?_eq_none_iff.mp hi
  have halone : afterStretch? [c] = none := afterStretch?_eq_none_of_append (b := r) hstretch
  have hl : lexemes [c] = [.code c] := by rw [lexemes_code halone, lexemes_nil]
  refine ⟨.code halone .nil, ?_, meets_of_getLast (by rw [hl]; exact hc) r⟩
  rw [afterStretch?_cons_eq_none_iff] at hstretch
  cases r with
  | nil => exact meets_of_head [c] rfl
  | cons d r =>
    simp only [slashMeets, meets, hl, List.getLast?_singleton, Option.any_some, List.head?_cons]
    by_cases hslash : c = '/'
    · have hd := hstretch.2 hslash
      simp only [List.head?_cons, ne_eq, Option.some.injEq] at hd
      simp [hd]
    · simp [hslash]

theorem Splits.blank (hb : isBlank c = true) (r : Text) : Splits [c] r :=
  .mark (afterInert?_eq_none (not_opensInert_of_isBlank hb)) (not_isNameChar_of_isBlank hb)

theorem Splits.word (hn : n.all isNameChar = true) (hr : r.head?.any isNameChar = false) :
    Splits n r := by
  have hplain (d : Char) (hd : d ∈ n) : opensInert d = false :=
    not_opensInert_of_isNameChar (List.all_eq_true.mp hn d hd)
  refine ⟨closed_of_plain hplain, meets_of_getLast ?_ r, meets_of_head n hr⟩
  rw [lexemes_of_plain hplain, List.getLast?_map]
  cases hlast : n.getLast? with
  | none => rfl
  | some d =>
    have hd := hplain d (List.mem_of_getLast? hlast)
    simp only [Option.map_some, Option.any_some, beq_eq_false_iff_ne]
    rintro ⟨⟩
    cases hd

theorem mem_tokens (h : .word n ∈ tokens s) : n ≠ [] ∧ n.all isNameChar = true :=
  mem_group h

theorem mark_mem_tokens (h : .mark c ∈ tokens s) :
    c ∈ s ∧ isNameChar c = false ∧ isBlank c = false := by
  obtain ⟨hc, hclass⟩ := mark_mem_group h
  refine ⟨?_, hclass⟩
  rw [← flatMap_text_lexemes s]
  exact List.mem_flatMap.mpr ⟨_, hc, List.mem_singleton.mpr rfl⟩

theorem tokens_run_joined (hn : n.all isNameChar = true) (hs : s.head?.any isNameChar = true) :
    ∃ w ts, tokens s = .word w :: ts ∧ tokens (n ++ s) = .word (n ++ w) :: ts := by
  induction n with
  | nil =>
    obtain ⟨w, ts, hw⟩ : ∃ w ts, tokens s = .word w :: ts := group_head (by rwa [head_lexemes])
    exact ⟨w, ts, hw, hw⟩
  | cons c n ih =>
    simp only [List.all_cons, Bool.and_eq_true] at hn
    obtain ⟨w, ts, hw, hjoined⟩ := ih hn.2
    have hhead : (n ++ s).head?.any isNameChar = true := by
      cases n with
      | nil => exact hs
      | cons d n => exact (Bool.and_eq_true_iff.mp hn.2).1
    exact ⟨w, ts, hw, by rw [List.cons_append, tokens_name hn.1, hjoined, hhead]; rfl⟩

theorem tokens_run (hne : n ≠ []) (hn : n.all isNameChar = true)
    (hs : s.head?.any isNameChar = false) : tokens (n ++ s) = .word n :: tokens s := by
  induction n with
  | nil => exact absurd rfl hne
  | cons c n ih =>
    simp only [List.all_cons, Bool.and_eq_true] at hn
    rw [List.cons_append, tokens_name hn.1]
    cases n with
    | nil => rw [List.nil_append, hs, push_false]
    | cons d n =>
      have hd : isNameChar d = true := (Bool.and_eq_true_iff.mp hn.2).1
      rw [ih (by simp) hn.2]
      simp [push, hd]

end Text

end Monomorph
