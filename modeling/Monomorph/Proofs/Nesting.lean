import Monomorph.Proofs.Identifiers
import Monomorph.Proofs.TokenReaders

/-!
# Nested brackets

The parentheses and braces in the code of a text form a word. It is nested when every bracket has
its partner and groups do not cross (`Nested`), which a machine with a stack decides (`nest?`).

A search that looks for the end of a group counts one kind of bracket only. In a nested word it
finds the partner all the same (`exists_afterClosing?`), so what is read in one go is passed without
a change to what nests behind it (`Nests`).
-/

namespace Monomorph

namespace Bracket

def partner? : Char → Option Char
  | '(' => some ')'
  | '{' => some '}'
  | _ => none

def isBracket (c : Char) : Bool :=
  ['(', ')', '{', '}'].contains c

/-- Words in which every bracket has its partner. -/
inductive Nested : List Char → Prop
  | nil : Nested []
  | group {c d : Char} {u v : List Char} : partner? c = some d → Nested u → Nested v →
      Nested (c :: (u ++ d :: v))

/-- Reads a word. The stack holds the closing brackets that are yet to come, the next one first. -/
def nest? : List Char → List Char → Option (List Char)
  | stack, [] => some stack
  | stack, c :: w =>
    match partner? c with
    | some d => nest? (d :: stack) w
    | none =>
      match stack with
      | d :: stack => if c = d then nest? stack w else none
      | [] => none

variable {c d o : Char} {w u v stack : List Char}

theorem partner?_cases (h : partner? c = some d) : c = '(' ∧ d = ')' ∨ c = '{' ∧ d = '}' := by
  unfold partner? at h
  split at h
  · cases h
    exact .inl ⟨rfl, rfl⟩
  · cases h
    exact .inr ⟨rfl, rfl⟩
  · cases h

theorem partner?_closing (h : partner? c = some d) : partner? d = none := by
  obtain ⟨-, rfl⟩ | ⟨-, rfl⟩ := partner?_cases h <;> rfl

theorem partner?_inj (h : partner? c = some d) (h' : partner? o = some d) : c = o := by
  obtain ⟨rfl, rfl⟩ | ⟨rfl, rfl⟩ := partner?_cases h <;>
    obtain ⟨rfl, hd⟩ | ⟨rfl, hd⟩ := partner?_cases h' <;> first | rfl | cases hd

theorem isBracket_of_partner? (h : partner? c = some d) :
    isBracket c = true ∧ isBracket d = true := by
  obtain ⟨rfl, rfl⟩ | ⟨rfl, rfl⟩ := partner?_cases h <;> exact ⟨rfl, rfl⟩

@[simp] theorem nest?_nil (stack : List Char) : nest? stack [] = some stack :=
  rfl

theorem nest?_opening (h : partner? c = some d) : nest? stack (c :: w) = nest? (d :: stack) w := by
  simp [nest?, h]

theorem nest?_closing (h : partner? c = none) : nest? (c :: stack) (c :: w) = nest? stack w := by
  simp [nest?, h]

theorem exists_of_nest? (h : partner? c = none) (hnest : nest? stack (c :: w) = some v) :
    ∃ rest, stack = c :: rest ∧ nest? rest w = some v := by
  simp only [nest?, h] at hnest
  split at hnest
  · split at hnest
    · rename_i d rest hd
      exact ⟨rest, by rw [hd], hnest⟩
    · cases hnest
  · cases hnest

theorem nest?_append (stack u v : List Char) :
    nest? stack (u ++ v) = (nest? stack u).bind fun rest => nest? rest v := by
  induction u generalizing stack with
  | nil => simp
  | cons c u ih =>
    simp only [List.cons_append, nest?]
    split
    · exact ih _
    · split
      · split
        · exact ih _
        · rfl
      · rfl

theorem Nested.nest?_append (h : Nested u) (stack v : List Char) :
    nest? stack (u ++ v) = nest? stack v := by
  induction h generalizing stack v with
  | nil => rfl
  | @group c d u u' hc _ _ ih ih' =>
    rw [List.cons_append, nest?_opening hc, List.append_assoc, ih, List.cons_append,
      nest?_closing (partner?_closing hc), ih']

/-- A word that closes what the stack asks for, with nested words between. -/
def Completes : List Char → List Char → Prop
  | [], w => Nested w
  | d :: stack, w => ∃ u v, w = u ++ d :: v ∧ Nested u ∧ Completes stack v

theorem Completes.group (hc : partner? c = some d) (hu : Nested u) (h : Completes stack v) :
    Completes stack (c :: (u ++ d :: v)) := by
  cases stack with
  | nil => exact .group hc hu h
  | cons e stack =>
    obtain ⟨u', v', rfl, hu', hv'⟩ := h
    exact ⟨c :: (u ++ d :: u'), v', by simp, .group hc hu hu', hv'⟩

theorem completes_of_nest? (h : nest? stack w = some []) : Completes stack w := by
  induction w generalizing stack with
  | nil =>
    cases h
    exact .nil
  | cons c w ih =>
    cases hc : partner? c with
    | some d =>
      rw [nest?_opening hc] at h
      obtain ⟨u, v, rfl, hu, hv⟩ := ih h
      exact hv.group hc hu
    | none =>
      obtain ⟨rest, rfl, hrest⟩ := exists_of_nest? hc h
      exact ⟨[], w, rfl, .nil, ih hrest⟩

theorem nested_iff : Nested w ↔ nest? [] w = some [] := by
  constructor
  · intro h
    simpa using h.nest?_append [] []
  · exact completes_of_nest?

instance : DecidablePred Nested := fun _ => decidable_of_iff _ nested_iff.symm

end Bracket

open Bracket

def Token.bracket? : Token → Option Char
  | mark c => if isBracket c then some c else none
  | _ => none

namespace Text

def brackets (s : Text) : List Char :=
  s.segments.flatMap fun part => if part.isCode then part.text.filter isBracket else []

def WellNested (s : Text) : Prop :=
  Nested s.brackets

instance : DecidablePred WellNested := fun s =>
  inferInstanceAs (Decidable (Nested s.brackets))

variable {s r t : Text} {c o : Char} {k : Bool}

-- ---------------------------------------------------------------------------
-- Brackets and tokens
-- ---------------------------------------------------------------------------

theorem brackets_nil : brackets [] = [] := by
  simp [brackets, segments_nil]

theorem brackets_inert (h : afterInert? s = some r) : brackets s = brackets r := by
  simp [brackets, segments_inert h]

theorem brackets_stretch (h : afterStretch? s = some (k, r)) : brackets s = brackets r :=
  eq_of_afterStretch? brackets_inert h

theorem brackets_cons (hi : afterInert? (c :: r) = none) :
    brackets (c :: r) = [c].filter isBracket ++ brackets r := by
  simp only [brackets, segments_cons hi]
  rcases r.segments with _ | ⟨⟨t, _ | _⟩, l⟩ <;>
    cases hc : isBracket c <;> simp [pushCode, hc]

theorem brackets_bracket (hi : afterInert? (c :: r) = none) (hc : isBracket c = true) :
    brackets (c :: r) = c :: brackets r := by
  simp [brackets_cons hi, hc]

theorem brackets_other (hi : afterInert? (c :: r) = none) (hc : isBracket c = false) :
    brackets (c :: r) = brackets r := by
  simp [brackets_cons hi, hc]

theorem not_isBracket_of_isNameChar (hc : isNameChar c = true) : isBracket c = false := by
  rw [Bool.eq_false_iff]
  intro hb
  simp only [isBracket, List.contains_iff_mem, List.mem_cons, List.not_mem_nil, or_false] at hb
  rcases hb with rfl | rfl | rfl | rfl <;> cases hc

theorem not_isBracket_of_isBlank (hc : isBlank c = true) : isBracket c = false := by
  rw [Bool.eq_false_iff]
  intro hb
  simp only [isBracket, List.contains_iff_mem, List.mem_cons, List.not_mem_nil, or_false] at hb
  rcases hb with rfl | rfl | rfl | rfl <;> cases hc

theorem filterMap_bracket?_push (c : Char) (joins : Bool) (ts : List Token) :
    (Token.push c joins ts).filterMap Token.bracket? = ts.filterMap Token.bracket? := by
  rcases ts with _ | ⟨n | d | _, ts⟩ <;> cases joins <;> rfl

theorem brackets_eq_tokens (s : Text) : brackets s = (tokens s).filterMap Token.bracket? := by
  obtain rfl | ⟨k, a, r, rfl, hlt, h, -⟩ | ⟨c, r, rfl, h, -⟩ := lexemes_cases s
  · simp [brackets_nil, tokens_nil]
  · rw [brackets_stretch h, tokens_stretch h, brackets_eq_tokens r]
    rfl
  · have hi := afterInert?_eq_none_iff.mpr h
    cases hn : isNameChar c with
    | true =>
      rw [brackets_other hi (not_isBracket_of_isNameChar hn), tokens_name hn,
        filterMap_bracket?_push, brackets_eq_tokens r]
    | false =>
      cases hb : isBlank c with
      | true => rw [brackets_other hi (not_isBracket_of_isBlank hb), tokens_blank hb,
          brackets_eq_tokens r]
      | false =>
        rw [brackets_cons hi, tokens_mark hi hn hb, brackets_eq_tokens r]
        cases hc : isBracket c <;> simp [Token.bracket?, hc]
termination_by s.length

theorem Splits.brackets_append {a b : Text} (h : Splits a b) :
    brackets (a ++ b) = brackets a ++ brackets b := by
  simp only [brackets_eq_tokens, h.tokens_append, List.filterMap_append]

theorem brackets_eq_nil_of_tokens (h : ∀ c, .mark c ∈ tokens s → isBracket c = false) :
    brackets s = [] := by
  rw [brackets_eq_tokens, List.filterMap_eq_nil_iff]
  intro t ht
  cases t with
  | mark c => simp [Token.bracket?, h c ht]
  | word | inert => rfl

-- ---------------------------------------------------------------------------
-- What readers pass over
-- ---------------------------------------------------------------------------

theorem brackets_blanks {a : Text} (ha : a.allBlank = true) (r : Text) :
    brackets (a ++ r) = brackets r := by
  rw [brackets_eq_tokens, tokens_blanks_append ha, brackets_eq_tokens]

theorem brackets_names {n : Text} (hn : n.all isNameChar = true) (r : Text) :
    brackets (n ++ r) = brackets r := by
  induction n with
  | nil => rfl
  | cons c n ih =>
    simp only [List.all_cons, Bool.and_eq_true] at hn
    rw [List.cons_append, brackets_other
      (afterInert?_eq_none (not_opensInert_of_isNameChar hn.1)) (not_isBracket_of_isNameChar hn.1),
      ih hn.2]

theorem brackets_dropBlank (s : Text) : brackets s = brackets s.dropBlank := by
  obtain ⟨b, hb, hs⟩ := s.exists_blanks
  have h := brackets_blanks hb s.dropBlank
  rwa [← hs] at h

theorem brackets_afterNameRun (s : Text) : brackets s = brackets s.afterNameRun := by
  have h := brackets_names (n := s.nameRun) List.all_takeWhile s.afterNameRun
  rwa [nameRun_append_afterNameRun] at h

theorem brackets_afterName (s : Text) : brackets s = brackets s.afterName :=
  (brackets_afterNameRun s).trans (brackets_dropBlank _)

theorem brackets_afterGap (s : Text) : brackets s = brackets s.afterGap := by
  fun_induction afterGap s with
  | case1 s r h ih =>
    rw [brackets_dropBlank s, brackets_stretch (afterStretch?_eq_comment_iff.mpr h), ih]
  | case2 s h => exact brackets_dropBlank s

theorem brackets_angle (hc : c ∈ ['<', '>', ',', '.', '[', ']']) (r : Text) :
    brackets (c :: r) = brackets r := by
  simp only [List.mem_cons, List.not_mem_nil, or_false] at hc
  rcases hc with rfl | rfl | rfl | rfl | rfl | rfl <;>
    exact brackets_other (afterInert?_eq_none rfl) rfl

-- ---------------------------------------------------------------------------
-- Groups
-- ---------------------------------------------------------------------------

/-- Whatever stack the brackets of `s` complete, those of `r` do. -/
def Nests (s r : Text) : Prop :=
  ∀ stack, nest? stack (brackets s) = some [] → nest? stack (brackets r) = some []

theorem Nests.of_eq (h : brackets s = brackets r) : Nests s r := by
  intro stack hs
  rwa [← h]

theorem Nests.trans (h : Nests s r) (h' : Nests r t) : Nests s t :=
  fun stack hs => h' stack (h stack hs)

theorem brackets_inert_append {a x : Text} (hr : r ≠ []) (h : afterInert? (a ++ r) = some r) :
    brackets (a ++ x) = brackets x := by
  have hnone := brackets_inert h
  rw [(Splits.inert hr h r).brackets_append, List.append_left_eq_self] at hnone
  rw [(Splits.inert hr h x).brackets_append, hnone, List.nil_append]

-- The stack above the partner holds `depth - 1` brackets of the kind that is counted, and any
-- number of the other kind. What is passed up to the partner completes it.
theorem exists_afterClosing? (hpartner : partner? o = some c) {depth : Int} {stack : List Char}
    (above : List Char) (hdepth : depth = above.count c + 1)
    (h : nest? (above ++ c :: stack) (brackets s) = some []) :
    ∃ x r, s = x ++ c :: r ∧ Closed x ∧ nest? above (brackets x) = some [] ∧
      afterClosing? o c depth s = some r ∧ nest? stack (brackets r) = some [] := by
  obtain ⟨ho, hc⟩ := isBracket_of_partner? hpartner
  have hclosing := partner?_closing hpartner
  have hcode {d : Char} {x r : Text} (hi : afterInert? (d :: (x ++ c :: r)) = none) :
      afterStretch? (d :: x) = none ∧ afterInert? (d :: x) = none := by
    have hnone := afterStretch?_eq_none_of_append (afterInert?_eq_none_iff.mp hi)
    exact ⟨hnone, afterInert?_eq_none_iff.mpr hnone⟩
  fun_induction afterClosing? o c depth s generalizing above with
  | case1 depth s t ht ih =>
    obtain ⟨x, r, rfl, hx, hnest, hrest⟩ := ih above hdepth (by rwa [← brackets_inert ht])
    obtain ⟨a, rfl⟩ := suffix_of_afterInert? ht
    have hsplits : Splits a x := .inert (by simp) ht x
    refine ⟨a ++ x, r, by rw [List.append_assoc], hsplits.closed.append hx hsplits.slash, ?_, hrest⟩
    rwa [brackets_inert_append (by simp) ht]
  | case2 depth =>
    simp [brackets_nil] at h
  | case3 depth r hi ih =>
    rw [brackets_bracket hi ho, nest?_opening hpartner] at h
    obtain ⟨x, r, rfl, hx, hnest, hrest⟩ := ih (c :: above) (by simp [hdepth]) h
    refine ⟨o :: x, r, rfl, .code (hcode hi).1 hx, ?_, hrest⟩
    rwa [brackets_bracket (hcode hi).2 ho, nest?_opening hpartner]
  | case4 r hi =>
    rw [brackets_bracket hi hc] at h
    obtain ⟨rest, hstack, hrest⟩ := exists_of_nest? hclosing h
    cases above with
    | nil =>
      cases hstack
      exact ⟨[], r, rfl, .nil, by simp [brackets_nil], rfl, hrest⟩
    | cons d above =>
      cases hstack
      simp at hdepth
      omega
  | case5 depth r hne hi _ ih =>
    rw [brackets_bracket hi hc] at h
    obtain ⟨rest, hstack, hrest⟩ := exists_of_nest? hclosing h
    cases above with
    | nil => exact absurd (by simpa using hdepth) hne
    | cons d above =>
      cases hstack
      obtain ⟨x, r, rfl, hx, hnest, hrest⟩ := ih above (by simp [hdepth]) hrest
      refine ⟨c :: x, r, rfl, .code (hcode hi).1 hx, ?_, hrest⟩
      rwa [brackets_bracket (hcode hi).2 hc, nest?_closing hclosing]
  | case6 depth d r hi hopen hclose ih =>
    cases hd : isBracket d with
    | false =>
      obtain ⟨x, r, rfl, hx, hnest, hrest⟩ := ih above hdepth (by rwa [← brackets_other hi hd])
      refine ⟨d :: x, r, rfl, .code (hcode hi).1 hx, ?_, hrest⟩
      rwa [brackets_other (hcode hi).2 hd]
    | true =>
      rw [brackets_bracket hi hd] at h
      cases hpd : partner? d with
      | some e =>
        have he : e ≠ c := by
          rintro rfl
          exact hopen (partner?_inj hpd hpartner)
        rw [nest?_opening hpd] at h
        obtain ⟨x, r, rfl, hx, hnest, hrest⟩ := ih (e :: above) (by simp [hdepth, he]) h
        refine ⟨d :: x, r, rfl, .code (hcode hi).1 hx, ?_, hrest⟩
        rwa [brackets_bracket (hcode hi).2 hd, nest?_opening hpd]
      | none =>
        obtain ⟨rest, hstack, hrest⟩ := exists_of_nest? hpd h
        cases above with
        | nil =>
          cases hstack
          exact absurd rfl hclose
        | cons e above =>
          cases hstack
          obtain ⟨x, r, rfl, hx, hnest, hrest⟩ := ih above (by simp [hdepth, hclose]) hrest
          refine ⟨d :: x, r, rfl, .code (hcode hi).1 hx, ?_, hrest⟩
          rwa [brackets_bracket (hcode hi).2 hd, nest?_closing hpd]

theorem afterClosing?_opening {depth : Int} (hi : afterInert? (o :: r) = none) :
    afterClosing? o c depth (o :: r) = afterClosing? o c (depth + 1) r := by
  rw [afterClosing?]
  split
  · rename_i heq
    rw [hi] at heq
    cases heq
  · exact if_pos rfl

/-- Where brackets nest, a group has an end, and what it holds is nested. -/
theorem exists_group (hpartner : partner? o = some c) {stack : List Char}
    (h : nest? stack (brackets (o :: t)) = some []) :
    ∃ x r, t = x ++ c :: r ∧ Closed x ∧ Nested (brackets x) ∧
      afterGroup? o c (o :: t) = some r ∧ nest? stack (brackets r) = some [] := by
  have hi : afterInert? (o :: t) = none := by
    refine afterInert?_eq_none ?_
    obtain ⟨rfl, -⟩ | ⟨rfl, -⟩ := partner?_cases hpartner <;> rfl
  rw [brackets_bracket hi (isBracket_of_partner? hpartner).1, nest?_opening hpartner] at h
  simp only [afterGroup?, List.head?_cons, if_true, afterClosing?_opening hi, nested_iff]
  exact exists_afterClosing? hpartner [] rfl h

theorem exists_afterGroup? (hpartner : partner? o = some c) (hhead : s.head? = some o)
    {stack : List Char} (h : nest? stack (brackets s) = some []) :
    ∃ r, afterGroup? o c s = some r ∧ nest? stack (brackets r) = some [] := by
  obtain ⟨t, rfl⟩ := List.head?_eq_some_iff.mp hhead
  obtain ⟨-, r, -, -, -, hr⟩ := exists_group hpartner h
  exact ⟨r, hr⟩

theorem head_of_afterGroup? (h : afterGroup? o c s = some r) : s.head? = some o := by
  unfold afterGroup? at h
  split at h
  · assumption
  · cases h

theorem nests_of_afterGroup? (hpartner : partner? o = some c) (h : afterGroup? o c s = some r) :
    Nests s r := by
  intro stack hs
  obtain ⟨r', hr', hnest⟩ := exists_afterGroup? hpartner (head_of_afterGroup? h) hs
  rw [h] at hr'
  cases hr'
  exact hnest

theorem nests_afterGroup (hpartner : partner? o = some c) (hhead : s.head? = some o) :
    Nests s (afterGroup o c s) := by
  intro stack hs
  obtain ⟨r, hr, hnest⟩ := exists_afterGroup? hpartner hhead hs
  rw [afterGroup, hr]
  exact hnest

end Text

open Text

-- ---------------------------------------------------------------------------
-- Parameters and return types
-- ---------------------------------------------------------------------------

theorem Parameters.brackets_of_read {distinct : Bool} {s : Text} {params : List Text} {t : Rest s}
    (h : Parameters.read distinct s = .ok (params, t)) : brackets s = brackets t.1 := by
  have hmark (c : Char) (r : Text) (hc : c ∈ [',', '>']) : brackets (c :: r) = brackets r := by
    simp only [List.mem_cons, List.not_mem_nil, or_false] at hc
    rcases hc with rfl | rfl <;> exact brackets_angle (by simp) r
  unfold Parameters.read at h
  split at h
  · cases h
  · split at h
    · rename_i hmore
      cases h
      refine (brackets_angle (by simp) _).trans ?_
      exact Parameters.readMore_induct (R := fun s r => brackets s = brackets r) .trans hmark
        brackets_afterNameRun brackets_dropBlank hmore
    · cases h
  · cases h

theorem GenericMethod.brackets_skipReturnType (keep depth : Nat) (s : Text) :
    brackets s = brackets (skipReturnType keep depth s).2.1 :=
  skipReturnType_induct (R := fun s r => brackets s = brackets r) (fun _ => rfl) .trans
    brackets_afterGap (fun _ r hc => brackets_angle hc r) brackets_afterNameRun brackets_dropBlank
    keep depth s

end Monomorph
