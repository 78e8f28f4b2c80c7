import Monomorph.Proofs.BodilessMethods
import Monomorph.Proofs.NameBoundaries

/-!
# Tokens of flattened text

When names are put in place of usages, the tokens of each usage give way to one word, which may
take in the word behind it (`Renamed`). Declarations without a body stay such declarations, as long
as no word that comes in is a modifier.
-/

namespace Monomorph

namespace Token

/-- The tokens of a usage: a name before a bracket, and then names, brackets and commas. -/
def IsApplied (ts : List Token) : Prop :=
  ∃ n us, ts = word n :: mark '<' :: us ∧ ∀ c, mark c ∈ us → c ∈ ['<', ',', '>']

/-- Usages give way to words that are no modifiers, alone or together with the word behind. -/
inductive Renamed : List Token → List Token → Prop
  | nil : Renamed [] []
  | kept {ts us : List Token} (t : Token) : Renamed ts us → Renamed (t :: ts) (t :: us)
  | put {as ts us : List Token} {n : Text} : IsApplied as → n ∉ GenericMethod.modifierWords →
      Renamed ts us → Renamed (as ++ ts) (word n :: us)
  | joined {as ts us : List Token} {n w : Text} : IsApplied as → n ∉ GenericMethod.modifierWords →
      Renamed ts (word w :: us) → Renamed (as ++ ts) (word n :: us)

variable {as ts us rest : List Token} {c : Char} {n : Text} {depth : Int} {seen : List Text}

theorem Renamed.refl (ts : List Token) : Renamed ts ts := by
  induction ts with
  | nil => exact .nil
  | cons t ts ih => exact .kept t ih

theorem Renamed.append_left (h : Renamed ts us) (as : List Token) :
    Renamed (as ++ ts) (as ++ us) := by
  induction as with
  | nil => exact h
  | cons t as ih => exact .kept t ih

theorem Renamed.mark_right (h : Renamed ts (mark c :: us)) :
    ∃ vs, ts = mark c :: vs ∧ Renamed vs us := by
  cases h with
  | kept t h => exact ⟨_, rfl, h⟩

theorem Renamed.mark_left (h : Renamed (mark c :: ts) us) :
    ∃ vs, us = mark c :: vs ∧ Renamed ts vs := by
  generalize hs : mark c :: ts = s at h
  cases h with
  | nil => cases hs
  | kept t h =>
    obtain ⟨rfl, rfl⟩ := List.cons.inj hs
    exact ⟨_, rfl, h⟩
  | put ha | joined ha =>
    obtain ⟨n, vs, rfl, -⟩ := ha
    cases hs

theorem Renamed.word_left (h : Renamed (word n :: mark c :: ts) us) (hc : c ≠ '<') :
    ∃ vs, us = word n :: mark c :: vs ∧ Renamed ts vs := by
  generalize hs : word n :: mark c :: ts = s at h
  cases h with
  | nil => cases hs
  | kept t h =>
    obtain ⟨rfl, rfl⟩ := List.cons.inj hs
    obtain ⟨vs, rfl, hvs⟩ := h.mark_left
    exact ⟨vs, rfl, hvs⟩
  | put ha | joined ha =>
    obtain ⟨m, vs, rfl, -⟩ := ha
    obtain ⟨-, hs⟩ := List.cons.inj hs
    obtain ⟨hs, -⟩ := List.cons.inj hs
    exact absurd (Token.mark.inj hs) hc

theorem IsApplied.endsBare_append (h : IsApplied as) (ts : List Token) :
    endsBare depth (as ++ ts) = endsBare depth ts := by
  have hpass (c : Char) (hc : c ∈ ['<', ',', '>']) (ts : List Token) :
      endsBare depth (mark c :: ts) = endsBare depth ts := by
    simp only [List.mem_cons, List.not_mem_nil, or_false] at hc
    rcases hc with rfl | rfl | rfl <;> rfl
  obtain ⟨n, us, rfl, hus⟩ := h
  rw [List.cons_append, List.cons_append, endsBare, hpass _ (by simp)]
  induction us with
  | nil => rfl
  | cons t us ih =>
    have ih := ih fun c hc => hus c (List.mem_cons_of_mem _ hc)
    cases t with
    | word m => exact ih
    | inert => exact ih
    | mark c => exact (hpass c (hus c (by simp)) _).trans ih

theorem Renamed.endsBare_eq (h : Renamed ts us) : endsBare depth us = endsBare depth ts := by
  induction h generalizing depth with
  | nil => rfl
  | kept t h ih => cases t <;> simp only [endsBare, ih]
  | put ha _ h ih => rw [ha.endsBare_append, endsBare, ih]
  | joined ha _ h ih =>
    rw [ha.endsBare_append, ← ih]
    rfl

theorem Renamed.exists_afterParameters? (h : Renamed ts us)
    (hts : afterParameters? seen ts = some rest) :
    ∃ vs, afterParameters? seen us = some vs ∧ Renamed rest vs := by
  fun_induction afterParameters? seen ts generalizing us with
  | case3 seen n ts hn hhead =>
    cases hts
    obtain ⟨vs, rfl, hvs⟩ := h.word_left (by decide)
    have hhead' : vs.head? ≠ some (mark '>') := by
      intro hvs'
      obtain ⟨ws, rfl⟩ := List.head?_eq_some_iff.mp hvs'
      obtain ⟨xs, rfl, -⟩ := hvs.mark_right
      exact hhead rfl
    exact ⟨vs, by simpa [afterParameters?, hn] using hhead', hvs⟩
  | case4 seen n ts hn _ ih =>
    obtain ⟨vs, rfl, hvs⟩ := h.word_left (by decide)
    obtain ⟨ws, hws, hrest⟩ := ih hvs hts
    exact ⟨ws, by simpa [afterParameters?, hn] using hws, hrest⟩
  | case1 | case2 | case5 | case6 => cases hts

theorem bodilessAt_word (hn : n ∉ GenericMethod.modifierWords) (ts : List Token) :
    bodilessAt (word n :: ts) = true := by
  rw [bodilessAt_iff]
  rintro m us ⟨⟩ hm
  exact absurd hm hn

theorem Renamed.bodiless (h : Renamed ts us) (hts : bodiless ts = true) :
    Token.bodiless us = true := by
  induction h with
  | nil => rfl
  | @kept ts us t h ih =>
    rw [Token.bodiless, Bool.and_eq_true] at hts ⊢
    refine ⟨?_, ih hts.2⟩
    have hat := bodilessAt_iff.mp hts.1
    rw [bodilessAt_iff]
    rintro n vs heq hn
    obtain ⟨rfl, rfl⟩ := List.cons.inj heq
    obtain ⟨ws, rfl, hws⟩ := h.mark_right
    obtain ⟨rest, hrest, hbare⟩ := hat n ws rfl hn
    obtain ⟨rest', hrest', hrenamed⟩ := hws.exists_afterParameters? hrest
    exact ⟨rest', hrest', hrenamed.endsBare_eq.trans hbare⟩
  | put ha hn h ih =>
    rw [Token.bodiless, bodilessAt_word hn, Bool.true_and]
    exact ih (bodiless_of_suffix (List.suffix_append ..) hts)
  | joined ha hn h ih =>
    have ih := ih (bodiless_of_suffix (List.suffix_append ..) hts)
    rw [Token.bodiless, Bool.and_eq_true] at ih
    rw [Token.bodiless, bodilessAt_word hn, Bool.true_and]
    exact ih.2

end Token

namespace Usage

open Text

variable {rule : Text × Text} {ps : List Piece}

theorem isApplied_of_isUsage {k : Text} {e : TypeExpr} (h : IsUsage k e) :
    Token.IsApplied (tokens k) := by
  obtain ⟨⟨sp, rfl, rfl⟩, hc, -⟩ := h
  cases sp with
  | simple n => cases hc
  | applied n gap args =>
    have hhead := head_blanks_append (x := '<' :: args.text) gap rfl
    refine ⟨n.1, tokens args.text, ?_, fun c hc => ?_⟩
    · rw [Spelling.text, tokens_run (isName_ne_nil n.2) (all_isNameChar_of_isName n.2) hhead,
        tokens_blanks_append gap.2, tokens_mark (afterInert?_eq_none rfl) rfl rfl]
    · obtain ⟨hc, hname, hblank⟩ := mark_mem_tokens hc
      have hchars : SpellingChars fun c => isNameChar c = true ∨ isBlank c = true ∨
          c ∈ ['<', ',', '>'] :=
        ⟨fun _ => .inl, fun _ h => .inr (.inl h), fun _ h => .inr (.inr h)⟩
      simpa [hname, hblank] using args.forall_mem hchars c hc

theorem renamed_stretches (hp : Parted ps) (h : ∀ rule, .put rule ∈ ps → Renaming rule)
    (hnew : ∀ rule, .put rule ∈ ps → ∀ w, rule.2 ++ w ∉ GenericMethod.modifierWords) :
    Token.Renamed (tokens (ps.flatMap Piece.before)) (tokens (ps.flatMap Piece.after)) := by
  induction hp with
  | nil => exact .refl _
  | last t => exact .refl _
  | @kept t rule ps ht hb hps ih =>
    have ih := ih (fun rule hrule => h rule (List.mem_cons_of_mem _ hrule))
      fun rule hrule => hnew rule (List.mem_cons_of_mem _ hrule)
    have hrule := h rule (by simp)
    have hbefore := tokens_kept hb (hrule.head_literal (ps.flatMap Piece.before))
    have hafter := tokens_kept hb (hrule.head_name (ps.flatMap Piece.after))
    have hrenamed := ih.append_left (tokens t)
    simp only [List.flatMap_cons, Piece.before, Piece.after] at hrenamed ⊢
    rw [hbefore, hafter]
    exact hrenamed
  | @put rule ps hps ih =>
    have ih := ih (fun rule hrule => h rule (List.mem_cons_of_mem _ hrule))
      fun rule hrule => hnew rule (List.mem_cons_of_mem _ hrule)
    have hrule := h rule (by simp)
    have hnew := hnew rule (by simp)
    have hname := all_isNameChar_of_isName hrule.isName
    obtain ⟨e, husage⟩ := hrule.isUsage
    have happlied := isApplied_of_isUsage husage
    simp only [List.flatMap_cons, Piece.before, Piece.after]
    rw [tokens_literal hrule]
    cases hs : (ps.flatMap Piece.after).head?.any isNameChar with
    | false =>
      rw [tokens_run (isName_ne_nil hrule.isName) hname hs]
      exact .put happlied (by simpa using hnew []) ih
    | true =>
      -- the name runs on into the word behind the usage
      obtain ⟨w, ts, hw, hjoined⟩ := tokens_run_joined hname hs
      rw [hjoined]
      rw [hw] at ih
      exact .joined happlied (hnew w) ih

end Usage

end Monomorph
