import Monomorph.Proofs.BracketDepth
import Monomorph.Template

/-!
# Modifiers

A run of modifiers is read as words and annotations, with blanks, comments and string literals
between them (`Text.modifierTokens`). Its sharing modes are in order when `sharing` stands right
behind a word that leads to it, and such a word right before `sharing` (`SharingModes`).
-/

namespace Monomorph

open Text

/-- What stands among modifiers. Anything else ends a run of them. -/
inductive Modifier where
  | word (name : Text)
  | atSign
  | other (c : Char)
deriving DecidableEq, Repr

namespace Text

/-- The modifiers of a text. An annotation is taken together with its arguments. -/
def modifierTokens (s : Text) : List Modifier :=
  match _h : afterStretch? s with
  | some (_, r) => modifierTokens r
  | none =>
    match s with
    | [] => []
    | c :: r =>
      if isBlank c then modifierTokens r
      else if c = '@' then .atSign :: modifierTokens (Template.afterAtSign r)
      else if _hc : isNameChar c then
        .word (nameRun (c :: r)) :: modifierTokens (afterNameRun (c :: r))
      else .other c :: modifierTokens r
termination_by s.length
decreasing_by
  · exact length_lt_of_afterStretch? ‹_›
  · exact Nat.lt_succ_self _
  · exact Nat.lt_succ_of_le (Template.length_afterAtSign_le r)
  · exact length_afterNameRun_lt _hc
  · exact Nat.lt_succ_self _

variable {a b n r s t w x : Text} {c : Char} {k : Bool} {ms ns : List Modifier}

theorem modifierTokens_stretch (h : afterStretch? s = some (k, r)) :
    modifierTokens s = modifierTokens r := by
  rw [modifierTokens]
  split
  · rename_i heq
    rw [h] at heq
    cases heq
    rfl
  · rename_i heq
    rw [h] at heq
    cases heq

theorem modifierTokens_code (h : opensInert c = false) : modifierTokens (c :: r) =
    if isBlank c then modifierTokens r
    else if c = '@' then .atSign :: modifierTokens (Template.afterAtSign r)
    else if isNameChar c then .word (nameRun (c :: r)) :: modifierTokens (afterNameRun (c :: r))
    else .other c :: modifierTokens r := by
  have hnone : afterStretch? (c :: r) = none :=
    afterInert?_eq_none_iff.mp (afterInert?_eq_none (by simpa using h))
  rw [modifierTokens]
  split
  · rename_i heq
    rw [hnone] at heq
    cases heq
  · simp only [dite_eq_ite]

theorem modifierTokens_run (hne : n ≠ []) (hn : n.all isNameChar = true)
    (hs : s.head?.any isNameChar = false) :
    modifierTokens (n ++ s) = .word n :: modifierTokens s := by
  obtain ⟨c, m, rfl⟩ := List.exists_cons_of_ne_nil hne
  have hc : isNameChar c = true := (Bool.and_eq_true_iff.mp hn).1
  have hat : c ≠ '@' := by
    rintro rfl
    cases hc
  rw [List.cons_append, modifierTokens_code (not_opensInert_of_isNameChar hc),
    not_isBlank_of_isNameChar hc, if_neg Bool.false_ne_true, if_neg hat, if_pos hc,
    ← List.cons_append, nameRun_append hn hs, afterNameRun_append hn hs]

-- ---------------------------------------------------------------------------
-- Annotations
-- ---------------------------------------------------------------------------

theorem exists_afterName (s : Text) : ∃ n w, s = n ++ (w ++ s.afterName) ∧
    n.all isNameChar = true ∧ w.allBlank = true ∧
    (w ++ s.afterName).head?.any isNameChar = false := by
  obtain ⟨w, hw, hs⟩ := s.afterNameRun.exists_blanks
  have hhead := s.head_afterNameRun
  rw [hs] at hhead
  refine ⟨s.nameRun, w, ?_, List.all_takeWhile, hw, hhead⟩
  rw [afterName, ← hs, nameRun_append_afterNameRun]

theorem afterName_append (hn : n.all isNameChar = true) (hw : w.allBlank = true)
    (hhead : (w ++ x).head?.any isNameChar = false) (hx : x.head?.any isBlank = false) :
    afterName (n ++ (w ++ x)) = x := by
  rw [afterName, afterNameRun_append hn hhead, dropBlank_append hw, dropBlank_of_head hx]

theorem afterAtSign_swap (hr : r ≠ []) (h : Template.afterAtSign (a ++ r) = r)
    (hx : x = [] ∨ x.head? = r.head?) : Template.afterAtSign (a ++ x) = x := by
  obtain ⟨n, w, hparts, hn, hw, hhead⟩ := exists_afterName (a ++ r)
  have hblank : (a ++ r).afterName.head?.any isBlank = false := head_dropBlank _
  unfold Template.afterAtSign at h
  split at h
  · -- the arguments are a group
    rename_i hopen
    have hgroup : afterGroup? '(' ')' (a ++ r).afterName = some r := by
      unfold afterGroup at h
      cases hg : afterGroup? '(' ')' (a ++ r).afterName with
      | none =>
        rw [hg] at h
        exact absurd h.symm hr
      | some t =>
        rw [hg] at h
        exact congrArg some h
    obtain ⟨g, hg, hisGroup⟩ := (afterGroup?_iff rfl).mp hgroup
    have ha : a = n ++ (w ++ g) := by
      rw [hg, ← List.append_assoc w, ← List.append_assoc n] at hparts
      exact List.append_cancel_right hparts
    obtain ⟨u, rfl⟩ := List.head?_eq_some_iff.mp hisGroup.head
    have hname : afterName (a ++ x) = '(' :: u ++ x := by
      rw [ha, List.append_assoc, List.append_assoc]
      exact afterName_append hn hw (head_append_of_allBlank hw rfl) rfl
    have hafter : afterGroup? '(' ')' ('(' :: u ++ x) = some x :=
      (afterGroup?_iff rfl).mpr ⟨_, rfl, hisGroup⟩
    have hparen : ('(' :: u ++ x).head? = some '(' := rfl
    rw [Template.afterAtSign, hname, if_pos hparen, afterGroup, hafter, Option.getD_some]
  · rename_i hopen
    rw [h] at hparts hhead hblank hopen
    have ha : a = n ++ w := by
      rw [← List.append_assoc] at hparts
      exact List.append_cancel_right hparts
    have hsame {p : Char → Bool} (hp : r.head?.any p = false) : x.head?.any p = false := by
      rcases hx with rfl | hx
      · rfl
      · rwa [hx]
    have hname : afterName (a ++ x) = x := by
      rw [ha, List.append_assoc]
      refine afterName_append hn hw ?_ (hsame hblank)
      cases w with
      | nil => exact hsame hhead
      | cons c w => exact hhead
    rw [Template.afterAtSign, hname, if_neg]
    intro hparen
    rcases hx with rfl | hx
    · cases hparen
    · exact hopen (hx.symm.trans hparen)

-- ---------------------------------------------------------------------------
-- Modifiers piece by piece
-- ---------------------------------------------------------------------------

/-- The text `a` gives the modifiers `ms` before anything that begins like `s`, and at the end. -/
def Passes (a s : Text) (ms : List Modifier) : Prop :=
  ∀ x, x = [] ∨ x.head? = s.head? → modifierTokens (a ++ x) = ms ++ modifierTokens x

theorem Passes.nil (s : Text) : Passes [] s [] :=
  fun _ _ => rfl

theorem Passes.append (ha : Passes a (b ++ s) ms) (hb : Passes b s ns) (hne : b ≠ []) :
    Passes (a ++ b) s (ms ++ ns) := by
  intro x hx
  have hhead : (b ++ x).head? = (b ++ s).head? := by
    obtain ⟨c, b, rfl⟩ := List.exists_cons_of_ne_nil hne
    rfl
  rw [List.append_assoc, ha (b ++ x) (.inr hhead), hb x hx, List.append_assoc]

theorem Passes.modifierTokens_eq (h : Passes a s ms) : modifierTokens a = ms := by
  have hnil : modifierTokens [] = [] := by
    rw [modifierTokens]
    rfl
  simpa [hnil] using h [] (.inl rfl)

theorem passes_stretch (h : ∀ x, afterStretch? (a ++ x) = some (k, x)) (s : Text) :
    Passes a s [] :=
  fun x _ => modifierTokens_stretch (h x)

theorem passes_inert {a r : Text} (hr : r ≠ []) (h : afterInert? (a ++ r) = some r) :
    Passes a r [] := by
  induction h using inert_induct hr with
  | last k t ht => exact passes_stretch ht r
  | more k t b ht hb _ ih => exact (passes_stretch ht _).append ih (ne_nil_of_afterInert? hb)

theorem passes_blank (hc : isBlank c = true) (s : Text) : Passes [c] s [] := by
  intro x _
  rw [List.singleton_append, modifierTokens_code (not_opensInert_of_isBlank hc), if_pos hc]
  rfl

theorem passes_word (hne : n ≠ []) (hn : n.all isNameChar = true)
    (hs : s.head?.any isNameChar = false) : Passes n s [.word n] := by
  intro x hx
  refine modifierTokens_run hne hn ?_
  rcases hx with rfl | hx
  · rfl
  · rwa [hx]

theorem passes_atSign (hr : r ≠ []) (h : Template.afterAtSign (a ++ r) = r) :
    Passes ('@' :: a) r [.atSign] := by
  intro x hx
  rw [List.cons_append, modifierTokens_code rfl, if_neg (by decide), if_pos rfl,
    afterAtSign_swap hr h hx]
  rfl

end Text

-- ---------------------------------------------------------------------------
-- Sharing modes
-- ---------------------------------------------------------------------------

namespace Modifier

/-- Whether `sharing` has to follow. -/
def isLead : Modifier → Bool
  | word n => ["with".toList, "without".toList, "inherited".toList].contains n
  | _ => false

theorem isLead_word (n : Text) : (word n).isLead = Template.isSharingLead n := by
  rw [Bool.eq_iff_iff]
  simp [isLead, Template.isSharingLead, or_assoc]

def isProper : Modifier → Bool
  | word n => n.isName
  | atSign => true
  | other _ => false

end Modifier

/-- Every `sharing` stands right behind a word that leads to it, and every such word right before
`sharing`. -/
structure SharingModes (ms : List Modifier) : Prop where
  preceded : ∀ front back, ms = front ++ .word "sharing" :: back →
    ∃ m, front.getLast? = some m ∧ m.isLead = true
  followed : ∀ front m back, ms = front ++ m :: back → m.isLead = true →
    back.head? = some (.word "sharing")

variable {ms front back : List Modifier} {m l : Modifier}

theorem concat_eq_append_cons (h : ms ++ [m] = front ++ l :: back) :
    back = [] ∧ front = ms ∧ l = m ∨ ∃ rest, back = rest ++ [m] ∧ ms = front ++ l :: rest := by
  rcases List.eq_nil_or_concat' back with rfl | ⟨rest, x, rfl⟩
  · obtain ⟨rfl, hm⟩ := List.append_inj' h rfl
    exact .inl ⟨rfl, rfl, (List.cons.inj hm).1.symm⟩
  · rw [← List.cons_append, ← List.append_assoc] at h
    obtain ⟨hms, hm⟩ := List.append_inj' h rfl
    exact .inr ⟨rest, by rw [(List.cons.inj hm).1], hms⟩

theorem SharingModes.nil : SharingModes [] :=
  ⟨fun front back h => by simp at h, fun front m back h => by simp at h⟩

theorem SharingModes.push (h : SharingModes ms) (hm : m ≠ .word "sharing")
    (hlead : m.isLead = false) : SharingModes (ms ++ [m]) := by
  refine ⟨fun front back heq => ?_, fun front l back heq hl => ?_⟩
  · rcases concat_eq_append_cons heq with ⟨-, -, hl⟩ | ⟨rest, -, hms⟩
    · exact absurd hl.symm hm
    · exact h.preceded front rest hms
  · rcases concat_eq_append_cons heq with ⟨-, -, rfl⟩ | ⟨rest, rfl, hms⟩
    · rw [hlead] at hl
      cases hl
    · rw [List.head?_append, h.followed front l rest hms hl]
      rfl

theorem SharingModes.pair (h : SharingModes ms) (hlead : m.isLead = true) :
    SharingModes (ms ++ [m] ++ [.word "sharing"]) := by
  have hne : m ≠ .word "sharing" := by
    rintro rfl
    exact absurd hlead (by decide)
  refine ⟨fun front back heq => ?_, fun front l back heq hl => ?_⟩
  · rcases concat_eq_append_cons heq with ⟨-, rfl, -⟩ | ⟨rest, -, hms⟩
    · exact ⟨m, by simp, hlead⟩
    · rcases concat_eq_append_cons hms with ⟨-, -, hl⟩ | ⟨inner, -, hinner⟩
      · exact absurd hl.symm hne
      · exact h.preceded front inner hinner
  · rcases concat_eq_append_cons heq with ⟨-, -, rfl⟩ | ⟨rest, rfl, hms⟩
    · exact absurd hl (by decide)
    · rcases concat_eq_append_cons hms with ⟨rfl, -, -⟩ | ⟨inner, rfl, hinner⟩
      · rfl
      · rw [List.append_assoc, List.head?_append, h.followed front l inner hinner hl]
        rfl

end Monomorph
