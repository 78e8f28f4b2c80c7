import Monomorph.Proofs.MethodSearch
import Monomorph.Proofs.ParameterLists

/-!
# Parts of a method signature

The signature of a generic method that is found begins with modifiers, with comments and literals
between them; its parameter list follows, and then the rest up to the parenthesis that ends it
(`signature_of_find`). While it reads modifiers, the search keeps those right before its place
(`Led`).
-/

namespace Monomorph

open Text

theorem Text.head_dropBlank_append {c : Char} (hc : isBlank c = false) (a x : Text) :
    (dropBlank (a ++ c :: x)).head? = (dropBlank (a ++ [c])).head? := by
  have hdrop (x : Text) : dropBlank (a ++ c :: x) = dropBlank a ++ c :: x :=
    dropBlank_append_right (r := c :: x) hc a
  rw [hdrop, hdrop]
  cases dropBlank a <;> rfl

namespace GenericMethod

variable {length keep : Nat} {owner : Text} {run : Option Text} {a q s r : Text} {c : Char}
  {m : GenericMethod} {ms : List GenericMethod}

def isModifier : Token → Bool
  | .word n => modifierWords.contains n
  | .inert => true
  | .mark _ => false

/-- What stands before and behind the parameter list of a method. -/
structure Signature (m : GenericMethod) (front back : Text) : Prop where
  signature_eq : m.signature = front ++ (m.bracket ++ back)
  isList : Parameters.IsList m.bracket m.parameters
  isName : m.name.isName = true
  front_eq : ∃ q n w, front = q ++ (n ++ w) ∧ Splits q n ∧ n ∈ modifierWords ∧ w.allBlank = true
  front_closed : Closed front
  modifiers : front.tokens.all isModifier = true
  bracket_splits : Splits m.bracket back
  back_head : back.dropBlank.head?.any isNameChar = true →
    back.dropBlank.head?.any isNameStart = true

theorem Signature.identifiers_bracket {front back : Text} (h : Signature m front back) :
    m.bracket.identifiers = m.parameters := by
  rw [identifiers, h.isList.words_eq, List.filter_eq_self]
  exact h.isList.isName

theorem Signature.front_of_getLast {front back : Text} (h : Signature m front back)
    (hlast : front.getLast?.any isNameChar = true) :
    ∃ q n, front = q ++ n ∧ Splits q n ∧ n ∈ modifierWords := by
  obtain ⟨q, n, w, rfl, hq, hn, hw⟩ := h.front_eq
  obtain rfl : w = [] := by
    by_contra hne
    rw [← List.append_assoc, List.getLast?_append_of_ne_nil _ hne,
      List.getLast?_eq_some_getLast hne] at hlast
    have hblank := List.all_eq_true.mp hw _ (List.getLast_mem hne)
    rw [Option.any_some, not_isNameChar_of_isBlank hblank] at hlast
    cases hlast
  exact ⟨q, n, by rw [List.append_nil], hq, hn⟩

theorem Signature.back_of_head {front back : Text} (h : Signature m front back)
    (hhead : back.dropBlank.head?.any isNameChar = true) :
    ∃ k r, back.dropBlank = k ++ r ∧ k.isName = true ∧ r.head?.any isNameChar = false := by
  have hstart := h.back_head hhead
  cases hd : back.dropBlank with
  | nil =>
    rw [hd] at hstart
    cases hstart
  | cons c r =>
    rw [hd] at hstart
    exact ⟨_, _, (nameRun_append_afterNameRun (c :: r)).symm, isName_nameRun hstart,
      head_afterNameRun _⟩

theorem isName_skipReturnType {depth : Nat} {n : Text}
    (h : (skipReturnType keep depth s).1 = some n) : n.isName = true := by
  fun_induction skipReturnType keep depth s with
  | case1 | case2 | case9 => cases h
  | case3 | case4 | case5 | case7 | case8 =>
    rename_i ih
    rw [‹skipReturnType _ _ _ = _›] at ih
    exact ih h
  | case6 =>
    cases h
    exact isName_nameRun ‹isNameStart _ = true›

theorem head_skipReturnType {depth : Nat} {n : Text}
    (h : (skipReturnType keep depth s).1 = some n)
    (hs : s.dropBlank.head?.any isNameChar = true) : s.dropBlank.head?.any isNameStart = true := by
  have hgap := afterGap_of_head hs
  rw [← hgap] at hs ⊢
  revert h
  fun_cases skipReturnType keep depth s with
  | case1 | case2 | case9 => exact nofun
  | case3 | case4 =>
    rw [‹s.afterGap = _›] at hs
    cases hs
  | case5 _ _ c r hr _ _ _ hmark =>
    rw [hr] at hs
    rcases hmark with rfl | rfl | rfl | rfl <;> cases hs
  | case6 _ _ c r hr | case7 _ _ c r hr | case8 _ _ c r hr =>
    rw [hr]
    exact fun _ => ‹isNameStart c = true›

theorem tokens_inert {a r : Text} (hr : r ≠ []) (h : afterInert? (a ++ r) = some r) :
    a.tokens.all isModifier = true := by
  induction h using inert_induct hr with
  | last k t ht =>
    have htokens := tokens_stretch (ht [])
    rw [List.append_nil, tokens_nil] at htokens
    rw [htokens]
    rfl
  | more k t b ht _ _ ih =>
    rw [tokens_stretch (ht b), List.all_cons, ih]
    rfl

/-- The modifiers `q` right before the place `s`, and where they begin. -/
structure Led (run : Option Text) (q s : Text) : Prop where
  run_eq : run = none ∧ q = [] ∨ run = some (q ++ s)
  splits : Splits q s
  modifiers : q.tokens.all isModifier = true

theorem Led.fresh (s : Text) : Led none [] s :=
  ⟨.inl ⟨rfl, rfl⟩, .nil s, by rw [tokens_nil]; rfl⟩

theorem Led.append (h : Led run q (a ++ s)) (hne : a ≠ []) (ha : Splits a s)
    (htokens : a.tokens.all isModifier = true) : Splits (q ++ a) s ∧
      (q ++ a).tokens.all isModifier = true := by
  have hqa : Splits q a := by
    obtain ⟨c, a, rfl⟩ := List.exists_cons_of_ne_nil hne
    exact h.splits.congr rfl
  refine ⟨h.splits.trans ha, ?_⟩
  rw [hqa.tokens_append, List.all_append, h.modifiers, htokens]
  rfl

theorem Led.skip (h : Led run q (a ++ s)) (hne : a ≠ []) (ha : Splits a s)
    (htokens : a.tokens.all isModifier = true) : ∃ q, Led run q s := by
  rcases h.run_eq with ⟨rfl, -⟩ | hrun
  · exact ⟨[], .fresh s⟩
  · obtain ⟨hsplits, hmods⟩ := h.append hne ha htokens
    exact ⟨q ++ a, .inr (by rw [hrun, List.append_assoc]), hsplits, hmods⟩

theorem Led.getD (h : Led run q s) : run.getD s = q ++ s := by
  rcases h.run_eq with ⟨rfl, rfl⟩ | rfl <;> rfl

theorem exists_modifierBlanks (hs : s.nameRun ∈ modifierWords) : ∃ w, w.allBlank = true ∧
    s = s.nameRun ++ w ++ s.afterName ∧ Splits (s.nameRun ++ w) s.afterName ∧
    (tokens (s.nameRun ++ w)).all isModifier = true := by
  obtain ⟨w, hw, hrest⟩ := s.afterNameRun.exists_blanks
  have hhead := s.head_afterNameRun
  rw [hrest] at hhead
  obtain ⟨c, r, hname, -, hall⟩ := exists_modifier hs
  have hne : s.nameRun ≠ [] := by
    rw [hname]
    exact List.cons_ne_nil _ _
  refine ⟨w, hw, ?_, Splits.trans (.word hall hhead) (.blanks hw _), ?_⟩
  · rw [List.append_assoc, afterName, ← hrest, nameRun_append_afterNameRun]
  · have hend : w.head?.any isNameChar = false := by
      cases w with
      | nil => rfl
      | cons c w => exact hhead
    rw [tokens_run hne hall hend, tokens_blanks hw]
    simpa [isModifier] using hs

theorem Led.modifier (h : Led run q s) (hs : s.nameRun ∈ modifierWords) :
    ∃ w, w.allBlank = true ∧ s = s.nameRun ++ w ++ s.afterName ∧
      Led (some (run.getD s)) (q ++ (s.nameRun ++ w)) s.afterName := by
  obtain ⟨w, hw, hparts, hsplits, htokens⟩ := exists_modifierBlanks hs
  have hne : s.nameRun ++ w ≠ [] := by
    obtain ⟨c, r, hname, -⟩ := exists_modifier hs
    rw [hname]
    exact List.cons_ne_nil _ _
  have hled : Led run q (s.nameRun ++ w ++ s.afterName) := by rwa [← hparts]
  obtain ⟨hall, hmods⟩ := hled.append hne hsplits htokens
  refine ⟨w, hw, hparts, .inr ?_, hall, hmods⟩
  rw [h.getD, List.append_assoc, ← hparts]

theorem scan_nil : scan length keep owner run [] = .ok [] := by
  have hle : ([] : Text).length ≤ keep := Nat.zero_le _
  rw [scan, if_pos hle]

theorem signature_of_read {params : List Text} {p : Rest s.afterName} {name v : Text}
    {u : { r : Text // r.length ≤ p.1.length }} (hq : Led run q s)
    (hs : s.nameRun ∈ modifierWords) (hread : Parameters.read true s.afterName = .ok (params, p))
    (hskip : skipReturnType keep 0 p.1 = (some name, u))
    (hclose : afterGroup? '(' ')' u.1 = some v) (hname : m.name = name)
    (hparams : m.parameters = params) (hsignature : m.signature = (run.getD s).upTo v)
    (hbracket : m.bracket = s.afterName.upTo p.1) : ∃ front back, Signature m front back := by
  obtain ⟨w, hw, hparts, hfront⟩ := hq.modifier hs
  obtain ⟨bracket, hb, hisList, hends⟩ := Parameters.exists_isList hread
  have hreturn : (skipReturnType keep 0 p.1).1 = some name := congrArg Prod.fst hskip
  have hreach := reaches_skipReturnType keep 0 p.1
  rw [hskip] at hreach
  obtain ⟨a, ha, -⟩ := hreach.closes (closes_of_afterGroup? hclose)
  have hwhole : run.getD s = (q ++ (s.nameRun ++ w) ++ (bracket ++ (a ++ [')']))) ++ v :=
    calc run.getD s = q ++ s := hq.getD
      _ = q ++ (s.nameRun ++ w ++ s.afterName) := congrArg (q ++ ·) hparts
      _ = q ++ (s.nameRun ++ w ++ (bracket ++ p.1)) :=
        congrArg (fun x => q ++ (s.nameRun ++ w ++ x)) hb
      _ = q ++ (s.nameRun ++ w ++ (bracket ++ (a ++ ')' :: v))) :=
        congrArg (fun x => q ++ (s.nameRun ++ w ++ (bracket ++ x))) ha
      _ = _ := by simp only [List.append_assoc, List.cons_append, List.nil_append]
  have hlist : m.bracket = bracket := hbracket.trans (upTo_of_eq_append hb)
  have hends : Splits bracket p.1 := hends.resolve_left (by simp [ha])
  have hheads : (a ++ [')']).head? = p.1.head? := by
    rw [ha]
    cases a <;> rfl
  refine ⟨q ++ (s.nameRun ++ w), a ++ [')'], ?_, ?_, hname ▸ isName_skipReturnType hreturn, ?_,
    hfront.splits.closed, hfront.modifiers, hlist ▸ hends.congr hheads, ?_⟩
  · rw [hsignature, hlist]
    exact upTo_of_eq_append hwhole
  · rw [hlist, hparams]
    exact hisList
  · refine ⟨q, s.nameRun, w, rfl, hq.splits.congr ?_, hs, hw⟩
    obtain ⟨c, r, hrun, -⟩ := exists_modifier hs
    have happend := nameRun_append_afterNameRun s
    rw [hrun] at happend
    rw [hrun, ← happend]
    rfl
  · have hsame : p.1.dropBlank.head? = (dropBlank (a ++ [')'])).head? := by
      rw [ha, head_dropBlank_append rfl]
    rw [← hsame]
    exact head_skipReturnType hreturn

/-- The recursion is that of the search. -/
theorem exists_signature (h : scan length keep owner run s = .ok ms) (hq : Led run q s) :
    ∀ m ∈ ms, ∃ front back, Signature m front back := by
  fun_induction scan length keep owner run s generalizing ms q with
  | case1 | case3 | case9 =>
    cases h
    simp
  | case7 | case11 => cases h
  | case2 run s _ r hi ih =>
    by_cases hr : r = []
    · rw [hr, scan_nil] at h
      cases h
      simp
    · obtain ⟨a, rfl⟩ := suffix_of_afterInert? hi
      obtain ⟨q, hq⟩ :=
        hq.skip (ne_nil_of_afterInert? hi) (.inert hr hi r) (tokens_inert hr hi)
      exact ih h hq
  | case4 run c r _ hb _ ih =>
    have htokens : (tokens [c]).all isModifier = true := by
      rw [tokens_blank hb, tokens_nil]
      rfl
    obtain ⟨q, hq⟩ := hq.skip (a := [c]) (by simp) (.blank hb r) htokens
    exact ih h hq
  | case6 run c r _ _ _ hmod =>
    rename_i ih
    obtain ⟨w, -, -, hq⟩ := hq.modifier (by simpa using hmod)
    exact ih h hq
  | case5 | case8 | case10 | case13 =>
    rename_i ih
    exact ih h (.fresh _)
  | case12 run c r _ _ _ hmod _ _ _ params p hread name u hu v hv =>
    rename_i hmore _ ih
    cases h
    intro m hm
    rcases List.mem_cons.mp hm with rfl | hm
    · exact signature_of_read hq (by simpa using hmod) hread hu hv rfl rfl rfl rfl
    · exact ih hmore (.fresh _) m hm

theorem signature_of_find {text : Text} {start : Int} {stop : Option Int}
    {ms : Table Text GenericMethod} (h : find text owner start stop = .ok ms)
    (hm : m ∈ ms.values) : ∃ front back, Signature m front back := by
  unfold find at h
  simp only at h
  split at h
  · cases h
  · rename_i found hscan
    cases h
    exact exists_signature hscan (.fresh _) m (Table.mem_of_mem_values_ofList hm)

end GenericMethod

end Monomorph
