import Monomorph.Proofs.Modifiers
import Monomorph.Proofs.ParameterLists

/-!
# The search for templates

How a template that is found stands in its text. Its declaration is a run of modifiers, the word
`class`, a gap, the name and the parameter list; the header follows up to the first brace of code,
and then the body (`Layout`). The templates stand one behind the other (`Laid`). The search keeps
the modifiers that it has read right before its place (`Pending`).
-/

namespace Monomorph

namespace Text

variable {s : Text}

inductive IsGap : Text → Prop
  | nil : IsGap []
  | blank {c : Char} {g : Text} : isBlank c = true → IsGap g → IsGap (c :: g)
  | comment {t g : Text} : (∀ x, afterComment? (t ++ x) = some x) → IsGap g → IsGap (t ++ g)

theorem IsGap.blanks {w g : Text} (hw : w.allBlank = true) (hg : IsGap g) : IsGap (w ++ g) := by
  induction w with
  | nil => exact hg
  | cons c w ih =>
    obtain ⟨hc, hw⟩ := Bool.and_eq_true_iff.mp hw
    exact .blank hc (ih hw)

theorem exists_isGap (h : s.afterGap ≠ []) : ∃ g, s = g ++ s.afterGap ∧ IsGap g := by
  fun_induction afterGap s with
  | case1 s r hr ih =>
    obtain ⟨w, hw, hs⟩ := s.exists_blanks
    obtain ⟨g, hg, hgap⟩ := ih h
    have hne : r ≠ [] := by
      rintro rfl
      rw [afterGap] at h
      exact h rfl
    obtain ⟨t, ht⟩ := suffix_of_afterComment? hr
    rw [← ht] at hr hs
    have hcomment (x : Text) : afterComment? (t ++ x) = some x := afterStretch?_eq_comment_iff.mp
      (afterStretch?_swap hne (afterStretch?_eq_comment_iff.mpr hr))
    refine ⟨w ++ (t ++ g), ?_, .blanks hw (.comment hcomment hgap)⟩
    rw [List.append_assoc, List.append_assoc, ← hg]
    exact hs
  | case2 s hr =>
    obtain ⟨w, hw, hs⟩ := s.exists_blanks
    exact ⟨w, hs, by simpa using IsGap.blanks hw .nil⟩

end Text

namespace Template

open Text

variable {length : Nat} {text start keyword s : Text} {t : Template}

-- ---------------------------------------------------------------------------
-- Header and body
-- ---------------------------------------------------------------------------

theorem exists_header (s : Text) : ∃ header, s = header ++ toBody s ∧ '{' ∉ header.brackets := by
  fun_induction toBody s with
  | case1 s r h ih =>
    obtain ⟨header, hr, hbrace⟩ := ih
    obtain ⟨a, rfl⟩ := suffix_of_afterInert? h
    refine ⟨a ++ header, by rw [List.append_assoc, ← hr], ?_⟩
    by_cases hne : r = []
    · have hnil : header = [] := (List.append_eq_nil_iff.mp (hr.symm.trans hne)).1
      have hall := brackets_inert h
      rw [hne, List.append_nil] at hall
      rw [hnil, List.append_nil, hall, brackets_nil]
      exact List.not_mem_nil
    · rw [(Splits.inert hne h header).brackets_append,
        brackets_of_prefix_inert hne h List.prefix_rfl]
      exact hbrace
  | case2 => exact ⟨[], rfl, by simp [brackets_nil]⟩
  | case3 => exact ⟨[], rfl, by simp [brackets_nil]⟩
  | case4 c r h hc ih =>
    obtain ⟨header, hr, hbrace⟩ := ih
    have hcode : afterInert? (c :: header) = none := by
      rw [hr] at h
      exact afterInert?_of_isPrefix h (List.prefix_append ..)
    refine ⟨c :: header, congrArg _ hr, ?_⟩
    rw [brackets_cons hcode, List.mem_append, List.mem_filter, List.mem_singleton]
    rintro (⟨rfl, -⟩ | h)
    · exact hc rfl
    · exact hbrace h

theorem head_toBody (s : Text) : toBody s = [] ∨ (toBody s).head? = some '{' := by
  fun_induction toBody s with
  | case1 s r h ih => exact ih
  | case2 => exact .inl rfl
  | case3 r h => exact .inr rfl
  | case4 c r h hc ih => exact ih

theorem exists_body (s : Text) : ∃ body, s = body ++ s.afterGroup '{' '}' ∧
    (s.afterGroup '{' '}' = [] ∨ IsGroup '{' '}' body) := by
  unfold afterGroup
  cases h : afterGroup? '{' '}' s with
  | none => exact ⟨s, by simp, .inl rfl⟩
  | some r =>
    obtain ⟨g, rfl, hg⟩ := (afterGroup?_iff rfl).mp h
    exact ⟨g, rfl, .inr hg⟩

-- ---------------------------------------------------------------------------
-- Declarations
-- ---------------------------------------------------------------------------

/-- The parts of a template behind the word `class`, with the gaps around its name and what
follows its body. -/
structure Parts (t : Template) (gap space after : Text) : Prop where
  isGap : IsGap gap
  isName : t.className.isName = true
  space_blank : space.allBlank = true
  isList : Parameters.IsList t.bracket t.parameters
  header : '{' ∉ t.header.brackets
  body : t.body = [] ∨ t.body.head? = some '{'
  closed : after = [] ∨ IsGroup '{' '}' t.body

theorem readDeclaration_cases {found : Option Template} {r : { r : Text // r.length ≤ s.length }}
    (h : readDeclaration length start keyword s = .ok (found, r)) :
    r.1 <:+ s ∧ ∀ t ∈ found, ∃ gap space, Parts t gap space r.1 ∧
      s = gap ++ (t.className ++ (space ++ (t.bracket ++ (t.header ++ (t.body ++ r.1))))) ∧
      t.modifiers = (start.upTo keyword).strip ∧
      t.declaration = start.upTo (t.header ++ (t.body ++ r.1)) ∧
      t.span = ⟨offset length start, offset length r.1⟩ := by
  have hgap := (reaches_afterGap s).suffix
  unfold readDeclaration at h
  simp only at h
  split at h
  · cases h
    exact ⟨(List.dropWhile_suffix _).trans hgap, nofun⟩
  · rename_i hname
    have hisName : s.afterGap.nameRun.isName = true := by simpa using hname
    split at h
    · cases h
      exact ⟨(reaches_afterName _).suffix.trans hgap, nofun⟩
    · split at h
      · cases h
      · rename_i params p hread
        cases h
        have hne : s.afterGap ≠ [] := by
          intro hnil
          rw [hnil] at hisName
          cases hisName
        obtain ⟨gap, hs, hisGap⟩ := exists_isGap hne
        obtain ⟨name, space, hparts, hchars, hspace, hhead⟩ := exists_afterName s.afterGap
        obtain ⟨bracket, hbracket, hisList, -⟩ := Parameters.exists_isList hread
        obtain ⟨header, hheader, hbrace⟩ := exists_header p.1
        obtain ⟨body, hbody, hclosed⟩ := exists_body (toBody p.1)
        have hrun : s.afterGap.nameRun = name := by
          rw [hparts, nameRun_append hchars hhead]
        have htext : s = gap ++ (name ++ (space ++ (bracket ++ (header ++ (body ++
            (toBody p.1).afterGroup '{' '}'))))) := by
          rw [← hbody, ← hheader, ← hbracket, ← hparts, ← hs]
        have hsuffix : (toBody p.1).afterGroup '{' '}' <:+ s := by
          refine ⟨gap ++ (name ++ (space ++ (bracket ++ (header ++ body)))), ?_⟩
          simpa only [List.append_assoc] using htext.symm
        have hmid : p.1 = header ++ (body ++ (toBody p.1).afterGroup '{' '}') := by
          rw [← hbody, ← hheader]
        have hopen : body = [] ∨ body.head? = some '{' := by
          cases body with
          | nil => exact .inl rfl
          | cons c body =>
            have hhead := head_toBody p.1
            rw [hbody] at hhead
            exact .inr (hhead.resolve_left (List.cons_ne_nil _ _))
        refine ⟨hsuffix, fun t ht => ?_⟩
        cases ht
        simp only [hrun, upTo_of_eq_append hbracket, upTo_of_eq_append hheader,
          upTo_of_eq_append hbody]
        rw [hrun] at hisName
        exact ⟨gap, space, ⟨hisGap, hisName, hspace, hisList, hbrace, hopen, hclosed⟩, htext,
          trivial, congrArg _ hmid, trivial⟩

-- ---------------------------------------------------------------------------
-- Runs of modifiers
-- ---------------------------------------------------------------------------

/-- The modifiers read so far are in order, where `sharing` tells that the last one leads to that
word. -/
inductive Awaits : Bool → List Modifier → Prop
  | settled {ms : List Modifier} : SharingModes ms → Awaits false ms
  | lead {ms : List Modifier} {m : Modifier} : SharingModes ms → m.isLead = true →
      Awaits true (ms ++ [m])

/-- What the search knows at the place `s`: the modifiers `q` right before it, where they begin,
and that the templates found so far end at `n` at the latest. -/
structure Pending (text : Text) (n : Nat) (run : Option Text) (sharing : Bool)
    (p q s : Text) (ms : List Modifier) : Prop where
  text_eq : text = p ++ (q ++ s)
  le : n ≤ p.length
  run_eq : run = none ∧ q = [] ∧ sharing = false ∨ run = some (q ++ s)
  splits : Splits q s
  passes : Passes q s ms
  awaits : Awaits sharing ms
  proper : ∀ m ∈ ms, m.isProper = true

variable {n : Nat} {run : Option Text} {sharing : Bool} {a p q r : Text} {m : Modifier}
  {ms : List Modifier}

theorem Pending.fresh (htext : text = p ++ s) (hn : n ≤ p.length) :
    Pending text n none false p [] s [] :=
  ⟨htext, hn, .inl ⟨rfl, rfl, rfl⟩, .nil s, .nil s, .settled .nil, nofun⟩

theorem Pending.leave (h : Pending text n run sharing p q s ms) (hr : r <:+ s) :
    ∃ p q ms, Pending text n none false p q r ms := by
  obtain ⟨a, rfl⟩ := hr
  refine ⟨p ++ (q ++ a), [], [], .fresh ?_ ?_⟩
  · rw [h.text_eq, List.append_assoc, List.append_assoc]
  · rw [List.length_append]
    exact Nat.le_add_right_of_le h.le

theorem Pending.unless (h : Pending text n run sharing p q s ms) :
    ∃ p q ms, Pending text n (if sharing then none else run) false p q s ms := by
  cases sharing with
  | true => exact h.leave List.suffix_rfl
  | false => exact ⟨p, q, ms, h⟩

theorem Pending.skip (h : Pending text n run sharing p q s ms) (hs : s = a ++ r) (hne : a ≠ [])
    (hsplits : Splits a r) (hpasses : Passes a r []) :
    ∃ p q ms, Pending text n run sharing p q r ms := by
  subst hs
  rcases h.run_eq with ⟨rfl, -, rfl⟩ | hrun
  · exact h.leave (List.suffix_append ..)
  · refine ⟨p, q ++ a, ms, ?_, h.le, .inr ?_, h.splits.trans hsplits, ?_, h.awaits, h.proper⟩
    · rw [h.text_eq, List.append_assoc]
    · rw [hrun, List.append_assoc]
    · simpa using h.passes.append hpasses hne

theorem Pending.push {next : Bool} (h : Pending text n run sharing p q s ms) (hs : s = a ++ r)
    (hne : a ≠ []) (hsplits : Splits a r) (hpasses : Passes a r [m]) (hm : m.isProper = true)
    (hawaits : Awaits sharing ms → Awaits next (ms ++ [m])) :
    ∃ p q ms, Pending text n (run.or (some s)) next p q r ms := by
  subst hs
  refine ⟨p, q ++ a, ms ++ [m], ?_, h.le, .inr ?_, h.splits.trans hsplits,
    h.passes.append hpasses hne, hawaits h.awaits, ?_⟩
  · rw [h.text_eq, List.append_assoc]
  · rcases h.run_eq with ⟨rfl, rfl, -⟩ | rfl
    · rfl
    · rw [List.append_assoc]
      rfl
  · intro l hl
    rcases List.mem_append.mp hl with hl | hl
    · exact h.proper l hl
    · rw [List.mem_singleton.mp hl, hm]

theorem Pending.word {next : Bool} {c : Char} (h : Pending text n run sharing p q (c :: r) ms)
    (hc : isNameStart c = true)
    (hawaits : Awaits sharing ms → Awaits next (ms ++ [.word (nameRun (c :: r))])) :
    ∃ p q ms, Pending text n (run.or (some (c :: r))) next p q (afterNameRun (c :: r)) ms := by
  have hne := nameRun_ne_nil (r := r) (isNameChar_of_isNameStart hc)
  have hend := head_afterNameRun (c :: r)
  exact h.push (nameRun_append_afterNameRun (c :: r)).symm hne (.word List.all_takeWhile hend)
    (passes_word hne List.all_takeWhile hend) (isName_nameRun hc) hawaits

theorem Awaits.push (hm : m ≠ .word "sharing") (h : Awaits false ms) :
    Awaits m.isLead (ms ++ [m]) := by
  cases h with
  | settled h =>
    cases hlead : m.isLead with
    | true => exact .lead h hlead
    | false => exact .settled (h.push hm hlead)

theorem Awaits.follow (h : Awaits true ms) : Awaits false (ms ++ [.word "sharing"]) := by
  cases h with
  | lead h hlead => exact .settled (h.pair hlead)

-- ---------------------------------------------------------------------------
-- The search
-- ---------------------------------------------------------------------------

/-- How a template stands in a text, between `before` and `after`. Its declaration is a run of
modifiers, the word `class`, a gap, the name and the parameter list. -/
structure Layout (text : Text) (t : Template) (before run gap space after : Text) : Prop
    extends Parts t gap space after where
  text_eq : text = before ++ (t.declaration ++ (t.header ++ (t.body ++ after)))
  span_eq : t.span = ⟨before.length, text.length - after.length⟩
  declaration_eq : t.declaration =
    run ++ ("class".toList ++ (gap ++ (t.className ++ (space ++ t.bracket))))
  modifiers_eq : t.modifiers = run.strip
  run_splits : Splits run "class"
  proper : ∀ m ∈ run.modifierTokens, m.isProper = true
  modes : SharingModes run.modifierTokens
  gap_ne_nil : gap ≠ []
  gap_head : gap.head?.any isNameChar = false

/-- The templates stand one behind the other, from `n` on. -/
structure Laid (text : Text) (n : Nat) (ts : List Template) : Prop where
  layout : ∀ t ∈ ts, ∃ before run gap space after, Layout text t before run gap space after
  le : ∀ t ∈ ts, n ≤ t.span.start
  apart : ts.Pairwise fun t u => t.span.stop ≤ u.span.start

theorem Laid.nil : Laid text n [] :=
  ⟨nofun, nofun, .nil⟩

theorem Laid.cons {before run gap space after : Text} {ts : List Template}
    (ht : Layout text t before run gap space after) (hn : n ≤ before.length)
    (h : Laid text (text.length - after.length) ts) : Laid text n (t :: ts) := by
  have hspan := ht.span_eq
  refine ⟨?_, ?_, ?_⟩
  · rintro u (_ | ⟨_, hu⟩)
    · exact ⟨_, _, _, _, _, ht⟩
    · exact h.layout u hu
  · have hlength : before.length ≤ text.length - after.length := by
      have := congrArg List.length ht.text_eq
      simp only [List.length_append] at this
      omega
    rintro u (_ | ⟨_, hu⟩)
    · rwa [hspan]
    · exact Nat.le_trans hn (Nat.le_trans hlength (h.le u hu))
  · refine .cons (fun u hu => ?_) h.apart
    rw [hspan]
    exact h.le u hu

theorem reaches_afterAtSign (r : Text) : Reaches r (afterAtSign r) := by
  unfold afterAtSign
  split
  · rcases (reaches_afterName r).closes_afterGroup with h | h
    · exact .inl h
    · exact h.reaches rfl (by decide) rfl
  · exact reaches_afterName r

theorem Pending.layout {found : Option Template} {k : Text}
    {r : { r : Text // r.length ≤ k.length }} (h : Pending text n run false p q s ms)
    (hs : s = "class".toList ++ k) (hk : k.head?.any isNameChar = false)
    (hread : readDeclaration text.length (run.getD s) s k = .ok (found, r)) (ht : t ∈ found) :
    ∃ gap space, Layout text t p q gap space r.1 := by
  obtain ⟨gap, space, hparts, htext, hmods, hdecl, hspan⟩ := (readDeclaration_cases hread).2 t ht
  have hrun : run.getD s = q ++ s := by
    rcases h.run_eq with ⟨rfl, rfl, -⟩ | rfl <;> rfl
  rw [hrun] at hmods hdecl hspan
  have hgap : gap ≠ [] := by
    rintro rfl
    obtain ⟨c, m, hm, hc, -⟩ := isName_iff.mp hparts.isName
    rw [htext, hm] at hk
    exact absurd (isNameChar_of_isNameStart hc) (Bool.eq_false_iff.mp hk)
  have hhead : gap.head?.any isNameChar = false := by
    rw [htext] at hk
    obtain ⟨c, gap, rfl⟩ := List.exists_cons_of_ne_nil hgap
    exact hk
  have hwhole : q ++ s =
      (q ++ ("class".toList ++ (gap ++ (t.className ++ (space ++ t.bracket))))) ++
        (t.header ++ (t.body ++ r.1)) := by
    simp only [List.append_assoc]
    rw [← htext, ← hs]
  rw [upTo_of_eq_append hwhole] at hdecl
  rw [upTo_append] at hmods
  have hpasses := h.passes.modifierTokens_eq
  refine ⟨gap, space, hparts, ?_, ?_, hdecl, hmods, ?_, ?_, ?_, hgap, hhead⟩
  · rw [hdecl, ← hwhole, h.text_eq]
  · rw [hspan, offset, offset, h.text_eq]
    simp
  · exact h.splits.congr (by rw [hs]; rfl)
  · rw [hpasses]
    exact h.proper
  · rw [hpasses]
    cases h.awaits with
    | settled h => exact h

theorem scan_nil {length : Nat} {dotted : Bool} : scan length run sharing dotted [] = .ok [] := by
  rw [scan]
  rfl

/-- The recursion is that of the search. Where nothing is left of the text, nothing is found. -/
theorem laid_of_scan {dotted : Bool} {ts : List Template}
    (h : scan text.length run sharing dotted s = .ok ts)
    (hp : Pending text n run sharing p q s ms) : Laid text n ts := by
  fun_induction scan text.length run sharing dotted s generalizing ts n p q ms with
  | case1 run sharing dotted s r hr ih =>
    by_cases hne : r = []
    · rw [hne, scan_nil] at h
      cases h
      exact .nil
    · obtain ⟨a, rfl⟩ := suffix_of_afterInert? hr
      obtain ⟨p, q, ms, hp⟩ :=
        hp.skip rfl (ne_nil_of_afterInert? hr) (.inert hne hr r) (passes_inert hne hr)
      exact ih h hp
  | case2 =>
    cases h
    exact .nil
  | case3 run sharing dotted c r hi hblank ih =>
    obtain ⟨p, q, ms, hp⟩ :=
      hp.skip (a := [c]) rfl (by simp) (.blank hblank r) (passes_blank hblank r)
    exact ih h hp
  | case4 run sharing dotted r =>
    rename_i ih
    obtain ⟨p, q, ms, hp⟩ := hp.unless
    rcases reaches_afterAtSign r with hnil | ⟨a, hr, hsplits⟩
    · rw [hnil, scan_nil] at h
      cases h
      exact .nil
    · by_cases hne : afterAtSign r = []
      · rw [hne, scan_nil] at h
        cases h
        exact .nil
      obtain ⟨p, q, ms, hp⟩ := hp.push (a := '@' :: a) (congrArg _ hr) (by simp)
        (Splits.trans (a := ['@']) (.mark (afterInert?_eq_none rfl) rfl) hsplits)
        (passes_atSign hne (by rw [← hr])) rfl (Awaits.push (by simp))
      exact ih h hp
  | case5 run sharing dotted c r =>
    rename_i ih
    obtain ⟨p, q, ms, hp⟩ := hp.leave (List.dropWhile_suffix _)
    exact ih h hp
  | case6 run sharing dotted c r =>
    rename_i hstart hword ih
    cases sharing with
    | false =>
      obtain ⟨p, q, ms, hp⟩ := hp.leave (List.dropWhile_suffix _)
      exact ih h hp
    | true =>
      have hnext (h : Awaits true ms) : Awaits false (ms ++ [.word (nameRun (c :: r))]) := by
        rw [show nameRun (c :: r) = "sharing" from hword]
        exact h.follow
      obtain ⟨p, q, ms, hp⟩ := hp.word (by simpa using hstart) hnext
      exact ih h hp
  | case7 run sharing dotted c r =>
    rename_i hstart hword _ _ ih
    obtain ⟨p, q, ms, hp⟩ := hp.unless
    have hne : Modifier.word (nameRun (c :: r)) ≠ .word "sharing" := by simpa using hword
    obtain ⟨p, q, ms, hp⟩ := hp.word (by simpa using hstart) (Awaits.push hne)
    rw [Modifier.isLead_word] at hp
    exact ih h hp
  | case8 => cases h
  | case9 => cases h
  | case10 run sharing dotted c r =>
    rename_i hclass found t hread more hmore ih
    cases h
    obtain ⟨p, q, ms, hp⟩ := hp.unless
    have hs : c :: r = "class".toList ++ afterNameRun (c :: r) := by
      have hword : nameRun (c :: r) = "class" := by
        by_contra hne
        exact hclass (.inl hne)
      rw [← hword, nameRun_append_afterNameRun]
    obtain ⟨hsuffix, -⟩ := readDeclaration_cases hread
    have hrest : t.1 <:+ c :: r := hsuffix.trans (List.dropWhile_suffix _)
    cases found with
    | none =>
      obtain ⟨p, q, ms, hp⟩ := hp.leave hrest
      exact ih hmore hp
    | some u =>
      obtain ⟨gap, space, hu⟩ := hp.layout hs (head_afterNameRun _) hread rfl
      obtain ⟨b, hb⟩ := hrest
      have htext : text = (p ++ (q ++ b)) ++ t.1 := by
        rw [hp.text_eq, ← hb, List.append_assoc, List.append_assoc]
      have hlength : text.length - t.1.length = (p ++ (q ++ b)).length := by
        rw [htext, List.length_append, Nat.add_sub_cancel]
      exact .cons hu hp.le (ih hmore (.fresh htext (Nat.le_of_eq hlength)))
  | case11 run sharing dotted c r =>
    rename_i ih
    obtain ⟨p, q, ms, hp⟩ := hp.leave (List.suffix_cons c r)
    exact ih h hp

theorem laid_of_find {ts : Table Text Template} (h : find text = .ok ts) :
    ∃ found, Laid text 0 found ∧ ts = .ofList (found.map fun t => (t.className, t)) := by
  unfold find at h
  split at h
  · cases h
  · rename_i found hscan
    cases h
    exact ⟨found, laid_of_scan hscan (.fresh (p := []) rfl (Nat.zero_le _)), rfl⟩

theorem layout_of_find {ts : Table Text Template} (h : find text = .ok ts) (ht : t ∈ ts.values) :
    ∃ before run gap space after, Layout text t before run gap space after := by
  obtain ⟨found, hlaid, rfl⟩ := laid_of_find h
  exact hlaid.layout t (Table.mem_of_mem_values_ofList ht)

end Template

end Monomorph
