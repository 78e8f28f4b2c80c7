import Monomorph.Proofs.MethodsCut
import Monomorph.Proofs.Nesting

/-!
# Nested brackets in the output

A generic method that is found in a text with nested brackets is a nested part of it
(`GenericMethod.nests_of_scan`), and names and literals of usages hold no brackets. So when methods
are cut out and usages get concrete names, brackets stay nested (`Expansion.wellNested_output`).
-/

namespace Monomorph

open Text Bracket

-- ---------------------------------------------------------------------------
-- Methods are nested
-- ---------------------------------------------------------------------------

namespace GenericMethod

variable {text owner s r t : Text} {keep length : Nat} {run : Option Text}
  {ms : List GenericMethod} {xs : List Text}

/-- A search stands in a text behind a run of modifiers without brackets. -/
structure Carried (text : Text) (run : Option Text) (s : Text) : Prop where
  suffix : s <:+ text
  start_suffix : run.getD s <:+ text
  brackets_eq : brackets (run.getD s) = brackets s

theorem Carried.start (h : s <:+ text) : Carried text none s :=
  ⟨h, h, rfl⟩

theorem Carried.pass (h : Carried text run s) (hr : r <:+ s) (heq : brackets s = brackets r) :
    Carried text run r := by
  cases run with
  | none => exact .start (hr.trans h.suffix)
  | some t => exact ⟨hr.trans h.suffix, h.start_suffix, h.brackets_eq.trans heq⟩

theorem drop_offset (h : s <:+ text) : text.drop (offset text.length s) = s := by
  obtain ⟨a, rfl⟩ := h
  simp [offset]

theorem brackets_candidate {params : List Text} {p : Rest s.afterName} {name : Option Text}
    {u : {r : Text // r.length ≤ p.1.length}}
    (hread : Parameters.read true s.afterName = .ok (params, p))
    (hskip : skipReturnType keep 0 p.1 = (name, u)) : brackets s = brackets u.1 := by
  have hreturn := brackets_skipReturnType keep 0 p.1
  rw [hskip] at hreturn
  exact (brackets_afterName s).trans ((Parameters.brackets_of_read hread).trans hreturn)

theorem suffix_candidate {params : List Text} {p : Rest s.afterName} {name : Option Text}
    {u : {r : Text // r.length ≤ p.1.length}} (hs : s.nameRun ∈ modifierWords)
    (hread : Parameters.read true s.afterName = .ok (params, p))
    (hskip : skipReturnType keep 0 p.1 = (name, u)) : u.1 <:+ s := by
  obtain ⟨t, ht, hreach⟩ := exists_opens hs hread hskip
  exact (ht.reaches.trans hreach).suffix

theorem nests_of_scan (hlength : length = text.length) (hcarried : Carried text run s)
    (h : scan length keep owner run s = .ok ms) :
    ∀ m ∈ ms, Nests (text.drop m.span.start) (text.drop m.span.stop) := by
  fun_induction scan length keep owner run s generalizing ms with
  | case1 | case3 | case9 =>
    cases h
    simp
  | case2 run s _ r hi ih =>
    exact ih (hcarried.pass (suffix_of_afterInert? hi) (brackets_inert hi)) h
  | case4 run c r hi hb _ ih =>
    exact ih (hcarried.pass (List.suffix_cons ..)
      (brackets_other hi (not_isBracket_of_isBlank hb))) h
  | case5 run c r _ _ hc hmod _ ih =>
    exact ih (.start ((reaches_afterNameRun _).suffix.trans hcarried.suffix)) h
  | case6 run c r _ _ _ hmod =>
    rename_i ih
    have hsuffix := (reaches_afterName (c :: r)).suffix
    refine ih ⟨hsuffix.trans hcarried.suffix, hcarried.start_suffix, ?_⟩ h
    exact hcarried.brackets_eq.trans (brackets_afterName _)
  | case7 | case11 => cases h
  | case8 run c r _ _ _ hmod _ _ params p hread u hu =>
    rename_i ih
    have hsuffix := suffix_candidate (by simpa using hmod) hread hu
    exact ih (.start (hsuffix.trans hcarried.suffix)) h
  | case10 run c r _ _ _ hmod _ _ params p hread name u hu v hv =>
    rename_i ih
    have hsuffix := (closes_of_afterGroup? hv).suffix.trans
      (suffix_candidate (by simpa using hmod) hread hu)
    exact ih (.start ((reaches_afterGap v).suffix.trans (hsuffix.trans hcarried.suffix))) h
  | case12 run c r _ _ _ hmod _ _ _ params p hread name u hu v hv =>
    rename_i hbrace _ more hmore _ ih
    have hsuffix := (closes_of_afterGroup? hv).suffix.trans
      (suffix_candidate (by simpa using hmod) hread hu)
    have hstop : afterGroup '{' '}' v.afterGap <:+ text :=
      (afterGroup_suffix ..).trans
        ((reaches_afterGap v).suffix.trans (hsuffix.trans hcarried.suffix))
    have hnests : Nests (run.getD (c :: r)) (afterGroup '{' '}' v.afterGap) := by
      have hsignature := Nests.of_eq (hcarried.brackets_eq.trans (brackets_candidate hread hu))
      have hparen := hsignature.trans (nests_of_afterGroup? rfl hv)
      exact (hparen.trans (.of_eq (brackets_afterGap v))).trans
        (nests_afterGroup rfl (by simpa using hbrace))
    cases h
    refine List.forall_mem_cons.mpr ⟨?_, ih (.start hstop) hmore⟩
    rw [hlength, drop_offset hcarried.start_suffix, drop_offset hstop]
    exact hnests
  | case13 run c r hi hb hc _ ih =>
    exact ih (.start ((List.suffix_cons ..).trans hcarried.suffix)) h

-- ---------------------------------------------------------------------------
-- Some of the methods are cut
-- ---------------------------------------------------------------------------

variable {a b p x : Text} {m : GenericMethod}

theorem Unmodified.append (h : Splits p x) (hp : Unmodified p) (hx : Unmodified x) :
    Unmodified (p ++ x) := by
  intro n hn
  rw [h.tokens_append, List.getLast?_append]
  cases hlast : (tokens x).getLast? with
  | none => exact hp n hn
  | some tok =>
    rw [Option.some_or, ← hlast]
    exact hx n hn

theorem splits_brace (ha : Closed a) (r : Text) :
    Splits (a ++ ['}']) r ∧ Unmodified (a ++ ['}']) := by
  have hbrace : Splits a (['}'] ++ r) := .before ha (by decide) rfl
  have hmark : Splits ['}'] r := .mark (afterInert?_eq_none rfl) rfl
  have hlast : (tokens ['}']).getLast? = some (.mark '}') := by decide +kernel
  exact ⟨hbrace.trans hmark, unmodified_append hbrace hlast (by simp)⟩

theorem Layout.prepend (h : Layout length owner s ms xs) (hp : Splits p s) (hmod : Unmodified p) :
    ∃ ys, Layout length owner (p ++ s) ms ys := by
  cases h with
  | last x => exact ⟨_, .last _⟩
  | @method x b r m ms xs hx hxmod hb hlast howner hspan hrest =>
    rw [← List.append_assoc]
    exact ⟨_, .method (hp.trans hx) (hmod.append (Splits.of_append hp) hxmod) hb hlast howner hspan
      hrest⟩

theorem Layout.filter (h : Layout length owner s ms xs) (keep : GenericMethod → Bool) :
    ∃ ys, Layout length owner s (ms.filter keep) ys := by
  induction h with
  | last x => exact ⟨_, .last x⟩
  | @method x b r m ms xs hx hmod hb hlast howner hspan hrest ih =>
    obtain ⟨ys, hys⟩ := ih
    cases hm : keep m with
    | true =>
      rw [List.filter_cons_of_pos hm]
      exact ⟨_, .method hx hmod hb hlast howner hspan hys⟩
    | false =>
      rw [List.filter_cons_of_neg (by simp [hm])]
      rcases hlast with rfl | hclose
      · rw [hys.eq_nil.1]
        exact ⟨_, .last _⟩
      · obtain ⟨a, rfl, ha⟩ := exists_of_closes hclose
        obtain ⟨hsplits, hbrace⟩ := splits_brace ha r
        have hgap : Splits (x ++ (a ++ ['}'])) r := hx.trans hsplits
        rw [← List.append_assoc]
        exact hys.prepend hgap (hmod.append (Splits.of_append hx) hbrace)

theorem Layout.slash (h : Layout text.length owner s ms xs)
    (hslash : ∀ m ∈ ms, (lexemes (text.take m.span.start)).getLast? ≠ some (.code '/')) :
    ∀ pre, text = pre ++ s → Splits pre s →
      ∀ x ∈ xs.dropLast, (lexemes x).getLast? ≠ some (.code '/') := by
  induction h with
  | last => simp
  | @method x b r m ms xs hx _ hb hlast _ hspan hrest ih =>
    intro pre htext hpre
    obtain ⟨hm, hms⟩ := List.forall_mem_cons.mp hslash
    rw [List.dropLast_cons_of_ne_nil hrest.ne_nil, List.forall_mem_cons]
    constructor
    · intro hgap
      have hpx : Splits pre x := Splits.of_append hpre
      have hstart : m.span.start = (pre ++ x).length := by rw [span_eq htext hspan]
      rw [hstart, htext, ← List.append_assoc, List.take_left,
        hpx.closed.lexemes_append hpx.slash, List.getLast?_append, hgap] at hm
      exact hm rfl
    · rcases hlast with rfl | hclose
      · simp [hrest.eq_nil.2]
      · obtain ⟨a, rfl, ha⟩ := exists_of_closes hclose
        refine ih hms (pre ++ (x ++ (a ++ ['}']))) (by simp [htext]) ?_
        exact Splits.trans (by simpa using hpre) (hx.trans (splits_brace ha r).1)

theorem Layout.nest? (h : Layout text.length owner s ms xs)
    (hms : ∀ m ∈ ms, Nests (text.drop m.span.start) (text.drop m.span.stop)) (hs : s <:+ text) :
    ∀ stack, Bracket.nest? stack (brackets s) = some [] →
      Bracket.nest? stack (xs.flatMap brackets) = some [] := by
  induction h with
  | last x =>
    intro stack hnest
    simpa using hnest
  | @method x b r m ms xs hx _ _ _ _ hspan _ ih =>
    intro stack hnest
    obtain ⟨hm, hms⟩ := List.forall_mem_cons.mp hms
    have hmethod : b ++ r <:+ text := (List.suffix_append ..).trans hs
    have hrest : r <:+ text := (List.suffix_append ..).trans hmethod
    rw [hspan, drop_offset hmethod, drop_offset hrest] at hm
    rw [hx.brackets_append, nest?_append, Option.bind_eq_some_iff] at hnest
    obtain ⟨inner, hinner, hnest⟩ := hnest
    rw [List.flatMap_cons, nest?_append, hinner, Option.bind_some]
    exact ih hms hrest inner (hm inner hnest)

end GenericMethod

-- ---------------------------------------------------------------------------
-- Concrete names
-- ---------------------------------------------------------------------------

namespace Usage

variable {rule : Text × Text} {ps : List Piece}

theorem Renaming.brackets_literal (h : Renaming rule) : brackets rule.1 = [] := by
  obtain ⟨e, he⟩ := h.isUsage
  obtain ⟨n, us, htokens, hus⟩ := isApplied_of_isUsage he
  refine brackets_eq_nil_of_tokens fun c hc => ?_
  have hc : c ∈ ['<', ',', '>'] := by
    simp only [htokens, List.mem_cons, reduceCtorEq, false_or, Token.mark.injEq] at hc
    rcases hc with rfl | hc
    · simp
    · exact hus c hc
  simp only [List.mem_cons, List.not_mem_nil, or_false] at hc
  rcases hc with rfl | rfl | rfl <;> rfl

theorem brackets_after (hp : Parted ps) (h : ∀ rule, .put rule ∈ ps → Renaming rule) :
    brackets (ps.flatMap Piece.after) = brackets (ps.flatMap Piece.before) := by
  induction hp with
  | nil | last => rfl
  | @kept t rule ps _ hb _ ih =>
    have ih := ih fun rule hrule => h rule (List.mem_cons_of_mem _ hrule)
    have hrule := h rule (by simp)
    have hafter := tokens_kept hb (hrule.head_name (ps.flatMap Piece.after))
    have hbefore := tokens_kept hb (hrule.head_literal (ps.flatMap Piece.before))
    simp only [List.flatMap_cons, Piece.before, Piece.after, brackets_eq_tokens] at ih ⊢
    rw [hafter, hbefore, List.filterMap_append, List.filterMap_append, ih]
  | @put rule ps _ ih =>
    have ih := ih fun rule hrule => h rule (List.mem_cons_of_mem _ hrule)
    have hrule := h rule (by simp)
    simp only [List.flatMap_cons, Piece.before, Piece.after]
    rw [brackets_names (all_isNameChar_of_isName hrule.isName), ih,
      brackets_eq_tokens (rule.1 ++ _), tokens_literal hrule, List.filterMap_append,
      ← brackets_eq_tokens, ← brackets_eq_tokens, hrule.brackets_literal, List.nil_append]

end Usage

theorem Instance.brackets_flatten (known : Text → Bool) (text : Text) :
    brackets (flatten known text).text = brackets text := by
  obtain ⟨parts, hparted, hbefore, hafter, hfound⟩ := exists_parts known text
  rw [← hafter, Usage.brackets_after hparted, hbefore]
  intro rule hrule
  obtain ⟨e, husage, -, hmangle⟩ := hfound rule hrule
  exact renaming_of_isUsage husage hmangle

namespace Expansion

open GenericMethod

variable {s : Snapshot} {p : Program}

theorem exists_cut (h : Program.scan s = .ok p) {f : SourceFile} (hf : f ∈ p.files)
    (hfile : f.isTemplateFile = false) :
    ∃ owner xs, Layout f.content.length owner f.content f.methods xs ∧
      ∀ m ∈ f.methods, Nests (f.content.drop m.span.start) (f.content.drop m.span.stop) := by
  cases howner : Template.firstClassName? f.content with
  | none =>
    rw [Program.methods_eq_nil h hf hfile howner]
    exact ⟨[], _, .last _, by simp⟩
  | some owner =>
    obtain ⟨ms, gaps, hscan, hlayout, hmethods⟩ := Program.exists_methods h hf hfile howner
    obtain ⟨xs, hxs⟩ := hlayout.filter _
    have hnests := nests_of_scan rfl (.start List.suffix_rfl) hscan
    rw [hmethods]
    exact ⟨owner, xs, hxs, fun m hm => hnests m (mem_lastNamed.mp hm).1⟩

theorem wellNested_stripped (h : Program.scan s = .ok p) {f : SourceFile} (hf : f ∈ p.files)
    (hfile : f.isTemplateFile = false) (hnested : f.content.WellNested)
    (hslash : ∀ m ∈ f.methods,
      (lexemes (f.content.take m.span.start)).getLast? ≠ some (.code '/')) :
    f.stripped.WellNested := by
  obtain ⟨owner, xs, hlayout, hnests⟩ := exists_cut h hf hfile
  have hslashes := hlayout.slash hslash [] rfl (.nil _)
  have hbrackets : brackets f.stripped = xs.flatMap brackets := by
    rw [brackets_eq_tokens, SourceFile.stripped, tokens_cut hlayout hslashes,
      List.filterMap_flatMap, funext brackets_eq_tokens]
  rw [WellNested, hbrackets, nested_iff]
  exact hlayout.nest? hnests List.suffix_rfl [] (nested_iff.mp hnested)

/-- In the output for a file with nested brackets, generic methods are gone, usages have concrete
names, and brackets are nested, unless a slash right before a method opens a comment with what
comes next. -/
theorem wellNested_output (h : Program.scan s = .ok p) (hforced : s.forcedMethods.entries = [])
    {f : SourceFile} (hf : f ∈ p.files) (hfile : f.isTemplateFile = false)
    (hnested : f.content.WellNested)
    (hslash : ∀ m ∈ f.methods,
      (lexemes (f.content.take m.span.start)).getLast? ≠ some (.code '/'))
    (resolver : Resolver) (extension path : Text) (hpath : resolver f.path = .ok path) :
    ∃ text, fileOutcome p resolver f = .output (some f.path) path text ∧
      .output (some f.path) path text ∈ run s resolver extension ∧ text.WellNested := by
  have hout := fileOutcome_eq (p := p) hfile hpath
  refine ⟨_, hout, hout ▸ mem_run h hf, ?_⟩
  rw [text_expandFile h hforced, WellNested, Instance.brackets_flatten]
  exact wellNested_stripped h hf hfile hnested hslash

/-- Brackets in literals and comments, groups in groups, and a usage between two methods. -/
theorem wellNested_output_groups :
    let content : Text := "class Main \x7b\n    public <T> T pick(T a) \x7b if ((a == ')')) " ++
      "\x7b return (a); \x7d \x7d\n    Box<A> box = new Box<A>(); // (\n" ++
      "    static <T> void put(T a) \x7b \x7d\n\x7d\n"
    let s : Snapshot :=
      { files := ⟨[("Box.peak", "class Box<T> { T x; }"), ("Main.peak", content)]⟩ }
    content.WellNested ∧ ∃ p f, Program.scan s = .ok p ∧ f ∈ p.files ∧ f.content = content ∧
      f.methods.map (·.name) = ["pick".toList, "put".toList] ∧
      ∃ text, .output (some f.path) "Main.cls" text ∈
        run s (fun path => .ok (besideSource path)) outputExtension ∧ text.WellNested := by
  intro content s
  have hordered : s.ordered = s.files.entries := List.mergeSort_of_pairwise (by decide +kernel)
  have hnested : content.WellNested := by decide +kernel
  obtain ⟨p, h, f, hf, hfile, hpath, hcontent, hnames, hslash⟩ : ∃ p, Program.scan s = .ok p ∧
      ∃ f ∈ p.files, f.isTemplateFile = false ∧ f.path = "Main.peak".toList ∧
        f.content = content ∧ f.methods.map (·.name) = ["pick".toList, "put".toList] ∧
        ∀ m ∈ f.methods, (lexemes (f.content.take m.span.start)).getLast? ≠ some (.code '/') := by
    refine Program.exists_ok_of_decide ?_
    rw [Program.scan, hordered, Program.withMethods_eq]
    decide +kernel
  obtain ⟨text, -, hmem, htext⟩ := wellNested_output h rfl hf hfile (hcontent ▸ hnested) hslash
    (fun path => .ok (besideSource path)) outputExtension "Main.cls" (by rw [hpath]; rfl)
  exact ⟨hnested, p, f, h, hf, hcontent, hnames, text, hmem, htext⟩

end Expansion

end Monomorph
