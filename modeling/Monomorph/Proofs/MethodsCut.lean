import Monomorph.Expansion
import Monomorph.Proofs.CutLaws
import Monomorph.Proofs.ProgramLaws
import Monomorph.Proofs.RenamedTokens
import Mathlib.Data.List.Nodup

/-!
# Generic methods in the output

Generic methods are kept in a table by owner and name, so of several methods with one name only the
last is cut out of its file (`Program.exists_methods`). Where names are distinct all are, and what
is left of the file has the tokens of the gaps between them. Flattening makes no method out of
that, so none is found in the output (`Expansion.find_output`).
-/

namespace Monomorph

namespace GenericMethod

/-- The methods that have no later one of their name. -/
def lastNamed (ms : List GenericMethod) : List GenericMethod :=
  ms.filter fun m => ms.all fun n => n.name != m.name || decide (n.span.start ≤ m.span.start)

variable {length : Nat} {owner : Text} {ms : List GenericMethod} {m : GenericMethod}

theorem mem_lastNamed : m ∈ lastNamed ms ↔
    m ∈ ms ∧ ∀ n ∈ ms, n.name = m.name → n.span.start ≤ m.span.start := by
  simp only [lastNamed, List.mem_filter, List.all_eq_true, Bool.or_eq_true, bne_iff_ne,
    decide_eq_true_eq, ne_eq, ← imp_iff_not_or]

theorem lastNamed_of_nodup (h : (ms.map (·.name)).Nodup) : lastNamed ms = ms := by
  refine List.filter_eq_self.mpr fun m hm => ?_
  simp only [List.all_eq_true, Bool.or_eq_true, bne_iff_ne, decide_eq_true_eq]
  intro n hn
  by_cases hname : n.name = m.name
  · rw [List.inj_on_of_nodup_map h hn hm hname]
    exact .inr (Nat.le_refl _)
  · exact .inl hname

theorem find_eq_ok_iff {text : Text} {t : Table Text GenericMethod} :
    find text owner 0 none = .ok t ↔ ∃ ms, scan text.length 0 owner none text = .ok ms ∧
      t = .ofList (ms.map fun m => (m.key, m)) := by
  have henter : text.enter 0 = text := text.enter_natCast 0
  simp only [find, Option.getD_none, Int.min_self, Int.toNat_natCast, Nat.sub_self, henter]
  cases scan text.length 0 owner none text with
  | error f => simp
  | ok ms => simp [eq_comm]

theorem Layout.owner_eq {s : Text} {xs : List Text} (h : Layout length owner s ms xs) :
    ∀ m ∈ ms, m.owner = owner := by
  induction h with
  | last => simp
  | method _ _ _ _ howner _ _ ih => exact List.forall_mem_cons.mpr ⟨howner, ih⟩

theorem eq_of_start (hsorted : ms.Pairwise fun m n => m.span.start < n.span.start)
    {n : GenericMethod} (hm : m ∈ ms) (hn : n ∈ ms) (h : m.span.start = n.span.start) : m = n := by
  have hnodup : (ms.map (·.span.start)).Nodup :=
    List.pairwise_map.mpr (hsorted.imp fun hlt => Nat.ne_of_lt hlt)
  exact List.inj_on_of_nodup_map hnodup hm hn h

theorem key_inj {n : GenericMethod} (h : m.owner = n.owner) : m.key = n.key ↔ m.name = n.name := by
  simp [key, h]

theorem mem_values_iff (howner : ∀ m ∈ ms, m.owner = owner)
    (hsorted : ms.Pairwise fun m n => m.span.start < n.span.start) :
    m ∈ (Table.ofList (ms.map fun m => (m.key, m))).values ↔ m ∈ lastNamed ms := by
  have hname {n : GenericMethod} (hm : m ∈ ms) (hn : n ∈ ms) : m.key = n.key ↔ m.name = n.name :=
    key_inj ((howner m hm).trans (howner n hn).symm)
  rw [Table.mem_values, mem_lastNamed]
  simp only [Table.mem_ofList_iff]
  constructor
  -- an entry is the last of its key, and with one owner keys are names
  · rintro ⟨k, l, r, heq, hk⟩
    obtain ⟨l', r', rfl, rfl, hr⟩ := List.map_eq_append_iff.mp heq
    obtain ⟨m', r'', rfl, hm, rfl⟩ := List.map_eq_cons_iff.mp hr
    cases hm
    rw [List.pairwise_append] at hsorted
    refine ⟨by simp, fun n hn heq => ?_⟩
    rcases List.mem_append.mp hn with hl | hr
    · exact Nat.le_of_lt (hsorted.2.2 n hl m (by simp))
    · rcases List.mem_cons.mp hr with rfl | hr
      · exact Nat.le_refl _
      · simp only [List.map_map, List.mem_map, Function.comp_apply, not_exists, not_and] at hk
        exact absurd ((hname (by simp) hn).mpr heq.symm).symm (hk n hr)
  · rintro ⟨hm, hlast⟩
    obtain ⟨l, r, rfl⟩ := List.append_of_mem hm
    refine ⟨m.key, l.map fun m => (m.key, m), r.map fun m => (m.key, m), by simp, ?_⟩
    simp only [List.map_map, List.mem_map, Function.comp_apply]
    rintro ⟨n, hn, heq⟩
    have hmem : n ∈ l ++ m :: r := by simp [hn]
    rw [List.pairwise_append, List.pairwise_cons] at hsorted
    have hlt := hsorted.2.1.1 n hn
    have hle := hlast n hmem ((hname hm hmem).mp heq.symm).symm
    omega

/-- Sorted by place, the values of the table by key are the last methods of their names. -/
theorem mergeSort_values (howner : ∀ m ∈ ms, m.owner = owner)
    (hsorted : ms.Pairwise fun m n => m.span.start < n.span.start) :
    ((Table.ofList (ms.map fun m => (m.key, m))).values.mergeSort
      fun a b => a.span.start ≤ b.span.start) = lastNamed ms := by
  have hmem {m : GenericMethod} := mem_values_iff (m := m) howner hsorted
  have hpairwise : (lastNamed ms).Pairwise fun m n => m.span.start < n.span.start :=
    hsorted.filter _
  have hnodup : (lastNamed ms).Nodup := hpairwise.imp fun hlt heq => by simp [heq] at hlt
  have hperm := (List.mergeSort_perm _ fun a b => decide (a.span.start ≤ b.span.start)).trans
    ((List.perm_ext_iff_of_nodup (Table.nodup_values_ofList key ms) hnodup).mpr fun _ => hmem)
  refine hperm.eq_of_pairwise ?_ (List.pairwise_mergeSort ?_ ?_ _) (hpairwise.imp ?_)
  · intro a b ha hb hab hba
    have ha := (mem_lastNamed.mp (hperm.mem_iff.mp ha)).1
    have hb := (mem_lastNamed.mp hb).1
    simp only [decide_eq_true_eq] at hab hba
    exact eq_of_start hsorted ha hb (Nat.le_antisymm hab hba)
  · intro a b c hab hbc
    simp only [decide_eq_true_eq] at hab hbc ⊢
    exact Nat.le_trans hab hbc
  · intro a b
    simpa using Nat.le_total ..
  · intro a b hlt
    simpa using Nat.le_of_lt hlt

theorem Layout.bodiless {s : Text} {xs : List Text} (h : Layout length owner s ms xs)
    (hxs : ∀ x ∈ xs, Token.bodiless x.tokens = true) :
    Token.bodiless (xs.flatMap Text.tokens) = true := by
  induction h with
  | last x => simpa using hxs
  | method _ hmod _ _ _ _ _ ih =>
    obtain ⟨hx, hxs⟩ := List.forall_mem_cons.mp hxs
    exact Token.bodiless_append hx (ih hxs) hmod

end GenericMethod

namespace Instance

open Text

theorem exists_parts (known : Text → Bool) (text : Text) : ∃ parts, Usage.Parted parts ∧
    parts.flatMap Usage.Piece.before = text ∧
    parts.flatMap Usage.Piece.after = (flatten known text).text ∧
    ∀ rule, .put rule ∈ parts →
      ∃ e, IsUsage rule.1 e ∧ known e.name = true ∧ e.mangle = rule.2 := by
  let rules := (Usage.findKnown known text).map TypeExpr.mangle
  refine ⟨Usage.stretches (longestFirst rules.entries) false text, Usage.parted_stretches ..,
    Usage.flatMap_before_stretches .., Usage.flatMap_after_replace .., fun rule hrule => ?_⟩
  obtain ⟨e, he, hmangle⟩ := Table.mem_map.mp (Usage.mem_of_put_stretches hrule)
  exact ⟨e, (Usage.isUsage_of_findKnown he).1, (Usage.isUsage_of_findKnown he).2, hmangle⟩

theorem renaming_of_isUsage {rule : Text × Text} {e : TypeExpr} (h : IsUsage rule.1 e)
    (hmangle : e.mangle = rule.2) : Usage.Renaming rule :=
  ⟨⟨e, h⟩, hmangle ▸ h.spells.wellFormed.isName_mangle⟩

/-- Flattening makes no method out of a declaration without a body, and no other modifiers, when
no template name begins one. -/
theorem bodiless_flatten {known : Text → Bool} {text : Text}
    (hknown : ∀ n, known n = true → ∀ m ∈ GenericMethod.modifierWords, ¬n <+: m)
    (h : Token.bodiless (tokens text) = true) :
    Token.bodiless (tokens (flatten known text).text) = true := by
  obtain ⟨parts, hparted, hbefore, hafter, hfound⟩ := exists_parts known text
  -- a concrete name begins with the name of its template, whatever it is joined to
  have hrenamed := Usage.renamed_stretches hparted
    (fun rule hrule => by
      obtain ⟨e, husage, -, hmangle⟩ := hfound rule hrule
      exact renaming_of_isUsage husage hmangle)
    (fun rule hrule w hw => by
      obtain ⟨⟨n, as⟩, -, hname, hmangle⟩ := hfound rule hrule
      refine hknown n hname _ hw ⟨TypeExpr.mangleAll as ++ w, ?_⟩
      rw [← hmangle, TypeExpr.mangle, List.append_assoc])
  rw [hbefore, hafter] at hrenamed
  exact hrenamed.bodiless h

end Instance

namespace Program

variable {s : Snapshot} {p : Program}

theorem exists_table (h : scan s = .ok p) {f : SourceFile} (hf : f ∈ p.files) :
    ∃ table, f.toDeclared.methods = .ok table ∧
      f.methods = table.values.mergeSort fun a b => a.span.start ≤ b.span.start := by
  obtain ⟨declared, -, hdeclared⟩ := exists_declared h
  have hmem : .ok f ∈ declared.map Declared.withMethods := by
    rw [hdeclared]
    exact List.mem_map_of_mem hf
  obtain ⟨d, -, hd⟩ := List.mem_map.mp hmem
  obtain rfl := toDeclared_of_withMethods hd
  unfold Declared.withMethods at hd
  split at hd
  · exact ⟨_, ‹_›, (congrArg SourceFile.methods (Except.ok.inj hd)).symm⟩
  · cases hd

theorem exists_methods (h : scan s = .ok p) {f : SourceFile} (hf : f ∈ p.files)
    (hfile : f.isTemplateFile = false) {owner : Text}
    (howner : Template.firstClassName? f.content = some owner) :
    ∃ ms xs, GenericMethod.scan f.content.length 0 owner none f.content = .ok ms ∧
      GenericMethod.Layout f.content.length owner f.content ms xs ∧
      f.methods = GenericMethod.lastNamed ms := by
  obtain ⟨table, htable, hmethods⟩ := exists_table h hf
  rw [Declared.methods, hfile, howner] at htable
  obtain ⟨ms, hscan, rfl⟩ := GenericMethod.find_eq_ok_iff.mp htable
  obtain ⟨xs, hlayout⟩ := GenericMethod.exists_layout hscan
  refine ⟨ms, xs, hscan, hlayout, ?_⟩
  rw [hmethods]
  exact GenericMethod.mergeSort_values hlayout.owner_eq (hlayout.pairwise (Nat.le_refl _))

theorem methods_eq_nil (h : scan s = .ok p) {f : SourceFile} (hf : f ∈ p.files)
    (hfile : f.isTemplateFile = false) (hnone : Template.firstClassName? f.content = none) :
    f.methods = [] := by
  obtain ⟨table, htable, hmethods⟩ := exists_table h hf
  rw [Declared.methods, hfile, hnone] at htable
  cases htable
  rw [hmethods]
  exact List.mergeSort_nil

end Program

namespace Expansion

open Text GenericMethod

variable {s : Snapshot} {p : Program}

theorem text_expandFile (h : Program.scan s = .ok p) (hforced : s.forcedMethods.entries = [])
    (f : SourceFile) : (expandFile p f).text = (Instance.flatten p.known f.stripped).text := by
  have husages : p.methodUsages.entries = [] := by
    have hkeys := Program.keys_methodUsages h
    simpa [Table.keys, hforced] using hkeys
  have hnone (m : GenericMethod) : p.methodUsages.get? m.key = none := by
    rw [Table.get?, husages]
    rfl
  simp [expandFile, concreteMethods, hnone, Splice.insertMethods]

theorem fileOutcome_eq {resolver : Resolver} {f : SourceFile} (hfile : f.isTemplateFile = false)
    {path : Text} (hpath : resolver f.path = .ok path) :
    fileOutcome p resolver f = .output (some f.path) path (expandFile p f).text := by
  simp [fileOutcome, hfile, hpath]

theorem mem_run (h : Program.scan s = .ok p) {f : SourceFile} (hf : f ∈ p.files)
    {resolver : Resolver} {extension : Text} :
    fileOutcome p resolver f ∈ run s resolver extension := by
  rw [run, h]
  exact List.mem_append_left _ (List.mem_map_of_mem hf)

/-- Of the methods in a file the last of each name are cut. Where names are distinct these are all,
and the tokens of the gaps stay, unless a slash that ends a gap opens a comment with what comes
next. No method is found in the output when the gaps hold none but declarations without a body and
no template name begins a modifier. -/
theorem find_output (h : Program.scan s = .ok p) (hforced : s.forcedMethods.entries = [])
    {f : SourceFile} (hf : f ∈ p.files) (hfile : f.isTemplateFile = false) {owner : Text}
    (howner : Template.firstClassName? f.content = some owner) :
    ∃ ms gaps, GenericMethod.scan f.content.length 0 owner none f.content = .ok ms ∧
      f.methods = lastNamed ms ∧ gaps = between f.content 0 (ms.map (·.span)) ∧
      ((ms.map (·.name)).Nodup →
        (∀ x ∈ gaps.dropLast, x.lexemes.getLast? ≠ some (.code '/')) →
        f.methods = ms ∧ f.stripped.tokens = gaps.flatMap tokens ∧
        ((∀ x ∈ gaps, Token.bodiless x.tokens = true) →
          (∀ n, p.known n = true → ∀ m ∈ modifierWords, ¬n <+: m) →
          ∀ resolver extension path, resolver f.path = .ok path →
            ∃ text, fileOutcome p resolver f = .output (some f.path) path text ∧
              .output (some f.path) path text ∈ run s resolver extension ∧
              find text owner 0 none = .ok ∅)) := by
  obtain ⟨ms, gaps, hscan, hlayout, hmethods⟩ := Program.exists_methods h hf hfile howner
  refine ⟨ms, gaps, hscan, hmethods, hlayout.eq_between [] rfl, fun hnames hslash => ?_⟩
  rw [lastNamed_of_nodup hnames] at hmethods
  have htokens : f.stripped.tokens = gaps.flatMap tokens := by
    rw [SourceFile.stripped, hmethods]
    exact tokens_cut hlayout hslash
  refine ⟨hmethods, htokens, fun hgaps hknown resolver extension path hpath => ?_⟩
  have hout := fileOutcome_eq (p := p) hfile hpath
  have hbodiless : Token.bodiless (tokens (expandFile p f).text) = true := by
    rw [text_expandFile h hforced]
    exact Instance.bodiless_flatten hknown (htokens ▸ hlayout.bodiless hgaps)
  exact ⟨_, hout, hout ▸ mem_run h hf, find_eq_ok_iff.mpr ⟨[], scan_eq_nil hbodiless, rfl⟩⟩

/-- Two methods around a declaration without a body, and a usage. -/
theorem find_output_two_methods :
    let content : Text := "class Main \x7b\n    public <T> T first(T a) { return a; }\n" ++
      "    abstract public <T> void open(T a);\n    Box<A> box;\n" ++
      "    public static <T, U> T second(T a) { return a; }\n\x7d\n"
    let s : Snapshot :=
      { files := ⟨[("Box.peak", "class Box<T> { T x; }"), ("Main.peak", content)]⟩ }
    ∃ p f ms, Program.scan s = .ok p ∧ f ∈ p.files ∧ f.isTemplateFile = false ∧
      f.content = content ∧ Template.firstClassName? content = some "Main" ∧ f.methods = ms ∧
      ms.map (·.name) = ["first".toList, "second".toList] ∧
      f.stripped.tokens = (between content 0 (ms.map (·.span))).flatMap tokens ∧
      ∃ text, .output (some f.path) "Main.cls" text ∈
          run s (fun path => .ok (besideSource path)) outputExtension ∧
        find text "Main" 0 none = .ok ∅ := by
  intro content s
  have hordered : s.ordered = s.files.entries := List.mergeSort_of_pairwise (by decide +kernel)
  obtain ⟨p, h, hkeys, f, hf, hfile, hpath, hcontent⟩ : ∃ p, Program.scan s = .ok p ∧
      p.templates.keys = ["Box".toList] ∧ ∃ f ∈ p.files, f.isTemplateFile = false ∧
        f.path = "Main.peak".toList ∧ f.content = content := by
    refine Program.exists_ok_of_decide ?_
    rw [Program.scan, hordered, Program.withMethods_eq]
    decide +kernel
  have howner : Template.firstClassName? content = some "Main" := by decide +kernel
  obtain ⟨ms, hms, hnames, hslash, hgaps⟩ :
      ∃ ms, GenericMethod.scan content.length 0 "Main" none content = .ok ms ∧
        ms.map (·.name) = ["first".toList, "second".toList] ∧
        (∀ x ∈ (between content 0 (ms.map (·.span))).dropLast,
          (lexemes x).getLast? ≠ some (.code '/')) ∧
        ∀ x ∈ between content 0 (ms.map (·.span)), Token.bodiless (tokens x) = true := by
    refine Program.exists_ok_of_decide ?_
    decide +kernel
  have hknown (n : Text) (hn : p.known n = true) : ∀ m ∈ modifierWords, ¬n <+: m := by
    rw [Program.known, Table.contains_iff, hkeys, List.mem_singleton] at hn
    subst hn
    decide
  obtain ⟨ms', gaps, hscan, -, hbetween, hcut⟩ :=
    find_output h rfl hf hfile (hcontent ▸ howner)
  rw [hcontent] at hscan hbetween
  obtain rfl := Except.ok.inj (hms.symm.trans hscan)
  subst hbetween
  obtain ⟨hmethods, htokens, hrun⟩ := hcut (hnames ▸ by decide) hslash
  obtain ⟨text, -, hmem, hfind⟩ := hrun hgaps hknown (fun path => .ok (besideSource path))
    outputExtension "Main.cls" (by rw [hpath]; rfl)
  exact ⟨p, f, ms, h, hf, hfile, hcontent, howner, hmethods, hnames, htokens, text, hmem, hfind⟩

/-- Of two methods with one name the first stays. -/
theorem exists_method_of_overloads :
    let content : Text :=
      "class C \x7b\n    public <T> void f(T a) { }\n    public <T> void f(T a, T b) { }\n\x7d\n"
    let s : Snapshot := { files := ⟨[("C.peak", content)]⟩ }
    let text : Text := "class C \x7b\n    public <T> void f(T a) { }\n\x7d\n"
    (∃ p, Program.scan s = .ok p) ∧ (∃ t, find text "C" 0 none = .ok t ∧ t.keys = ["C.f".toList]) ∧
      ∀ resolver extension path, resolver "C.peak" = .ok path →
        .output (some "C.peak") path text ∈ run s resolver extension := by
  intro content s text
  have hordered : s.ordered = s.files.entries := List.mergeSort_of_pairwise (by decide +kernel)
  obtain ⟨p, h, hkeys, f, hf, hfile, hpath, hcontent, hspans⟩ : ∃ p, Program.scan s = .ok p ∧
      p.templates.keys = [] ∧ ∃ f ∈ p.files, f.isTemplateFile = false ∧
        f.path = "C.peak".toList ∧ f.content = content ∧
        f.methods.map (·.cutSpan) = [(45, 76)] := by
    refine Program.exists_ok_of_decide ?_
    rw [Program.scan, hordered, Program.withMethods_eq]
    decide +kernel
  have hstripped : f.stripped = text := by
    rw [SourceFile.stripped, hspans, hcontent, Splice.cut, Splice.cut?, List.mergeSort_singleton]
    decide +kernel
  have hknown : p.known = fun _ => false := by
    funext n
    rw [Bool.eq_false_iff, Program.known, Ne, Table.contains_iff, hkeys]
    exact List.not_mem_nil
  have htext : (expandFile p f).text = text := by
    rw [text_expandFile h rfl, hknown, hstripped]
    decide +kernel
  refine ⟨⟨p, h⟩, Program.exists_ok_of_decide (by decide +kernel), ?_⟩
  intro resolver extension path hresolve
  have hmem : fileOutcome p resolver f ∈ run s resolver extension := mem_run h hf
  rwa [fileOutcome_eq hfile (hpath ▸ hresolve), hpath, htext] at hmem

end Expansion

end Monomorph
