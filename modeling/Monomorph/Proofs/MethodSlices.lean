import Monomorph.Proofs.MethodParts
import Monomorph.Proofs.NestedOutput
import Monomorph.Proofs.TemplateSlices

/-!
# Methods as slices

The generic methods that are found in the body of a template are slices of the text that do not
overlap: a signature, a gap and a body (`inside_of_find`). Where brackets nest, they lie inside of
the body. The search looks at the end of the body only between two steps, but no step leaves it:
what is read in one go is a nested part of what stands before the brace that ends it (`Within`).
-/

namespace Monomorph

open Text Bracket

-- ---------------------------------------------------------------------------
-- Before a brace
-- ---------------------------------------------------------------------------

namespace Text

variable {a after s r x : Text} {o c : Char}

theorem Closed.of_reaches (h : Closed s) (hr : Reaches s r) : Closed r := by
  rcases hr with rfl | ⟨a, rfl, ha⟩
  · exact .nil
  · exact h.of_append ha.closed ha.slash

theorem brackets_brace (hx : Closed x) (r : Text) :
    brackets (x ++ '}' :: r) = brackets x ++ '}' :: brackets r := by
  rw [(Splits.before hx (by decide) rfl).brackets_append,
    brackets_bracket (afterInert?_eq_none rfl) rfl]

theorem offset_lt_offset {length : Nat} (h : r.length < s.length) (hlength : r.length < length) :
    offset length s < offset length r := by
  simp only [offset]
  omega

/-- The place `s` lies before a brace that `after` follows, and every bracket between has its
partner between or before. -/
def Within (after s : Text) : Prop :=
  ∃ x above, s = x ++ '}' :: after ∧ Closed x ∧ nest? above (brackets x) = some []

theorem Within.length_lt (h : Within after s) : after.length < s.length := by
  obtain ⟨x, -, rfl, -⟩ := h
  simp only [List.length_append, List.length_cons]
  omega

/-- Where whole tokens are read, the place stays before the brace unless the brace is read. -/
theorem Within.cases (h : Within after (a ++ r)) (ha : Splits a r) :
    Within after r ∨ ∃ x y, Closed x ∧ a = x ++ '}' :: y ∧ after = y ++ r := by
  obtain ⟨x, above, heq, hx, hnest⟩ := h
  obtain ⟨y, rfl, rfl⟩ | ⟨v, rfl, hv⟩ := List.append_eq_append_iff.mp heq
  · have hy : Splits a y := .of_append ha
    rw [hy.brackets_append, nest?_append, Option.bind_eq_some_iff] at hnest
    obtain ⟨rest, -, hrest⟩ := hnest
    exact .inl ⟨y, rest, rfl, hx.of_append hy.closed hy.slash, hrest⟩
  · cases v with
    | nil => exact .inl ⟨[], [], hv.symm, .nil, by simp [brackets_nil]⟩
    | cons d y =>
      obtain ⟨rfl, rfl⟩ := List.cons.inj hv
      exact .inr ⟨x, y, hx, rfl, rfl⟩

theorem Within.reach (h : Within after s) (hr : Reaches s r) (hlt : after.length < r.length) :
    Within after r := by
  rcases hr with rfl | ⟨a, rfl, ha⟩
  · cases hlt
  · obtain hwithin | ⟨x, y, -, -, rfl⟩ := h.cases ha
    · exact hwithin
    · rw [List.length_append] at hlt
      omega

theorem Within.read (h : Within after s) (hr : Reaches s r) (heq : brackets s = brackets r) :
    Within after r := by
  rcases hr with rfl | ⟨a, rfl, ha⟩
  · obtain ⟨x, -, rfl, hx, -⟩ := h
    simp [brackets_brace hx, brackets_nil] at heq
  · obtain hwithin | ⟨x, y, hx, rfl, -⟩ := h.cases ha
    · exact hwithin
    · rw [ha.brackets_append, List.append_left_eq_self, brackets_brace hx] at heq
      simp at heq

theorem Within.group (h : Within after s) (hp : partner? o = some c) (hhead : s.head? = some o) :
    ∃ r, afterGroup? o c s = some r ∧ Within after r := by
  obtain ⟨x, above, rfl, hx, hnest⟩ := h
  cases x with
  | nil =>
    cases hhead
    cases hp
  | cons d y =>
    obtain rfl : d = o := Option.some.inj hhead
    obtain ⟨r, hr, hrest⟩ := exists_afterGroup? (s := d :: y) hp rfl hnest
    obtain ⟨g, hg, hgroup⟩ := (afterGroup?_iff hp).mp hr
    refine ⟨r ++ '}' :: after, (afterGroup?_iff hp).mpr ⟨g, by rw [hg, List.append_assoc], hgroup⟩,
      r, above, rfl, hx.of_reaches ?_, hrest⟩
    obtain ⟨-, rfl⟩ | ⟨-, rfl⟩ := partner?_cases hp <;>
      exact (closes_of_afterGroup? hr).reaches rfl (by decide) rfl

end Text

-- ---------------------------------------------------------------------------
-- Where a template has its body
-- ---------------------------------------------------------------------------

namespace Template

variable {text s r : Text} {t : Template} {ts : List Template}

theorem closes_toBody (h : toBody s = '{' :: r) : Closes '{' s r := by
  fun_induction toBody s with
  | case1 s u hu ih => exact (reaches_of_afterInert? hu).closes (ih h)
  | case2 => cases h
  | case3 =>
    cases h
    exact ⟨[], rfl, .nil⟩
  | case4 c u hi hc ih => exact (ih h).cons hi

theorem reaches_toBody (s : Text) : Reaches s (toBody s) := by
  rcases head_toBody s with hnil | hhead
  · exact .inl hnil
  · obtain ⟨r, hr⟩ := List.head?_eq_some_iff.mp hhead
    obtain ⟨a, rfl, ha⟩ := closes_toBody hr
    rw [hr]
    exact .inr ⟨a, rfl, .before ha (by decide) rfl⟩

/-- The body of a template begins at the place `b`, behind whole tokens. -/
structure Bodied (text : Text) (t : Template) (b : Text) : Prop where
  reaches : Reaches text b
  head : b = [] ∨ b.head? = some '{'
  start_eq : t.bodyStart = offset text.length b
  stop_eq : t.span.stop = offset text.length (b.afterGroup '{' '}')

theorem reaches_readDeclaration {start keyword : Text} {found : Option Template}
    {r : { r : Text // r.length ≤ s.length }} (hs : Reaches text s)
    (h : readDeclaration text.length start keyword s = .ok (found, r)) :
    Reaches text r.1 ∧ ∀ t ∈ found, ∃ b, Bodied text t b := by
  have hgap := hs.trans (reaches_afterGap s)
  unfold readDeclaration at h
  simp only at h
  split at h
  · cases h
    exact ⟨hgap.trans (reaches_afterNameRun _), nofun⟩
  · split at h
    · cases h
      exact ⟨hgap.trans (reaches_afterName _), nofun⟩
    · split at h
      · cases h
      · rename_i params p hread
        cases h
        obtain ⟨u, hu, hp⟩ := Parameters.reaches_of_read hread
        have hopen : Reaches s.afterGap.afterName u := by
          rw [hu]
          exact .mark rfl rfl
        have hlist := (hgap.trans (reaches_afterName _)).trans (hopen.trans hp)
        have hbody := hlist.trans (reaches_toBody p.1)
        refine ⟨?_, fun t ht => ?_⟩
        · rcases hbody.closes_afterGroup with hnil | hclose
          · exact .inl hnil
          · exact hclose.reaches rfl (by decide) rfl
        · cases ht
          exact ⟨toBody p.1, hbody, head_toBody p.1, rfl, rfl⟩

theorem bodied_of_scan {run : Option Text} {sharing dotted : Bool}
    (h : scan text.length run sharing dotted s = .ok ts) (hs : Reaches text s) :
    ∀ t ∈ ts, ∃ b, Bodied text t b := by
  fun_induction scan text.length run sharing dotted s generalizing ts with
  | case1 run sharing dotted s r hr ih => exact ih h (hs.trans (reaches_of_afterInert? hr))
  | case2 =>
    cases h
    simp
  | case3 run sharing dotted c r hi hblank ih =>
    exact ih h (hs.trans (.inr ⟨[c], rfl, .blank hblank r⟩))
  | case4 run sharing dotted r =>
    rename_i ih
    exact ih h (hs.trans (Reaches.trans (.mark rfl rfl) (reaches_afterAtSign r)))
  | case5 | case6 | case7 =>
    rename_i ih
    exact ih h (hs.trans (reaches_afterNameRun _))
  | case8 | case9 => cases h
  | case10 run sharing dotted c r =>
    rename_i found t hread more hmore ih
    cases h
    obtain ⟨hrest, hfound⟩ := reaches_readDeclaration (hs.trans (reaches_afterNameRun _)) hread
    intro u hu
    rcases List.mem_append.mp hu with hu | hu
    · exact hfound u (by simpa using hu)
    · exact ih hmore hrest u hu
  | case11 run sharing dotted c r hi =>
    rename_i hc ih
    exact ih h (hs.trans (.inr ⟨[c], rfl, .mark hi (by simpa using hc)⟩))

theorem bodied_of_find {ts : Table Text Template} (h : find text = .ok ts) (ht : t ∈ ts.values) :
    ∃ b, Bodied text t b := by
  unfold find at h
  split at h
  · cases h
  · rename_i found hscan
    cases h
    exact bodied_of_scan hscan (.refl text) t (Table.mem_of_mem_values_ofList ht)

end Template

-- ---------------------------------------------------------------------------
-- Methods before a brace
-- ---------------------------------------------------------------------------

namespace GenericMethod

variable {length keep : Nat} {owner : Text} {run : Option Text} {after q s r : Text}
  {m : GenericMethod} {ms : List GenericMethod}

theorem within_candidate {params : List Text} {p : Rest s.afterName} {name : Option Text}
    {u : {r : Text // r.length ≤ p.1.length}} (hs : Within after s)
    (hmod : s.nameRun ∈ modifierWords)
    (hread : Parameters.read true s.afterName = .ok (params, p))
    (hskip : skipReturnType keep 0 p.1 = (name, u)) : Within after u.1 := by
  obtain ⟨t, ht, hreach⟩ := exists_opens hmod hread hskip
  exact hs.read (ht.reaches.trans hreach) (brackets_candidate hread hskip)

theorem within_parameters {u v : Text} (hu : Within after u)
    (hv : afterGroup? '(' ')' u = some v) : Within after v.afterGap := by
  obtain ⟨v', hv', hwithin⟩ := hu.group rfl (head_of_afterGroup? hv)
  obtain rfl : v' = v := Option.some.inj (hv'.symm.trans hv)
  exact hwithin.read (reaches_afterGap v') (brackets_afterGap v')

theorem within_body {g : Text} (hg : Within after g) (hhead : g.head? = some '{') :
    Within after (g.afterGroup '{' '}') := by
  obtain ⟨r, hr, hwithin⟩ := hg.group rfl hhead
  rwa [afterGroup, hr, Option.getD_some]

/-- No method ends behind the brace. The recursion is that of the search. -/
theorem stop_lt_of_scan (hlength : after.length < length)
    (h : scan length after.length owner run s = .ok ms) (hs : Within after s) :
    ∀ m ∈ ms, m.span.stop < offset length after := by
  fun_induction scan length after.length owner run s generalizing ms with
  | case1 | case3 | case9 =>
    cases h
    simp
  | case7 | case11 => cases h
  | case2 run s _ r hi ih => exact ih h (hs.read (reaches_of_afterInert? hi) (brackets_inert hi))
  | case4 run c r hi hb _ ih =>
    exact ih h (hs.read (.inr ⟨[c], rfl, .blank hb r⟩)
      (brackets_other hi (not_isBracket_of_isBlank hb)))
  | case5 run c r =>
    rename_i ih
    exact ih h (hs.read (reaches_afterNameRun _) (brackets_afterNameRun _))
  | case6 run c r =>
    rename_i ih
    exact ih h (hs.read (reaches_afterName _) (brackets_afterName _))
  | case8 run c r _ _ _ hmod _ _ params p hread u hu =>
    rename_i ih
    exact ih h (within_candidate hs (by simpa using hmod) hread hu)
  | case10 run c r _ _ _ hmod _ _ params p hread name u hu v hv =>
    rename_i ih
    exact ih h (within_parameters (within_candidate hs (by simpa using hmod) hread hu) hv)
  | case12 run c r _ _ _ hmod _ _ _ params p hread name u hu v hv =>
    rename_i hbrace _ more hmore _ ih
    have hgap := within_parameters (within_candidate hs (by simpa using hmod) hread hu) hv
    have hstop := within_body hgap (by simpa using hbrace)
    cases h
    exact List.forall_mem_cons.mpr ⟨offset_lt_offset hstop.length_lt hlength, ih hmore hstop⟩
  | case13 run c r hi hb hc _ ih =>
    by_cases hlt : after.length < r.length
    · exact ih h (hs.reach (.inr ⟨[c], rfl, .mark hi (by simpa using hc)⟩) hlt)
    · -- the mark is the brace
      rw [scan, if_pos (Nat.le_of_not_lt hlt)] at h
      cases h
      simp

-- ---------------------------------------------------------------------------
-- Slices
-- ---------------------------------------------------------------------------

/-- How a method stands in a text, from the place `start` on. -/
structure Slice (length : Nat) (m : GenericMethod) (start gap stop : Text) : Prop where
  start_eq : start = m.signature ++ (gap ++ (m.body ++ stop))
  isGap : IsGap gap
  span_eq : m.span = ⟨offset length start, offset length stop⟩
  length_lt : stop.length < start.length

/-- The search stands at `s` behind a run of modifiers, all in the text `w`. -/
structure Leads (w : Text) (run : Option Text) (s : Text) : Prop where
  place : s <:+ run.getD s
  start : run.getD s <:+ w

variable {w : Text}

theorem Leads.fresh (h : s <:+ w) : Leads w none s :=
  ⟨List.suffix_rfl, h⟩

theorem Leads.suffix (h : Leads w run s) : s <:+ w :=
  h.place.trans h.start

theorem Leads.pass (h : Leads w run s) (hr : r <:+ s) : Leads w run r := by
  cases run with
  | none => exact .fresh (hr.trans h.suffix)
  | some t => exact ⟨hr.trans h.place, h.start⟩

theorem slice_of_read {start u v : Text} (hstart : start <:+ w) (hu : u <:+ start)
    (hv : afterGroup? '(' ')' u = some v) (hhead : v.afterGap.head? = some '{')
    (hsignature : m.signature = start.upTo v)
    (hbody : m.body = v.afterGap.upTo (v.afterGap.afterGroup '{' '}'))
    (hspan : m.span = ⟨offset length start, offset length (v.afterGap.afterGroup '{' '}')⟩) :
    ∃ start gap stop, start <:+ w ∧ Slice length m start gap stop := by
  have hne : v.afterGap ≠ [] := by
    intro hnil
    rw [hnil] at hhead
    cases hhead
  obtain ⟨gap, hgap, hisGap⟩ := exists_isGap hne
  obtain ⟨signature, hparts⟩ := (closes_of_afterGroup? hv).suffix.trans hu
  obtain ⟨body, hstop⟩ := afterGroup_suffix '{' '}' v.afterGap
  rw [upTo_of_eq_append hparts.symm] at hsignature
  rw [upTo_of_eq_append hstop.symm] at hbody
  refine ⟨start, gap, _, hstart, ?_, hisGap, hspan, ?_⟩
  · rw [hsignature, hbody, hstop, ← hgap, hparts]
  · have hle := (afterGroup_suffix '{' '}' v.afterGap).length_le
    have hlt := length_lt_of_afterGroup? hv
    exact Nat.lt_of_le_of_lt (Nat.le_trans hle (length_afterGap_le v))
      (Nat.lt_of_lt_of_le hlt hu.length_le)

theorem exists_slice (h : scan length keep owner run s = .ok ms) (hs : Leads w run s) :
    ∀ m ∈ ms, ∃ start gap stop, start <:+ w ∧ Slice length m start gap stop := by
  fun_induction scan length keep owner run s generalizing ms with
  | case1 | case3 | case9 =>
    cases h
    simp
  | case7 | case11 => cases h
  | case2 run s _ r hi ih => exact ih h (hs.pass (suffix_of_afterInert? hi))
  | case4 run c r _ _ _ ih => exact ih h (hs.pass (List.suffix_cons c r))
  | case5 run c r =>
    rename_i ih
    exact ih h (.fresh ((reaches_afterNameRun _).suffix.trans hs.suffix))
  | case6 run c r =>
    rename_i ih
    exact ih h ⟨(reaches_afterName _).suffix.trans hs.place, hs.start⟩
  | case8 run c r _ _ _ hmod _ _ params p hread u hu =>
    rename_i ih
    exact ih h (.fresh ((suffix_candidate (by simpa using hmod) hread hu).trans hs.suffix))
  | case10 run c r _ _ _ hmod _ _ params p hread name u hu v hv =>
    rename_i ih
    have hsuffix := (closes_of_afterGroup? hv).suffix.trans
      (suffix_candidate (by simpa using hmod) hread hu)
    exact ih h (.fresh ((reaches_afterGap v).suffix.trans (hsuffix.trans hs.suffix)))
  | case12 run c r _ _ _ hmod _ _ _ params p hread name u hu v hv =>
    rename_i hbrace _ more hmore _ ih
    have hplace := suffix_candidate (by simpa using hmod) hread hu
    have hgap := (reaches_afterGap v).suffix.trans ((closes_of_afterGroup? hv).suffix.trans hplace)
    have hstop := ((afterGroup_suffix '{' '}' _).trans hgap).trans hs.suffix
    cases h
    refine List.forall_mem_cons.mpr ⟨?_, ih hmore (.fresh hstop)⟩
    exact slice_of_read hs.start (hplace.trans hs.place) hv (by simpa using hbrace) rfl rfl rfl
  | case13 run c r hi hb hc _ ih =>
    exact ih h (.fresh ((List.suffix_cons c r).trans hs.suffix))

variable {text b start gap stop : Text} {n : GenericMethod} {t : Template}

theorem Slice.slice_eq (h : Slice text.length m start gap stop) (hs : start <:+ text) :
    text.slice m.span.start m.span.stop = m.signature ++ (gap ++ m.body) := by
  obtain ⟨before, hbefore⟩ := hs
  have hstart : start = m.signature ++ (gap ++ m.body) ++ stop := by
    rw [h.start_eq, List.append_assoc, List.append_assoc]
  have htext : text = before ++ ([] ++ (m.signature ++ (gap ++ m.body) ++ stop)) := by
    rw [← hbefore, hstart, List.nil_append]
  have hspan := h.span_eq
  rw [hstart] at hspan
  rw [GenericMethod.span_eq htext hspan, htext, List.append_nil, List.nil_append, List.nil_append]
  exact slice_append ..

/-- One of the two ends before the other begins. -/
def Apart (m n : GenericMethod) : Prop :=
  m.span.stop ≤ n.span.start ∨ n.span.stop ≤ m.span.start

instance : Std.Symm Apart :=
  ⟨fun _ _ => Or.symm⟩

theorem Layout.apart {xs : List Text} (h : Layout length owner s ms xs) :
    ms.Pairwise fun m n => m.span.stop ≤ n.span.start := by
  induction h with
  | last => exact .nil
  | method _ _ _ _ _ hspan hrest ih =>
    refine .cons (fun n hn => ?_) ih
    rw [hspan]
    exact hrest.offset_le n hn

theorem apart_of_scan (h : scan length keep owner none s = .ok ms) (hm : m ∈ ms) (hn : n ∈ ms)
    (hne : m ≠ n) : Apart m n := by
  obtain ⟨xs, hlayout⟩ := exists_layout h
  exact (hlayout.apart.imp (S := Apart) .inl).forall hm hn hne

-- ---------------------------------------------------------------------------
-- Methods of a template
-- ---------------------------------------------------------------------------

theorem scan_brace (h : scan length keep owner none ('{' :: r) = .ok ms) :
    ms = [] ∨ scan length keep owner none r = .ok ms := by
  rw [scan] at h
  split at h
  · cases h
    exact .inl rfl
  · split at h
    · rename_i hi
      rw [afterInert?_eq_none rfl] at hi
      cases hi
    · exact .inr h

theorem scan_of_find {ms : Table Text GenericMethod} (hb : t.Bodied text b)
    (h : find text owner t.bodyStart (some t.span.stop) = .ok ms) :
    ∃ found, scan text.length (b.afterGroup '{' '}').length owner none b = .ok found ∧
      ms = .ofList (found.map fun m => (m.key, m)) := by
  have hle := ((afterGroup_suffix '{' '}' b).trans hb.reaches.suffix).length_le
  have hkeep : text.length - (min (t.span.stop : Int) text.length).toNat =
      (b.afterGroup '{' '}').length := by
    rw [hb.stop_eq, offset]
    omega
  have henter : text.enter t.bodyStart = b := by
    rw [enter_natCast, hb.start_eq, drop_offset hb.reaches.suffix]
  simp only [find, Option.getD_some, hkeep, henter] at h
  split at h
  · cases h
  · rename_i found hscan
    cases h
    exact ⟨found, hscan, rfl⟩

theorem within_bodied (hnested : text.WellNested) (hb : t.Bodied text ('{' :: r)) :
    Within (afterGroup '{' '}' ('{' :: r)) r := by
  obtain ⟨a, ha, hsplits⟩ := hb.reaches.resolve_left (List.cons_ne_nil _ _)
  rw [WellNested, nested_iff, ha, hsplits.brackets_append, nest?_append,
    Option.bind_eq_some_iff] at hnested
  obtain ⟨stack, -, hstack⟩ := hnested
  obtain ⟨x, after, rfl, hx, hinside, hgroup, -⟩ := exists_group rfl hstack
  rw [afterGroup, hgroup, Option.getD_some]
  exact ⟨x, [], rfl, hx, nested_iff.mp hinside⟩

theorem inside_of_scan (hnested : text.WellNested) (hb : t.Bodied text b)
    (h : scan text.length (b.afterGroup '{' '}').length owner none b = .ok ms) :
    ∀ m ∈ ms, ∃ start gap stop, start <:+ text ∧ Slice text.length m start gap stop ∧
      t.bodyStart < m.span.start ∧ m.span.stop < t.span.stop := by
  rcases hb.head with rfl | hhead
  · rw [scan_nil] at h
    cases h
    simp
  obtain ⟨r, rfl⟩ := List.head?_eq_some_iff.mp hhead
  obtain rfl | h := scan_brace h
  · simp
  have hwithin := within_bodied hnested hb
  have hle := hb.reaches.suffix.length_le
  intro m hm
  obtain ⟨start, gap, stop, hstart, hslice⟩ := exists_slice h (.fresh List.suffix_rfl) m hm
  have hlength := hstart.length_le
  rw [List.length_cons] at hle
  refine ⟨start, gap, stop, ?_, hslice, ?_, ?_⟩
  · exact hstart.trans ((List.suffix_cons ..).trans hb.reaches.suffix)
  · rw [hb.start_eq, hslice.span_eq]
    exact offset_lt_offset (Nat.lt_succ_of_le hlength) (by omega)
  · rw [hb.stop_eq]
    exact stop_lt_of_scan (Nat.lt_of_lt_of_le hwithin.length_lt (by omega)) h hwithin m hm

/-- The generic methods that are found in the body of a template lie inside of it and do not
overlap, when the parentheses and braces of the text are nested. Each is its signature, which holds
the parameter list, a gap and its body. -/
theorem inside_of_find {ts : Table Text Template} {ms : Table Text GenericMethod}
    (hnested : text.WellNested) (hts : Template.find text = .ok ts) (ht : t ∈ ts.values)
    (hms : find text t.className t.bodyStart (some t.span.stop) = .ok ms) :
    (∀ m ∈ ms.values,
      t.bodyStart < m.span.start ∧ m.span.start < m.span.stop ∧ m.span.stop < t.span.stop ∧
      (∃ gap, IsGap gap ∧
        text.slice m.span.start m.span.stop = m.signature ++ (gap ++ m.body)) ∧
      m.bracket <:+: m.signature) ∧
    ms.values.Pairwise Apart := by
  obtain ⟨b, hb⟩ := Template.bodied_of_find hts ht
  obtain ⟨found, hscan, rfl⟩ := scan_of_find hb hms
  refine ⟨fun m hm => ?_, ?_⟩
  · obtain ⟨start, gap, stop, hstart, hslice, hfrom, hto⟩ :=
      inside_of_scan hnested hb hscan m (Table.mem_of_mem_values_ofList hm)
    obtain ⟨front, back, hsignature⟩ := signature_of_find hms hm
    refine ⟨hfrom, ?_, hto, ⟨gap, hslice.isGap, hslice.slice_eq hstart⟩, ?_⟩
    · rw [hslice.span_eq]
      exact offset_lt_offset hslice.length_lt
        (Nat.lt_of_lt_of_le hslice.length_lt hstart.length_le)
    · exact ⟨front, back, by rw [hsignature.signature_eq, List.append_assoc]⟩
  · refine List.Nodup.pairwise_of_forall_ne (Table.nodup_values_ofList ..) fun m hm n hn hne => ?_
    exact apart_of_scan hscan (Table.mem_of_mem_values_ofList hm)
      (Table.mem_of_mem_values_ofList hn) hne

/-- Braces in a comment and in a literal, a group in a group, and a method of another class behind
the template. -/
theorem inside_of_find_window :
    let text : Text := "class Box<T> \x7b public <U> U map(U a) // \x7b\n \x7b f('\x7d'); \x7d " ++
      "static <V> V put(V v) \x7b (\x7b\x7d) \x7d \x7d " ++
      "class A \x7b final <W> W id(W w) \x7b\x7d \x7d"
    text.WellNested ∧ ∃ ts t ms, Template.find text = .ok ts ∧ t ∈ ts.values ∧
      find text t.className t.bodyStart (some t.span.stop) = .ok ms ∧
      t.bodyStart = 13 ∧ t.span.stop = 87 ∧
      ms.values.map (·.span) = [⟨15, 54⟩, ⟨55, 85⟩] ∧
      (∀ m ∈ ms.values, 13 < m.span.start ∧ m.span.stop < 87 ∧
        (∃ gap, IsGap gap ∧
          text.slice m.span.start m.span.stop = m.signature ++ (gap ++ m.body)) ∧
        m.bracket <:+: m.signature) ∧
      ms.values.Pairwise Apart := by
  intro text
  have hnested : text.WellNested := by decide +kernel
  have hplaces : (Template.find text).toOption.map
      (fun ts => ts.values.map fun t => (t.className, t.bodyStart, t.span.stop)) =
        some [("Box".toList, 13, 87)] := by decide +kernel
  have hspans : (find text "Box" (13 : Nat) (some (87 : Nat))).toOption.map
      (fun ms => ms.values.map (·.span)) = some [⟨15, 54⟩, ⟨55, 85⟩] := by decide +kernel
  obtain ⟨ts, hts, hvalues⟩ := Table.exists_ok_of_values hplaces
  obtain ⟨ms, hms, hspan⟩ := Table.exists_ok_of_values hspans
  obtain ⟨t, ht, hplace⟩ := List.mem_map.mp (hvalues ▸ List.mem_singleton_self _)
  obtain ⟨hname, hstart, hstop⟩ : t.className = "Box".toList ∧ t.bodyStart = 13 ∧
      t.span.stop = 87 := by simpa using hplace
  have hfound : find text t.className t.bodyStart (some t.span.stop) = .ok ms := by
    rw [hname, hstart, hstop, hms]
  obtain ⟨hinside, hapart⟩ := inside_of_find hnested hts ht hfound
  refine ⟨hnested, ts, t, ms, hts, ht, hfound, hstart, hstop, hspan, fun m hm => ?_, hapart⟩
  obtain ⟨hfrom, -, hto, hslice, hbracket⟩ := hinside m hm
  exact ⟨hstart ▸ hfrom, hstop ▸ hto, hslice, hbracket⟩

end GenericMethod

end Monomorph
