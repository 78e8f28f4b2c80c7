import Monomorph.Instance
import Monomorph.Proofs.BracketDepth
import Monomorph.Proofs.MethodParts
import Monomorph.Proofs.SubstitutedIdentifiers
import Monomorph.Proofs.TypeExprLaws

/-!
# Signatures of instances

The signature of an instance has the identifiers of the generic one without the parameter list,
parameters and name replaced, exactly if what stands before and behind the list does not run into
one name where the list was (`identifiers_ofMethod`). A text like the list in a comment among the
modifiers is cut in its place, and the list itself stays (`plainSignature_cases`).
-/

namespace Monomorph

open Text

-- ---------------------------------------------------------------------------
-- The signature without its parameter list
-- ---------------------------------------------------------------------------

/-- The first place of a text that cannot begin in front of its place `a.length` and reach
behind it. -/
theorem Text.find?_cases {p b : Text} (hp : p ≠ [])
    (hover : ∀ y, y ≠ [] → p <+: y ++ (p ++ b) → p <+: y) (a : Text) :
    ¬p <:+: a ∧ find? p (a ++ (p ++ b)) = some a.length ∨
      ∃ x y, a = x ++ (p ++ y) ∧ find? p (a ++ (p ++ b)) = some x.length := by
  induction a with
  | nil =>
    refine .inl ⟨by simpa using hp, ?_⟩
    obtain ⟨c, p, rfl⟩ := List.exists_cons_of_ne_nil hp
    rw [List.nil_append, List.cons_append, find?, if_pos]
    · rfl
    · refine List.isPrefixOf_iff_prefix.mpr ?_
      exact List.prefix_append (c :: p) b
  | cons c a ih =>
    rw [List.cons_append, find?]
    by_cases hpre : p <+: c :: a
    · obtain ⟨y, hy⟩ := hpre
      refine .inr ⟨[], y, hy.symm, if_pos ?_⟩
      refine List.isPrefixOf_iff_prefix.mpr ?_
      rw [← List.cons_append, ← hy, List.append_assoc]
      exact List.prefix_append ..
    · have hnot : ¬p.isPrefixOf (c :: (a ++ (p ++ b))) = true := by
        intro h
        have hover' := List.isPrefixOf_iff_prefix.mp h
        exact hpre (hover (c :: a) (by simp) hover')
      rw [if_neg hnot]
      rcases ih with ⟨hearlier, hfind⟩ | ⟨x, y, rfl, hfind⟩
      · refine .inl ⟨fun h => ?_, by rw [hfind]; rfl⟩
        exact (List.infix_cons_iff.mp h).elim hpre hearlier
      · exact .inr ⟨c :: x, y, rfl, by rw [hfind]; rfl⟩

-- ---------------------------------------------------------------------------
-- Canonical texts
-- ---------------------------------------------------------------------------

namespace TypeExpr

theorem chars_renderMore {as : List TypeExpr} (h : ∀ a ∈ as, Fills a.render) :
    ∀ c ∈ renderMore as, c ∉ ['\'', '/', '*', '\\', '\n'] := by
  induction as with
  | nil => exact nofun
  | cons a as ih =>
    obtain ⟨ha, has⟩ := List.forall_mem_cons.mp h
    intro c hc
    rw [renderMore, List.mem_append, List.mem_append] at hc
    rcases hc with (hc | hc) | hc
    · rcases List.mem_pair.mp hc with rfl | rfl <;> decide
    · exact ha.chars c hc
    · exact ih has c hc

theorem fills_render {e : TypeExpr} (h : e.WellFormed) : Fills e.render := by
  induction e using induct with
  | h n as ih =>
    obtain ⟨hn, has⟩ := wellFormed_mk.mp h
    have hname := fills_of_run (isName_ne_nil hn) (all_isNameChar_of_isName hn)
    cases as with
    | nil => exact hname
    | cons a as =>
      obtain ⟨ha, hmore⟩ := List.forall_mem_cons.mp fun b hb => ih b hb (has b hb)
      refine ⟨by simp [render, hname.ne_nil], fun c hc => ?_⟩
      simp only [render, List.mem_append, List.mem_cons] at hc
      rcases hc with hc | rfl | (hc | hc) | hc
      · exact hname.chars c hc
      · decide
      · exact ha.chars c hc
      · exact chars_renderMore hmore c hc
      · obtain rfl := List.mem_singleton.mp hc
        decide

theorem name_mem_identifiers {e : TypeExpr} (h : e.WellFormed) :
    e.name ∈ e.render.identifiers := by
  obtain ⟨n, as⟩ := e
  have hn := (wellFormed_mk.mp h).1
  obtain ⟨s, hs, hrender⟩ : ∃ s : Text, s.head?.any isNameChar = false ∧
      render ⟨n, as⟩ = n ++ s := by
    cases as with
    | nil => exact ⟨[], rfl, by rw [render, List.append_nil]⟩
    | cons a as => exact ⟨_, rfl, by rw [render]⟩
  rw [hrender, identifiers_run hn hs]
  exact List.mem_cons_self ..

end TypeExpr

namespace Instance

open GenericMethod

variable {m : GenericMethod} {args : List TypeExpr} {front back : Text}

theorem plainSignature_cases (h : Signature m front back) :
    ¬m.bracket <:+: front ∧ plainSignature m = front ++ back.dropBlank ∨
      m.bracket <:+: front ∧ ∃ x, plainSignature m = x ++ (m.bracket ++ back) := by
  obtain ⟨inner, hinner, hchars⟩ := h.isList.bracket_eq
  have hangle : '<' ∉ inner := by
    intro hmem
    rcases hchars _ hmem with h | h | h
    · cases h
    · cases h
    · simp at h
  have hne : m.bracket ≠ [] := by
    rw [hinner]
    exact List.cons_ne_nil _ _
  have hover (y : Text) (hy : y ≠ []) (hpre : m.bracket <+: y ++ (m.bracket ++ back)) :
      m.bracket <+: y := by
    rcases prefix_append_cases hpre with hp | ⟨q, hq, heq⟩
    · exact hp
    · cases q with
      | nil => exact ⟨[], by rw [heq, List.append_nil, List.append_nil]⟩
      | cons d q =>
        -- a list that begins in `y` and reaches behind it would hold a second bracket
        obtain ⟨e, y, rfl⟩ := List.exists_cons_of_ne_nil hy
        rw [hinner] at hq heq
        have hd : d = '<' := (List.cons_prefix_cons.mp hq).1
        rw [List.cons_append, List.cons.injEq] at heq
        exact absurd (by rw [heq.2, hd]; simp) hangle
  have hcut (x y : Text) (hfind : find? m.bracket (x ++ (m.bracket ++ y)) = some x.length)
      (hs : m.signature = x ++ (m.bracket ++ y)) : plainSignature m = x ++ y.dropBlank := by
    unfold plainSignature
    rw [if_neg (by simpa using hne), hs, hfind]
    simp only
    rw [List.take_left, ← List.append_assoc, ← List.length_append, List.drop_left]
  rcases find?_cases hne hover front with ⟨hearlier, hfind⟩ | ⟨x, y, rfl, hfind⟩
  · exact .inl ⟨hearlier, hcut _ _ hfind h.signature_eq⟩
  · have hassoc : x ++ (m.bracket ++ y) ++ (m.bracket ++ back) =
        x ++ (m.bracket ++ (y ++ (m.bracket ++ back))) := by
      simp only [List.append_assoc]
    have hsignature := h.signature_eq
    rw [hassoc] at hfind hsignature
    refine .inr ⟨⟨x, y, by rw [List.append_assoc]⟩, x ++ y.dropBlank, ?_⟩
    rw [hcut _ _ hfind hsignature, dropBlank_append_right (by rw [hinner]; rfl),
      List.append_assoc]

def specializedSignature (m : GenericMethod) (args : List TypeExpr) : Text :=
  Substitution.replaceName
    (Substitution.substitute (plainSignature m) (bindings m.parameters args)) m.name
    (methodName m args)

/-- What an identifier turns into: a parameter into the identifiers of its argument. -/
def argumentIdentifiers (parameters : List Text) (args : List TypeExpr) (n : Text) : List Text :=
  ((parameters.zip args).lookup n).elim [n] fun a => a.render.identifiers

/-- The identifiers that those of a signature turn into: parameters into the identifiers of their
arguments, and then the name of the method into the concrete one. -/
def signatureIdentifiers (m : GenericMethod) (args : List TypeExpr) (ids : List Text) :
    List Text :=
  (ids.flatMap (argumentIdentifiers m.parameters args)).map fun n =>
    if n = m.name then methodName m args else n

theorem isName_methodName (hname : m.name.isName = true) (hargs : ∀ a ∈ args, a.WellFormed) :
    (methodName m args).isName = true := by
  have h := (TypeExpr.wellFormed_mk.mpr ⟨hname, hargs⟩).isName_mangle
  rwa [TypeExpr.mangle] at h

theorem identifiers_specializedSignature (h : Signature m front back)
    (hlength : args.length = m.parameters.length) (hargs : ∀ a ∈ args, a.WellFormed) :
    (specializedSignature m args).identifiers =
      signatureIdentifiers m args (plainSignature m).identifiers := by
  have hrenders := Substitution.renders_bindings h.isList.isName h.isList.nodup hlength
  have hnames : ∀ rule ∈ Text.longestFirst (bindings m.parameters args).entries,
      rule.1.isName = true := fun rule hrule => hrenders.isName hrule
  have hfills : ∀ rule ∈ Text.longestFirst (bindings m.parameters args).entries,
      Fills rule.2 := by
    intro rule hrule
    obtain ⟨a, ha, hv⟩ := hrenders.value hrule
    rw [hv]
    exact TypeExpr.fills_render (hargs a (List.of_mem_zip (Table.mem_of_lookup ha)).2)
  have hmethod := isName_methodName h.isName hargs
  have hsingle : ∀ rule ∈ [(m.name, methodName m args)], Fills rule.2 := by
    intro rule hrule
    obtain rfl := List.mem_singleton.mp hrule
    exact fills_of_run (isName_ne_nil hmethod) (all_isNameChar_of_isName hmethod)
  have hname : ∀ rule ∈ [(m.name, methodName m args)], rule.1.isName = true := by
    intro rule hrule
    obtain rfl := List.mem_singleton.mp hrule
    exact h.isName
  rw [specializedSignature, Substitution.replaceName,
    (Substitution.forRuns_singleton h.isName _).identifiers_replaceFrom hsingle hname,
    Substitution.substitute_eq, hrenders.forRuns.identifiers_replaceFrom hfills hnames,
    signatureIdentifiers, List.map_eq_flatMap]
  have hfirst : (plainSignature m).identifiers.flatMap (fun n => identifiers (Substitution.fill
      (longestFirst (bindings m.parameters args).entries) n)) =
        (plainSignature m).identifiers.flatMap (argumentIdentifiers m.parameters args) := by
    refine List.flatMap_congr fun n hn => ?_
    rw [Substitution.fill, hrenders.lookup_eq, argumentIdentifiers]
    cases (m.parameters.zip args).lookup n with
    | none => exact identifiers_alone (isName_of_mem_identifiers hn)
    | some a => rfl
  rw [← hfirst]
  refine List.flatMap_congr fun n hn => ?_
  obtain ⟨k, -, hk⟩ := List.mem_flatMap.mp hn
  rw [Substitution.fill, List.lookup_singleton]
  split
  · rename_i heq
    rw [if_pos (eq_of_beq heq)]
    exact identifiers_alone hmethod
  · rename_i hne
    rw [if_neg (by simpa using hne)]
    exact identifiers_alone (isName_of_mem_identifiers hk)

theorem argumentIdentifiers_of_not_mem {parameters : List Text} {n : Text}
    (h : n ∉ parameters) : argumentIdentifiers parameters args n = [n] := by
  have hnone : (parameters.zip args).lookup n = none := by
    refine List.lookup_eq_none_iff.mpr fun e he => ?_
    have hmem := (List.of_mem_zip he).1
    exact bne_iff_ne.mpr fun heq => h (heq ▸ hmem)
  rw [argumentIdentifiers, hnone]
  rfl

theorem argumentIdentifiers_ne_nil {parameters : List Text} (hargs : ∀ a ∈ args, a.WellFormed)
    (n : Text) : argumentIdentifiers parameters args n ≠ [] := by
  rw [argumentIdentifiers]
  cases h : (parameters.zip args).lookup n with
  | none => exact List.cons_ne_nil _ _
  | some a =>
    have ha := hargs a (List.of_mem_zip (Table.mem_of_lookup h)).2
    exact List.ne_nil_of_mem (TypeExpr.name_mem_identifiers ha)

theorem splits_front (h : Signature m front back)
    (hmeet : ¬(front.getLast?.any isNameChar = true ∧
      back.dropBlank.head?.any isNameChar = true)) : Splits front back.dropBlank := by
  obtain ⟨q, n, w, rfl, hq, hn, hw⟩ := h.front_eq
  obtain ⟨c, r, hcons, -, hall⟩ := exists_modifier hn
  have hne : n ≠ [] := hcons ▸ List.cons_ne_nil c r
  have hhead : (w ++ back.dropBlank).head?.any isNameChar = false := by
    cases w with
    | nil =>
      have hlast : (q ++ (n ++ [])).getLast?.any isNameChar = true := by
        rw [List.append_nil, List.getLast?_append_of_ne_nil _ hne,
          List.getLast?_eq_some_getLast hne]
        exact List.all_eq_true.mp hall _ (List.getLast_mem hne)
      exact Bool.eq_false_iff.mpr fun hback => hmeet ⟨hlast, hback⟩
    | cons d w => exact not_isNameChar_of_isBlank (Bool.and_eq_true_iff.mp hw).1
  have hsplits : Splits q (n ++ w ++ back.dropBlank) := hq.congr (by rw [hcons]; rfl)
  exact hsplits.trans (Splits.trans (.word hall hhead) (.blanks hw _))

theorem length_signatureIdentifiers (ids : List Text) : (signatureIdentifiers m args ids).length =
    (ids.flatMap (argumentIdentifiers m.parameters args)).length :=
  List.length_map ..

theorem length_signatureIdentifiers_joined (h : Signature m front back)
    (hargs : ∀ a ∈ args, a.WellFormed) (hfront : front.getLast?.any isNameChar = true)
    (hback : back.dropBlank.head?.any isNameChar = true) :
    (signatureIdentifiers m args (identifiers (front ++ back.dropBlank))).length <
      (signatureIdentifiers m args (front.identifiers ++ back.identifiers)).length := by
  have hpos (n : Text) : 0 < (argumentIdentifiers m.parameters args n).length :=
    List.length_pos_iff.mpr (argumentIdentifiers_ne_nil hargs n)
  obtain ⟨q, n, rfl, hq, hn⟩ := h.front_of_getLast hfront
  obtain ⟨k, r, hdrop, hk, hr⟩ := h.back_of_head hback
  have hname : n.isName = true := (by decide : ∀ n ∈ modifierWords, n.isName = true) n hn
  have hjoined : (n ++ k).isName = true := isName_append hname (all_isNameChar_of_isName hk)
  have hkept : argumentIdentifiers m.parameters args (n ++ k) = [n ++ k] := by
    refine argumentIdentifiers_of_not_mem fun hmem => ?_
    obtain ⟨c, hc, -⟩ := h.isList.letter _ hmem
    have hlength := congrArg List.length hc
    have hn := List.length_pos_iff.mpr (isName_ne_nil hname)
    have hk := List.length_pos_iff.mpr (isName_ne_nil hk)
    simp only [List.length_append, List.length_cons, List.length_nil] at hlength
    omega
  have hleft : identifiers (q ++ n ++ back.dropBlank) =
      q.identifiers ++ (n ++ k) :: r.identifiers := by
    have hsplits : Splits q (n ++ k ++ r) := by
      refine hq.congr ?_
      obtain ⟨c, n, rfl⟩ := List.exists_cons_of_ne_nil (isName_ne_nil hname)
      rfl
    rw [hdrop, ← identifiers_run hjoined hr, ← hsplits.identifiers_append]
    simp only [List.append_assoc]
  have hfrontIds : identifiers (q ++ n) = q.identifiers ++ [n] := by
    rw [hq.identifiers_append, identifiers_alone hname]
  have hbackIds : back.identifiers = k :: r.identifiers := by
    rw [← identifiers_dropBlank, hdrop, identifiers_run hk hr]
  rw [length_signatureIdentifiers, length_signatureIdentifiers, hleft, hfrontIds, hbackIds]
  simp only [List.flatMap_append, List.flatMap_cons, List.flatMap_nil, List.length_append, hkept,
    List.length_cons, List.length_nil]
  have := hpos n
  have := hpos k
  omega

theorem identifiers_of_closed (h : Signature m front back) {x : Text} (hx : Closed x) :
    identifiers (x ++ (m.bracket ++ back)) =
      x.identifiers ++ (m.parameters ++ back.identifiers) := by
  obtain ⟨inner, hinner, -⟩ := h.isList.bracket_eq
  have hsplits : Splits x (m.bracket ++ back) := by
    rw [hinner]
    exact .before hx (by decide) rfl
  rw [hsplits.identifiers_append, h.bracket_splits.identifiers_append, h.identifiers_bracket]

theorem length_signatureIdentifiers_kept (h : Signature m front back)
    (hargs : ∀ a ∈ args, a.WellFormed) {x : Text} (hx : Closed x)
    (hids : x.identifiers = front.identifiers) :
    (signatureIdentifiers m args (front.identifiers ++ back.identifiers)).length <
      (signatureIdentifiers m args (identifiers (x ++ (m.bracket ++ back)))).length := by
  have hlist : 0 < (m.parameters.flatMap (argumentIdentifiers m.parameters args)).length := by
    obtain ⟨p, ps, hparams⟩ := List.exists_cons_of_ne_nil h.isList.ne_nil
    rw [hparams, List.flatMap_cons, List.length_append]
    exact Nat.add_pos_left (List.length_pos_iff.mpr (argumentIdentifiers_ne_nil hargs p)) _
  rw [length_signatureIdentifiers, length_signatureIdentifiers, identifiers_of_closed h hx, hids]
  simp only [List.flatMap_append, List.length_append]
  omega

/-- The method for `args` is its signature, with the arguments in place and the concrete name, and
its body. `front` are the modifiers in front of the parameter list, and `back` is the rest of the
signature. Unless the text of the list stands in `front` already, the identifiers are those of
`front` and `back`, as `signatureIdentifiers` changes them, if and only if no name ends `front` that
would run on in `back`. If it does stand there, in a comment or literal, the list stays behind what
is left of `front`, and its identifiers are too many as long as `front` has kept its own. -/
theorem identifiers_ofMethod {text owner : Text} {start : Int} {stop : Option Int}
    {ms : Table Text GenericMethod} (hfind : GenericMethod.find text owner start stop = .ok ms)
    (hm : m ∈ ms.values) (hlength : args.length = m.parameters.length)
    (hargs : ∀ a ∈ args, a.WellFormed) :
    ofMethod none m args = ⟨specializedSignature m args ++ " " ++
      Substitution.substitute m.body (bindings m.parameters args), []⟩ ∧
    ∃ front back, m.signature = front ++ (m.bracket ++ back) ∧
      Closed front ∧ front.tokens.all isModifier = true ∧
      m.bracket.identifiers = m.parameters ∧
      m.signature.identifiers = front.identifiers ++ (m.parameters ++ back.identifiers) ∧
      (¬m.bracket <:+: front → ((specializedSignature m args).identifiers =
          signatureIdentifiers m args (front.identifiers ++ back.identifiers) ↔
        ¬(front.getLast?.any isNameChar = true ∧
          back.dropBlank.head?.any isNameChar = true))) ∧
      (m.bracket <:+: front → ∃ x, plainSignature m = x ++ (m.bracket ++ back) ∧
        (Closed x → x.identifiers = front.identifiers → (specializedSignature m args).identifiers ≠
          signatureIdentifiers m args (front.identifiers ++ back.identifiers))) := by
  obtain ⟨front, back, h⟩ := signature_of_find hfind hm
  have hids := identifiers_specializedSignature h hlength hargs
  refine ⟨?_, front, back, h.signature_eq, h.front_closed, h.modifiers, h.identifiers_bracket, ?_,
    ?_, ?_⟩
  · rw [ofMethod, if_neg (not_not_intro hlength)]
    rfl
  · rw [h.signature_eq, identifiers_of_closed h h.front_closed]
  · intro hnot
    rcases plainSignature_cases h with ⟨-, hplain⟩ | ⟨hearlier, -⟩
    · rw [hids, hplain]
      constructor
      · rintro heq ⟨hfront, hback⟩
        have hlt := length_signatureIdentifiers_joined h hargs hfront hback
        rw [heq] at hlt
        exact absurd hlt (Nat.lt_irrefl _)
      · intro hmeet
        rw [(splits_front h hmeet).identifiers_append, identifiers_dropBlank]
    · exact absurd hearlier hnot
  · intro hearlier
    rcases plainSignature_cases h with ⟨hnot, -⟩ | ⟨-, x, hplain⟩
    · exact absurd hearlier hnot
    · refine ⟨x, hplain, fun hx hsame heq => ?_⟩
      have hlt := length_signatureIdentifiers_kept h hargs hx hsame
      rw [← hplain, ← hids, heq] at hlt
      exact absurd hlt (Nat.lt_irrefl _)

/-- A list with two parameters behind a comment, an argument that is the name of the method, and a
parameter of that name. -/
theorem identifiers_ofMethod_comment :
    let text : Text :=
      "class C \x7b public /* <T> */ static <T, U> Map<U, T> f(T f, U a) \x7b \x7d \x7d"
    let args : List TypeExpr := [⟨"f", []⟩, ⟨"List", [⟨"K", []⟩]⟩]
    ∃ ms, GenericMethod.find text "C" 0 none = .ok ms ∧ ∃ m ∈ ms.values,
      args.length = m.parameters.length ∧ (∀ a ∈ args, a.WellFormed) ∧
      (specializedSignature m args).identifiers = ["public".toList, "static".toList, "Map".toList,
        "List".toList, "K".toList, "ffListK".toList, "ffListK".toList, "ffListK".toList,
        "ffListK".toList, "List".toList, "K".toList, "a".toList] := by
  intro text args
  let signature : Text := "public /* <T> */ static <T, U> Map<U, T> f(T f, U a)"
  have hfacts : (GenericMethod.find text "C" 0 none).toOption.map (fun ms => ms.values.map fun m =>
      (m.signature, m.bracket, m.name, m.parameters)) =
        some [(signature, "<T, U>".toList, "f".toList, ["T".toList, "U".toList])] := by
    decide +kernel
  obtain ⟨ms, hms, hvalues⟩ := Table.exists_ok_of_values hfacts
  obtain ⟨m, hm, hfields⟩ := List.mem_map.mp (hvalues ▸ List.mem_singleton_self _)
  simp only [Prod.mk.injEq] at hfields
  obtain ⟨hsignature, hbracket, hname, hparams⟩ := hfields
  have hlength : args.length = m.parameters.length := by
    rw [hparams]
    rfl
  have hargs : ∀ a ∈ args, a.WellFormed := by decide
  obtain ⟨-, front, back, hparts, -, -, -, -, hids, -⟩ := identifiers_ofMethod hms hm hlength hargs
  rw [hsignature, hbracket] at hparts
  have hplace : ∀ k ∈ List.range (signature.length + 1),
      ("<T, U>" : Text).isPrefixOf (signature.drop k) = true → k = 24 := by decide +kernel
  have hfront : front.length = 24 := by
    refine hplace _ ?_ ?_
    · rw [List.mem_range, hparts, List.length_append]
      omega
    · rw [hparts, List.drop_left, List.isPrefixOf_iff_prefix]
      exact List.prefix_append ..
  have hbefore : front = signature.take 24 := by rw [hparts, ← hfront, List.take_left]
  have hbehind : back = (signature.drop 24).drop 6 := by
    rw [hparts, ← hfront, List.drop_left]
    rfl
  refine ⟨ms, hms, m, hm, hlength, hargs, ?_⟩
  rw [hbefore, hbehind, hbracket] at hids
  rw [(hids (by decide +kernel)).mpr (by decide +kernel)]
  simp only [signatureIdentifiers, methodName, hname, hparams]
  decide +kernel

/-- A list right behind a modifier: the modifier and the return type become one name. -/
theorem identifiers_ofMethod_joined :
    let text : Text := "class C \x7b public<T> void f(T a) \x7b \x7d \x7d"
    let args : List TypeExpr := [⟨"Integer", []⟩]
    ∃ ms, GenericMethod.find text "C" 0 none = .ok ms ∧ ∃ m ∈ ms.values,
      args.length = m.parameters.length ∧ (∀ a ∈ args, a.WellFormed) ∧
      m.signature = "public".toList ++ (m.bracket ++ " void f(T a)".toList) ∧
      ofMethod none m args = ⟨"publicvoid fInteger(Integer a) { }", []⟩ ∧
      (specializedSignature m args).identifiers ≠
        signatureIdentifiers m args (identifiers "public" ++ identifiers " void f(T a)") := by
  intro text args
  have hfacts : (GenericMethod.find text "C" 0 none).toOption.map (fun ms => ms.values.map fun m =>
      (m.parameters, [m.signature, m.bracket, m.name, m.body])) =
        some [(["T".toList], ["public<T> void f(T a)".toList, "<T>".toList, "f".toList,
          "{ }".toList])] := by decide +kernel
  obtain ⟨ms, hms, hvalues⟩ := Table.exists_ok_of_values hfacts
  obtain ⟨m, hm, hfields⟩ := List.mem_map.mp (hvalues ▸ List.mem_singleton_self _)
  simp only [Prod.mk.injEq, List.cons.injEq, and_true] at hfields
  obtain ⟨hparams, hsignature, hbracket, hname, hbody⟩ := hfields
  have hlength : args.length = m.parameters.length := by
    rw [hparams]
    rfl
  have hplain : plainSignature m = "publicvoid f(T a)" := by
    simp only [plainSignature, hsignature, hbracket]
    decide +kernel
  have hrules : longestFirst (bindings m.parameters args).entries =
      [("T".toList, "Integer".toList)] := by
    rw [hparams]
    exact List.mergeSort_singleton _
  have hspecial : specializedSignature m args = "publicvoid fInteger(Integer a)" := by
    rw [specializedSignature, Substitution.substitute_eq, hplain, hrules]
    simp only [methodName, hname]
    decide +kernel
  refine ⟨ms, hms, m, hm, hlength, by decide, ?_, ?_, ?_⟩
  · rw [hsignature, hbracket]
    rfl
  · have hmethod : specializedMethod m args = specializedSignature m args ++ " " ++
        Substitution.substitute m.body (bindings m.parameters args) := rfl
    rw [ofMethod, if_neg (not_not_intro hlength), hmethod, hspecial, Substitution.substitute_eq,
      hbody, hrules]
    exact congrArg (Generated.mk · []) (by decide +kernel)
  · rw [hspecial]
    simp only [signatureIdentifiers, methodName, hname, hparams]
    decide +kernel

end Instance

end Monomorph
