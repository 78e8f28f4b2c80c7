import Monomorph.Proofs.TextLaws
import Monomorph.Proofs.TypeExprLaws
import Monomorph.TypeExpr.Located

/-!
# Spellings

A spelling is a type expression as it can stand in source: its names with the blanks between
them. It is a derivation tree of the grammar of references, so names and blanks are subtypes and
an argument list is never empty. Every well-formed expression has a spelling whose text is the
canonical one.
-/

namespace Monomorph

abbrev Name := { t : Text // t.isName = true }

abbrev Blanks := { t : Text // t.allBlank = true }

def Blanks.none : Blanks := ⟨[], rfl⟩

def Blanks.space : Blanks := ⟨[' '], rfl⟩

def Blanks.append (b c : Blanks) : Blanks := ⟨b.1 ++ c.1, Text.allBlank_append b.2 c.2⟩

mutual
inductive Spelling where
  | simple (name : Name)
  | applied (name : Name) (gap : Blanks) (args : Arguments)
inductive Arguments where
  | last (before : Blanks) (arg : Spelling) (after : Blanks)
  | more (before : Blanks) (arg : Spelling) (after : Blanks) (others : Arguments)
end

mutual
def Spelling.text : Spelling → Text
  | .simple n => n.1
  | .applied n gap args => n.1 ++ (gap.1 ++ '<' :: args.text)
def Arguments.text : Arguments → Text
  | .last before arg after => before.1 ++ (arg.text ++ (after.1 ++ ['>']))
  | .more before arg after others => before.1 ++ (arg.text ++ (after.1 ++ ',' :: others.text))
end

mutual
def Spelling.expr : Spelling → TypeExpr
  | .simple n => ⟨n.1, []⟩
  | .applied n _ args => ⟨n.1, args.exprs⟩
def Arguments.exprs : Arguments → List TypeExpr
  | .last _ arg _ => [arg.expr]
  | .more _ arg _ others => arg.expr :: others.exprs
end

mutual
/-- The expression with its places, when its text starts at offset `i`. -/
def Spelling.locate (i : Nat) : Spelling → Located
  | .simple n => ⟨n.1, ⟨i, i + n.1.length⟩, []⟩
  | .applied n gap args =>
    ⟨n.1, ⟨i, i + (Spelling.applied n gap args).text.length⟩,
      args.locate (i + n.1.length + gap.1.length + 1)⟩
def Arguments.locate (i : Nat) : Arguments → List Located
  | .last before arg _ => [arg.locate (i + before.1.length)]
  | .more before arg after others =>
    arg.locate (i + before.1.length) ::
      others.locate (i + before.1.length + arg.text.length + after.1.length + 1)
end

mutual
def Spelling.nested : Spelling → List Spelling
  | .simple _ => []
  | .applied _ _ args => args.nested
def Arguments.nested : Arguments → List Spelling
  | .last _ arg _ => arg :: arg.nested
  | .more _ arg _ others => arg :: (arg.nested ++ others.nested)
end

-- ---------------------------------------------------------------------------
-- The expression and the places of a spelling
-- ---------------------------------------------------------------------------

theorem Arguments.exprs_ne_nil (args : Arguments) : args.exprs ≠ [] := by
  cases args <;> simp [Arguments.exprs]

mutual
theorem Spelling.toExpr_locate (i : Nat) : (sp : Spelling) → (sp.locate i).toExpr = sp.expr
  | .simple n => by simp only [Spelling.locate, Located.toExpr, Located.toExprs, Spelling.expr]
  | .applied n gap args => by
    simp only [Spelling.locate, Located.toExpr, Spelling.expr, args.toExprs_locate]
theorem Arguments.toExprs_locate (i : Nat) :
    (args : Arguments) → Located.toExprs (args.locate i) = args.exprs
  | .last before arg after => by
    simp only [Arguments.locate, Located.toExprs, Arguments.exprs, arg.toExpr_locate]
  | .more before arg after others => by
    simp only [Arguments.locate, Located.toExprs, Arguments.exprs, arg.toExpr_locate,
      others.toExprs_locate]
end

theorem Spelling.span_locate (sp : Spelling) (i : Nat) :
    (sp.locate i).span = ⟨i, i + sp.text.length⟩ := by
  cases sp <;> simp only [Spelling.locate, Spelling.text]

mutual
theorem Spelling.map_expr_nested : (sp : Spelling) → sp.nested.map Spelling.expr = sp.expr.nested
  | .simple n => by
    simp only [Spelling.nested, Spelling.expr, TypeExpr.nested, TypeExpr.nestedAll, List.map_nil]
  | .applied n gap args => by
    simp only [Spelling.nested, Spelling.expr, TypeExpr.nested, args.map_expr_nested]
theorem Arguments.map_expr_nested :
    (args : Arguments) → args.nested.map Spelling.expr = TypeExpr.nestedAll args.exprs
  | .last before arg after => by
    simp only [Arguments.nested, Arguments.exprs, TypeExpr.nestedAll, List.map_cons,
      arg.map_expr_nested, List.append_nil]
  | .more before arg after others => by
    simp only [Arguments.nested, Arguments.exprs, TypeExpr.nestedAll, List.map_cons,
      List.map_append, arg.map_expr_nested, others.map_expr_nested]
end

theorem Text.slice_middle (a t b : Text) :
    ((a ++ (t ++ b)).take (a.length + t.length)).drop a.length = t := by
  rw [← List.append_assoc, ← List.length_append, List.take_left, List.drop_left]

mutual
theorem Spelling.literals_nested (a b : Text) : (sp : Spelling) →
    (sp.locate a.length).nested.map (fun l =>
      (((a ++ (sp.text ++ b)).take l.span.stop).drop l.span.start, l.toExpr)) =
    sp.nested.map fun s => (s.text, s.expr)
  | .simple n => by
    simp only [Spelling.locate, Located.nested, Located.nestedAll, Spelling.nested, List.map_nil]
  | .applied n gap args => by
    have h := args.literals_nested (a ++ (n.1 ++ (gap.1 ++ ['<']))) b
    have hl : (a ++ (n.1 ++ (gap.1 ++ ['<']))).length =
        a.length + n.1.length + gap.1.length + 1 := by
      simp only [List.length_append, List.length_cons, List.length_nil]
      omega
    rw [hl] at h
    simpa only [Spelling.locate, Located.nested, Spelling.nested, Spelling.text,
      List.append_assoc, List.cons_append, List.nil_append] using h
theorem Arguments.literals_nested (a b : Text) : (args : Arguments) →
    (Located.nestedAll (args.locate a.length)).map (fun l =>
      (((a ++ (args.text ++ b)).take l.span.stop).drop l.span.start, l.toExpr)) =
    args.nested.map fun s => (s.text, s.expr)
  | .last before arg after => by
    have h := arg.literals_nested (a ++ before.1) (after.1 ++ ('>' :: b))
    have hs := Text.slice_middle (a ++ before.1) arg.text (after.1 ++ ('>' :: b))
    rw [List.length_append] at h hs
    simp only [List.append_assoc] at h hs
    simp only [Arguments.locate, Located.nestedAll, Arguments.nested, Arguments.text,
      List.append_assoc, List.cons_append, List.nil_append, List.append_nil, List.map_cons,
      arg.span_locate, arg.toExpr_locate, h, hs]
  | .more before arg after others => by
    have h := arg.literals_nested (a ++ before.1) (after.1 ++ (',' :: (others.text ++ b)))
    have hs := Text.slice_middle (a ++ before.1) arg.text (after.1 ++ (',' :: (others.text ++ b)))
    have ho := others.literals_nested (a ++ (before.1 ++ (arg.text ++ (after.1 ++ [','])))) b
    have hl : (a ++ (before.1 ++ (arg.text ++ (after.1 ++ [','])))).length =
        a.length + before.1.length + arg.text.length + after.1.length + 1 := by
      simp only [List.length_append, List.length_cons, List.length_nil]
      omega
    rw [List.length_append] at h hs
    rw [hl] at ho
    simp only [List.append_assoc, List.cons_append, List.nil_append] at h hs ho
    simp only [Arguments.locate, Located.nestedAll, Arguments.nested, Arguments.text,
      List.append_assoc, List.cons_append, List.map_cons, List.map_append,
      arg.span_locate, arg.toExpr_locate, h, hs, ho]
end

-- ---------------------------------------------------------------------------
-- The characters of a spelling
-- ---------------------------------------------------------------------------

/-- What a property of characters needs to hold all over a spelling. -/
structure SpellingChars (P : Char → Prop) : Prop where
  name : ∀ c, isNameChar c = true → P c
  blank : ∀ c, isBlank c = true → P c
  mark : ∀ c ∈ ['<', ',', '>'], P c

theorem SpellingChars.of_name {P : Char → Prop} (h : SpellingChars P) (n : Name) : ∀ c ∈ n.1, P c :=
  fun c hc => h.name c (List.all_eq_true.mp (Text.all_isNameChar_of_isName n.2) c hc)

theorem SpellingChars.of_blanks {P : Char → Prop} (h : SpellingChars P) (b : Blanks) :
    ∀ c ∈ b.1, P c :=
  fun c hc => h.blank c (List.all_eq_true.mp b.2 c hc)

mutual
theorem Spelling.forall_mem {P : Char → Prop} (h : SpellingChars P) :
    (sp : Spelling) → ∀ c ∈ sp.text, P c
  | .simple n => h.of_name n
  | .applied n gap args => by
    intro c hc
    simp only [Spelling.text, List.mem_append, List.mem_cons] at hc
    rcases hc with hc | hc | rfl | hc
    · exact h.of_name n c hc
    · exact h.of_blanks gap c hc
    · exact h.mark _ (by simp)
    · exact args.forall_mem h c hc
theorem Arguments.forall_mem {P : Char → Prop} (h : SpellingChars P) :
    (args : Arguments) → ∀ c ∈ args.text, P c
  | .last before arg after => by
    intro c hc
    simp only [Arguments.text, List.mem_append, List.mem_cons, List.not_mem_nil, or_false] at hc
    rcases hc with hc | hc | hc | rfl
    · exact h.of_blanks before c hc
    · exact arg.forall_mem h c hc
    · exact h.of_blanks after c hc
    · exact h.mark _ (by simp)
  | .more before arg after others => by
    intro c hc
    simp only [Arguments.text, List.mem_append, List.mem_cons] at hc
    rcases hc with hc | hc | hc | rfl | hc
    · exact h.of_blanks before c hc
    · exact arg.forall_mem h c hc
    · exact h.of_blanks after c hc
    · exact h.mark _ (by simp)
    · exact others.forall_mem h c hc
end

theorem spellingChars_not_opensInert : SpellingChars fun c => opensInert c = false :=
  ⟨fun _ => not_opensInert_of_isNameChar, fun _ => not_opensInert_of_isBlank, by simp [opensInert]⟩

theorem Spelling.head_text (sp : Spelling) : sp.text.head?.any isNameChar = true := by
  rcases sp with n | ⟨n, gap, args⟩ <;>
    obtain ⟨c, r, hn, hc, -⟩ := Text.isName_iff.mp n.2 <;>
    simp [Spelling.text, hn, isNameChar_of_isNameStart hc]

theorem Arguments.getLast?_text : (args : Arguments) → args.text.getLast? = some '>'
  | .last before arg after => by simp [Arguments.text]
  | .more before arg after others => by
    have h := others.getLast?_text
    simp [Arguments.text, h, List.getLast?_append, List.getLast?_cons]

-- ---------------------------------------------------------------------------
-- Canonical spellings
-- ---------------------------------------------------------------------------

mutual
theorem Spelling.wellFormed : (sp : Spelling) → sp.expr.WellFormed
  | .simple n => by
    rw [Spelling.expr, TypeExpr.wellFormed_mk]
    exact ⟨n.2, fun a ha => (nomatch ha)⟩
  | .applied n gap args => by
    rw [Spelling.expr, TypeExpr.wellFormed_mk]
    exact ⟨n.2, args.wellFormed⟩
theorem Arguments.wellFormed : (args : Arguments) → ∀ a ∈ args.exprs, a.WellFormed
  | .last before arg after => by
    intro a ha
    rw [Arguments.exprs, List.mem_singleton] at ha
    exact ha ▸ arg.wellFormed
  | .more before arg after others => by
    intro a ha
    rw [Arguments.exprs, List.mem_cons] at ha
    rcases ha with rfl | ha
    · exact arg.wellFormed
    · exact others.wellFormed a ha
end

/-- Whether the text is the canonical one, here and in every argument. -/
def Spelling.IsCanonical (sp : Spelling) : Prop :=
  sp.text = sp.expr.render ∧ ∀ b ∈ sp.nested, b.text = b.expr.render

mutual
theorem TypeExpr.exists_spelling :
    (e : TypeExpr) → e.WellFormed → ∃ sp : Spelling, sp.expr = e ∧ sp.IsCanonical
  | ⟨n, []⟩, h => by
    refine ⟨.simple ⟨n, (wellFormed_mk.mp h).1⟩, rfl, ?_, fun b hb => (nomatch hb)⟩
    simp only [Spelling.text, Spelling.expr, render]
  | ⟨n, a :: as⟩, h => by
    obtain ⟨hn, has⟩ := wellFormed_mk.mp h
    obtain ⟨args, he, ht, hb⟩ := exists_arguments (a :: as) (by simp) has Blanks.none
    refine ⟨.applied ⟨n, hn⟩ Blanks.none args, ?_, ?_, hb⟩
    · simp only [Spelling.expr, he]
    · simp only [Spelling.text, Spelling.expr, he, ht, render, renderList, Blanks.none,
        List.nil_append]
theorem TypeExpr.exists_arguments : (es : List TypeExpr) → es ≠ [] →
    (∀ e ∈ es, e.WellFormed) → (before : Blanks) →
    ∃ args : Arguments, args.exprs = es ∧ args.text = before.1 ++ (renderList es ++ ">") ∧
      ∀ b ∈ args.nested, b.text = b.expr.render
  | [], hne, _, _ => absurd rfl hne
  | [a], _, h, before => by
    obtain ⟨sp, rfl, ht, hb⟩ := exists_spelling a (h a (by simp))
    refine ⟨.last before sp Blanks.none, rfl, ?_, ?_⟩
    · simp only [Arguments.text, ht, renderList, renderMore, Blanks.none, List.nil_append,
        List.append_nil]
      rfl
    · intro b hm
      rcases List.mem_cons.mp hm with rfl | hm
      · exact ht
      · exact hb b hm
  | a :: c :: cs, _, h, before => by
    obtain ⟨sp, rfl, ht, hb⟩ := exists_spelling a (h a (by simp))
    obtain ⟨others, he, hot, hob⟩ :=
      exists_arguments (c :: cs) (by simp) (fun b hb => h b (List.mem_cons_of_mem _ hb))
        Blanks.space
    refine ⟨.more before sp Blanks.none others, by rw [Arguments.exprs, he], ?_, ?_⟩
    · simp only [Arguments.text, ht, hot, renderList, renderMore, Blanks.none, Blanks.space,
        List.nil_append, List.append_assoc]
      rfl
    · intro b hm
      rcases List.mem_cons.mp hm with rfl | hm
      · exact ht
      · rcases List.mem_append.mp hm with hm | hm
        · exact hb b hm
        · exact hob b hm
end

end Monomorph
