import Monomorph.Lexical.Approach
import Monomorph.Lexical.Group
import Monomorph.Parameters
import Monomorph.Table

/-!
# Generic methods

A generic method is `[modifiers] <T, U> ReturnType name(parameters) { body }`, with at least one
modifier before the bracket. The return type is not parsed: the method's name is the first name
outside angle brackets that a parenthesis follows. A candidate without a body is no method.
-/

namespace Monomorph

structure GenericMethod where
  owner : Text
  name : Text
  parameters : List Text
  /-- Everything before the body, the parameter list included. -/
  signature : Text
  body : Text
  /-- The parameter list as written, brackets included. -/
  bracket : Text := []
  span : Span := ⟨0, 0⟩
deriving Repr

namespace GenericMethod

def key (m : GenericMethod) : Text :=
  m.owner ++ '.' :: m.name

def title (m : GenericMethod) : Text :=
  m.key ++ '<' :: (List.intercalate ", " m.parameters ++ ">")

def modifierWords : List Text :=
  ["public", "private", "protected", "global", "static", "final", "override", "virtual",
    "abstract"]

/-- Passes over a return type, with `depth` angle brackets open, as long as more than `keep`
characters are left. Gives the method's name, when there is one, and the place reached, which is
then the parenthesis behind the name. -/
def skipReturnType (keep depth : Nat) (s : Text) : Option Text × { r : Text // r.length ≤ s.length } :=
  if s.length ≤ keep then (none, ⟨s, Nat.le_refl _⟩)
  else
    have hg := Text.length_afterGap_le s
    match _h : s.afterGap with
    | [] => (none, ⟨[], by simp⟩)
    | c :: r =>
      have hr : r.length < s.length := by rw [_h] at hg; exact hg
      if c = '<' then
        let (n, t) := skipReturnType keep (depth + 1) r
        (n, ⟨t.1, Nat.le_trans t.2 (Nat.le_of_lt hr)⟩)
      else if c = '>' then
        let (n, t) := skipReturnType keep (depth - 1) r
        (n, ⟨t.1, Nat.le_trans t.2 (Nat.le_of_lt hr)⟩)
      else if c = ',' ∨ c = '.' ∨ c = '[' ∨ c = ']' then
        let (n, t) := skipReturnType keep depth r
        (n, ⟨t.1, Nat.le_trans t.2 (Nat.le_of_lt hr)⟩)
      else if hc : isNameStart c then
        have hn : (Text.afterName (c :: r)).length < s.length := by
          have := Text.length_afterName_lt (r := r) (isNameChar_of_isNameStart hc)
          rw [_h] at hg
          exact Nat.lt_of_lt_of_le this hg
        have hm : (Text.afterNameRun (c :: r)).length < s.length := by
          have := Text.length_afterNameRun_lt (r := r) (isNameChar_of_isNameStart hc)
          rw [_h] at hg
          exact Nat.lt_of_lt_of_le this hg
        if depth = 0 then
          if (Text.afterName (c :: r)).head? = some '(' then
            (some (Text.nameRun (c :: r)), ⟨Text.afterName (c :: r), Nat.le_of_lt hn⟩)
          else
            let (n, t) := skipReturnType keep depth (Text.afterName (c :: r))
            (n, ⟨t.1, Nat.le_trans t.2 (Nat.le_of_lt hn)⟩)
        else
          let (n, t) := skipReturnType keep depth (Text.afterNameRun (c :: r))
          (n, ⟨t.1, Nat.le_trans t.2 (Nat.le_of_lt hm)⟩)
      else (none, ⟨c :: r, by rw [← _h]; exact Text.length_afterGap_le s⟩)
termination_by s.length

/-- The methods of `owner` from the place `s` on, as long as more than `keep` characters are left.
`run` is where the current run of modifiers begins. -/
def scan (length keep : Nat) (owner : Text) (run : Option Text) (s : Text) :
    Except Fault (List GenericMethod) :=
  if s.length ≤ keep then .ok []
  else
    match _hi : s.afterInert? with
    | some r => scan length keep owner run r
    | none =>
      match s with
      | [] => .ok []
      | c :: r =>
        if isBlank c then scan length keep owner run r
        else if _hc : isNameChar c then
          if !modifierWords.contains (Text.nameRun (c :: r)) then
            scan length keep owner none (Text.afterNameRun (c :: r))
          else
            let start := run.getD (c :: r)
            let b := Text.afterName (c :: r)
            if b.head? ≠ some '<' then scan length keep owner (some start) b
            else
              match Parameters.read true b with
              | .error f => .error f
              | .ok (params, p) =>
                match skipReturnType keep 0 p.1 with
                | (none, t) => scan length keep owner none t.1
                | (some name, t) =>
                  match _hp : t.1.afterGroup? '(' ')' with
                  | none => .ok []
                  | some u =>
                    let g := u.afterGap
                    if g.head? ≠ some '{' then scan length keep owner none g
                    else
                      let stop := g.afterGroup '{' '}'
                      match scan length keep owner none stop with
                      | .error f => .error f
                      | .ok more =>
                        .ok ({
                          owner, name, parameters := params
                          signature := start.upTo u
                          body := g.upTo stop
                          bracket := b.upTo p.1
                          span := ⟨Text.offset length start, Text.offset length stop⟩ } :: more)
        else scan length keep owner none r
termination_by s.length
decreasing_by
  · exact Text.length_lt_of_afterInert? ‹_›
  · simp
  · exact Text.length_afterNameRun_lt _hc
  · exact Text.length_afterName_lt _hc
  · exact Nat.lt_of_le_of_lt t.2 (Nat.lt_trans p.2 (Text.length_afterName_lt _hc))
  · refine Nat.lt_of_le_of_lt (Text.length_afterGap_le u) ?_
    exact Nat.lt_trans (Text.length_lt_of_afterGroup? _hp)
      (Nat.lt_of_le_of_lt t.2 (Nat.lt_trans p.2 (Text.length_afterName_lt _hc)))
  · refine Nat.lt_of_le_of_lt (Text.length_afterGroup_le ..)
      (Nat.lt_of_le_of_lt (Text.length_afterGap_le u) ?_)
    exact Nat.lt_trans (Text.length_lt_of_afterGroup? _hp)
      (Nat.lt_of_le_of_lt t.2 (Nat.lt_trans p.2 (Text.length_afterName_lt _hc)))
  · simp

/-- The methods of `owner` between two offsets of a text, by key. Without `stop` the whole rest
is searched. -/
def find (text owner : Text) (start : Int) (stop : Option Int) :
    Except Fault (Table Text GenericMethod) :=
  let limit := min (stop.getD text.length) text.length
  match scan text.length (text.length - limit.toNat) owner none (text.enter start) with
  | .error f => .error f
  | .ok ms => .ok (.ofList (ms.map fun m => (m.key, m)))

end GenericMethod

end Monomorph
