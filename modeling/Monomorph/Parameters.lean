import Monomorph.TypeExpr.Located

/-!
# Type parameter lists

The `<K, V>` of a declaration. Parameters are single letters that do not repeat, and the
brackets may not be doubled.
-/

namespace Monomorph.Parameters

/-- Reads the parameters behind an opening bracket, through the bracket that closes them. Those
in `seen` may not come again when `distinct` is set. -/
def readMore (distinct : Bool) (seen : List Text) (s : Text) : Except Fault (List Text × Rest s) :=
  match hs : s.dropBlank with
  | '>' :: '>' :: r => .error (.here .doubledClosing ('>' :: '>' :: r))
  | b =>
    let param := b.nameRun
    let rest := b.afterNameRun
    if hp : param = [] then .error (.here .noParameter b)
    else if param.length ≠ 1 then .error ⟨.longParameter param, b, rest⟩
    else if !param.all Char.isAlpha then .error ⟨.oddParameter param, b, rest⟩
    else if distinct && seen.contains param then .error ⟨.repeatedParameter param, b, rest⟩
    else
      have hrest : rest.length < s.length := by
        have h₁ := congrArg List.length b.nameRun_append_afterNameRun
        have h₂ : 0 < b.nameRun.length := List.length_pos_iff.2 hp
        have h₃ := s.length_dropBlank_le
        rw [hs] at h₃
        rw [List.length_append] at h₁
        show b.afterNameRun.length < s.length
        omega
      match hb : rest.dropBlank with
      | '>' :: '>' :: r => .error (.here .doubledClosing ('>' :: '>' :: r))
      | '>' :: r =>
        .ok ([param], ⟨r, Nat.lt_trans (Text.length_lt_of_dropBlank hb) hrest⟩)
      | ',' :: r =>
        have hr : r.length < s.length := Nat.lt_trans (Text.length_lt_of_dropBlank hb) hrest
        match readMore distinct (seen ++ [param]) r with
        | .ok (params, t) => .ok (param :: params, t.mono hr)
        | .error f => .error f
      | r => .error (.here .badParameter r)
termination_by s.length

def read (distinct : Bool) (s : Text) : Except Fault (List Text × Rest s) :=
  match s with
  | '<' :: '<' :: r => .error (.here .doubledOpening ('<' :: '<' :: r))
  | '<' :: r =>
    match readMore distinct [] r with
    | .ok (params, t) => .ok (params, t.cons '<')
    | .error f => .error f
  | _ => .error (.here .noOpening s)

end Monomorph.Parameters
