import Monomorph.Diagnostic.Basic

/-!
# Outcomes

What a run says about one input file or one generated class.
-/

namespace Monomorph

inductive Outcome where
  /-- Nothing is written for `source`. -/
  | failed (source : Text) (problem : Diagnostic)
  /-- The file declares templates and has no output of its own. -/
  | template (source : Text)
  /-- Text to be written; a generated class has no source file. -/
  | output (source : Option Text) (path content : Text)
deriving Repr

namespace Outcome

def source? : Outcome → Option Text
  | .failed s _ => some s
  | .template s => some s
  | .output s _ _ => s

def path? : Outcome → Option Text
  | .output _ p _ => some p
  | _ => none

def content : Outcome → Text
  | .output _ _ c => c
  | _ => []

def problem? : Outcome → Option Diagnostic
  | .failed _ d => some d
  | _ => none

def isTemplate : Outcome → Bool
  | .template _ => true
  | _ => false

end Outcome

end Monomorph
