import AegisCode.Json
import AegisCode.Schema

/-!
# Actions, verdicts and results

The records that pass between the model, the governance layer, the tools and
the loop, and the fingerprint that binds an approval to an action. Arguments
are JSON objects, kept as the list of their members.
-/
namespace AegisCode

inductive ExnKind where
  | actionParseError
  | superseded
  | valueError
  | keyError
  | typeError
  | attributeError
  | assertionError
  | osError
  | other
  deriving DecidableEq, Repr

/-- An exception that is not a `BaseException`: its class and its text. -/
structure Exn where
  kind : ExnKind
  text : Str

/-- A dictionary: members in insertion order. -/
abbrev Dict := List (Str × Json)

def Dict.get? (d : Dict) (key : Str) : Option Json := d.lookup key

/-- The truth value of a JSON value in a Python condition. -/
def Json.truthy : Json → Bool
  | .null => false
  | .bool b => b
  | .int n => n ≠ 0
  | .float f => f.text ≠ "0.0" ∧ f.text ≠ "-0.0"
  | .str s => !s.isEmpty
  | .arr xs => !xs.isEmpty
  | .obj ms => !ms.isEmpty

structure Action where
  tool : Str
  arguments : Dict := []
  thought : Option Str := none
  expectation : Option Str := none

structure GovernanceVerdict where
  decision : Decision
  ruleId : Str
  reason : Str

inductive Status where
  | success
  | failure
  | denied
  | error
  deriving DecidableEq, Repr

def Status.value : Status → Str
  | .success => "success"
  | .failure => "failure"
  | .denied => "denied"
  | .error => "error"

inductive Category where
  | testFailure
  | toolError
  | policyDenied
  | approvalRejected
  | invalidAction
  | timeout
  | noProgress
  | internalError
  deriving DecidableEq, Repr

def Category.value : Category → Str
  | .testFailure => "TEST_FAILURE"
  | .toolError => "TOOL_ERROR"
  | .policyDenied => "POLICY_DENIED"
  | .approvalRejected => "APPROVAL_REJECTED"
  | .invalidAction => "INVALID_ACTION"
  | .timeout => "TIMEOUT"
  | .noProgress => "NO_PROGRESS"
  | .internalError => "INTERNAL_ERROR"

structure ToolResult where
  tool : Str
  status : Status
  summary : Str
  category : Option Category := none
  detailForLlm : Str := []
  exitCode : Option ℤ := none
  truncated : Bool := false
  artifacts : Dict := []

/-- `result.artifacts.get(key)` in a condition. -/
def ToolResult.flagged (r : ToolResult) (key : Str) : Bool :=
  (r.artifacts.get? key).any Json.truthy

/-! ## Approval binding -/

/-- The canonical text whose digest is the fingerprint of an action. -/
def canonicalText (a : Action) : Str :=
  Json.dumps (Json.canon (.obj [("tool", .str a.tool), ("arguments", .obj a.arguments)]))

def fingerprint (H : Digest) (a : Action) : Str := H.hexdigest (canonicalText a)

def validateResume (H : Digest) (approvedFp : Str) (currentAction : Action) : Except Exn Unit :=
  if fingerprint H currentAction ≠ approvedFp then
    .error ⟨.superseded, "action changed since approval"⟩
  else .ok ()

/-- Two actions that execute alike: the same tool and the same arguments. -/
def SameCall (a b : Action) : Prop :=
  a.tool = b.tool ∧ Json.Same (.obj a.arguments) (.obj b.arguments)

theorem canonicalText_eq (a : Action) : canonicalText a =
    Json.dumps (.obj [("arguments".toList, Json.canon (.obj a.arguments)),
      ("tool".toList, .str a.tool)]) := by
  simp only [canonicalText, Json.canon, Json.canonMembers]
  rfl

/-- The canonical text says exactly which tool runs and with which arguments. -/
theorem canonicalText_eq_iff {a b : Action} : canonicalText a = canonicalText b ↔ SameCall a b := by
  rw [canonicalText_eq, canonicalText_eq, Json.dumps_injective.eq_iff]
  simp only [Json.obj.injEq, List.cons.injEq, Prod.mk.injEq, true_and, and_true, Json.str.injEq]
  exact And.comm

theorem fingerprint_eq_iff {H : Digest} {a b : Action}
    (hcoll : H.CollisionFree {canonicalText a, canonicalText b}) :
    fingerprint H a = fingerprint H b ↔ SameCall a b := by
  rw [← canonicalText_eq_iff]
  exact ⟨fun h => hcoll (by simp) (by simp) h, fun h => congrArg H.hexdigest h⟩

end AegisCode
