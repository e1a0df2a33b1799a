import AegisCode.Text

/-!
# Configuration

The part of the configuration schema that the modelled code reads, with the
defaults of the schema. Integers are unbounded, as in Python.
-/
namespace AegisCode

/-- An environment mapping. -/
abbrev Env := List (Str × Str)

inductive Decision where
  | allow
  | allowWithAudit
  | requireApproval
  | deny
  deriving DecidableEq, Repr

def Decision.value : Decision → Str
  | .allow => "ALLOW"
  | .allowWithAudit => "ALLOW_WITH_AUDIT"
  | .requireApproval => "REQUIRE_APPROVAL"
  | .deny => "DENY"

theorem Decision.allow_or_audit {d : Decision} (hdeny : d ≠ .deny) (hreq : d ≠ .requireApproval) :
    d = .allow ∨ d = .allowWithAudit := by
  cases d with
  | allow => exact .inl rfl
  | allowWithAudit => exact .inr rfl
  | requireApproval => exact absurd rfl hreq
  | deny => exact absurd rfl hdeny

structure Limits where
  maxSteps : ℤ := 25
  maxConsecutiveFailures : ℤ := 5
  noProgressRepeatLimit : ℤ := 3
  actionRetryLimit : ℤ := 3
  llmMaxRetries : ℤ := 3
  wallClockTimeoutSec : ℤ := 300

structure DefaultDecisions where
  readonly : Decision := .allow
  write : Decision := .requireApproval
  command : Decision := .deny

structure CommandRule where
  argv0 : Str
  argsContain : List Str := []
  decision : Decision

def defaultCommandRules : List CommandRule :=
  [⟨"git", ["push"], .deny⟩,
    ⟨"git", ["reset", "--hard"], .deny⟩,
    ⟨"git", ["clean"], .deny⟩,
    ⟨"git", ["commit"], .requireApproval⟩,
    ⟨"pip", ["install"], .requireApproval⟩,
    ⟨"python", ["-c"], .deny⟩,
    ⟨"python", ["-m"], .deny⟩]

structure Governance where
  commandAllowlist : List Str := ["python", "python3", "pip", "pytest", "ruff", "mypy", "git"]
  commandRules : List CommandRule := defaultCommandRules
  sensitiveFilePatterns : List Str := [".env", ".git/", "*.pem", "*.key", "*credentials*"]
  writeAllowlistDirs : List Str := ["src/", "tests/"]
  defaultDecisions : DefaultDecisions := {}

structure Workspace where
  root : Str := "/workspace"
  allowedBase : Option Str := none

structure Memory where
  contextBudgetChars : ℤ := 24000

structure AegisConfig where
  workspace : Workspace := {}
  limits : Limits := {}
  governance : Governance := {}
  memory : Memory := {}

end AegisCode
