import AegisCode.Commands

/-!
# The policy engine

`PolicyEngine.evaluate` and the default tier that the configuration builds for
it. A matcher or a default may raise.
-/
namespace AegisCode

/-- What the governance layer and the tools read of `ctx`; a missing workspace
root and an empty one are treated alike. -/
structure TaskContext where
  workspaceRoot : Str := []
  writeMaxBytes : ℤ := 1048576

structure PolicyRule where
  ruleId : Str
  matcher : Action → TaskContext → Except Exn Bool
  decision : Decision
  reason : Str

structure PolicyEngine where
  rules : List PolicyRule
  defaultFn : Action → TaskContext → Except Exn GovernanceVerdict

/-- The first rule that matches decides; without one the default does. -/
def evaluateRules (defaultFn : Action → TaskContext → Except Exn GovernanceVerdict)
    (action : Action) (ctx : TaskContext) : List PolicyRule → Except Exn GovernanceVerdict
  | [] => defaultFn action ctx
  | r :: rules => do
    if ← r.matcher action ctx then return ⟨r.decision, r.ruleId, r.reason⟩
    else evaluateRules defaultFn action ctx rules

def PolicyEngine.evaluate (engine : PolicyEngine) (action : Action) (ctx : TaskContext) :
    Except Exn GovernanceVerdict :=
  evaluateRules engine.defaultFn action ctx engine.rules

/-! ## The default tier -/

namespace Json

mutual
/-- `repr` of the value that the JSON value is read as. -/
def repr : Json → Str
  | .null => "None"
  | .bool true => "True"
  | .bool false => "False"
  | .int n => decimal n
  | .float f =>
    if f.text = "NaN" then "nan" else if f.text = "Infinity" then "inf"
    else if f.text = "-Infinity" then "-inf" else f.text
  | .str s => Str.repr s
  | .arr xs => '[' :: (Str.join ", " (reprElems xs) ++ [']'])
  | .obj ms => '\x7b' :: (Str.join ", " (reprMembers ms) ++ ['\x7d'])

def reprElems : List Json → List Str
  | [] => []
  | x :: xs => repr x :: reprElems xs

def reprMembers : List (Str × Json) → List Str
  | [] => []
  | (k, v) :: ms => (Str.repr k ++ ": ".toList ++ repr v) :: reprMembers ms
end

end Json

def readonlyTools : List Str := ["read_file", "list_files", "search_text"]

/-- An allowlisted directory with the separator that ends it. -/
def withSeparator (d : Str) : Str := if d.getLast? = some '/' then d else d ++ ['/']

/-- The decision on a `write_file`. -/
def judgeWrite (config : AegisConfig) (path : Json) : Except Exn GovernanceVerdict :=
  let dirs := config.governance.writeAllowlistDirs.map withSeparator
  let decision := config.governance.defaultDecisions.write
  let fallback : GovernanceVerdict := ⟨decision, "TIER_WRITE", "write path ".toList ++
    path.repr ++ " not in write_allowlist_dirs → ".toList ++ decision.value⟩
  match path with
  | .str p =>
    match dirs.find? (Str.startsWith p) with
    | some allowedDir => .ok ⟨.allow, "TIER_WRITE_ALLOWLISTED", "write path ".toList ++
        Str.repr p ++ " is under allowlisted dir ".toList ++ Str.repr allowedDir⟩
    | none => .ok fallback
  | _ =>
    if dirs = [] then .ok fallback
    else .error ⟨.attributeError,
        "'".toList ++ path.typeName ++ "' object has no attribute 'startswith'".toList⟩

/-- `build_default_fn`. -/
def buildDefaultFn (config : AegisConfig) (action : Action) (_ctx : TaskContext) :
    Except Exn GovernanceVerdict :=
  let tool := action.tool
  let defaults := config.governance.defaultDecisions
  if tool = "run_command" then
    judgeCommand ((action.arguments.get? "command").getD (.str []))
      config.governance.commandAllowlist config.governance.commandRules
  else if tool = "finish" then
    .ok ⟨.allow, "TIER_FINISH", "finish action always allowed"⟩
  else if tool = "run_tests" then
    .ok ⟨.allow, "TIER_SENSOR", "run_tests is the feedback sensor → always allowed to execute"⟩
  else if tool ∈ readonlyTools then
    .ok ⟨defaults.readonly, "TIER_READONLY", "readonly tool ".toList ++ Str.repr tool ++
      " → ".toList ++ defaults.readonly.value⟩
  else if tool = "write_file" then
    judgeWrite config ((action.arguments.get? "path").getD (.str []))
  else
    .ok ⟨defaults.command, "TIER_DEFAULT", "tool ".toList ++ Str.repr tool ++
      " not recognised → fail-closed ".toList ++ defaults.command.value⟩

def buildEngine (config : AegisConfig) : PolicyEngine := ⟨[], buildDefaultFn config⟩

theorem evaluate_buildEngine (config : AegisConfig) (action : Action) (ctx : TaskContext) :
    (buildEngine config).evaluate action ctx = buildDefaultFn config action ctx := rfl

theorem buildDefaultFn_write {config : AegisConfig} {action : Action} {ctx : TaskContext}
    (htool : action.tool = "write_file") :
    buildDefaultFn config action ctx =
      judgeWrite config ((action.arguments.get? "path").getD (.str [])) := by
  unfold buildDefaultFn
  simp only [htool]
  rw [if_neg (by decide), if_neg (by decide), if_neg (by decide), if_neg (by decide), if_pos trivial]

/-- A path that is written without approval, where writes need one, starts with
an allowlisted directory. -/
theorem startsWith_of_judgeWrite {config : AegisConfig} {path : Json} {verdict : GovernanceVerdict}
    (hwrite : config.governance.defaultDecisions.write = .requireApproval)
    (h : judgeWrite config path = .ok verdict) (hdec : verdict.decision ≠ .requireApproval) :
    verdict.decision = .allow ∧ ∃ p d, path = .str p ∧
      d ∈ config.governance.writeAllowlistDirs ∧ Str.startsWith p (withSeparator d) = true := by
  unfold judgeWrite at h
  cases path with
  | str p =>
    cases hfind : (config.governance.writeAllowlistDirs.map withSeparator).find?
        (Str.startsWith p) with
    | some allowedDir =>
      simp only [hfind, Except.ok.injEq] at h
      obtain ⟨d, hd, rfl⟩ := List.mem_map.mp (List.mem_of_find?_eq_some hfind)
      exact ⟨by rw [← h], p, d, rfl, hd, List.find?_some hfind⟩
    | none =>
      simp only [hfind, Except.ok.injEq] at h
      rw [← h] at hdec
      exact absurd hwrite hdec
  | _ =>
    dsimp only at h
    split_ifs at h
    obtain rfl := Except.ok.inj h
    exact absurd hwrite hdec

end AegisCode
