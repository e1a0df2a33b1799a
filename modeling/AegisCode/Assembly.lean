import AegisCode.DispatchErrors

/-!
# The assembled service

The production wiring: the registry of the tools that the configuration enables, what the
model is told of them, and the final verifier, which runs the command of the tests.
-/
namespace AegisCode

open Program Prog Posix

/-! ## The configuration of the tools -/

structure ToolsConfig where
  enabled : List Str := ["list_files", "read_file", "search_text", "write_file", "run_tests",
    "run_command", "finish"]
  writeMaxBytes : ℤ := 1048576

structure FeedbackConfig where
  testCommand : Str := "pytest -q"

/-- The configuration, with what only the assembly reads. -/
structure ServiceConfig extends AegisConfig where
  tools : ToolsConfig := {}
  feedback : FeedbackConfig := {}
  outputMaxBytes : ℤ := 65536

/-! ## The registry -/

namespace ToolSet

structure Parameter where
  name : Str
  type : Str := "string"
  required : Bool := true
  note : Str

def Tool.description : Tool → Str
  | .writeFile =>
    "Overwrite a text file in the workspace with the given content (full-content write)."
  | .readFile => "Read a text file from the workspace and return its contents."
  | .listFiles => "List entries of a workspace directory."
  | .searchText =>
    "Search all text files under the workspace for a substring; returns file:line matches."
  | .finish => "Declare the task complete. Only accepted after pytest objectively passes ".toList ++
    "(final verifier re-runs it).".toList
  | .runCommand => "Run an allowlisted shell command (shell=False, argv, cwd locked to workspace)."
  | .runTests => "Run the project's configured test command (the objective feedback sensor)."

def Tool.parameters : Tool → List Parameter
  | .writeFile =>
    [{ name := "path", note := "workspace-relative path; no traversal/absolute/sensitive files" },
      { name := "content", note := "full new file contents (text only; size-limited)" }]
  | .readFile => [{ name := "path", note := "workspace-relative path" }]
  | .listFiles =>
    [{ name := "path", required := false, note := "workspace-relative dir; defaults to '.'" }]
  | .searchText => [{ name := "query", note := "substring to search for" }]
  | .finish => []
  | .runCommand =>
    [{ name := "command", note := "command string; lexed + allowlist + rule governed" }]
  | .runTests => []

def Tool.header (tool : Tool) : Str :=
  "- ".toList ++ tool.name ++ ": ".toList ++ tool.description

def Parameter.line (p : Parameter) : Str :=
  "    - ".toList ++ p.name ++ " (".toList ++ p.type ++ ", ".toList ++
    (if p.required then "required".toList else "optional".toList) ++ "): ".toList ++ p.note

/-- The lines that describe a tool. -/
def Tool.lines (tool : Tool) : List Str :=
  tool.header ::
    if tool.parameters = [] then ["    (no arguments)"] else tool.parameters.map Parameter.line

end ToolSet

/-- `_build_registry`: the tools in the order in which they are registered. -/
def registeredTools (config : ServiceConfig) : List ToolSet.Tool :=
  ToolSet.allTools.filter fun tool => tool.name ∈ config.tools.enabled

def buildRegistry (config : ServiceConfig) : List Str :=
  (registeredTools config).map ToolSet.Tool.name

/-- `ToolRegistry.describe`. -/
def describe (tools : List ToolSet.Tool) : Str :=
  Str.join "\n" (tools.map fun tool => Str.join "\n" tool.lines)

/-- What the model is told about the tools, behind the protocol for its answers. -/
def describedLines (config : ServiceConfig) : List Str :=
  (describe (registeredTools config)).splitOn '\n'

section Registry
variable {config : ServiceConfig}

theorem mem_registeredTools {tool : ToolSet.Tool} :
    tool ∈ registeredTools config ↔ tool.name ∈ config.tools.enabled := by
  unfold registeredTools
  rw [List.mem_filter, decide_eq_true_iff, and_iff_right_iff_imp]
  intro _
  cases tool <;> decide

theorem mem_buildRegistry {name : Str} : name ∈ buildRegistry config ↔
    name ∈ config.tools.enabled ∧ (ToolSet.toolNamed name).isSome := by
  unfold buildRegistry
  rw [List.mem_map]
  constructor
  · rintro ⟨tool, htool, rfl⟩
    exact ⟨mem_registeredTools.mp htool, by rw [ToolSet.toolNamed_name]; rfl⟩
  · rintro ⟨henabled, hnamed⟩
    obtain ⟨tool, htool⟩ := Option.isSome_iff_exists.mp hnamed
    have hname := ToolSet.name_of_toolNamed htool
    exact ⟨tool, mem_registeredTools.mpr (hname ▸ henabled), hname⟩

theorem newline_not_mem_lines {tool : ToolSet.Tool} : ∀ l ∈ tool.lines, '\n' ∉ l := by
  cases tool <;> decide

theorem join_append {sep : Str} {xs ys : List Str} (hxs : xs ≠ []) (hys : ys ≠ []) :
    Str.join sep (xs ++ ys) = Str.join sep xs ++ sep ++ Str.join sep ys := by
  unfold Str.join
  induction xs with
  | nil => exact absurd rfl hxs
  | cons x xs ih =>
    by_cases hnil : xs = []
    · rw [hnil, List.singleton_append, List.intercalate_cons_of_ne_nil hys,
        List.intercalate_singleton]
    · rw [List.cons_append, List.intercalate_cons_of_ne_nil (by simp [hnil]), ih hnil,
        List.intercalate_cons_of_ne_nil hnil]
      simp only [List.append_assoc]

theorem join_join {α : Type} {sep : Str} {f : α → List Str} (hf : ∀ x, f x ≠ []) (xs : List α) :
    Str.join sep (xs.map fun x => Str.join sep (f x)) = Str.join sep (xs.flatMap f) := by
  induction xs with
  | nil => rfl
  | cons x xs ih =>
    rw [List.map_cons, List.flatMap_cons]
    cases xs with
    | nil => simp [Str.join]
    | cons y ys =>
      rw [join_append (hf x) (by simp [hf y]), ← ih]
      unfold Str.join
      rw [List.intercalate_cons_of_ne_nil (by simp)]

/-- Every line of the description belongs to a tool, in the order of the registry. -/
theorem describedLines_eq (h : registeredTools config ≠ []) :
    describedLines config = (registeredTools config).flatMap ToolSet.Tool.lines := by
  have hlines : ∀ tool : ToolSet.Tool, tool.lines ≠ [] := fun tool => List.cons_ne_nil _ _
  rw [describedLines, describe, join_join hlines]
  refine List.splitOn_intercalate _ ?_ ?_
  · intro l hl
    obtain ⟨tool, -, hline⟩ := List.mem_flatMap.mp hl
    exact newline_not_mem_lines l hline
  · obtain ⟨tool, rest, heq⟩ := List.exists_cons_of_ne_nil h
    rw [heq]
    exact List.cons_ne_nil _ _

theorem count_header (tool tool' : ToolSet.Tool) :
    tool'.lines.count tool.header = if tool' = tool then 1 else 0 := by
  cases tool <;> cases tool' <;> decide

/-- A tool is described once if it is registered, and not at all otherwise. -/
theorem count_describedLines (config : ServiceConfig) (tool : ToolSet.Tool) :
    (describedLines config).count tool.header =
      if tool ∈ registeredTools config then 1 else 0 := by
  by_cases hnil : registeredTools config = []
  · rw [describedLines, hnil, if_neg List.not_mem_nil]
    cases tool <;> decide
  · have hnodup : (registeredTools config).Nodup := List.Nodup.filter _ (by decide)
    have hcount : ∀ tools : List ToolSet.Tool,
        (tools.flatMap ToolSet.Tool.lines).count tool.header = tools.count tool := by
      intro tools
      induction tools with
      | nil => rfl
      | cons tool' tools ih =>
        rw [List.flatMap_cons, List.count_append, count_header, ih, List.count_cons, add_comm]
        simp only [beq_iff_eq]
    rw [describedLines_eq hnil, hcount]
    exact hnodup.count

end Registry

/-! ## The final verifier -/

/-- What `verify` makes of its process: a timeout and an `OSError` are no success. -/
def processVerdict : Except ProcessError Completed → Except Exn Bool
  | .error .timeoutExpired => .ok false
  | .error (.raised exc) => if exc.kind = .osError then .ok false else .error exc
  | .ok p => .ok (p.returncode = 0)

/-- `_make_final_verifier`. -/
def makeFinalVerifier (config : ServiceConfig) (workspace : Str) : Tooling Bool := do
  let argv ← ExceptT.mk (.ret (shlexSplit config.feedback.testCommand))
  let answer ← ExceptT.lift (perform (OsCall.subprocess argv workspace))
  ExceptT.mk (.ret (processVerdict answer))

/-! ## The host of the service -/

namespace ServiceConfig
variable (config : ServiceConfig)

def toolSet (relpath : Str → Str → Str) : ToolSet where
  testCommand := config.feedback.testCommand
  outputMaxBytes := config.outputMaxBytes
  relpath := relpath

/-- The `ctx` of `harness_factory`. -/
def taskContext (workspace : Str) : TaskContext where
  workspaceRoot := workspace
  writeMaxBytes := config.tools.writeMaxBytes

def dispatcher : Dispatcher := buildDispatcher config.toAegisConfig (buildRegistry config)

/-- The calls of the loop that the assembled service answers itself. -/
def assembled (relpath : Str → Str → Str) (workspace : Str) (H : Digest) :
    (c : Call) → Option (Prog HostCall HostResp (Resp c))
  | .verify => some (interpret osCall (makeFinalVerifier config workspace).run)
  | c => answered (config.toolSet relpath) config.dispatcher (config.taskContext workspace) H c

end ServiceConfig

section Verifier
variable {config : ServiceConfig} {workspace : Str}

/-- The verifier starts the command of the tests, and nothing else. -/
theorem runs_makeFinalVerifier {tr : List HostEv} {out : Except Exn Bool} :
    Runs (interpret osCall (makeFinalVerifier config workspace).run) tr out ↔
      (∃ e, shlexSplit config.feedback.testCommand = .error e ∧ tr = [] ∧ out = .error e) ∨
      ∃ argv answer, shlexSplit config.feedback.testCommand = .ok argv ∧
        tr = [⟨.os (.subprocess argv workspace), answer⟩] ∧ out = processVerdict answer := by
  unfold makeFinalVerifier
  cases hsplit : shlexSplit config.feedback.testCommand with
  | error e =>
    refine (runs_ret (a := Except.error e)).trans ?_
    constructor
    · rintro ⟨rfl, rfl⟩
      exact .inl ⟨e, rfl, rfl, rfl⟩
    · rintro (⟨e', heq, rfl, rfl⟩ | ⟨argv, answer, habs, -⟩)
      · obtain rfl := Except.error.inj heq
        exact ⟨rfl, rfl⟩
      · cases habs
  | ok argv =>
    constructor
    · intro hrun
      obtain ⟨u, answer, v, rfl, hcall, hret⟩ := runs_bind.mp hrun
      obtain rfl := runs_perform.mp hcall
      obtain ⟨rfl, rfl⟩ := runs_ret.mp hret
      exact .inr ⟨argv, answer, rfl, rfl, rfl⟩
    · rintro (⟨e, habs, -⟩ | ⟨argv', answer, heq, rfl, rfl⟩)
      · cases habs
      · obtain rfl := Except.ok.inj heq
        exact .call (.ret _)

end Verifier

end AegisCode
