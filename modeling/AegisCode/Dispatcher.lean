import AegisCode.PathFence
import AegisCode.Policy
import AegisCode.Program

/-!
# The dispatcher

`dispatch` and `execute_approved` as programs over two calls: they look at the
filesystem, once for the fence, and they run a registered tool. A tool gets the
arguments of the action themselves and may change them.
-/
namespace AegisCode

open Program Prog Posix

/-! ## NUL

No name in a filesystem has a NUL in it. `islink` and `exists` take it for the name
of a missing file; `lstat` raises an exception that `realpath` does not catch. -/

def hasNul (s : Str) : Bool := '\x00' ∈ s

def embeddedNul : Exn := ⟨.valueError, "lstat: embedded null character in path"⟩

/-- `realpath` comes to a name with a NUL, and to no symlink loop before it. -/
def realpathRaises (fs : FileSystem) (s : Str) : Bool :=
  hasNul s && (fs.resolution (head (s.takeWhile (· ≠ '\x00')))).2

/-- `check_path` takes a realpath that raises. -/
def checkPathRaises (fs : FileSystem) (path : Json) (workspaceRoot : Str) : Bool :=
  match path with
  | .str path =>
    let joined := joinedPath fs workspaceRoot path
    let root := fs.realpath workspaceRoot
    path ≠ [] && (realpathRaises fs workspaceRoot || (hasNul joined &&
      (realpathRaises fs (dirname joined) ||
        (commonpath (fs.realpath (dirname joined)) root = root &&
          realpathRaises fs (fs.behindParent joined)))))
  | _ => false

/-- `check_path` with its exception. -/
def checkedPath (fs : FileSystem) (path : Json) (workspaceRoot : Str) (patterns : List Str) :
    Except Exn PathVerdict :=
  if checkPathRaises fs path workspaceRoot then .error embeddedNul
  else .ok (checkPath fs path workspaceRoot patterns)

/-! ## The command fence -/

def fileTools : List Str := ["read_file", "write_file", "list_files", "search_text"]

/-- `_FILE_CONSUMING_ARGV0`. -/
def fileConsuming (argv0 : Str) : Bool :=
  let s := dropFinalNewline argv0
  s ∈ ["pytest".toList, "ruff".toList, "mypy".toList] ||
    (Str.startsWith s "python" && (s.drop 6).all isVersionChar)

def looksLikePath (token : Str) : Bool :=
  Str.startsWith token "/" || Str.startsWith token "./" || Str.startsWith token "../" ||
    '/' ∈ token

/-- The value of a `--opt=value` token. -/
def optionValue (token : Str) : Option Str :=
  if Str.startsWith token "--" then (Str.partition '=' token).2 else none

/-- The part of a token that the fence looks at. -/
def candidate (token : Str) : Str := (optionValue token).getD token

/-- Whether the fence resolves the candidate at all. -/
def examined (patterns : List Str) (candidate : Str) : Bool :=
  looksLikePath candidate || patterns.any fun pat => fnmatch (basename candidate) pat

def isEscape (reason : Str) : Bool :=
  Str.contains "escape" reason || Str.contains "outside workspace" reason

/-- The body of the loop of `_fence_command`. -/
def fenceToken (fs : FileSystem) (root : Str) (patterns : List Str) (consuming : Bool)
    (token : Str) : Except Exn (Option Str) :=
  if !examined patterns (candidate token) then .ok none
  else (checkedPath fs (.str (candidate token)) root patterns).map fun pv =>
    if pv.allowed then none
    else if isEscape pv.reason || consuming then some pv.reason
    else none

/-- The loop of `_fence_command`: the first token that is refused. -/
def fenceTokens (fs : FileSystem) (root : Str) (patterns : List Str) (consuming : Bool) :
    List Str → Except Exn (Option Str)
  | [] => .ok none
  | token :: tokens =>
    match fenceToken fs root patterns consuming token with
    | .error exc => .error exc
    | .ok (some reason) => .ok (some reason)
    | .ok none => fenceTokens fs root patterns consuming tokens

/-- `_fence_command`; what does not lex is left to the judge of commands. -/
def fenceCommand (fs : FileSystem) (command : Json) (root : Str) (patterns : List Str) :
    Except Exn (Option Str) := do
  let lex ← lexCommand command
  let consuming := fileConsuming (lex.argv.headD [])
  if !lex.ok then return none
  else fenceTokens fs root patterns consuming lex.argv.tail

/-! ## The calls -/

inductive DispatchCall where
  | filesystem
  | run (tool : Str) (arguments : Dict)

@[reducible] def DispatchResp : DispatchCall → Type
  | .filesystem => FileSystem
  | .run _ _ => Except Exn (ToolResult × Dict)

abbrev Dispatching := ExceptT Exn (Prog DispatchCall DispatchResp)

structure PathConfig where
  workspaceRoot : Str
  sensitivePatterns : List Str

structure Dispatcher where
  registry : List Str
  engine : PolicyEngine
  pc : PathConfig

def buildPathConfig (config : AegisConfig) : PathConfig :=
  ⟨config.workspace.root, config.governance.sensitiveFilePatterns⟩

def buildDispatcher (config : AegisConfig) (registry : List Str) : Dispatcher :=
  ⟨registry, buildEngine config, buildPathConfig config⟩

def deniedResult (action : Action) (reason : Str) : ToolResult where
  tool := action.tool
  status := .denied
  category := some .policyDenied
  summary := reason

def unknownToolResult (action : Action) : ToolResult where
  tool := action.tool
  status := .error
  category := some .invalidAction
  summary := "unknown tool ".toList ++ action.tool

def engineErrorResult (action : Action) (exc : Exn) : ToolResult where
  tool := action.tool
  status := .error
  category := some .internalError
  summary := "policy engine error: ".toList ++ exc.text

def supersededResult (action : Action) (exc : Exn) : ToolResult where
  tool := action.tool
  status := .denied
  category := some .policyDenied
  summary := "SUPERSEDED: ".toList ++ exc.text
  artifacts := [("superseded", .bool true)]

namespace Dispatcher
variable (d : Dispatcher)

/-- The workspace that the fence is anchored to. -/
def root (ctx : TaskContext) : Str :=
  if ctx.workspaceRoot = [] then d.pc.workspaceRoot else ctx.workspaceRoot

def pathFenceReason (fs : FileSystem) (action : Action) (ctx : TaskContext) :
    Except Exn (Option Str) :=
  if action.tool ∈ fileTools then
    match action.arguments.get? "path" with
    | some path => (checkedPath fs path (d.root ctx) d.pc.sensitivePatterns).map fun pv =>
        if pv.allowed then none else some pv.reason
    | none => .ok none
  else .ok none

/-- `_run_command_fence_reason`. -/
def runCommandFenceReason (fs : FileSystem) (action : Action) (ctx : TaskContext) :
    Except Exn (Option Str) :=
  if action.tool ≠ "run_command" then .ok none
  else
    let command := (action.arguments.get? "command").getD (.str [])
    if !command.truthy then .ok none
    else fenceCommand fs command (d.root ctx) d.pc.sensitivePatterns

/-- The two fences in their order, with the rule that a refusal names. -/
def fence (fs : FileSystem) (action : Action) (ctx : TaskContext) :
    Except Exn (Option (Str × Str)) :=
  match d.pathFenceReason fs action ctx with
  | .error exc => .error exc
  | .ok (some reason) => .ok (some ("PATH_FENCE", reason))
  | .ok none =>
    match d.runCommandFenceReason fs action ctx with
    | .error exc => .error exc
    | .ok (some reason) => .ok (some ("CMD_PATH_FENCE", reason))
    | .ok none => .ok none

/-- `tool.run(action.arguments, ctx)`: the result, and the action behind it. -/
def runTool (action : Action) : Dispatching (ToolResult × Action) := do
  let (result, arguments) ← ExceptT.mk (perform (DispatchCall.run action.tool action.arguments))
  return (result, { action with arguments := arguments })

def dispatch (action : Action) (ctx : TaskContext) :
    Dispatching (GovernanceVerdict × Option ToolResult × Action) := do
  if action.tool ∉ d.registry then
    return (⟨.deny, "UNKNOWN_TOOL", "unknown tool"⟩, some (unknownToolResult action), action)
  else
    let fs ← ExceptT.lift (perform .filesystem)
    match d.fence fs action ctx with
    | .error exc => throw exc
    | .ok (some (rule, reason)) =>
      return (⟨.deny, rule, reason⟩, some (deniedResult action reason), action)
    | .ok none =>
      match d.engine.evaluate action ctx with
      | .error exc =>
        return (⟨.deny, "INTERNAL_ERROR", exc.text⟩, some (engineErrorResult action exc), action)
      | .ok verdict =>
        if verdict.decision = .deny then
          return (verdict, some (deniedResult action verdict.reason), action)
        else if verdict.decision = .requireApproval then
          return (verdict, none, action)
        else
          let (result, action) ← runTool action
          return (verdict, some result, action)

/-- The part of `execute_approved` behind the check of the fingerprint. -/
def executeFenced (action : Action) (ctx : TaskContext) : Dispatching (ToolResult × Action) := do
  if action.tool ∉ d.registry then
    return (unknownToolResult action, action)
  else
    let fs ← ExceptT.lift (perform .filesystem)
    match d.fence fs action ctx with
    | .error exc => throw exc
    | .ok (some (_, reason)) => return (deniedResult action reason, action)
    | .ok none => runTool action

def executeApproved (H : Digest) (action : Action) (ctx : TaskContext) (approvedFp : Option Str) :
    Dispatching (ToolResult × Action) :=
  match approvedFp with
  | none => d.executeFenced action ctx
  | some fp =>
    match validateResume H fp action with
    | .error exc => return (supersededResult action exc, action)
    | .ok _ => d.executeFenced action ctx

/-! ## What the two paths can do -/

/-- A call of the dispatcher with its answer. -/
abbrev Ev := Event DispatchCall DispatchResp

/-- The fence accepted the action, with the filesystem as it was then. -/
def Accepts (fs : FileSystem) (action : Action) (ctx : TaskContext) : Prop :=
  d.fence fs action ctx = .ok none

/-- The runs of `runTool`: one call, with the arguments of the action. -/
inductive RunsTool (action : Action) : List Ev → Except Exn (ToolResult × Action) → Prop
  | returned (result : ToolResult) (arguments : Dict) :
      RunsTool action [⟨.run action.tool action.arguments, .ok (result, arguments)⟩]
        (.ok (result, { action with arguments := arguments }))
  | raised (e : Exn) :
      RunsTool action [⟨.run action.tool action.arguments, .error e⟩] (.error e)

/-- The runs of `dispatch`. -/
inductive Dispatches (action : Action) (ctx : TaskContext) :
    List Ev → Except Exn (GovernanceVerdict × Option ToolResult × Action) → Prop
  | unknown : action.tool ∉ d.registry →
      Dispatches action ctx []
        (.ok (⟨.deny, "UNKNOWN_TOOL", "unknown tool"⟩, some (unknownToolResult action), action))
  | fenceRaised {fs : FileSystem} {e : Exn} : d.fence fs action ctx = .error e →
      Dispatches action ctx [⟨.filesystem, fs⟩] (.error e)
  | fenced {fs : FileSystem} {rule reason : Str} :
      d.fence fs action ctx = .ok (some (rule, reason)) →
      Dispatches action ctx [⟨.filesystem, fs⟩]
        (.ok (⟨.deny, rule, reason⟩, some (deniedResult action reason), action))
  | engineRaised {fs : FileSystem} {e : Exn} : d.Accepts fs action ctx →
      d.engine.evaluate action ctx = .error e →
      Dispatches action ctx [⟨.filesystem, fs⟩]
        (.ok (⟨.deny, "INTERNAL_ERROR", e.text⟩, some (engineErrorResult action e), action))
  | denied {fs : FileSystem} {verdict : GovernanceVerdict} : d.Accepts fs action ctx →
      d.engine.evaluate action ctx = .ok verdict → verdict.decision = .deny →
      Dispatches action ctx [⟨.filesystem, fs⟩]
        (.ok (verdict, some (deniedResult action verdict.reason), action))
  | pending {fs : FileSystem} {verdict : GovernanceVerdict} : d.Accepts fs action ctx →
      d.engine.evaluate action ctx = .ok verdict → verdict.decision = .requireApproval →
      Dispatches action ctx [⟨.filesystem, fs⟩] (.ok (verdict, none, action))
  | executed {fs : FileSystem} {verdict : GovernanceVerdict} {t : List Ev}
      {r : Except Exn (ToolResult × Action)} : d.Accepts fs action ctx →
      d.engine.evaluate action ctx = .ok verdict → verdict.decision ≠ .deny →
      verdict.decision ≠ .requireApproval → RunsTool action t r →
      Dispatches action ctx (⟨.filesystem, fs⟩ :: t) (r.map fun p => (verdict, some p.1, p.2))

/-- The runs of `execute_approved` whose fingerprint was accepted. -/
inductive Executes (action : Action) (ctx : TaskContext) :
    List Ev → Except Exn (ToolResult × Action) → Prop
  | unknown : action.tool ∉ d.registry →
      Executes action ctx [] (.ok (unknownToolResult action, action))
  | fenceRaised {fs : FileSystem} {e : Exn} : d.fence fs action ctx = .error e →
      Executes action ctx [⟨.filesystem, fs⟩] (.error e)
  | fenced {fs : FileSystem} {rule reason : Str} :
      d.fence fs action ctx = .ok (some (rule, reason)) →
      Executes action ctx [⟨.filesystem, fs⟩] (.ok (deniedResult action reason, action))
  | executed {fs : FileSystem} {t : List Ev} {r : Except Exn (ToolResult × Action)} :
      d.Accepts fs action ctx → RunsTool action t r →
      Executes action ctx (⟨.filesystem, fs⟩ :: t) r

section Cases
variable {d : Dispatcher} {action : Action} {ctx : TaskContext} {tr : List Ev}

theorem runTool_cases {out : Except Exn (ToolResult × Action)}
    (hrun : Runs (runTool action).run tr out) : RunsTool action tr out := by
  obtain ⟨r, hcall, rfl⟩ := runs_map.mp hrun
  obtain rfl := runs_perform.mp hcall
  cases r with
  | ok p => exact .returned p.1 p.2
  | error e => exact .raised e

theorem dispatch_cases {out : Except Exn (GovernanceVerdict × Option ToolResult × Action)}
    (hrun : Runs (d.dispatch action ctx).run tr out) : d.Dispatches action ctx tr out := by
  unfold dispatch at hrun
  by_cases hreg : action.tool ∉ d.registry
  · rw [if_pos hreg] at hrun
    obtain ⟨rfl, rfl⟩ := runs_return.mp hrun
    exact .unknown hreg
  · rw [if_neg hreg] at hrun
    obtain ⟨fs, t, rfl, hfence⟩ := runs_lift_perform_bind.mp hrun
    match hout : d.fence fs action ctx with
    | .error e =>
      simp only [hout, ExceptT.run_throw] at hfence
      obtain ⟨rfl, rfl⟩ := runs_pure.mp hfence
      exact .fenceRaised hout
    | .ok (some (rule, reason)) =>
      simp only [hout] at hfence
      obtain ⟨rfl, rfl⟩ := runs_return.mp hfence
      exact .fenced hout
    | .ok none =>
      simp only [hout] at hfence
      match heval : d.engine.evaluate action ctx with
      | .error e =>
        simp only [heval] at hfence
        obtain ⟨rfl, rfl⟩ := runs_return.mp hfence
        exact .engineRaised hout heval
      | .ok verdict =>
        simp only [heval] at hfence
        by_cases hdeny : verdict.decision = .deny
        · rw [if_pos hdeny] at hfence
          obtain ⟨rfl, rfl⟩ := runs_return.mp hfence
          exact .denied hout heval hdeny
        · rw [if_neg hdeny] at hfence
          by_cases hreq : verdict.decision = .requireApproval
          · rw [if_pos hreq] at hfence
            obtain ⟨rfl, rfl⟩ := runs_return.mp hfence
            exact .pending hout heval hreq
          · rw [if_neg hreq] at hfence
            obtain ⟨r, htool, rfl⟩ := runs_map.mp hfence
            exact .executed hout heval hdeny hreq (runTool_cases htool)

theorem executeFenced_cases {out : Except Exn (ToolResult × Action)}
    (hrun : Runs (d.executeFenced action ctx).run tr out) : d.Executes action ctx tr out := by
  unfold executeFenced at hrun
  by_cases hreg : action.tool ∉ d.registry
  · rw [if_pos hreg] at hrun
    obtain ⟨rfl, rfl⟩ := runs_return.mp hrun
    exact .unknown hreg
  · rw [if_neg hreg] at hrun
    obtain ⟨fs, t, rfl, hfence⟩ := runs_lift_perform_bind.mp hrun
    match hout : d.fence fs action ctx with
    | .error e =>
      simp only [hout, ExceptT.run_throw] at hfence
      obtain ⟨rfl, rfl⟩ := runs_pure.mp hfence
      exact .fenceRaised hout
    | .ok (some (rule, reason)) =>
      simp only [hout] at hfence
      obtain ⟨rfl, rfl⟩ := runs_return.mp hfence
      exact .fenced hout
    | .ok none =>
      simp only [hout] at hfence
      exact .executed hout (runTool_cases hfence)

/-- An action whose fingerprint is not the approved one is superseded, and
nothing is called. -/
theorem executeApproved_cases {H : Digest} {fp : Str} {out : Except Exn (ToolResult × Action)}
    (hrun : Runs (d.executeApproved H action ctx (some fp)).run tr out) :
    (fingerprint H action ≠ fp ∧ tr = [] ∧
        ∃ e, out = .ok (supersededResult action e, action)) ∨
      (fingerprint H action = fp ∧ d.Executes action ctx tr out) := by
  unfold executeApproved validateResume at hrun
  by_cases hfp : fingerprint H action ≠ fp
  · simp only [if_pos hfp] at hrun
    obtain ⟨rfl, rfl⟩ := runs_return.mp hrun
    exact .inl ⟨hfp, rfl, _, rfl⟩
  · simp only [if_neg hfp] at hrun
    exact .inr ⟨not_not.mp hfp, executeFenced_cases hrun⟩

theorem RunsTool.call_eq {out : Except Exn (ToolResult × Action)} (ht : RunsTool action tr out)
    {e : Ev} (he : e ∈ tr) : e.call = .run action.tool action.arguments := by
  cases ht <;> rw [List.mem_singleton.mp he]

/-- `dispatch` runs a tool only for the action it was given, behind the fence and
a verdict that allows it. -/
theorem Dispatches.of_run {out : Except Exn (GovernanceVerdict × Option ToolResult × Action)}
    (hd : d.Dispatches action ctx tr out) {e : Ev} (he : e ∈ tr) {tool : Str} {arguments : Dict}
    (hcall : e.call = .run tool arguments) :
    tool = action.tool ∧ arguments = action.arguments ∧ ∃ fs verdict,
      (⟨.filesystem, fs⟩ : Ev) ∈ tr ∧ d.Accepts fs action ctx ∧
      d.engine.evaluate action ctx = .ok verdict ∧
      (verdict.decision = .allow ∨ verdict.decision = .allowWithAudit) := by
  have hlook : ∀ fs, e ∈ [(⟨.filesystem, fs⟩ : Ev)] → False := by
    intro fs he
    obtain rfl := List.mem_singleton.mp he
    cases hcall
  cases hd with
  | @executed fs verdict t r hacc heval hdeny hreq ht =>
    obtain rfl | he := List.mem_cons.mp he
    · cases hcall
    · obtain ⟨htool, harg⟩ := DispatchCall.run.inj (hcall.symm.trans (ht.call_eq he))
      exact ⟨htool, harg, fs, verdict, List.mem_cons_self .., hacc, heval,
        Decision.allow_or_audit hdeny hreq⟩
  | unknown _ => exact absurd he List.not_mem_nil
  | fenceRaised _ => exact (hlook _ he).elim
  | fenced _ => exact (hlook _ he).elim
  | engineRaised _ _ => exact (hlook _ he).elim
  | denied _ _ _ => exact (hlook _ he).elim
  | pending _ _ _ => exact (hlook _ he).elim

/-- When `dispatch` asks for an approval, nothing has run. -/
theorem Dispatches.of_requireApproval {verdict : GovernanceVerdict} {result : Option ToolResult}
    {judged : Action} (hd : d.Dispatches action ctx tr (.ok (verdict, result, judged)))
    (hreq : verdict.decision = .requireApproval) :
    result = none ∧ judged = action ∧ d.engine.evaluate action ctx = .ok verdict := by
  generalize hout : (Except.ok (verdict, result, judged) : Except Exn _) = out at hd
  cases hd with
  | pending _ heval _ =>
    cases hout
    exact ⟨rfl, rfl, heval⟩
  | @executed fs verdict' t r _ _ _ hno ht =>
    cases ht with
    | returned result arguments =>
      cases hout
      exact absurd hreq hno
    | raised e => cases hout
  | unknown _ => cases hout; cases hreq
  | fenceRaised _ => cases hout
  | fenced _ => cases hout; cases hreq
  | engineRaised _ _ => cases hout; cases hreq
  | denied _ _ hdeny =>
    cases hout
    rw [hdeny] at hreq
    cases hreq

/-- `execute_approved` runs a tool only for the action it was given, behind the
fence. -/
theorem Executes.of_run {out : Except Exn (ToolResult × Action)}
    (hx : d.Executes action ctx tr out) {e : Ev} (he : e ∈ tr) {tool : Str} {arguments : Dict}
    (hcall : e.call = .run tool arguments) :
    tool = action.tool ∧ arguments = action.arguments ∧ ∃ fs,
      (⟨.filesystem, fs⟩ : Ev) ∈ tr ∧ d.Accepts fs action ctx := by
  have hlook : ∀ fs, e ∈ [(⟨.filesystem, fs⟩ : Ev)] → False := by
    intro fs he
    obtain rfl := List.mem_singleton.mp he
    cases hcall
  cases hx with
  | @executed fs t r hacc ht =>
    obtain rfl | he := List.mem_cons.mp he
    · cases hcall
    · obtain ⟨htool, harg⟩ := DispatchCall.run.inj (hcall.symm.trans (ht.call_eq he))
      exact ⟨htool, harg, fs, List.mem_cons_self .., hacc⟩
  | unknown _ => exact absurd he List.not_mem_nil
  | fenceRaised _ => exact (hlook _ he).elim
  | fenced _ => exact (hlook _ he).elim

end Cases

end Dispatcher

/-! ## What the fence accepts -/

/-- The fence accepts the arguments of the action: the path of a file tool, or
the command of `run_command`. -/
structure Fenced (d : Dispatcher) (fs : FileSystem) (action : Action) (ctx : TaskContext) : Prop where
  path : action.tool ∈ fileTools → ∀ path, action.arguments.get? "path" = some path →
    (checkPath fs path (d.root ctx) d.pc.sensitivePatterns).allowed = true
  command : d.runCommandFenceReason fs action ctx = .ok none

theorem map_eq_ok {α β : Type} {f : α → β} {r : Except Exn α} {b : β} (h : r.map f = .ok b) :
    ∃ a, r = .ok a ∧ f a = b := by
  cases r with
  | error exc => contradiction
  | ok a => exact ⟨a, rfl, Except.ok.inj h⟩

theorem checkedPath_eq_ok {fs : FileSystem} {path : Json} {root : Str} {patterns : List Str}
    {pv : PathVerdict} (h : checkedPath fs path root patterns = .ok pv) :
    checkPathRaises fs path root = false ∧ pv = checkPath fs path root patterns := by
  unfold checkedPath at h
  split_ifs at h with hraises
  exact ⟨by simpa using hraises, (Except.ok.inj h).symm⟩

theorem fenced_of_accepts {d : Dispatcher} {fs : FileSystem} {action : Action}
    {ctx : TaskContext} (hacc : d.Accepts fs action ctx) :
    Fenced d fs action ctx := by
  unfold Dispatcher.Accepts Dispatcher.fence at hacc
  match hpath : d.pathFenceReason fs action ctx with
  | .error exc => simp [hpath] at hacc
  | .ok (some reason) => simp [hpath] at hacc
  | .ok none =>
    rw [hpath] at hacc
    constructor
    · intro htool path harg
      unfold Dispatcher.pathFenceReason at hpath
      rw [if_pos htool, harg] at hpath
      obtain ⟨pv, hcheck, hpv⟩ := map_eq_ok hpath
      obtain ⟨_, rfl⟩ := checkedPath_eq_ok hcheck
      by_contra hno
      rw [if_neg hno] at hpv
      contradiction
    · match hcmd : d.runCommandFenceReason fs action ctx with
      | .error e => simp [hcmd] at hacc
      | .ok (some reason) => simp [hcmd] at hacc
      | .ok none => rfl

end AegisCode
