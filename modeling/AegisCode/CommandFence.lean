import AegisCode.Dispatcher

/-!
# What the command fence keeps out

The fence looks at some of the tokens of a command: at those that are spelled
like a path or like a sensitive name. What it looks at does no harm; a command
does none exactly when the tokens it passes over do none either.
-/
namespace AegisCode

open Program Prog Posix

/-! ## Tokens as paths -/

/-- The argument vector that `RunCommandTool.run` starts. -/
def commandArgv (command : Str) : List Str := (shlexSplit command).toOption.getD []

/-- A token, and the value behind its `=` when it is an option. -/
def tokenTargets (token : Str) : List Str := token :: (optionValue token).toList

/-- What a command may name: its tokens behind the first, and option values. -/
def commandTargets (command : Str) : List Str := (commandArgv command).tail.flatMap tokenTargets

def commandConsuming (command : Str) : Bool := fileConsuming ((commandArgv command).headD [])

/-- The fence resolves this target of the token. -/
def resolvedByFence (patterns : List Str) (token target : Str) : Bool :=
  target = candidate token ∧ target ≠ [] ∧ examined patterns target

/-- The targets that the fence passes over: all of them when the command does not
lex, else whole option tokens, empty candidates, and candidates without a slash
whose own name is not sensitive. -/
def passedOver (patterns : List Str) (command : Str) : List Str :=
  if (lexString command).ok then
    (commandArgv command).tail.flatMap fun token =>
      (tokenTargets token).filter fun target => !resolvedByFence patterns token target
  else commandTargets command

/-- The target names something that is there and resolves outside. -/
def Escapes (fs : FileSystem) (root target : Str) : Prop :=
  Present fs (joinedPath fs root target) ∧
    (fs.resolution (joinedPath fs root target)).2 = true ∧
    ¬ Inside fs root (joinedPath fs root target)

instance (fs : FileSystem) (root target : Str) : Decidable (Escapes fs root target) :=
  inferInstanceAs (Decidable (_ ∧ _ ∧ _))

/-- The target resolves to a file that a pattern hits. -/
def Exposes (fs : FileSystem) (root : Str) (patterns : List Str) (target : Str) : Prop :=
  ∃ p content, fs.locate (joinedPath fs root target) = some p ∧
    fs.node p = some (.file content) ∧ ∃ pat ∈ patterns, hitsSensitive (render p) pat = true

/-- The target neither escapes nor exposes a file to a command that reads it. -/
def Harmless (fs : FileSystem) (root : Str) (patterns : List Str) (consuming : Bool)
    (target : Str) : Prop :=
  ¬ Escapes fs root target ∧ (consuming = true → ¬ Exposes fs root patterns target)

theorem mem_commandTargets_of_passedOver {patterns : List Str} {command target : Str}
    (h : target ∈ passedOver patterns command) : target ∈ commandTargets command := by
  unfold passedOver at h
  by_cases hlex : (lexString command).ok = true
  · rw [if_pos hlex] at h
    obtain ⟨token, htoken, hmem⟩ := List.mem_flatMap.mp h
    exact List.mem_flatMap.mpr ⟨token, htoken, (List.mem_filter.mp hmem).1⟩
  · rwa [if_neg hlex] at h

/-! ## What the fence resolves is harmless -/

section Fence
variable {fs : FileSystem} {root : Str} {patterns : List Str} {consuming : Bool}

theorem lexString_argv {command : Str} (h : (lexString command).ok = true) :
    (lexString command).argv = commandArgv command := by
  unfold lexString at h ⊢
  unfold commandArgv
  cases hmeta : metaTokens.find? fun token => Str.contains token command with
  | some token => simp [hmeta, metaResult] at h
  | none =>
    simp only [hmeta] at h ⊢
    match hsplit : shlexSplit command with
    | .error e => simp [hsplit] at h
    | .ok [] => simp [hsplit] at h
    | .ok (a :: as) => rfl

theorem fenceCommand_str (fs : FileSystem) (command root : Str) (patterns : List Str) :
    fenceCommand fs (.str command) root patterns =
      if !(lexString command).ok then .ok none
      else fenceTokens fs root patterns (fileConsuming ((lexString command).argv.headD []))
        (lexString command).argv.tail := rfl

/-- Only a path that leaves the workspace gets a reason that speaks of escape,
or a pattern that does. -/
theorem inside_of_not_escape {path : Str}
    (h : (fencePath fs path root patterns).allowed = true ∨
      isEscape (fencePath fs path root patterns).reason = false) :
    Inside fs root (realTarget fs (joinedPath fs root path)) := by
  rw [← commonpath_realpath]
  by_contra hout
  unfold fencePath at h
  dsimp only at h
  split_ifs at h with hparent
  · revert h
    decide
  · revert h
    decide

/-- Where no token is refused, every one passes. -/
theorem fenceTokens_eq_none {tokens : List Str}
    (h : fenceTokens fs root patterns consuming tokens = .ok none) :
    ∀ token ∈ tokens, fenceToken fs root patterns consuming token = .ok none := by
  induction tokens with
  | nil => exact List.forall_mem_nil _
  | cons token tokens ih =>
    rw [fenceTokens] at h
    split at h
    · cases h
    · cases h
    · rename_i htoken
      exact List.forall_mem_cons.mpr ⟨htoken, ih h⟩

theorem harmless_of_fenceToken {token : Str}
    (hfence : fenceToken fs root patterns consuming token = .ok none)
    (hres : resolvedByFence patterns token (candidate token) = true) :
    Harmless fs root patterns consuming (candidate token) := by
  simp only [resolvedByFence, true_and, decide_eq_true_eq] at hres
  obtain ⟨hne, hexam⟩ := hres
  unfold fenceToken at hfence
  rw [hexam, if_neg (by decide)] at hfence
  obtain ⟨pv, hcheck, hpv⟩ := map_eq_ok hfence
  obtain ⟨_, rfl⟩ := checkedPath_eq_ok hcheck
  rw [checkPath_str, if_neg hne] at hpv
  have hpass : (fencePath fs (candidate token) root patterns).allowed = true ∨
      isEscape (fencePath fs (candidate token) root patterns).reason = false ∧
        consuming = false := by
    by_cases hall : (fencePath fs (candidate token) root patterns).allowed = true
    · exact .inl hall
    · rw [if_neg hall] at hpv
      refine .inr ?_
      by_contra hno
      rw [if_pos (by simpa [imp_iff_not_or, or_comm] using hno)] at hpv
      cases hpv
  constructor
  · rintro ⟨hpresent, hok, hout⟩
    have hin := inside_of_not_escape (hpass.imp_right And.left)
    rw [realTarget_of_present hpresent] at hin
    unfold Inside at hin hout
    rw [resolve_realpath hok] at hin
    exact hout hin
  · rintro hcons ⟨p, content, hloc, hnode, pat, hpat, hhit⟩
    have hall : (fencePath fs (candidate token) root patterns).allowed = true := by
      obtain hall | ⟨_, hno⟩ := hpass
      · exact hall
      · rw [hno] at hcons
        cases hcons
    have hpresent : Present fs (joinedPath fs root (candidate token)) := by
      right
      simp [FileSystem.pathExists, FileSystem.stat, hloc, hnode]
    refine (fencePath_allowed_iff.mp hall).2.2 ⟨pat, hpat, .inr ?_⟩
    rw [realTarget_of_present hpresent, FileSystem.realpath,
      FileSystem.resolve_eq (FileSystem.resolution_of_locate hloc)]
    exact hhit

/-- Behind the fence, a target that it resolves is harmless. -/
theorem harmless_of_fenceCommand {command : Str}
    (hfence : fenceCommand fs (.str command) root patterns = .ok none) {target : Str}
    (htarget : target ∈ commandTargets command) (hres : target ∉ passedOver patterns command) :
    Harmless fs root patterns (commandConsuming command) target := by
  unfold passedOver at hres
  by_cases hlex : (lexString command).ok = true
  · rw [if_pos hlex] at hres
    obtain ⟨token, htoken, hmem⟩ := List.mem_flatMap.mp htarget
    have hresolved : resolvedByFence patterns token target = true := by
      by_contra hno
      refine hres (List.mem_flatMap.mpr ⟨token, htoken, List.mem_filter.mpr ⟨hmem, ?_⟩⟩)
      simpa using hno
    have hnone : fenceToken fs root patterns (commandConsuming command) token = .ok none := by
      rw [fenceCommand_str, hlex, lexString_argv hlex, if_neg (by decide)] at hfence
      exact fenceTokens_eq_none hfence token htoken
    obtain rfl : target = candidate token := by
      simp only [resolvedByFence, decide_eq_true_eq] at hresolved
      exact hresolved.1
    exact harmless_of_fenceToken hnone hresolved
  · rw [if_neg hlex] at hres
    exact absurd htarget hres

end Fence

/-! ## Executed commands -/

section Executed
variable {d : Dispatcher} {action : Action} {ctx : TaskContext} {tr : List Dispatcher.Ev}

theorem harmless_of_accepts {fs : FileSystem} {command : Str} (hacc : d.Accepts fs action ctx)
    (htool : action.tool = "run_command")
    (hcommand : action.arguments.get? "command" = some (.str command)) {target : Str}
    (htarget : target ∈ commandTargets command)
    (hres : target ∉ passedOver d.pc.sensitivePatterns command) :
    Harmless fs (d.root ctx) d.pc.sensitivePatterns (commandConsuming command) target := by
  have hnone := (fenced_of_accepts hacc).command
  unfold Dispatcher.runCommandFenceReason at hnone
  rw [if_neg (not_not.mpr htool), hcommand] at hnone
  cases command with
  | nil => cases htarget
  | cons c command =>
    rw [Option.getD_some, if_neg (by simp [Json.truthy])] at hnone
    exact harmless_of_fenceCommand hnone htarget hres

theorem accepts_of_executeApproved {H : Digest} {fp : Option Str}
    {out : Except Exn (ToolResult × Action)}
    (hrun : Runs (d.executeApproved H action ctx fp).run tr out) {e : Dispatcher.Ev} (he : e ∈ tr)
    {tool : Str} {arguments : Dict} (hcall : e.call = .run tool arguments) :
    tool = action.tool ∧ arguments = action.arguments ∧ ∃ fs,
      (⟨.filesystem, fs⟩ : Dispatcher.Ev) ∈ tr ∧ d.Accepts fs action ctx := by
  cases fp with
  | none => exact (Dispatcher.executeFenced_cases hrun).of_run he hcall
  | some fp =>
    obtain ⟨_, rfl, _⟩ | ⟨_, hexec⟩ := Dispatcher.executeApproved_cases hrun
    · exact absurd he List.not_mem_nil
    · exact hexec.of_run he hcall

/-- An executed command is harmless exactly when what the fence passes over is:
the filesystem is `fs` during the call, which is a dispatch or an approved
execution. -/
theorem executed_command_harmless_iff (d : Dispatcher) (action : Action) (ctx : TaskContext)
    (fs : FileSystem) (tr : List Dispatcher.Ev) (arguments : Dict) (command : Str)
    (answer : Except Exn (ToolResult × Dict))
    (hrun : (∃ out, Runs (d.dispatch action ctx).run tr out) ∨
      ∃ H fp out, Runs (d.executeApproved H action ctx fp).run tr out)
    (hfs : ∀ fs', (⟨.filesystem, fs'⟩ : Dispatcher.Ev) ∈ tr → fs' = fs)
    (hexec : (⟨.run "run_command" arguments, answer⟩ : Dispatcher.Ev) ∈ tr)
    (hcommand : arguments.get? "command" = some (.str command)) :
    (∀ target ∈ commandTargets command,
        Harmless fs (d.root ctx) d.pc.sensitivePatterns (commandConsuming command) target) ↔
      ∀ target ∈ passedOver d.pc.sensitivePatterns command,
        Harmless fs (d.root ctx) d.pc.sensitivePatterns (commandConsuming command) target := by
  have hacc : action.tool = "run_command" ∧ action.arguments = arguments ∧
      d.Accepts fs action ctx := by
    obtain ⟨out, hrun⟩ | ⟨H, fp, out, hrun⟩ := hrun
    · obtain ⟨htool, harg, fs', _, hmem, hacc, _⟩ :=
        (Dispatcher.dispatch_cases hrun).of_run hexec rfl
      obtain rfl := hfs fs' hmem
      exact ⟨htool.symm, harg.symm, hacc⟩
    · obtain ⟨htool, harg, fs', hmem, hacc⟩ := accepts_of_executeApproved hrun hexec rfl
      obtain rfl := hfs fs' hmem
      exact ⟨htool.symm, harg.symm, hacc⟩
  obtain ⟨htool, rfl, hacc⟩ := hacc
  constructor
  · intro h target htarget
    exact h target (mem_commandTargets_of_passedOver htarget)
  · intro h target htarget
    by_cases hover : target ∈ passedOver d.pc.sensitivePatterns command
    · exact h target hover
    · exact harmless_of_accepts hacc htool hcommand htarget hover

end Executed

/-! ## A bare name that leads outside -/

/-- `evil` is a symlink in the workspace to a file outside of it. -/
def linkedOutside : FileSystem where
  entries := [(["x"], .dir), (["x", "secret"], .file []), (["x", "ws"], .dir),
    (["x", "ws", "evil"], .link "../secret")]
  cwd := []
  proper := by decide
  nodup := by decide
  closed := by decide
  cwd_dir := by decide

def commandDispatcher : Dispatcher := buildDispatcher {} ["run_command"]

def commandContext : TaskContext := { workspaceRoot := "/x/ws" }

def commandAction (command : Str) : Action :=
  { tool := "run_command", arguments := [("command", .str command)] }

def commandResult : ToolResult := { tool := "run_command", status := .success, summary := "exit 0" }

/-- The trace of a command that the dispatcher executed. -/
def commandTrace (fs : FileSystem) (command : Str) : List Dispatcher.Ev :=
  [⟨.filesystem, fs⟩, ⟨.run "run_command" (commandAction command).arguments,
    .ok (commandResult, (commandAction command).arguments)⟩]

theorem commandTrace_evil_runs : ∃ out,
    Runs (commandDispatcher.dispatch (commandAction "python evil") commandContext).run
      (commandTrace linkedOutside "python evil") out :=
  ⟨_, .call (.call (.ret _))⟩

theorem commandTrace_filesystem {fs fs' : FileSystem} {command : Str}
    (h : (⟨.filesystem, fs'⟩ : Dispatcher.Ev) ∈ commandTrace fs command) : fs' = fs := by
  obtain h | h := List.mem_cons.mp h
  · cases h
    rfl
  · cases List.mem_singleton.mp h

theorem executed_command_harmless_iff_evil :
    (∀ target ∈ commandTargets "python evil", Harmless linkedOutside "/x/ws"
        commandDispatcher.pc.sensitivePatterns (commandConsuming "python evil") target) ↔
      ∀ target ∈ passedOver commandDispatcher.pc.sensitivePatterns "python evil",
        Harmless linkedOutside "/x/ws" commandDispatcher.pc.sensitivePatterns
          (commandConsuming "python evil") target :=
  executed_command_harmless_iff commandDispatcher _ commandContext linkedOutside _ _ _ _
    (.inl commandTrace_evil_runs) (fun _ h => commandTrace_filesystem h)
    (List.mem_cons_of_mem _ (List.mem_cons_self ..)) rfl

/-- A bare name is not resolved, so a symlink leads the command outside. -/
theorem executed_command_escapes :
    ¬ ∀ (d : Dispatcher) (action : Action) (ctx : TaskContext) (fs : FileSystem)
      (tr : List Dispatcher.Ev) (arguments : Dict) (command : Str)
      (answer : Except Exn (ToolResult × Dict)),
      (∃ out, Runs (d.dispatch action ctx).run tr out) →
      (∀ fs', (⟨.filesystem, fs'⟩ : Dispatcher.Ev) ∈ tr → fs' = fs) →
      (⟨.run "run_command" arguments, answer⟩ : Dispatcher.Ev) ∈ tr →
      arguments.get? "command" = some (.str command) →
      ∀ target ∈ commandTargets command,
        Harmless fs (d.root ctx) d.pc.sensitivePatterns (commandConsuming command) target := by
  intro h
  have hevil := h commandDispatcher _ commandContext linkedOutside _ _ "python evil" _
    commandTrace_evil_runs (fun _ h => commandTrace_filesystem h)
    (List.mem_cons_of_mem _ (List.mem_cons_self ..)) rfl "evil" (by decide)
  exact hevil.1 (by decide)

/-- The fence passes over `..` and the whole of an option token. -/
example : "..".toList ∈ passedOver commandDispatcher.pc.sensitivePatterns "git diff .." ∧
    "--rc=a/b".toList ∈ passedOver commandDispatcher.pc.sensitivePatterns "ruff --rc=a/b" ∧
    Escapes linkedOutside "/x/ws" ".." := by
  decide

end AegisCode
