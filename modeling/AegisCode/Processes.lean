import AegisCode.Assembly
import AegisCode.CommandFence
import AegisCode.CommandRules

/-!
# The calls of the operating system

The assembled service down to the calls of the operating system. Every call belongs to a
tool that is enabled, and what is started as a process was judged as it is started: the
rules looked at the same arguments.
-/
namespace AegisCode

open Program Prog Posix

/-! ## Keys in sorted members -/

namespace Json

theorem lookup_orderedInsert (m : Str × Json) (ms : List (Str × Json)) (key : Str) :
    (ms.orderedInsert (fun a b => a.1 ≤ b.1) m).lookup key = (m :: ms).lookup key := by
  induction ms with
  | nil => rfl
  | cons n ms ih =>
    by_cases hle : m.1 ≤ n.1
    · rw [List.orderedInsert_cons, if_pos hle]
    · rw [List.orderedInsert_cons, if_neg hle, List.lookup_cons, ih, List.lookup_cons,
        List.lookup_cons, List.lookup_cons]
      by_cases hm : key = m.1
      · have hn : (key == n.1) = false := by
          refine beq_eq_false_iff_ne.mpr ?_
          rintro rfl
          exact hle hm.ge
        rw [hn]
      · rw [beq_eq_false_iff_ne.mpr hm]

theorem lookup_canonMembers (ms : List (Str × Json)) (key : Str) :
    ((canonMembers ms).insertionSort fun a b => a.1 ≤ b.1).lookup key =
      (ms.lookup key).map canon := by
  induction ms with
  | nil => rfl
  | cons m ms ih =>
    rw [canonMembers, List.insertionSort_cons, lookup_orderedInsert, List.lookup_cons, ih,
      List.lookup_cons]
    cases key == m.1 <;> rfl

theorem canon_eq_str {v : Json} {s : Str} : canon v = .str s ↔ v = .str s := by
  cases v <;> simp [canon]

/-- Arguments that are the same hold the same text. -/
theorem get_str_of_same {ms ns : Dict} (h : Same (.obj ms) (.obj ns)) {key s : Str} :
    ms.get? key = some (.str s) ↔ ns.get? key = some (.str s) := by
  have hmap : (ms.get? key).map canon = (ns.get? key).map canon := by
    unfold Dict.get?
    rw [← lookup_canonMembers, ← lookup_canonMembers]
    unfold Same at h
    rw [canon, canon, Json.obj.injEq] at h
    rw [h]
  have hstr : ∀ v : Option Json, v = some (.str s) ↔ v.map canon = some (.str s) := by
    intro v
    cases v with
    | none => simp
    | some v => simp [canon_eq_str]
  rw [hstr, hmap, ← hstr]

end Json

/-! ## The calls of the tools -/

namespace ToolSet
variable {t : ToolSet} {ctx : TaskContext} {arguments : Dict}

/-- What a tool asks of the operating system for its arguments. The files that
`search_text` reads are those of the workspace that it walks. -/
inductive Makes (t : ToolSet) (ctx : TaskContext) (arguments : Dict) : Tool → OsCall → Prop
  | makedirs {path content : Str} : arguments.get? "path" = some (.str path) →
      arguments.get? "content" = some (.str content) →
      (encodeUtf8 content).length ≤ ctx.writeMaxBytes →
      Makes t ctx arguments .writeFile (.makedirs (parentDir ctx path))
  | write {path content : Str} : arguments.get? "path" = some (.str path) →
      arguments.get? "content" = some (.str content) →
      (encodeUtf8 content).length ≤ ctx.writeMaxBytes →
      Makes t ctx arguments .writeFile (.write (ctx.resolve path) content)
  | read {path : Str} : arguments.get? "path" = some (.str path) →
      Makes t ctx arguments .readFile (.read (ctx.resolve path))
  | listdir {path : Str} : (arguments.get? "path").getD (.str ".") = .str path →
      Makes t ctx arguments .listFiles (.listdir (ctx.resolve path))
  | walk {query : Json} : arguments.get? "query" = some query →
      Makes t ctx arguments .searchText (.walk (ctx.resolve "."))
  | searched {query : Json} (file : Str) : arguments.get? "query" = some query →
      Makes t ctx arguments .searchText (.read file)
  | command {command : Json} {argv : List Str} : arguments.get? "command" = some command →
      splitArgument command = .ok argv →
      Makes t ctx arguments .runCommand (.subprocess argv ctx.workspaceRoot)
  | tests {argv : List Str} : shlexSplit t.testCommand = .ok argv →
      Makes t ctx arguments .runTests (.subprocess argv ctx.workspaceRoot)

section Calls
variable {P : OsCall → Prop}

theorem allCalls_exceptOsError {α : Type} (r : Except Exn α) :
    AllCalls P (exceptOsError r).run := by
  cases r with
  | ok a => trivial
  | error e =>
    unfold exceptOsError
    dsimp only
    split_ifs <;> trivial

theorem allCalls_value {α β : Type} {r : Except Exn α} {f : α → Tooling β}
    (hf : ∀ a, r = .ok a → AllCalls P (f a).run) :
    AllCalls P (ExceptT.mk (.ret r) >>= f).run := by
  cases r with
  | error e => trivial
  | ok a => exact hf a rfl

theorem allCalls_runProcess {argv : List Str} {cwd : Str} (h : P (.subprocess argv cwd)) :
    AllCalls P (runProcess argv cwd).run := by
  refine .except_bind (allCalls_lift (allCalls_perform h)) fun r => ?_
  obtain e | p := r
  · cases e <;> trivial
  · trivial

end Calls

theorem allCalls_writeText {path content : Str} (hpath : arguments.get? "path" = some (.str path))
    (hcontent : arguments.get? "content" = some (.str content))
    (hsize : (encodeUtf8 content).length ≤ ctx.writeMaxBytes) :
    AllCalls (Makes t ctx arguments .writeFile) (writeText ctx path content).run := by
  refine .except_bind (allCalls_lift (allCalls_perform (.makedirs hpath hcontent hsize))) fun r =>
    .except_bind (allCalls_exceptOsError r) fun r => ?_
  cases r with
  | error e => trivial
  | ok _ =>
    refine .except_bind (allCalls_lift (allCalls_perform (.write hpath hcontent hsize))) fun r =>
      .except_bind (allCalls_exceptOsError r) fun r => ?_
    cases r <;> trivial

theorem allCalls_writeFile :
    AllCalls (Makes t ctx arguments .writeFile) (writeFile ctx arguments).run := by
  unfold writeFile
  split
  · trivial
  · trivial
  · rename_i content hpath hcontent
    by_cases hsize : ((encodeUtf8 content).length : ℤ) > ctx.writeMaxBytes
    · rw [if_pos hsize]
      trivial
    · rw [if_neg hsize]
      split
      · exact allCalls_writeText hpath hcontent (not_lt.mp hsize)
      · trivial
  · trivial

theorem allCalls_readFile :
    AllCalls (Makes t ctx arguments .readFile) (readFile ctx arguments).run := by
  unfold readFile
  split
  · trivial
  · rename_i hpath
    refine .except_bind (allCalls_lift (allCalls_perform (.read hpath))) fun r =>
      .except_bind (allCalls_exceptOsError r) fun r => ?_
    cases r <;> trivial
  · trivial

theorem allCalls_listFiles :
    AllCalls (Makes t ctx arguments .listFiles) (listFiles ctx arguments).run := by
  unfold listFiles
  split
  · rename_i hpath
    refine .except_bind (allCalls_lift (allCalls_perform (.listdir hpath))) fun r =>
      .except_bind (allCalls_exceptOsError r) fun r => ?_
    cases r <;> trivial
  · trivial

theorem allCalls_searchFiles {base : Str} {query : Json}
    (hquery : arguments.get? "query" = some query) (fps : List Str) :
    AllCalls (Makes t ctx arguments .searchText) (t.searchFiles base query fps).run := by
  induction fps with
  | nil => trivial
  | cons fp fps ih =>
    refine .except_bind (allCalls_lift (allCalls_perform (.searched fp hquery))) fun r =>
      .except_bind (allCalls_exceptOsError r) fun r => ?_
    cases r with
    | error e => exact ih
    | ok data => exact allCalls_value fun hits _ => ih.except_bind fun _ => trivial

theorem allCalls_searchText :
    AllCalls (Makes t ctx arguments .searchText) (t.searchText ctx arguments).run := by
  unfold searchText
  split
  · trivial
  · rename_i query hquery
    refine .except_bind (allCalls_perform (.walk hquery)) fun walked => ?_
    exact (allCalls_searchFiles hquery walked.files).except_bind fun _ => trivial

theorem allCalls_runCommand :
    AllCalls (Makes t ctx arguments .runCommand) (t.runCommand ctx arguments).run := by
  unfold runCommand
  split
  · trivial
  · rename_i command hcommand
    refine allCalls_value fun argv hargv => ?_
    refine (allCalls_runProcess (.command hcommand hargv)).except_bind fun r => ?_
    cases r <;> trivial

theorem allCalls_runTests : AllCalls (Makes t ctx arguments .runTests) (t.runTests ctx).run := by
  refine allCalls_value fun argv hargv => ?_
  refine (allCalls_runProcess (.tests hargv)).except_bind fun r => ?_
  cases r <;> trivial

theorem allCalls_run (t : ToolSet) (ctx : TaskContext) (arguments : Dict) (tool : Tool) :
    AllCalls (Makes t ctx arguments tool) (t.run ctx arguments tool).run := by
  cases tool with
  | writeFile => exact allCalls_writeFile
  | readFile => exact allCalls_readFile
  | listFiles => exact allCalls_listFiles
  | searchText => exact allCalls_searchText
  | finish => trivial
  | runCommand => exact allCalls_runCommand
  | runTests => exact allCalls_runTests

end ToolSet

/-! ## From the loop down to the operating system -/

section Hosts
variable {t : ToolSet} {d : Dispatcher} {ctx : TaskContext} {H : Digest}

/-- A call on the host belongs to a tool that the dispatcher ran. -/
theorem makes_of_serves {es : List Dispatcher.Ev} {tr : List HostEv}
    (h : Serves (hosted t ctx) es tr) {c : OsCall} {r : OsResp c} (hr : ⟨.os c, r⟩ ∈ tr) :
    ∃ name arguments answer tool, ⟨.run name arguments, answer⟩ ∈ es ∧
      ToolSet.toolNamed name = some tool ∧ t.Makes ctx arguments tool c := by
  induction h with
  | nil => cases hr
  | @cons call answer es u tr hcall _ ih =>
    obtain hu | htr := List.mem_append.mp hr
    · cases call with
      | filesystem =>
        obtain rfl := runs_perform.mp hcall
        cases List.mem_singleton.mp hu
      | run name arguments =>
        cases hname : ToolSet.toolNamed name with
        | none =>
          have hraised : hostTool t ctx name arguments =
              return .error ⟨.keyError, Str.repr name⟩ := by
            unfold hostTool
            rw [hname]
          rw [show hosted t ctx (.run name arguments) = hostTool t ctx name arguments from rfl,
            hraised] at hcall
          obtain ⟨rfl, -⟩ := runs_ret.mp hcall
          cases hu
        | some tool =>
          obtain ⟨os, out, rfl, hrun, -⟩ := runs_hostTool hname hcall
          obtain ⟨e, he, heq⟩ := List.mem_map.mp hu
          have hmakes := (t.allCalls_run ctx arguments tool).of_runs hrun e he
          obtain ⟨c', answer'⟩ := e
          cases heq
          exact ⟨name, arguments, answer, tool, List.mem_cons_self .., hname, hmakes⟩
    · obtain ⟨name, arguments, answer', tool, hmem, hrest⟩ := ih htr
      exact ⟨name, arguments, answer', tool, List.mem_cons_of_mem _ hmem, hrest⟩

end Hosts

section Lowering
variable {config : ServiceConfig} {relpath : Str → Str → Str} {workspace : Str} {H : Digest}

/-- A step of the service, and the same step as the dispatcher sees it. What the verifier
does is no business of the dispatcher. -/
structure Lowered (config : ServiceConfig) (relpath : Str → Str → Str) (workspace : Str)
    (H : Digest) (g : Step) (f : HostStep) : Prop where
  event : g.event = f.event
  linked : Linked (implementation H config.dispatcher (config.taskContext workspace)) g
  serves : f.event.call ≠ .verify →
    Serves (hosted (config.toolSet relpath) (config.taskContext workspace)) g.inner f.inner

theorem exists_lowered {f : HostStep} (h : Linked (config.assembled relpath workspace H) f) :
    ∃ g, Lowered config relpath workspace H g f := by
  obtain ⟨⟨call, answer⟩, inner⟩ := f
  cases call with
  | dispatch action =>
    obtain ⟨es, hran, hserves⟩ := runs_interpret.mp h
    exact ⟨⟨⟨.dispatch action, answer⟩, es⟩, rfl, hran, fun _ => hserves⟩
  | executeApproved action fp =>
    obtain ⟨es, hran, hserves⟩ := runs_interpret.mp h
    exact ⟨⟨⟨.executeApproved action fp, answer⟩, es⟩, rfl, hran, fun _ => hserves⟩
  | verify => exact ⟨⟨⟨.verify, answer⟩, []⟩, rfl, rfl, fun hno => absurd rfl hno⟩
  | _ =>
    obtain rfl : inner = [] := h
    exact ⟨⟨⟨_, answer⟩, []⟩, rfl, rfl, fun _ => .nil⟩

theorem exists_lowered_steps {steps : List HostStep}
    (h : ∀ f ∈ steps, Linked (config.assembled relpath workspace H) f) :
    ∃ frames, List.Forall₂ (Lowered config relpath workspace H) frames steps := by
  induction steps with
  | nil => exact ⟨[], .nil⟩
  | cons f steps ih =>
    obtain ⟨g, hg⟩ := exists_lowered (h f (List.mem_cons_self ..))
    obtain ⟨frames, hframes⟩ := ih fun f hf => h f (List.mem_cons_of_mem _ hf)
    exact ⟨g :: frames, .cons hg hframes⟩

theorem map_event_of_lowered {frames : List Step} {steps : List HostStep}
    (h : List.Forall₂ (Lowered config relpath workspace H) frames steps) :
    frames.map Frame.event = steps.map Frame.event := by
  induction h with
  | nil => rfl
  | cons hg _ ih => rw [List.map_cons, List.map_cons, hg.event, ih]

theorem linked_of_lowered {frames : List Step} {steps : List HostStep}
    (h : List.Forall₂ (Lowered config relpath workspace H) frames steps) :
    ∀ g ∈ frames,
      Linked (implementation H config.dispatcher (config.taskContext workspace)) g := by
  induction h with
  | nil => exact List.forall_mem_nil _
  | cons hg _ ih => exact List.forall_mem_cons.mpr ⟨hg.linked, ih⟩

/-- The process of the verifier. -/
theorem verifier_process {f : HostStep} (h : Linked (config.assembled relpath workspace H) f)
    (hverify : f.event.call = .verify) {c : OsCall} {r : OsResp c} (hr : ⟨.os c, r⟩ ∈ f.inner) :
    ∃ argv, shlexSplit config.feedback.testCommand = .ok argv ∧ c = .subprocess argv workspace := by
  obtain ⟨⟨call, answer⟩, inner⟩ := f
  obtain rfl : call = .verify := hverify
  obtain ⟨_, -, hnil, -⟩ | ⟨argv, answer', hsplit, hone, -⟩ := runs_makeFinalVerifier.mp h
  · obtain rfl : inner = [] := hnil
    cases hr
  · obtain rfl : inner = _ := hone
    cases List.mem_singleton.mp hr
    exact ⟨argv, hsplit, rfl⟩

end Lowering

/-! ## Only what is enabled -/

section Enabled
variable {config : ServiceConfig} {relpath : Str → Str → Str} {workspace : Str} {H : Digest}

theorem registered_of_executeApproved {d : Dispatcher} {ctx : TaskContext} {action : Action}
    {fp : Str} {e : Dispatcher.Ev} {es : List Dispatcher.Ev}
    {out : Except Exn (ToolResult × Action)}
    (hrun : Runs (d.executeApproved H action ctx (some fp)).run (e :: es) out) :
    action.tool ∈ d.registry := by
  unfold Dispatcher.executeApproved validateResume at hrun
  by_cases hfp : fingerprint H action ≠ fp
  · simp only [if_pos hfp] at hrun
    cases (runs_return.mp hrun).1
  · simp only [if_neg hfp] at hrun
    exact registered_of_executeFenced hrun

/-- The calls of the loop that carry out an action. -/
inductive CarriesOut (action : Action) : Call → Prop
  | dispatch : CarriesOut action (.dispatch action)
  | executeApproved (fp : Str) : CarriesOut action (.executeApproved action fp)

/-- What runs in a step is the tool of its action, with the arguments of the action, and
that tool is registered. -/
theorem carriesOut_of_linked {g : Step} {d : Dispatcher} {ctx : TaskContext}
    (h : Linked (implementation H d ctx) g) {name : Str} {arguments : Dict}
    {answer : Except Exn (ToolResult × Dict)} (he : ⟨.run name arguments, answer⟩ ∈ g.inner) :
    ∃ action, CarriesOut action g.event.call ∧ action.tool = name ∧
      action.arguments = arguments ∧ name ∈ d.registry := by
  obtain ⟨⟨call, answer⟩, inner⟩ := g
  obtain ⟨e, es, rfl⟩ := List.exists_cons_of_ne_nil (List.ne_nil_of_mem he)
  cases call with
  | dispatch action =>
    obtain ⟨rfl, rfl, -⟩ := (Dispatcher.dispatch_cases h).of_run he rfl
    exact ⟨action, .dispatch, rfl, rfl, registered_of_dispatch h⟩
  | executeApproved action fp =>
    obtain ⟨_, hnil, _⟩ | ⟨_, hexec⟩ := Dispatcher.executeApproved_cases h
    · cases hnil
    · obtain ⟨rfl, rfl, -⟩ := hexec.of_run he rfl
      exact ⟨action, .executeApproved fp, rfl, rfl, registered_of_executeApproved h⟩
  | _ =>
    have hnil : e :: es = [] := h
    cases hnil

/-- Whatever the model, the resolver and the operating system answer, every call that a step
of the assembled service makes to the operating system is the verifier's, which runs the
command of the tests, or one that the tool of the step's action makes for its arguments; and
that tool is listed among the enabled ones and described to the model, once. -/
theorem steps_capabilities (config : ServiceConfig) (relpath : Str → Str → Str)
    (workspace : Str) (H : Digest) (steps : List HostStep)
    (hlinked : ∀ f ∈ steps, Linked (config.assembled relpath workspace H) f) (f : HostStep)
    (hf : f ∈ steps) (c : OsCall) (r : OsResp c) (hr : ⟨.os c, r⟩ ∈ f.inner) :
    (f.event.call = .verify ∧ ∃ argv, shlexSplit config.feedback.testCommand = .ok argv ∧
      c = .subprocess argv workspace) ∨
    ∃ (action : Action) (tool : ToolSet.Tool), CarriesOut action f.event.call ∧
      action.tool = tool.name ∧ tool.name ∈ config.tools.enabled ∧
      (describedLines config).count tool.header = 1 ∧
      (config.toolSet relpath).Makes (config.taskContext workspace) action.arguments tool c := by
  by_cases hverify : f.event.call = .verify
  · exact .inl ⟨hverify, verifier_process (hlinked f hf) hverify hr⟩
  · right
    obtain ⟨g, hlow⟩ := exists_lowered (hlinked f hf)
    obtain ⟨name, arguments, answer, tool, hcall, hname, hmakes⟩ :=
      makes_of_serves (hlow.serves hverify) hr
    obtain ⟨action, hcarries, htool, rfl, hregistered⟩ := carriesOut_of_linked hlow.linked hcall
    obtain rfl := ToolSet.name_of_toolNamed hname
    have henabled : tool.name ∈ config.tools.enabled := (mem_buildRegistry.mp hregistered).1
    refine ⟨action, tool, hlow.event ▸ hcarries, htool, henabled, ?_, hmakes⟩
    rw [count_describedLines, if_pos (mem_registeredTools.mpr henabled)]

end Enabled

/-! ## The verdict on what is started -/

/-- The canonical texts of the actions whose fingerprints are compared in a run. -/
def comparedTexts (evs : List HarnessCore.Ev) : Set Str :=
  {text | ∃ action, text = canonicalText action ∧ ∃ e ∈ evs,
    (∃ judged verdict result, e = ⟨.dispatch judged, .ok (verdict, result, action)⟩) ∨
      ∃ fp, e.call = .executeApproved action fp}

theorem fingerprinted_mono {frames frames' : List Step} (hsub : frames ⊆ frames') :
    fingerprinted frames ⊆ fingerprinted frames' := by
  rintro text ⟨action, rfl, f, hf, hev⟩
  exact ⟨action, rfl, f, hsub hf, hev⟩

theorem fingerprinted_subset (frames : List Step) :
    fingerprinted frames ⊆ comparedTexts (frames.map Frame.event) := by
  rintro text ⟨action, rfl, f, hf, hev⟩
  exact ⟨action, rfl, f.event, List.mem_map_of_mem hf, hev⟩

/-- The policy on commands let `argv0` run with `args`: it lexed them from the very command,
the program is allowlisted, no rule denies them, and where a rule asks for an approval of
this command the resolver gave it among the given events. -/
structure Permitted (config : AegisConfig) (evs : List HarnessCore.Ev) (command argv0 : Str)
    (args : List Str) : Prop where
  lexed : lexString command = ⟨true, argv0 :: args, "ok", false⟩
  allowlisted : argv0 ∈ config.governance.commandAllowlist
  undenied : ∀ rule ∈ config.governance.commandRules,
    ruleMatches rule (normArgv0 argv0) args = true → rule.decision ≠ .deny
  approved : ∀ rule ∈ config.governance.commandRules,
    ruleMatches rule (normArgv0 argv0) args = true → rule.decision = .requireApproval →
    ∃ (judged executed : Action) (verdict verdict' : GovernanceVerdict),
      ⟨.resolve judged verdict, .ok (true, executed, verdict')⟩ ∈ evs ∧
      judged.tool = "run_command" ∧ judged.arguments.get? "command" = some (.str command)

theorem lexString_ok {command : Str} (h : (lexString command).ok = true) :
    ∃ argv0 args, lexString command = ⟨true, argv0 :: args, "ok", false⟩ ∧
      shlexSplit command = .ok (argv0 :: args) := by
  unfold lexString at h ⊢
  cases hmeta : metaTokens.find? fun token => Str.contains token command with
  | some token => simp [hmeta, metaResult] at h
  | none =>
    simp only [hmeta] at h ⊢
    cases hsplit : shlexSplit command with
    | error e => simp [hsplit] at h
    | ok argv =>
      cases argv with
      | nil => simp [hsplit] at h
      | cons argv0 args => exact ⟨argv0, args, rfl, rfl⟩

/-- A verdict that is no denial says what was judged, and how severe the rules are at most. -/
theorem judgeCommand_cases {command : Json} {allowlist : List Str} {rules : List CommandRule}
    {verdict : GovernanceVerdict} (h : judgeCommand command allowlist rules = .ok verdict)
    (hdeny : verdict.decision ≠ .deny) :
    ∃ s argv0 args, command = .str s ∧ lexString s = ⟨true, argv0 :: args, "ok", false⟩ ∧
      shlexSplit s = .ok (argv0 :: args) ∧ argv0 ∈ allowlist ∧
      ∀ rule ∈ rules, ruleMatches rule (normArgv0 argv0) args = true →
        rule.decision.severity ≤ verdict.decision.severity := by
  unfold judgeCommand at h
  cases hlex : lexCommand command with
  | error e =>
    rw [hlex] at h
    cases h
  | ok lex =>
    rw [hlex] at h
    obtain ⟨s, rfl, rfl⟩ | ⟨hrefused, -⟩ := lexCommand_eq_ok hlex
    · by_cases hok : (lexString s).ok = true
      · obtain ⟨argv0, args, hargv, hsplit⟩ := lexString_ok hok
        rw [hargv] at h
        obtain rfl : judgeArgv argv0 args allowlist rules = verdict := Except.ok.inj h
        have hallowed : argv0 ∈ allowlist := by
          by_contra hno
          rw [judgeArgv, if_pos hno] at hdeny
          exact hdeny rfl
        refine ⟨s, argv0, args, rfl, hargv, hsplit, hallowed, fun rule hrule hmatch => ?_⟩
        obtain ⟨_, _, _, _, hdecision, _, hbest⟩ :=
          (judgeArgv_strictest hallowed rules).winner ⟨rule, hrule, hmatch⟩
        obtain ⟨j, hj⟩ := List.mem_iff_getElem?.mp hrule
        rw [hdecision]
        exact (hbest j rule hj hmatch).1
      · rw [Bool.not_eq_true] at hok
        generalize lexString s = lex at h hok
        obtain ⟨ok, argv, reason, hasMeta⟩ := lex
        obtain rfl : ok = false := hok
        obtain rfl := Except.ok.inj h
        exact absurd rfl hdeny
    · obtain ⟨ok, argv, reason, hasMeta⟩ := lex
      obtain rfl : ok = false := hrefused
      obtain rfl := Except.ok.inj h
      exact absurd rfl hdeny

/-- What a process of a run is: the command of the tests, or a command that was permitted. -/
def Started (config : ServiceConfig) (evs : List HarnessCore.Ev) (argv : List Str) : Prop :=
  shlexSplit config.feedback.testCommand = .ok argv ∨
    ∃ command argv0 args, argv = argv0 :: args ∧
      Permitted config.toAegisConfig evs command argv0 args

section Judging
variable {config : AegisConfig} {registry : List Str} {ctx : TaskContext} {h : HarnessCore}

theorem severity_le_deny {a b : Decision} (h : a.severity ≤ b.severity) (hb : b ≠ .deny) :
    a ≠ .deny := by
  rintro rfl
  cases b <;> simp_all [Decision.severity]

theorem evaluate_runCommand {action : Action} (htool : action.tool = "run_command") :
    (buildDispatcher config registry).engine.evaluate action ctx =
      judgeCommand ((action.arguments.get? "command").getD (.str []))
        config.governance.commandAllowlist config.governance.commandRules := by
  rw [show (buildDispatcher config registry).engine = buildEngine config from rfl,
    evaluate_buildEngine]
  exact if_pos htool

/-- What a turn lets through is permitted. -/
theorem permitted_of_authorised {frames : List Step} {f : Step} {executed : Action}
    (hauth : Authorised h (buildDispatcher config registry) ctx frames f executed)
    (htool : executed.tool = "run_command") {command : Json} {argv : List Str}
    (hcommand : executed.arguments.get? "command" = some command)
    (hsplit : ToolSet.splitArgument command = .ok argv) :
    ∃ s argv0 args, argv = argv0 :: args ∧
      Permitted config (frames.map Frame.event) s argv0 args := by
  cases hauth with
  | @allowed verdict _ heval hdecision =>
    rw [evaluate_runCommand htool, hcommand] at heval
    obtain ⟨s, argv0, args, rfl, hlexed, hargv, hallowed, hbest⟩ :=
      judgeCommand_cases heval (by obtain h | h := hdecision <;> simp [h])
    obtain rfl := Except.ok.inj (hsplit.symm.trans hargv)
    refine ⟨s, argv0, args, rfl, hlexed, hallowed, fun rule hrule hmatch => ?_,
      fun rule hrule hmatch hreq => ?_⟩
    · exact severity_le_deny (hbest rule hrule hmatch) (by obtain h | h := hdecision <;> simp [h])
    · have hle := hbest rule hrule hmatch
      rw [hreq] at hle
      obtain h | h := hdecision <;> rw [h] at hle <;> simp [Decision.severity] at hle
  | @approved judged verdict verdict' _ heval hreq hres _ _ hsame =>
    obtain ⟨htools, harguments⟩ := hsame
    have hjudged : judged.tool = "run_command" := htools ▸ htool
    rw [evaluate_runCommand hjudged] at heval
    obtain ⟨s, argv0, args, hstr, hlexed, hargv, hallowed, hbest⟩ :=
      judgeCommand_cases heval (by simp [hreq])
    have hget : judged.arguments.get? "command" = some (.str s) := by
      cases hget : judged.arguments.get? "command" with
      | none =>
        rw [hget] at hstr
        obtain rfl : [] = s := Json.str.inj hstr
        cases hargv
      | some v =>
        rw [hget] at hstr
        exact congrArg some hstr
    obtain rfl : command = .str s := by
      have hexecuted := (Json.get_str_of_same harguments).mpr hget
      exact Option.some.inj (hcommand.symm.trans hexecuted)
    obtain rfl := Except.ok.inj (hsplit.symm.trans hargv)
    refine ⟨s, argv0, args, rfl, hlexed, hallowed, fun rule hrule hmatch => ?_,
      fun rule hrule hmatch _ => ?_⟩
    · exact severity_le_deny (hbest rule hrule hmatch) (by simp [hreq])
    · obtain ⟨g, hg, hevent⟩ := hres
      exact ⟨judged, executed, verdict, verdict', hevent ▸ List.mem_map_of_mem hg, hjudged, hget⟩

theorem Permitted.mono {evs evs' : List HarnessCore.Ev} {command argv0 : Str} {args : List Str}
    (hp : Permitted config evs command argv0 args) (hsub : evs ⊆ evs') :
    Permitted config evs' command argv0 args := by
  refine ⟨hp.lexed, hp.allowlisted, hp.undenied, fun rule hrule hmatch hreq => ?_⟩
  obtain ⟨judged, executed, verdict, verdict', hmem, hrest⟩ := hp.approved rule hrule hmatch hreq
  exact ⟨judged, executed, verdict, verdict', hsub hmem, hrest⟩

/-- In every run of the assembled service every process that is started runs in the
workspace, and is the command of the tests or was judged as it is started: lexed without
shell metastructure from one command, its program allowlisted, no rule against it, and
approved before where a rule asks for that. -/
theorem run_processes_judged (config : ServiceConfig) (relpath : Str → Str → Str)
    (workspace : Str) (h : HarnessCore) (fuel : ℕ) (task : Str)
    (out : Option (Except Exn TerminationReason)) (before after : List HostStep) (f : HostStep)
    (hrun : Runs (h.run fuel task) ((before ++ f :: after).map Frame.event) out)
    (hlinked : ∀ g ∈ before ++ f :: after, Linked (config.assembled relpath workspace h.sha256) g)
    (hcoll : h.sha256.CollisionFree (comparedTexts ((before ++ f :: after).map Frame.event)))
    (argv : List Str) (cwd : Str) (answer : Except ProcessError Completed)
    (hprocess : ⟨.os (.subprocess argv cwd), answer⟩ ∈ f.inner) :
    cwd = workspace ∧ Started config (before.map Frame.event) argv := by
  obtain ⟨hbefore, hf, hafter⟩ : _ ∧ _ ∧ _ := by
    simpa only [List.forall_mem_append, List.forall_mem_cons] using hlinked
  by_cases hverify : f.event.call = .verify
  · obtain ⟨_, hsplit, heq⟩ := verifier_process hf hverify hprocess
    cases heq
    exact ⟨rfl, .inl hsplit⟩
  · obtain ⟨before', hlowBefore⟩ := exists_lowered_steps hbefore
    obtain ⟨g, hlow⟩ := exists_lowered hf
    obtain ⟨after', hlowAfter⟩ := exists_lowered_steps hafter
    have hframes := List.rel_append hlowBefore (.cons hlow hlowAfter)
    have hlinked' := linked_of_lowered hframes
    rw [← map_event_of_lowered hframes] at hrun hcoll
    rw [← map_event_of_lowered hlowBefore]
    obtain ⟨name, arguments, answer', tool, hcall, hname, hmakes⟩ :=
      makes_of_serves (hlow.serves hverify) hprocess
    cases hmakes with
    | tests hsplit => exact ⟨rfl, .inl hsplit⟩
    | command hcommand hsplit =>
      refine ⟨rfl, .inr ?_⟩
      obtain ⟨opening, turns, start, heq, hopening, hturns⟩ := run_steps hrun
      obtain ⟨inTurns, hinTurns, hflat⟩ | ⟨v, rfl⟩ := append_eq_append_cons heq.symm
      · obtain ⟨turn, hmem, earlier, inTurn, v, rfl, rfl⟩ := flatten_eq_append_cons hflat
        obtain ⟨s, outcome, hruns⟩ := hturns _ hmem
        have hsub : inTurn ++ g :: v ⊆ before' ++ g :: after' := by
          intro e he
          rw [show before' ++ g :: after' = opening ++ turns.flatten from heq]
          exact List.mem_append_right _ (List.mem_flatten.mpr ⟨_, hmem, he⟩)
        have hfewer :=
          (fingerprinted_mono hsub).trans (fingerprinted_subset (before' ++ g :: after'))
        obtain ⟨executed, _, htool, rfl, hauth, -, -⟩ :=
          authorised_of_run hruns (fun e he => hlinked' e (hsub he)) (hcoll.mono hfewer) hcall rfl
        have htool' : executed.tool = "run_command" :=
          htool.trans (ToolSet.name_of_toolNamed hname).symm
        obtain ⟨s, argv0, args, rfl, hp⟩ := permitted_of_authorised hauth htool' hcommand hsplit
        refine ⟨s, argv0, args, rfl, hp.mono (List.map_subset _ fun e he => ?_)⟩
        rw [hinTurns]
        exact List.mem_append_right _ (List.mem_append_right _ he)
      · -- the clock is no call of the dispatcher
        have hclock := hopening g (by simp)
        have hnone := hlow.linked
        obtain ⟨⟨call, answer⟩, inner⟩ := g
        obtain rfl : call = .monotonic := hclock
        obtain rfl : inner = [] := hnone
        cases hcall

end Judging

/-! ## A command that is approved -/

def installAction : Action :=
  { tool := "run_command", arguments := [("command", .str "pip install ruff")] }

def installVerdict : GovernanceVerdict :=
  ⟨.requireApproval, "CMD_RULE_4", "rule matched: pip ['install']"⟩

def installResult : ToolResult :=
  { tool := "run_command", status := .success, summary := "exit 0", exitCode := some 0 }

/-- One step is allowed, and the model installs a linter. -/
def installHarness : HarnessCore where
  config := { limits := { maxSteps := 1, actionRetryLimit := 1 } }
  sha256 := Digest.single (canonicalText installAction)
    "6f48b054c5910426333d085997635c03a23b6c389cdeeb76c1f5f2a5ef6d6dc5" (by decide)
  taskId := "task"
  parseAction _ := .ok installAction
  promptBuilder := none
  approvalResolver := true
  cancelCheck := false
  memoryStore := false

def installBefore : List HostStep :=
  let h := installHarness
  [⟨⟨.monotonic, 0⟩, []⟩, ⟨⟨.monotonic, 5⟩, []⟩,
    ⟨⟨.complete (h.messages "lint" h.initialState []), .ok "install"⟩, []⟩,
    ⟨h.logged {} .actionProposed (proposedPayload installAction), []⟩,
    ⟨⟨.dispatch installAction, .ok (installVerdict, none, installAction)⟩,
      [⟨.look, gateWorkspace⟩]⟩,
    ⟨h.logged {} .governanceDecision (decisionPayload installAction installVerdict), []⟩,
    ⟨⟨.resolve installAction installVerdict, .ok (true, installAction, installVerdict)⟩, []⟩]

def installStep : HostStep :=
  ⟨⟨.executeApproved installAction (fingerprint installHarness.sha256 installAction),
      .ok (installResult, installAction)⟩,
    [⟨.look, gateWorkspace⟩,
      ⟨.os (.subprocess ["pip", "install", "ruff"] "/ws"), .ok ⟨0, [], []⟩⟩]⟩

def installAfter : List HostStep :=
  let h := installHarness
  let next := h.afterExecution (HarnessCore.afterParse h.initialState) installVerdict
    installResult installAction
  [⟨h.logged {} .approvalDecided (approvalPayload installAction "APPROVED"), []⟩,
    ⟨h.logged {} .toolExecuted (toolPayload installAction installResult), []⟩,
    ⟨h.logged next.c .feedback (feedbackPayload "SUCCESS" []), []⟩,
    ⟨⟨.monotonic, 9⟩, []⟩, ⟨h.stopped next.c .maxSteps, []⟩]

theorem install_runs : Runs (installHarness.run 3 "lint")
    ((installBefore ++ installStep :: installAfter).map Frame.event) (some (.ok .maxSteps)) :=
  .call (.call (.call (.call (.call (.call (.call (.call (.call (.call (.call (.call
    (.call (.ret _)))))))))))))

theorem install_linked : ∀ f ∈ installBefore ++ installStep :: installAfter,
    Linked (ServiceConfig.assembled {} (fun fp _ => fp) "/ws" installHarness.sha256) f := by
  simp only [installBefore, installAfter, List.cons_append, List.nil_append, List.forall_mem_cons]
  exact ⟨rfl, rfl, rfl, rfl, .call (.ret _), rfl, rfl, .call (.call (.ret _)), rfl, rfl, rfl, rfl,
    rfl, fun _ h => absurd h List.not_mem_nil⟩

theorem install_collisionFree : installHarness.sha256.CollisionFree
    (comparedTexts ((installBefore ++ installStep :: installAfter).map Frame.event)) := by
  have hsingle : ∀ text ∈ comparedTexts
      ((installBefore ++ installStep :: installAfter).map Frame.event),
      text = canonicalText installAction := by
    rintro text ⟨action, rfl, e, he, hev⟩
    simp only [installBefore, installAfter, List.cons_append, List.nil_append, List.map_cons,
      List.map_nil, List.mem_cons, List.not_mem_nil, or_false] at he
    obtain rfl | rfl | rfl | rfl | rfl | rfl | rfl | rfl | rfl | rfl | rfl | rfl | rfl := he <;>
      obtain ⟨_, _, _, h⟩ | ⟨_, h⟩ := hev <;> cases h <;> rfl
  intro text h text' h' _
  rw [hsingle text h, hsingle text' h']

theorem run_processes_judged_install :
    "/ws".toList = "/ws".toList ∧
      Started {} (installBefore.map Frame.event) ["pip", "install", "ruff"] :=
  run_processes_judged {} (fun fp _ => fp) "/ws" installHarness 3 "lint" _ installBefore
    installAfter installStep install_runs install_linked install_collisionFree
    ["pip", "install", "ruff"] "/ws" (.ok ⟨0, [], []⟩) (by simp [installStep])

theorem steps_capabilities_install :
    (installStep.event.call = .verify ∧ ∃ argv,
      shlexSplit ({} : ServiceConfig).feedback.testCommand = .ok argv ∧
      OsCall.subprocess ["pip", "install", "ruff"] "/ws" = .subprocess argv "/ws") ∨
    ∃ (action : Action) (tool : ToolSet.Tool), CarriesOut action installStep.event.call ∧
      action.tool = tool.name ∧ tool.name ∈ ({} : ServiceConfig).tools.enabled ∧
      (describedLines {}).count tool.header = 1 ∧
      (ServiceConfig.toolSet {} fun fp _ => fp).Makes (ServiceConfig.taskContext {} "/ws")
        action.arguments tool (.subprocess ["pip", "install", "ruff"] "/ws") :=
  steps_capabilities {} (fun fp _ => fp) "/ws" installHarness.sha256
    (installBefore ++ installStep :: installAfter) install_linked installStep (by simp)
    (.subprocess ["pip", "install", "ruff"] "/ws") (.ok ⟨0, [], []⟩) (by simp [installStep])

end AegisCode
