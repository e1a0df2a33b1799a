import AegisCode.GovernanceGate

/-!
# The fence behind an approval

`dispatch` and `execute_approved` have the fence written out twice. On the same
filesystem both refuse the same actions with the same result; the rules of the
policy have names of their own, so that a refusal by the fence shows in the verdict.
-/
namespace AegisCode

open Program Prog Posix

/-- The rules that a refusal before the policy names. -/
def fenceRules : List Str := ["UNKNOWN_TOOL", "PATH_FENCE", "CMD_PATH_FENCE"]

/-- The verdict is a refusal by the registry or the fence. -/
def FenceDenial (verdict : GovernanceVerdict) : Prop :=
  verdict.decision = .deny ∧ verdict.ruleId ∈ fenceRules

/-- Every look at the filesystem sees `fs`. -/
def Sees (fs : FileSystem) (tr : List Dispatcher.Ev) : Prop :=
  ∀ fs', (⟨.filesystem, fs'⟩ : Dispatcher.Ev) ∈ tr → fs' = fs

/-- No tool is run. -/
def RunsNothing (tr : List Dispatcher.Ev) : Prop := ∀ e ∈ tr, isToolRun e = false

/-! ## The rules of the policy -/

theorem judgeArgv_rule {argv0 : Str} {args allowlist : List Str} {rules : List CommandRule} :
    (judgeArgv argv0 args allowlist rules).ruleId ∉ fenceRules := by
  have hallowlist : "CMD_ALLOWLIST".toList ∉ fenceRules := by decide
  have hdefault : "CMD_DEFAULT_ALLOWED".toList ∉ fenceRules := by decide
  unfold judgeArgv
  by_cases hlisted : argv0 ∈ allowlist
  · rw [if_neg (not_not.mpr hlisted)]
    split
    · rename_i i _
      intro hmem
      have htake : ("CMD_RULE_".toList ++ Nat.toDigits 10 i).take 5 ∈
          fenceRules.map (List.take 5) := List.mem_map_of_mem hmem
      have hcut : ("CMD_RULE_".toList ++ Nat.toDigits 10 i).take 5 = "CMD_R".toList := rfl
      rw [hcut] at htake
      exact absurd htake (by decide)
    · exact hdefault
  · rw [if_pos hlisted]
    exact hallowlist

theorem judgeCommand_rule {command : Json} {allowlist : List Str} {rules : List CommandRule}
    {verdict : GovernanceVerdict} (h : judgeCommand command allowlist rules = .ok verdict) :
    verdict.ruleId ∉ fenceRules := by
  unfold judgeCommand at h
  cases hlex : lexCommand command with
  | error exc =>
    rw [hlex] at h
    contradiction
  | ok lr =>
    rw [hlex] at h
    dsimp only [Bind.bind, Except.bind] at h
    split at h
    · rw [← Except.ok.inj h]
      exact judgeArgv_rule
    · rw [← Except.ok.inj h]
      show "CMD_STRUCT".toList ∉ fenceRules
      decide

theorem judgeWrite_rule {config : AegisConfig} {path : Json} {verdict : GovernanceVerdict}
    (h : judgeWrite config path = .ok verdict) : verdict.ruleId ∉ fenceRules := by
  have hfallback : "TIER_WRITE".toList ∉ fenceRules := by decide
  have hlisted : "TIER_WRITE_ALLOWLISTED".toList ∉ fenceRules := by decide
  unfold judgeWrite at h
  dsimp only at h
  split at h
  · split at h
    · rw [← Except.ok.inj h]
      exact hlisted
    · rw [← Except.ok.inj h]
      exact hfallback
  · split_ifs at h
    rw [← Except.ok.inj h]
    exact hfallback

/-- No verdict of the policy names a rule of the fence. -/
theorem buildEngine_rule {config : AegisConfig} {action : Action} {ctx : TaskContext}
    {verdict : GovernanceVerdict} (h : (buildEngine config).evaluate action ctx = .ok verdict) :
    verdict.ruleId ∉ fenceRules := by
  rw [evaluate_buildEngine] at h
  unfold buildDefaultFn at h
  dsimp only at h
  split_ifs at h
  · exact judgeCommand_rule h
  · rw [← Except.ok.inj h]
    decide
  · rw [← Except.ok.inj h]
    decide
  · rw [← Except.ok.inj h]
    show "TIER_READONLY".toList ∉ fenceRules
    decide
  · exact judgeWrite_rule h
  · rw [← Except.ok.inj h]
    show "TIER_DEFAULT".toList ∉ fenceRules
    decide

theorem fence_rule {d : Dispatcher} {fs : FileSystem} {action : Action} {ctx : TaskContext}
    {rule reason : Str} (h : d.fence fs action ctx = .ok (some (rule, reason))) :
    rule ∈ fenceRules := by
  have hpath : "PATH_FENCE".toList ∈ fenceRules := by decide
  have hcommand : "CMD_PATH_FENCE".toList ∈ fenceRules := by decide
  unfold Dispatcher.fence at h
  split at h
  · contradiction
  · obtain ⟨rfl, _⟩ := Prod.mk.inj (Option.some.inj (Except.ok.inj h))
    exact hpath
  · split at h
    · contradiction
    · obtain ⟨rfl, _⟩ := Prod.mk.inj (Option.some.inj (Except.ok.inj h))
      exact hcommand
    · cases h

/-! ## Both paths on one filesystem -/

section
variable {d : Dispatcher} {fs : FileSystem} {action : Action} {ctx : TaskContext}
  {tr tr' : List Dispatcher.Ev}

theorem dispatch_unknown {out : Except Exn (GovernanceVerdict × Option ToolResult × Action)}
    (hreg : action.tool ∉ d.registry) (hrun : Runs (d.dispatch action ctx).run tr out) :
    out = .ok (⟨.deny, "UNKNOWN_TOOL", "unknown tool"⟩, some (unknownToolResult action), action) := by
  unfold Dispatcher.dispatch at hrun
  rw [if_pos hreg] at hrun
  exact (runs_return.mp hrun).2

theorem executeFenced_unknown {out : Except Exn (ToolResult × Action)}
    (hreg : action.tool ∉ d.registry) (hrun : Runs (d.executeFenced action ctx).run tr out) :
    tr = [] ∧ out = .ok (unknownToolResult action, action) := by
  unfold Dispatcher.executeFenced at hrun
  rw [if_pos hreg] at hrun
  exact runs_return.mp hrun

theorem Sees.eq {t : List Dispatcher.Ev} {fs' : FileSystem}
    (h : Sees fs (⟨.filesystem, fs'⟩ :: t)) : fs' = fs := h fs' (List.mem_cons_self ..)

theorem runsNothing_look (fs : FileSystem) : RunsNothing [⟨.filesystem, fs⟩] :=
  List.forall_mem_singleton.mpr rfl

theorem dispatch_fenceRaised {out : Except Exn (GovernanceVerdict × Option ToolResult × Action)}
    {e : Exn} (hreg : action.tool ∈ d.registry) (hfence : d.fence fs action ctx = .error e)
    (hsees : Sees fs tr) (hrun : Runs (d.dispatch action ctx).run tr out) : out = .error e := by
  unfold Dispatcher.dispatch at hrun
  rw [if_neg (not_not.mpr hreg)] at hrun
  obtain ⟨fs', t, rfl, hrest⟩ := runs_lift_perform_bind.mp hrun
  obtain rfl := hsees.eq
  simp only [hfence, ExceptT.run_throw] at hrest
  exact (runs_pure.mp hrest).2

theorem dispatch_fenced {out : Except Exn (GovernanceVerdict × Option ToolResult × Action)}
    {rule reason : Str} (hreg : action.tool ∈ d.registry)
    (hfence : d.fence fs action ctx = .ok (some (rule, reason))) (hsees : Sees fs tr)
    (hrun : Runs (d.dispatch action ctx).run tr out) :
    out = .ok (⟨.deny, rule, reason⟩, some (deniedResult action reason), action) := by
  unfold Dispatcher.dispatch at hrun
  rw [if_neg (not_not.mpr hreg)] at hrun
  obtain ⟨fs', t, rfl, hrest⟩ := runs_lift_perform_bind.mp hrun
  obtain rfl := hsees.eq
  simp only [hfence] at hrest
  exact (runs_return.mp hrest).2

/-- The outcomes of `dispatch` and of `execute_approved` for one action: both refuse it
with one result, both raise, or the fence lets it through and `execute_approved` runs
the tool. -/
inductive Agree (fs : FileSystem) (action : Action) :
    Except Exn (GovernanceVerdict × Option ToolResult × Action) → List Dispatcher.Ev →
      Except Exn (ToolResult × Action) → Prop
  | refused {verdict : GovernanceVerdict} {result : ToolResult} {t : List Dispatcher.Ev} :
      FenceDenial verdict → RunsNothing t →
      Agree fs action (.ok (verdict, some result, action)) t (.ok (result, action))
  | raised {t : List Dispatcher.Ev} (e e' : Exn) : RunsNothing t →
      Agree fs action (.error e) t (.error e')
  | passed {out : Except Exn (GovernanceVerdict × Option ToolResult × Action)}
      {t : List Dispatcher.Ev} {out' : Except Exn (ToolResult × Action)} :
      (∀ verdict result a, out = .ok (verdict, result, a) → ¬ FenceDenial verdict) →
      Dispatcher.RunsTool action t out' →
      Agree fs action out (⟨.filesystem, fs⟩ :: t) out'

/-- Behind the fence the verdict is the policy's. -/
theorem policy_verdict {config : AegisConfig} {registry : List Str}
    {out : Except Exn (GovernanceVerdict × Option ToolResult × Action)}
    (hfence : (buildDispatcher config registry).fence fs action ctx = .ok none)
    (hreg : action.tool ∈ registry) (hsees : Sees fs tr)
    (hd : (buildDispatcher config registry).Dispatches action ctx tr out)
    {verdict : GovernanceVerdict} {result : Option ToolResult} {a : Action}
    (hout : out = .ok (verdict, result, a)) : ¬ FenceDenial verdict := by
  have hengine : ∀ {w}, (buildDispatcher config registry).engine.evaluate action ctx = .ok w →
      ¬ FenceDenial w := fun heval hdenial => buildEngine_rule heval hdenial.2
  cases hd with
  | unknown hno => exact absurd hreg hno
  | fenceRaised hraised =>
    obtain rfl := hsees.eq
    rw [hfence] at hraised
    contradiction
  | fenced hstop =>
    obtain rfl := hsees.eq
    rw [hfence] at hstop
    cases hstop
  | engineRaised _ _ =>
    obtain ⟨rfl, _⟩ := Prod.mk.inj (Except.ok.inj hout)
    rintro ⟨_, hrule⟩
    have hinternal : "INTERNAL_ERROR".toList ∉ fenceRules := by decide
    exact hinternal hrule
  | denied _ heval _ =>
    obtain ⟨rfl, _⟩ := Prod.mk.inj (Except.ok.inj hout)
    exact hengine heval
  | pending _ heval _ =>
    obtain ⟨rfl, _⟩ := Prod.mk.inj (Except.ok.inj hout)
    exact hengine heval
  | executed _ heval _ _ ht =>
    cases ht with
    | returned result' arguments =>
      obtain ⟨rfl, _⟩ := Prod.mk.inj (Except.ok.inj hout)
      exact hengine heval
    | raised e => contradiction

theorem executeApproved_self (H : Digest) (d : Dispatcher) (action : Action) (ctx : TaskContext) :
    d.executeApproved H action ctx (some (fingerprint H action)) = d.executeFenced action ctx := by
  unfold Dispatcher.executeApproved validateResume
  dsimp only
  rw [if_neg (not_not.mpr rfl)]

theorem agree_of_runs {config : AegisConfig} {registry : List Str}
    {out : Except Exn (GovernanceVerdict × Option ToolResult × Action)}
    {out' : Except Exn (ToolResult × Action)}
    (hdispatch : Runs ((buildDispatcher config registry).dispatch action ctx).run tr out)
    (hsees : Sees fs tr)
    (hexec : Runs ((buildDispatcher config registry).executeFenced action ctx).run tr' out')
    (hsees' : Sees fs tr') : Agree fs action out tr' out' := by
  by_cases hreg : action.tool ∈ registry
  · cases Dispatcher.executeFenced_cases hexec with
    | unknown hno => exact absurd hreg hno
    | fenceRaised hraised =>
      obtain rfl := hsees'.eq
      obtain rfl := dispatch_fenceRaised hreg hraised hsees hdispatch
      exact .raised _ _ (runsNothing_look _)
    | fenced hstop =>
      obtain rfl := hsees'.eq
      obtain rfl := dispatch_fenced hreg hstop hsees hdispatch
      exact .refused ⟨rfl, fence_rule hstop⟩ (runsNothing_look _)
    | executed hacc ht =>
      obtain rfl := hsees'.eq
      have hd := Dispatcher.dispatch_cases hdispatch
      exact .passed (fun _ _ _ => policy_verdict hacc hreg hsees hd) ht
  · obtain rfl := dispatch_unknown hreg hdispatch
    obtain ⟨rfl, rfl⟩ := executeFenced_unknown hreg hexec
    exact .refused ⟨rfl, List.mem_cons_self ..⟩ (List.forall_mem_nil _)

theorem not_runsNothing {out : Except Exn (ToolResult × Action)}
    (ht : Dispatcher.RunsTool action tr out) (fs : FileSystem) :
    ¬ RunsNothing (⟨.filesystem, fs⟩ :: tr) := by
  intro hnothing
  cases ht with
  | returned result arguments =>
    have hrun := hnothing _ (List.mem_cons_of_mem _ (List.mem_singleton_self _))
    contradiction
  | raised e =>
    have hrun := hnothing _ (List.mem_cons_of_mem _ (List.mem_singleton_self _))
    contradiction

theorem Agree.refuses_iff {out : Except Exn (GovernanceVerdict × Option ToolResult × Action)}
    {out' : Except Exn (ToolResult × Action)} (h : Agree fs action out tr out') :
    ((∃ result a, out' = .ok (result, a)) ∧ RunsNothing tr) ↔
      ∃ verdict result a, out = .ok (verdict, result, a) ∧ FenceDenial verdict := by
  cases h with
  | refused hdenial hnothing =>
    exact iff_of_true ⟨⟨_, _, rfl⟩, hnothing⟩ ⟨_, _, _, rfl, hdenial⟩
  | raised e e' _ =>
    exact iff_of_false (fun ⟨⟨_, _, h⟩, _⟩ => by contradiction)
      (fun ⟨_, _, _, h, _⟩ => by contradiction)
  | passed hno ht =>
    exact iff_of_false (fun ⟨_, hnothing⟩ => not_runsNothing ht fs hnothing)
      (fun ⟨_, _, _, h, hdenial⟩ => hno _ _ _ h hdenial)

theorem Agree.same_result {out : Except Exn (GovernanceVerdict × Option ToolResult × Action)}
    {out' : Except Exn (ToolResult × Action)} (h : Agree fs action out tr out')
    {verdict : GovernanceVerdict} {result : Option ToolResult} {a : Action}
    (hout : out = .ok (verdict, result, a)) (hdenial : FenceDenial verdict) :
    ∃ result', result = some result' ∧ out' = .ok (result', action) := by
  cases h with
  | refused _ _ =>
    obtain ⟨rfl, rfl, rfl⟩ : _ ∧ _ ∧ _ := by simpa using hout
    exact ⟨_, rfl, rfl⟩
  | raised e e' _ => contradiction
  | passed hno _ => exact absurd hdenial (hno _ _ _ hout)

/-- An action that is up for approval is run once it is approved. -/
theorem Agree.runs {out : Except Exn (GovernanceVerdict × Option ToolResult × Action)}
    {out' : Except Exn (ToolResult × Action)} (h : Agree fs action out tr out')
    {verdict : GovernanceVerdict} {result : Option ToolResult} {a : Action}
    (hout : out = .ok (verdict, result, a)) (hreq : verdict.decision = .requireApproval) :
    ∃ answer, tr = [⟨.filesystem, fs⟩, ⟨.run action.tool action.arguments, answer⟩] := by
  cases h with
  | refused hdenial _ =>
    obtain ⟨rfl, _⟩ := Prod.mk.inj (Except.ok.inj hout)
    rw [hdenial.1] at hreq
    contradiction
  | raised e e' _ => contradiction
  | passed _ ht =>
    cases ht with
    | returned result arguments => exact ⟨_, rfl⟩
    | raised e => exact ⟨_, rfl⟩

end

/-- On one filesystem `execute_approved` of the judged action refuses exactly what the
fence refuses in `dispatch`, with the same result, and runs what was up for approval;
with any other fingerprint it runs nothing. -/
theorem approval_keeps_fence (H : Digest) (config : AegisConfig) (registry : List Str)
    (action : Action) (ctx : TaskContext) (fs : FileSystem) :
    (∀ tr out tr' out',
      Runs ((buildDispatcher config registry).dispatch action ctx).run tr out → Sees fs tr →
      Runs ((buildDispatcher config registry).executeApproved H action ctx
        (some (fingerprint H action))).run tr' out' → Sees fs tr' →
      (((∃ result a, out' = .ok (result, a)) ∧ RunsNothing tr') ↔
        ∃ verdict result a, out = .ok (verdict, result, a) ∧ FenceDenial verdict) ∧
      ∀ verdict result a, out = .ok (verdict, result, a) →
        (FenceDenial verdict →
          ∃ result', result = some result' ∧ out' = .ok (result', action)) ∧
        (verdict.decision = .requireApproval →
          ∃ answer, tr' = [⟨.filesystem, fs⟩, ⟨.run action.tool action.arguments, answer⟩])) ∧
    ∀ fp tr out, fp ≠ fingerprint H action →
      Runs ((buildDispatcher config registry).executeApproved H action ctx (some fp)).run tr out →
      tr = [] ∧ ∃ result, out = .ok (result, action) ∧ result.status = .denied ∧
        result.flagged "superseded" = true := by
  constructor
  · intro tr out tr' out' hdispatch hsees hexec hsees'
    rw [executeApproved_self] at hexec
    have hagree := agree_of_runs hdispatch hsees hexec hsees'
    exact ⟨hagree.refuses_iff, fun verdict result a hout =>
      ⟨hagree.same_result hout, hagree.runs hout⟩⟩
  · intro fp tr out hfp hrun
    obtain ⟨_, rfl, e, rfl⟩ | ⟨hsame, _⟩ := Dispatcher.executeApproved_cases hrun
    · exact ⟨rfl, _, rfl, rfl, rfl⟩
    · exact absurd hsame.symm hfp

/-! ## A write that needs an approval -/

/-- What a write of the file leaves behind in the trace. -/
def approvedWriteTrace : List Dispatcher.Ev :=
  [⟨.filesystem, gateWorkspace⟩,
    ⟨.run "write_file" writeAction.arguments, .ok (writeResult, writeAction.arguments)⟩]

theorem sees_gateWorkspace : Sees gateWorkspace [⟨.filesystem, gateWorkspace⟩] ∧
    Sees gateWorkspace approvedWriteTrace := by
  constructor
  · intro fs' h
    cases List.mem_singleton.mp h
    rfl
  · intro fs' h
    obtain h | h := List.mem_cons.mp h
    · cases h
      rfl
    · cases List.mem_singleton.mp h

theorem approval_keeps_fence_write : ∃ out out',
    Runs ((buildDispatcher {} ["write_file"]).dispatch writeAction gateContext).run
      [⟨.filesystem, gateWorkspace⟩] out ∧
    Runs ((buildDispatcher {} ["write_file"]).executeApproved writingHarness.sha256 writeAction
      gateContext (some (fingerprint writingHarness.sha256 writeAction))).run
        approvedWriteTrace out' ∧
    (((∃ result a, out' = .ok (result, a)) ∧ RunsNothing approvedWriteTrace) ↔
      ∃ verdict result a, out = .ok (verdict, result, a) ∧ FenceDenial verdict) := by
  have hdispatch : ∃ out, Runs ((buildDispatcher {} ["write_file"]).dispatch writeAction
      gateContext).run [⟨.filesystem, gateWorkspace⟩] out := ⟨_, .call (.ret _)⟩
  have hexec : ∃ out', Runs ((buildDispatcher {} ["write_file"]).executeApproved writingHarness.sha256
      writeAction gateContext (some (fingerprint writingHarness.sha256 writeAction))).run
        approvedWriteTrace out' := by
    rw [executeApproved_self]
    exact ⟨_, .call (.call (.ret _))⟩
  obtain ⟨out, hdispatch⟩ := hdispatch
  obtain ⟨out', hexec⟩ := hexec
  exact ⟨out, out', hdispatch, hexec, ((approval_keeps_fence writingHarness.sha256 {} ["write_file"]
    writeAction gateContext gateWorkspace).1 _ _ _ _ hdispatch sees_gateWorkspace.1 hexec
      sees_gateWorkspace.2).1⟩

end AegisCode
