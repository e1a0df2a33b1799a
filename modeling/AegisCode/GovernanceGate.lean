import AegisCode.Approvals
import AegisCode.Dispatcher

/-!
# The governance gate

The loop together with the dispatcher it calls. A step of the system is a call
of the loop, with the trace of the dispatcher behind it when the call goes
there. Every tool runs inside such a step, and the steps of the same turn say
why it was let through.
-/
namespace AegisCode

open Program Prog Posix HarnessCore

/-- The calls of the loop that the dispatcher answers. -/
def implementation (H : Digest) (d : Dispatcher) (ctx : TaskContext) :
    (c : Call) → Option (Prog DispatchCall DispatchResp (Resp c))
  | .dispatch action => some (d.dispatch action ctx).run
  | .executeApproved action fp => some (d.executeApproved H action ctx (some fp)).run
  | _ => none

/-- A call of the loop, and what the dispatcher did for it. -/
abbrev Step := Frame Call Resp DispatchCall DispatchResp

/-- A call of the `run` method of a tool. -/
def isToolRun (e : Dispatcher.Ev) : Bool :=
  match e.call with
  | .run _ _ => true
  | .filesystem => false

def toolRuns (t : List Step) : ℕ := (t.map fun f => f.inner.countP isToolRun).sum

/-- The canonical texts of the actions whose fingerprints are compared. -/
def fingerprinted (t : List Step) : Set Str :=
  {text | ∃ action, text = canonicalText action ∧ ∃ f ∈ t,
    (∃ judged verdict result, f.event = ⟨.dispatch judged, .ok (verdict, result, action)⟩) ∨
      ∃ fp, f.event.call = .executeApproved action fp}

/-- What authorises that a tool ran for `executed` in step `f` of a turn: the
policy allowed the action, or the resolver granted the approval that the policy
asked for, and what ran has the fingerprint taken after that verdict. -/
inductive Authorised (h : HarnessCore) (d : Dispatcher) (ctx : TaskContext) (t : List Step)
    (f : Step) (executed : Action) : Prop
  | allowed {verdict : GovernanceVerdict} :
      f.event.call = .dispatch executed →
      d.engine.evaluate executed ctx = .ok verdict →
      (verdict.decision = .allow ∨ verdict.decision = .allowWithAudit) →
      Authorised h d ctx t f executed
  | approved {judged : Action} {verdict verdict' : GovernanceVerdict} :
      (∃ g ∈ t, g.event = ⟨.dispatch judged, .ok (verdict, none, judged)⟩) →
      d.engine.evaluate judged ctx = .ok verdict → verdict.decision = .requireApproval →
      (∃ g ∈ t, g.event = ⟨.resolve judged verdict, .ok (true, executed, verdict')⟩) →
      f.event.call = .executeApproved executed (fingerprint h.sha256 judged) →
      fingerprint h.sha256 executed = fingerprint h.sha256 judged →
      SameCall executed judged → Authorised h d ctx t f executed

/-- The steps of one turn: at most one tool runs, and what runs was authorised in
this turn, behind the fence that the dispatcher checked in the same step. -/
structure GovernedTurn (h : HarnessCore) (d : Dispatcher) (ctx : TaskContext) (task : Str)
    (t : List Step) : Prop where
  turn : ∃ start s outcome, Runs (h.turn task start s) (t.map Frame.event) outcome
  once : toolRuns t ≤ 1
  authorised : ∀ f ∈ t, ∀ e ∈ f.inner, ∀ tool arguments, e.call = .run tool arguments →
    ∃ executed fs, executed.tool = tool ∧ executed.arguments = arguments ∧
      Authorised h d ctx t f executed ∧ (⟨.filesystem, fs⟩ : Dispatcher.Ev) ∈ f.inner ∧
      Fenced d fs executed ctx

/-! ## One step -/

section Steps
variable {h : HarnessCore} {d : Dispatcher} {ctx : TaskContext} {f : Step}

theorem mayExecute_dispatch {action action' : Action} {verdict : GovernanceVerdict}
    {result : Option ToolResult} (hdeny : verdict.decision ≠ .deny)
    (hreq : verdict.decision ≠ .requireApproval) :
    mayExecute ⟨.dispatch action, .ok (verdict, result, action')⟩ = true :=
  decide_eq_true (Decision.allow_or_audit hdeny hreq)

/-- A tool runs at most once in a step, and only in a call that may execute. -/
theorem countP_isToolRun_le {H : Digest} (hl : Linked (implementation H d ctx) f) :
    f.inner.countP isToolRun ≤ if mayExecute f.event then 1 else 0 := by
  obtain ⟨⟨call, answer⟩, inner⟩ := f
  cases call with
  | dispatch action =>
    cases Dispatcher.dispatch_cases hl with
    | executed _ _ hdeny hreq ht =>
      cases ht with
      | returned result arguments =>
        exact (if_pos (mayExecute_dispatch hdeny hreq)).ge
      | raised e => exact le_rfl
    | unknown _ => exact Nat.zero_le _
    | fenceRaised _ => exact Nat.zero_le _
    | fenced _ => exact Nat.zero_le _
    | engineRaised _ _ => exact Nat.zero_le _
    | denied _ _ _ => exact Nat.zero_le _
    | pending _ _ _ => exact Nat.zero_le _
  | executeApproved action fp =>
    obtain ⟨_, hnil, _⟩ | ⟨_, hexec⟩ := Dispatcher.executeApproved_cases hl
    · obtain rfl : inner = [] := hnil
      exact Nat.zero_le _
    · cases hexec with
      | executed _ ht => cases ht <;> exact le_rfl
      | unknown _ => exact Nat.zero_le _
      | fenceRaised _ => exact Nat.zero_le _
      | fenced _ => exact Nat.zero_le _
  | _ =>
    obtain rfl : inner = [] := hl
    exact Nat.zero_le _

theorem toolRuns_le {H : Digest} {t : List Step}
    (hl : ∀ f ∈ t, Linked (implementation H d ctx) f) :
    toolRuns t ≤ executions (t.map Frame.event) := by
  induction t with
  | nil => exact le_rfl
  | cons f t ih =>
    have hhead := countP_isToolRun_le (hl f (List.mem_cons_self ..))
    have htail := ih fun g hg => hl g (List.mem_cons_of_mem _ hg)
    unfold toolRuns executions at htail ⊢
    rw [List.map_cons, List.sum_cons, List.map_cons, List.countP_cons]
    omega

end Steps

/-! ## Turns and runs -/

section Runs
variable {h : HarnessCore} {d : Dispatcher} {ctx : TaskContext} {task : Str}

/-- Whatever runs in a turn was authorised before in this turn, behind the fence. -/
theorem authorised_of_run {start : ℤ} {s : LoopState} {before after : List Step} {f : Step}
    {outcome : Outcome}
    (hrun : Runs (h.turn task start s) ((before ++ f :: after).map Frame.event) outcome)
    (hlinked : ∀ g ∈ before ++ f :: after, Linked (implementation h.sha256 d ctx) g)
    (hcoll : h.sha256.CollisionFree (fingerprinted (before ++ f :: after)))
    {e : Dispatcher.Ev} (he : e ∈ f.inner) {tool : Str} {arguments : Dict}
    (hcall : e.call = .run tool arguments) :
    ∃ executed fs, executed.tool = tool ∧ executed.arguments = arguments ∧
      Authorised h d ctx before f executed ∧ (⟨.filesystem, fs⟩ : Dispatcher.Ev) ∈ f.inner ∧
      Fenced d fs executed ctx := by
  have hf : f ∈ before ++ f :: after := List.mem_append_right _ (List.mem_cons_self ..)
  have hl := hlinked f hf
  obtain ⟨⟨call, answer⟩, inner⟩ := f
  cases call with
  | dispatch action =>
    obtain ⟨rfl, rfl, fs, verdict, hfs, hacc, heval, hdec⟩ :=
      (Dispatcher.dispatch_cases hl).of_run he hcall
    exact ⟨action, fs, rfl, rfl, .allowed rfl heval hdec, hfs, fenced_of_accepts hacc⟩
  | executeApproved action fp =>
    obtain ⟨_, hnil, _⟩ | ⟨hfp, hexec⟩ := Dispatcher.executeApproved_cases hl
    · obtain rfl : inner = [] := hnil
      exact absurd he List.not_mem_nil
    · obtain ⟨rfl, rfl, fs, hfs, hacc⟩ := hexec.of_run he hcall
      obtain ⟨proposed, judged, verdict, result, verdict', hdisp, hreq, hres, hbound⟩ :=
        turn_boundApprovals hrun _ _ _ action fp List.map_append rfl
      obtain ⟨⟨ev, inner'⟩, hg, rfl⟩ := List.mem_map.mp hdisp
      obtain ⟨rfl, rfl, heval⟩ :=
        (Dispatcher.dispatch_cases (hlinked _ (List.mem_append_left _ hg))).of_requireApproval hreq
      have heq : fingerprint h.sha256 action = fingerprint h.sha256 judged := hfp.trans hbound
      have hsame : SameCall action judged := by
        refine (fingerprint_eq_iff (hcoll.mono ?_)).mp heq
        rintro text (rfl | rfl)
        · exact ⟨action, rfl, _, hf, .inr ⟨fp, rfl⟩⟩
        · exact ⟨judged, rfl, _, List.mem_append_left _ hg, .inl ⟨_, _, _, rfl⟩⟩
      exact ⟨action, fs, rfl, rfl, .approved ⟨_, hg, rfl⟩ heval hreq (List.mem_map.mp hres)
        (congrArg _ hbound) heq hsame, hfs, fenced_of_accepts hacc⟩
  | _ =>
    obtain rfl : inner = [] := hl
    exact absurd he List.not_mem_nil

theorem Authorised.mono {t t' : List Step} {f : Step} {executed : Action}
    (hauth : Authorised h d ctx t f executed) (hsub : t ⊆ t') :
    Authorised h d ctx t' f executed := by
  cases hauth with
  | allowed hcall heval hdecision => exact .allowed hcall heval hdecision
  | approved hdispatch heval hreq hresolve hcall hfp hsame =>
    obtain ⟨g, hg, hgev⟩ := hdispatch
    obtain ⟨g', hg', hgev'⟩ := hresolve
    exact .approved ⟨g, hsub hg, hgev⟩ heval hreq ⟨g', hsub hg', hgev'⟩ hcall hfp hsame

theorem toolRuns_turn_le {start : ℤ} {s : LoopState} {t : List Step} {outcome : Outcome}
    (hrun : Runs (h.turn task start s) (t.map Frame.event) outcome)
    (hlinked : ∀ f ∈ t, Linked (implementation h.sha256 d ctx) f) : toolRuns t ≤ 1 :=
  (toolRuns_le hlinked).trans (turn_executions_le hrun)

/-- The steps of a run: the first look at the clock, then turn after turn. -/
theorem run_steps {fuel : ℕ} {out : Option (Except Exn TerminationReason)} {frames : List Step}
    (hrun : Runs (h.run fuel task) (frames.map Frame.event) out) :
    ∃ (opening : List Step) (turns : List (List Step)) (start : ℤ),
      frames = opening ++ turns.flatten ∧ (∀ f ∈ opening, f.event.call = .monotonic) ∧
      ∀ t ∈ turns, ∃ s outcome, Runs (h.turn task start s) (t.map Frame.event) outcome := by
  obtain hnil | ⟨start, ts, hts, hturn⟩ := run_turns hrun
  · obtain rfl := List.map_eq_nil_iff.mp hnil
    exact ⟨[], [], 0, rfl, List.forall_mem_nil _, List.forall_mem_nil _⟩
  · obtain ⟨clock, rest, rfl, hclock, hrest⟩ := List.map_eq_cons_iff.mp hts
    obtain ⟨turns, rfl, rfl⟩ := exists_flatten_of_map_event hrest
    refine ⟨[clock], turns, start, rfl, ?_, fun t ht => hturn _ (List.mem_map_of_mem ht)⟩
    intro f hf
    rw [List.mem_singleton.mp hf, hclock]

/-- In every run of the loop over the dispatcher, whatever the other parties
answer and however the filesystem changes, the run falls into governed turns. -/
theorem run_governs_tools (h : HarnessCore) (d : Dispatcher) (ctx : TaskContext) (fuel : ℕ)
    (task : Str) (out : Option (Except Exn TerminationReason)) (frames : List Step)
    (hrun : Runs (h.run fuel task) (frames.map Frame.event) out)
    (hlinked : ∀ f ∈ frames, Linked (implementation h.sha256 d ctx) f)
    (hcoll : h.sha256.CollisionFree (fingerprinted frames)) :
    ∃ (opening : List Step) (turns : List (List Step)),
      frames = opening ++ turns.flatten ∧ toolRuns opening = 0 ∧
      ∀ t ∈ turns, GovernedTurn h d ctx task t := by
  obtain ⟨opening, turns, start, rfl, hopening, hturn⟩ := run_steps hrun
  have hopen : toolRuns opening = 0 := by
    have hle := toolRuns_le fun f hf => hlinked f (List.mem_append_left _ hf)
    have hnone : executions (opening.map Frame.event) = 0 := by
      refine List.countP_eq_zero.mpr ?_
      intro e he
      obtain ⟨⟨⟨call, answer⟩, inner⟩, hf, rfl⟩ := List.mem_map.mp he
      obtain rfl : call = .monotonic := hopening _ hf
      exact Bool.false_ne_true
    omega
  refine ⟨opening, turns, rfl, hopen, ?_⟩
  intro t ht
  have hsub : ∀ f ∈ t, f ∈ opening ++ turns.flatten := fun f hf =>
    List.mem_append_right _ (List.mem_flatten.mpr ⟨t, ht, hf⟩)
  have hlinked : ∀ f ∈ t, Linked (implementation h.sha256 d ctx) f :=
    fun f hf => hlinked f (hsub f hf)
  have hcoll : h.sha256.CollisionFree (fingerprinted t) := by
    refine hcoll.mono ?_
    rintro text ⟨action, rfl, f, hf, hev⟩
    exact ⟨action, rfl, f, hsub f hf, hev⟩
  obtain ⟨s, outcome, hruns⟩ := hturn t ht
  refine ⟨⟨start, s, outcome, hruns⟩, toolRuns_turn_le hruns hlinked, ?_⟩
  intro f hf e he tool arguments hcall
  obtain ⟨before, after, rfl⟩ := List.append_of_mem hf
  obtain ⟨executed, fs, htool, harguments, hauth, hfs, hfence⟩ :=
    authorised_of_run hruns hlinked hcoll he hcall
  exact ⟨executed, fs, htool, harguments, hauth.mono (List.subset_append_left ..), hfs, hfence⟩

/-- The loop terminates: with `S` steps and `A` attempts for an action it returns
after at most `S * A` turns, whatever its collaborators answer and whatever the
clock shows, and `S` bounds the tools that run. The iteration in which the limits
end the run is no turn. -/
theorem run_bounded (h : HarnessCore) (task : Str) (S A fuel : ℕ) (t : List HarnessCore.Ev)
    (out : Option (Except Exn TerminationReason))
    (hsteps : h.config.limits.maxSteps = S) (hretries : h.config.limits.actionRetryLimit = A)
    (hwindow : 0 ≤ h.config.limits.noProgressRepeatLimit) (hfuel : S * A < fuel)
    (hrun : Runs (h.run fuel task) t out) :
    ∃ start ts reason, out = some (.ok reason) ∧ t = ⟨.monotonic, start⟩ :: ts.flatten ∧
      LoopRuns (h.turn task start) h.initialState ts reason ∧
      turnsBegun ts reason ≤ S * A ∧
      modelCalls t ≤ S * A * h.config.limits.llmMaxRetries.toNat ∧
      executions t ≤ S ∧
      ∀ (d : Dispatcher) (ctx : TaskContext) (frames : List Step), frames.map Frame.event = t →
        (∀ f ∈ frames, Linked (implementation h.sha256 d ctx) f) → toolRuns frames ≤ S := by
  have hS : h.config.limits.maxSteps.toNat = S := by rw [hsteps, Int.toNat_natCast]
  have hA : h.config.limits.actionRetryLimit.toNat = A := by rw [hretries, Int.toNat_natCast]
  obtain ⟨start, ts, reason, rfl, rfl, hloop⟩ :=
    run_cases hwindow (by rwa [hS, hA]) hrun
  have hturns := turnsBegun_le hloop
  have hcalls := sum_modelCalls_le hloop
  have hexec := sum_executions_le hloop
  rw [remaining_initialState, hS, hA] at hturns hcalls
  rw [hS] at hexec
  have hmodel : modelCalls (⟨.monotonic, start⟩ :: ts.flatten) = (ts.map modelCalls).sum := by
    rw [modelCalls, List.countP_cons_of_neg (by simp [isModelCall]), List.countP_flatten]
    rfl
  have hsum : executions (⟨.monotonic, start⟩ :: ts.flatten) = (ts.map executions).sum := by
    rw [executions, List.countP_cons_of_neg (by simp [mayExecute]), List.countP_flatten]
    rfl
  have hle : executions (⟨.monotonic, start⟩ :: ts.flatten) ≤ S := by
    rw [hsum]
    exact hexec.trans (Nat.sub_le _ _)
  refine ⟨start, ts, reason, rfl, rfl, hloop, hturns, hmodel ▸ hcalls, hle, ?_⟩
  intro d ctx frames hframes hlinked
  refine (toolRuns_le hlinked).trans ?_
  rw [hframes]
  exact hle

end Runs

/-! ## An approved write -/

def gateWorkspace : FileSystem where
  entries := [(["ws"], .dir)]
  cwd := []
  proper := by decide
  nodup := by decide
  closed := by decide
  cwd_dir := by decide

def writeAction : Action :=
  { tool := "write_file", arguments := [("path", .str "a"), ("content", .str "x")] }

def writeVerdict : GovernanceVerdict := ⟨.requireApproval, "ASK", "writes need a decision"⟩

def writeResult : ToolResult :=
  { tool := "write_file", status := .success, summary := "wrote a"
    artifacts := [("changed_files", .arr [.str "a"])] }

/-- Every action needs an approval. -/
def askingDispatcher : Dispatcher where
  registry := ["write_file"]
  engine := ⟨[⟨"ASK", fun _ _ => .ok true, .requireApproval, "writes need a decision"⟩],
    fun _ _ => .error ⟨.other, []⟩⟩
  pc := buildPathConfig {}

def gateContext : TaskContext := { workspaceRoot := "/ws" }

/-- One step is allowed, and the model writes a file. -/
def writingHarness : HarnessCore where
  config := { limits := { maxSteps := 1, actionRetryLimit := 1 } }
  sha256 := Digest.single (canonicalText writeAction)
    "8e03b64853ec5322aa588eeb7ed565a9dac86c41f09d428823897c8bb4efdcb8" (by decide)
  taskId := "task"
  parseAction _ := .ok writeAction
  promptBuilder := none
  approvalResolver := true
  cancelCheck := false
  memoryStore := false

def writingRun : List Step :=
  let h := writingHarness
  let fp := fingerprint h.sha256 writeAction
  let next := h.afterExecution (afterParse h.initialState) writeVerdict writeResult writeAction
  [⟨⟨.monotonic, 0⟩, []⟩, ⟨⟨.monotonic, 5⟩, []⟩,
    ⟨⟨.complete (h.messages "fix the bug" h.initialState []), .ok "write"⟩, []⟩,
    ⟨h.logged {} .actionProposed (proposedPayload writeAction), []⟩,
    ⟨⟨.dispatch writeAction, .ok (writeVerdict, none, writeAction)⟩,
      [⟨.filesystem, gateWorkspace⟩]⟩,
    ⟨h.logged {} .governanceDecision (decisionPayload writeAction writeVerdict), []⟩,
    ⟨⟨.resolve writeAction writeVerdict, .ok (true, writeAction, writeVerdict)⟩, []⟩,
    ⟨⟨.executeApproved writeAction fp, .ok (writeResult, writeAction)⟩,
      [⟨.filesystem, gateWorkspace⟩,
        ⟨.run "write_file" writeAction.arguments, .ok (writeResult, writeAction.arguments)⟩]⟩,
    ⟨h.logged {} .approvalDecided (approvalPayload writeAction "APPROVED"), []⟩,
    ⟨h.logged {} .toolExecuted (toolPayload writeAction writeResult), []⟩,
    ⟨h.logged next.c .feedback (feedbackPayload "SUCCESS" []), []⟩,
    ⟨⟨.monotonic, 9⟩, []⟩, ⟨h.stopped next.c .maxSteps, []⟩]

theorem writingRun_linked : ∀ f ∈ writingRun,
    Linked (implementation writingHarness.sha256 askingDispatcher gateContext) f := by
  simp only [writingRun, List.forall_mem_cons]
  exact ⟨rfl, rfl, rfl, rfl, .call (.ret _), rfl, rfl, .call (.call (.ret _)), rfl, rfl, rfl, rfl,
    rfl, fun _ h => absurd h List.not_mem_nil⟩

theorem writingRun_collisionFree :
    writingHarness.sha256.CollisionFree (fingerprinted writingRun) := by
  have hsingle : ∀ text ∈ fingerprinted writingRun, text = canonicalText writeAction := by
    rintro text ⟨action, rfl, f, hf, hev⟩
    simp only [writingRun, List.mem_cons, List.not_mem_nil, or_false] at hf
    obtain rfl | rfl | rfl | rfl | rfl | rfl | rfl | rfl | rfl | rfl | rfl | rfl | rfl := hf <;>
      obtain ⟨_, _, _, h⟩ | ⟨_, h⟩ := hev <;> cases h <;> rfl
  intro text h text' h' _
  rw [hsingle text h, hsingle text' h']

theorem writingRun_runs : Runs (writingHarness.run 3 "fix the bug")
    (writingRun.map Frame.event) (some (.ok .maxSteps)) :=
  .call (.call (.call (.call (.call (.call (.call (.call (.call (.call (.call (.call
    (.call (.ret _)))))))))))))

theorem run_governs_tools_writing :
    ∃ (opening : List Step) (turns : List (List Step)),
      writingRun = opening ++ turns.flatten ∧ toolRuns opening = 0 ∧
      ∀ t ∈ turns, GovernedTurn writingHarness askingDispatcher gateContext "fix the bug" t :=
  run_governs_tools _ _ _ _ _ _ _ writingRun_runs writingRun_linked writingRun_collisionFree

theorem run_bounded_writing : toolRuns writingRun ≤ 1 := by
  obtain ⟨_, _, _, _, _, _, _, _, _, htools⟩ :=
    run_bounded writingHarness "fix the bug" 1 1 3 _ _ rfl rfl (by decide) (by decide)
      writingRun_runs
  exact htools askingDispatcher gateContext writingRun rfl writingRun_linked

end AegisCode
