import AegisCode.Completion
import AegisCode.ExecutionLog

/-!
# What the model is told about an execution

The result of an execution reaches the model through the state that the turn
leaves: the last feedback and the record of the step. What the messages of the
next turn contain is read off that state.
-/
namespace AegisCode

open Program Prog Posix

/-! ## The messages of a context -/

theorem mem_compact {head tail done : List Message} {budget : ℤ}
    {steps : List (StepRecord × Message)} {m : Message} (hm : m ∈ tail) :
    m ∈ compact head tail budget done steps := by
  induction steps generalizing done with
  | nil => simp [compact, hm]
  | cons p steps ih =>
    obtain ⟨record, detailed⟩ := p
    simp only [compact]
    split
    · exact ih
    · simp [hm]

/-- Feedback is never dropped. -/
theorem feedback_mem_buildContext {systemPrompt toolProtocol task feedback : Str}
    {recentSteps : List StepRecord} {memories : List MemoryRow} {budget : ℤ} (hne : feedback ≠ []) :
    ⟨.user, "FEEDBACK:\n".toList ++ feedback⟩ ∈
      buildContext systemPrompt toolProtocol task recentSteps feedback memories budget := by
  refine mem_compact (List.mem_append_left _ ?_)
  rw [if_neg (by simpa using hne)]
  exact List.mem_singleton_self _

namespace HarnessCore
variable {h : HarnessCore} {task : Str} {start : ℤ} {s s' : LoopState} {t : List Ev}

theorem feedback_mem_messages {memories : List MemoryRow} (hne : s.lastFeedback ≠ []) :
    ⟨.user, "FEEDBACK:\n".toList ++ s.lastFeedback⟩ ∈ h.messages task s memories :=
  feedback_mem_buildContext hne

theorem formatFeedback_ne_nil (category : Str) (result : ToolResult) :
    formatFeedback category result ≠ [] := by
  simp [formatFeedback]

/-- The messages that a turn passes to the model are those of its state. -/
theorem turn_messages {outcome : Outcome} {messages : List Message} {r : Except Exn Str}
    (hrun : Runs (h.turn task start s) t outcome) (hmem : ⟨.complete messages, r⟩ ∈ t) :
    ∃ memories, messages = h.messages task s memories := by
  have hopen : ∀ now, (⟨.complete messages, r⟩ : Ev) ∉ h.opening now := by
    intro now
    unfold opening
    split <;> simp
  have hret : ∀ {tᵣ memories}, h.Retrieves tᵣ memories → (⟨.complete messages, r⟩ : Ev) ∉ tᵣ := by
    intro tᵣ memories hr
    cases hr <;> simp
  have hcomp : ∀ {tₘ messages' n out}, Completes messages' n tₘ out →
      (⟨.complete messages, r⟩ : Ev) ∈ tₘ → messages = messages' := by
    intro tₘ messages' n out hc hm
    exact Call.complete.inj (hc.mem_call hm)
  have hact : ∀ {action tₐ out}, h.Acts s action tₐ out →
      (⟨.complete messages, r⟩ : Ev) ∉ tₐ := by
    intro action tₐ out ha hm
    have hnone := ha.spends.1
    exact absurd hnone (List.countP_pos_iff.mpr ⟨_, hm, rfl⟩).ne'
  have hattempt : ∀ {t out}, h.Attempts task s t out → (⟨.complete messages, r⟩ : Ev) ∈ t →
      ∃ memories, messages = h.messages task s memories := by
    intro t out ha hm
    cases ha with
    | memoryRaised e _ => simp at hm
    | @llmError memories tᵣ tₘ hr hc =>
      simp only [List.mem_append, List.mem_singleton, hret hr, false_or] at hm
      obtain hm | hm := hm
      · exact ⟨memories, hcomp hc hm⟩
      · cases hm
    | @unparsed memories tᵣ tₘ raw exc hr hc _ _ =>
      simp only [List.mem_append, hret hr, false_or] at hm
      obtain hm | hm := hm
      · exact ⟨memories, hcomp hc hm⟩
      · simp at hm
    | @parserRaised memories tᵣ tₘ raw exc hr hc _ _ =>
      simp only [List.mem_append, hret hr, false_or] at hm
      exact ⟨memories, hcomp hc hm⟩
    | @acted memories tᵣ tₘ tₐ raw action out hr hc _ ha =>
      simp only [List.mem_append, hret hr, hact ha, false_or, or_false] at hm
      exact ⟨memories, hcomp hc hm⟩
  cases turn_cases hrun with
  | limit now _ => simp at hmem
  | cancelled now _ _ => simp at hmem
  | attempted now _ ha =>
    exact hattempt ha (by simpa [hopen] using hmem)
  | failed now e _ ha =>
    exact hattempt ha (by simpa [hopen] using hmem)

/-! ## The state behind an execution -/

/-- The call answered with this result, and left the action like this. -/
inductive Yields : Ev → ToolResult → Action → Prop
  | dispatched {proposed action : Action} {verdict : GovernanceVerdict} {result : ToolResult} :
      verdict.decision ≠ .deny → verdict.decision ≠ .requireApproval →
      Yields ⟨.dispatch proposed, .ok (verdict, some result, action)⟩ result action
  | approved {approved action : Action} {fp : Str} {result : ToolResult} :
      Yields ⟨.executeApproved approved fp, .ok (result, action)⟩ result action

/-- No resolver of the turn left a DENY behind its True, and what an approved
execution returned does not call itself superseded. -/
def Kept (t : List Ev) (result : ToolResult) : Prop :=
  ∀ judged verdict action left, ⟨.resolve judged verdict, .ok (true, action, left)⟩ ∈ t →
    left.decision ≠ .deny ∧ result.flagged "superseded" = false

/-- The states in which the loop goes on behind a result. -/
inductive Leaves (h : HarnessCore) (s : LoopState) (t : List Ev) (result : ToolResult)
    (action : Action) : LoopState → Prop
  | executed (verdict : GovernanceVerdict) : Kept t result → action.tool ≠ "finish" →
      Leaves h s t result action (h.afterExecution (afterParse s) verdict result action)
  | finishRejected : Kept t result → action.tool = "finish" →
      Leaves h s t result action { afterParse s with
        c := failStep (afterParse s).c
        lastFeedback := "FINISH_REJECTED: final verification failed" }
  | refused (verdict : GovernanceVerdict) : ¬ Kept t result →
      Leaves h s t result action (h.afterRefusal (afterParse s) action verdict "POLICY_DENIED"
        result.summary (formatFeedback "POLICY_DENIED" result))

/-- The call goes to the dispatcher or to the resolver. -/
def judges (e : Ev) : Bool :=
  match e.call with
  | .dispatch _ | .resolve _ _ | .executeApproved _ _ => true
  | _ => false

theorem Yields.judges {e : Ev} {result : ToolResult} {action : Action}
    (hy : Yields e result action) : judges e = true := by
  cases hy <;> rfl

def Unjudged (t : List Ev) : Prop := ∀ e ∈ t, judges e = false

theorem unjudged_opening (now : ℤ) : Unjudged (h.opening now) := by
  unfold opening
  split <;> simp [Unjudged, judges]

theorem Retrieves.unjudged {memories : List MemoryRow} (hr : h.Retrieves t memories) :
    Unjudged t := by
  cases hr <;> simp [Unjudged, judges]

theorem Completes.unjudged {messages : List Message} {n : ℕ} {out : Option Str}
    (hc : Completes messages n t out) : Unjudged t := by
  intro e he
  rw [HarnessCore.judges, hc.mem_call he]

theorem Concludes.unjudged {gated : Gated} {out : Except Exn Outcome}
    (hc : h.Concludes s gated t out) : Unjudged t := by
  cases hc <;> simp [Unjudged, judges]

theorem Kept.append_iff {u : List Ev} {result : ToolResult} (hu : Unjudged u) :
    Kept (u ++ t) result ↔ Kept t result := by
  constructor
  · intro hk judged verdict action left hmem
    exact hk judged verdict action left (List.mem_append_right _ hmem)
  · intro hk judged verdict action left hmem
    obtain hmem | hmem := List.mem_append.mp hmem
    · exact absurd (hu _ hmem) (by simp [judges])
    · exact hk judged verdict action left hmem

theorem Leaves.append {u : List Ev} {result : ToolResult} {action : Action} (hu : Unjudged u)
    (hl : Leaves h s t result action s') : Leaves h s (u ++ t) result action s' := by
  cases hl with
  | executed verdict hk hfin => exact .executed verdict ((Kept.append_iff hu).mpr hk) hfin
  | finishRejected hk hfin => exact .finishRejected ((Kept.append_iff hu).mpr hk) hfin
  | refused verdict hk => exact .refused verdict fun hk' => hk ((Kept.append_iff hu).mp hk')

/-- Behind the verdict of the turn, kept or not, the result is recorded. -/
theorem Concludes.leaves {verdict : GovernanceVerdict} {result : ToolResult} {action : Action}
    {u : List Ev} (hc : h.Concludes (afterParse s) (verdict, some result, action) t (.ok (.inl s')))
    (hk : Kept u result ↔ verdict.decision ≠ .deny) : Leaves h s u result action s' := by
  cases hc with
  | denied hdeny => exact .refused verdict fun hk' => hk.mp hk' hdeny
  | finishRejected hdeny hfin => exact .finishRejected (hk.mpr hdeny) hfin
  | executed hdeny hfin => exact .executed verdict (hk.mpr hdeny) hfin

theorem Acts.leaves {proposed action : Action} {e : Ev} {result : ToolResult}
    (ha : h.Acts s proposed t (.ok (.inl s'))) (he : e ∈ t) (hy : Yields e result action) :
    Leaves h s t result action s' := by
  cases ha with
  | @judged verdict r action' t out hreq hc =>
    simp only [List.mem_cons] at he
    obtain rfl | rfl | rfl | he := he
    · cases hy
    · cases hy with
      | dispatched hdeny _ =>
        refine hc.leaves (iff_of_true ?_ hdeny)
        intro judged verdict' action'' left hmem
        simp only [List.mem_cons] at hmem
        obtain hmem | hmem | hmem | hmem := hmem
        · cases hmem
        · cases hmem
        · cases hmem
        · exact absurd (hc.unjudged _ hmem) (by simp [HarnessCore.judges])
    · cases hy
    · exact absurd hy.judges (by simp [hc.unjudged e he])
  | @unapproved verdict r action' t next hreq happ =>
    cases happ with
    | noResolver _ =>
      simp only [List.mem_cons, List.not_mem_nil, or_false] at he
      obtain rfl | rfl | rfl | rfl := he
      · cases hy
      · cases hy with
        | dispatched _ hno => exact absurd hreq hno
      · cases hy
      · cases hy
    | rejected action'' verdict' =>
      simp only [List.mem_cons, List.not_mem_nil, or_false] at he
      obtain rfl | rfl | rfl | rfl | rfl := he
      · cases hy
      · cases hy with
        | dispatched _ hno => exact absurd hreq hno
      · cases hy
      · cases hy
      · cases hy
    | superseded action'' verdict' result' executed hsup =>
      simp only [List.mem_cons, List.not_mem_nil, or_false] at he
      obtain rfl | rfl | rfl | rfl | rfl | rfl | rfl := he
      · cases hy
      · cases hy with
        | dispatched _ hno => exact absurd hreq hno
      · cases hy
      · cases hy
      · cases hy
        refine .refused verdict' fun hk => ?_
        have hflag := (hk action' verdict action'' verdict' (by simp)).2
        rw [hsup] at hflag
        cases hflag
      · cases hy
      · cases hy
  | @approved verdict r action' gated t₁ t₂ out hreq happ hc =>
    cases happ with
    | approved action'' verdict' result' executed hsup =>
      simp only [List.mem_cons, List.mem_append, List.not_mem_nil, or_false] at he
      obtain rfl | rfl | rfl | (rfl | rfl | rfl) | he := he
      · cases hy
      · cases hy with
        | dispatched _ hno => exact absurd hreq hno
      · cases hy
      · cases hy
      · cases hy
        refine hc.leaves ⟨fun hk => (hk action' verdict action'' verdict' (by simp)).1, ?_⟩
        intro hleft judged verdict'' action''' left hmem
        simp only [List.mem_cons, List.mem_append, List.not_mem_nil, or_false] at hmem
        obtain hmem | hmem | hmem | (hmem | hmem | hmem) | hmem := hmem
        · cases hmem
        · cases hmem
        · cases hmem
        · cases hmem
          exact ⟨hleft, hsup⟩
        · cases hmem
        · cases hmem
        · exact absurd (hc.unjudged _ hmem) (by simp [HarnessCore.judges])
      · cases hy
      · exact absurd hy.judges (by simp [hc.unjudged e he])

/-- What a turn leaves in which a result came back. -/
theorem turn_leaves {e : Ev} {result : ToolResult} {action : Action}
    (hrun : Runs (h.turn task start s) t (.inl s')) (he : e ∈ t) (hy : Yields e result action) :
    Leaves h s t result action s' := by
  have hnot : ∀ {u : List Ev}, Unjudged u → e ∉ u := by
    intro u hu hmem
    exact absurd hy.judges (by simp [hu e hmem])
  cases turn_cases hrun with
  | attempted now _ ha =>
    rw [List.mem_append, or_iff_right (hnot (unjudged_opening now))] at he
    refine Leaves.append (unjudged_opening now) ?_
    cases ha with
    | unparsed hr hc _ _ =>
      rw [List.mem_append, List.mem_append, or_iff_right (hnot hr.unjudged),
        or_iff_right (hnot hc.unjudged)] at he
      exact absurd he (hnot (by simp [Unjudged, judges]))
    | acted hr hc _ hact =>
      rw [List.mem_append, List.mem_append, or_iff_right (hnot hr.unjudged),
        or_iff_right (hnot hc.unjudged)] at he
      exact ((hact.leaves he hy).append hc.unjudged).append hr.unjudged

/-- The fingerprint looks at the tool and the arguments only. -/
theorem fingerprint_congr {H : Digest} {a b : Action} (htool : a.tool = b.tool)
    (harg : a.arguments = b.arguments) : fingerprint H a = fingerprint H b := by
  unfold fingerprint canonicalText
  rw [htool, harg]

/-! ## Failures -/

/-- The next turn hears of the failure `F`: the turn recorded the result, the action
is not `finish` and not among the last executed ones; or the turn reported every
failure as POLICY_DENIED, and `F` is just that. -/
def Heard (h : HarnessCore) (s : LoopState) (t : List Ev) (result : ToolResult) (action : Action)
    (F : Category) : Prop :=
  (Kept t result ∧ action.tool ≠ "finish" ∧ fingerprint h.sha256 action ∉ s.tracker.recent) ∨
    (¬ Kept t result ∧ F = .policyDenied)

/-- What the model is told about a result: its detail, or else its summary. -/
def report (result : ToolResult) : Str :=
  if result.detailForLlm.isEmpty then result.summary else result.detailForLlm

theorem Leaves.feedback {result : ToolResult} {action executed : Action} {F : Category}
    (hl : Leaves h s t result executed s') (hF : classify result = some F)
    (htool : executed.tool = action.tool) (harg : executed.arguments = action.arguments)
    (hheard : Heard h s t result action F) : s'.lastFeedback = formatFeedback F.value result := by
  cases hl with
  | executed verdict hk hfin =>
    obtain ⟨_, _, hfresh⟩ | ⟨hno, _⟩ := hheard
    · rw [← fingerprint_congr htool harg] at hfresh
      simp [afterExecution, recordResult, ProgressTracker.seen, hfresh, hF]
    · exact absurd hk hno
  | finishRejected hk hfin =>
    obtain ⟨_, hno, _⟩ | ⟨hno, _⟩ := hheard
    · exact absurd (htool.symm.trans hfin) hno
    · exact absurd hk hno
  | refused verdict hno =>
    obtain ⟨hk, _⟩ | ⟨_, rfl⟩ := hheard
    · exact absurd hk hno
    · rfl

end HarnessCore

open HarnessCore

section Runs
variable {H : Digest} {d : Dispatcher} {ctx : TaskContext} {h : HarnessCore} {task : Str}

/-- The parts of a context that stand in it before any step is summarised. -/
def promptMessages (h : HarnessCore) (task : Str) (s : LoopState) : List Message :=
  let prompts := match h.promptBuilder with
    | some b => (b.systemPrompt (max 0 (h.config.limits.maxSteps - s.c.step)), b.toolProtocol)
    | none => ([], [])
  [⟨.system, prompts.1 ++ "\n".toList ++ prompts.2⟩, ⟨.user, "TASK: ".toList ++ task⟩]

def stepMessages (s : LoopState) : List Message :=
  s.recentSteps.zipIdx.map fun p => detailedStep p.2 p.1

def memoryMessages (memories : List MemoryRow) : List Message :=
  let memTxt := Str.join "\n" (memories.map fun m =>
    "- ".toList ++ m.key ++ ": ".toList ++ m.value)
  if memTxt.isEmpty then [] else [⟨.system, "MEMORY:\n".toList ++ memTxt⟩]

/-- The text stands in the prompts, in the record of a step or in the memories. -/
def InContext (h : HarnessCore) (task : Str) (s : LoopState) (memories : List MemoryRow)
    (text : Str) : Prop :=
  ∃ m ∈ promptMessages h task s ++ stepMessages s ++ memoryMessages memories, text <:+: m.content

/-- What the model is told about a repeated action. -/
def noProgressText : Str :=
  "FEEDBACK:\n".toList ++ "NO_PROGRESS: repeated action detected".toList

/-- The detail of a result reaches the next turn: its turn reported a refusal or a
failure with it, or it occurs in what the model is told without it. -/
def Shown (h : HarnessCore) (task : Str) (s : LoopState) (t : List HarnessCore.Ev) (s' : LoopState)
    (memories : List MemoryRow) (result : ToolResult) (action : Action) : Prop :=
  ¬ Kept t result ∨
    (fingerprint h.sha256 action ∉ s.tracker.recent ∧ classify result ≠ none) ∨
    (fingerprint h.sha256 action ∈ s.tracker.recent ∧
      result.detailForLlm <:+: noProgressText) ∨
    InContext h task s' memories result.detailForLlm

end Runs

/-! ## What the model is not told -/

def testAction : Action := { tool := "run_tests", arguments := [] }

def readAction : Action := { tool := "read_file", arguments := [("path", .str "a")] }

/-- The digest, known on the texts of these two actions. -/
def actionDigest : Digest where
  hexdigest s :=
    if s = canonicalText testAction then
      "eca42e93a09f31897f13c599314e8a2b38150cb7283218c012914190178a6455"
    else if s = canonicalText readAction then
      "0289ea41f29860465cdf45b826acc9bf35a80f152eb7038097e3b8d843bf34e0"
    else List.replicate 64 'f'
  length_hexdigest s := by
    split_ifs
    · decide
    · decide
    · rfl

/-- The model proposes the same action in every turn, and a model error ends the run. -/
def repeatingHarness (action : Action) : HarnessCore where
  config := { limits := { maxSteps := 5, llmMaxRetries := 1 } }
  sha256 := actionDigest
  taskId := "task"
  parseAction _ := .ok action
  promptBuilder := none
  approvalResolver := false
  cancelCheck := false
  memoryStore := false

def allowVerdict : GovernanceVerdict := ⟨.allow, "OK", "allowed"⟩

/-- Every action is allowed. -/
def allowingDispatcher (action : Action) : Dispatcher where
  registry := [action.tool]
  engine := ⟨[⟨"OK", fun _ _ => .ok true, .allow, "allowed"⟩], fun _ _ => .error ⟨.other, []⟩⟩
  pc := buildPathConfig {}

/-- The workspace holds one file. -/
def oneFileWorkspace : FileSystem where
  entries := [(["ws"], .dir), (["ws", "a"], .file [64])]
  cwd := []
  proper := by decide
  nodup := by decide
  closed := by decide
  cwd_dir := by decide

/-- A turn that executes the action, with this result. -/
def executingTurn (s : LoopState) (action : Action) (result : ToolResult) : List Step :=
  let h := repeatingHarness action
  let next := h.afterExecution (afterParse s) allowVerdict result action
  [⟨⟨.monotonic, 0⟩, []⟩, ⟨⟨.complete (h.messages "fix the bug" s []), .ok "again"⟩, []⟩,
    ⟨h.logged s.c .actionProposed (proposedPayload action), []⟩,
    ⟨⟨.dispatch action, .ok (allowVerdict, some result, action)⟩,
      [⟨.filesystem, oneFileWorkspace⟩,
        ⟨.run action.tool action.arguments, .ok (result, action.arguments)⟩]⟩,
    ⟨h.logged s.c .governanceDecision (decisionPayload action allowVerdict), []⟩,
    ⟨h.logged s.c .toolExecuted (toolPayload action result), []⟩,
    ⟨h.logged next.c .feedback (feedbackPayload
      (((classify result).map Category.value).getD "SUCCESS") next.lastFeedback), []⟩]

/-- The turn in which the model does not answer. -/
def failingTurn (s : LoopState) (action : Action) : List Step :=
  let h := repeatingHarness action
  [⟨⟨.monotonic, 0⟩, []⟩, ⟨⟨.complete (h.messages "fix the bug" s []), .error ⟨.other, []⟩⟩, []⟩,
    ⟨h.stopped s.c .llmError, []⟩]

def failingResult : ToolResult :=
  { tool := "run_tests", status := .failure, summary := "1 failed", detailForLlm := "@" }

def afterOneTest : LoopState :=
  (repeatingHarness testAction).afterExecution
    (afterParse (repeatingHarness testAction).initialState) allowVerdict failingResult testAction

def afterTwoTests : LoopState :=
  (repeatingHarness testAction).afterExecution (afterParse afterOneTest) allowVerdict failingResult
    testAction

/-- The tests fail twice in a row. -/
def testingRun : List Step :=
  [⟨⟨.monotonic, 0⟩, []⟩] ++
    [executingTurn (repeatingHarness testAction).initialState testAction failingResult,
      executingTurn afterOneTest testAction failingResult, failingTurn afterTwoTests testAction].flatten

theorem testingRun_runs : Runs ((repeatingHarness testAction).run 4 "fix the bug")
    (testingRun.map Frame.event) (some (.ok .llmError)) :=
  .call (.call (.call (.call (.call (.call (.call (.call (.call (.call (.call (.call (.call
    (.call (.call (.call (.call (.call (.ret _))))))))))))))))))

def readResult : ToolResult :=
  { tool := "read_file", status := .success, summary := "read 1 lines", detailForLlm := "@" }

end AegisCode
