import AegisCode.Feedback
import AegisCode.Redaction

/-!
# Credentials in the feedback

The loop passes the summary and the detail of a result on as it got them. So what
the model reads of a tool is free of credentials as long as the results are.
-/
namespace AegisCode

open Program Prog

namespace HarnessCore

open Redactor (Clean keyPatterns)
open Substitution (search)

/-! ## What a turn passes on -/

/-- The call answered with this result. -/
inductive Answers : Ev → ToolResult → Prop
  | dispatched {proposed action : Action} {verdict : GovernanceVerdict} {result : ToolResult} :
      Answers ⟨.dispatch proposed, .ok (verdict, some result, action)⟩ result
  | approved {approved action : Action} {fp : Str} {result : ToolResult} :
      Answers ⟨.executeApproved approved fp, .ok (result, action)⟩ result

/-- The summary of a result is recorded with its step: the turn reported a refusal, or
the action is not `finish`. -/
def Records (t : List Ev) (result : ToolResult) (action : Action) : Prop :=
  ¬ Kept t result ∨ action.tool ≠ "finish"

/-- The detail of a result is fed back: the turn reported a refusal, or a failure of an
action that is not `finish` and not among the last executed ones. -/
def FeedsBack (h : HarnessCore) (s : LoopState) (t : List Ev) (result : ToolResult)
    (action : Action) : Prop :=
  ¬ Kept t result ∨ (action.tool ≠ "finish" ∧ classify result ≠ none ∧
    fingerprint h.sha256 action ∉ s.tracker.recent)

/-- What the turn passes on of a result has no credential. -/
structure Presents (h : HarnessCore) (s : LoopState) (t : List Ev) : Prop where
  denied : ∀ proposed verdict result action,
    ⟨.dispatch proposed, .ok (verdict, some result, action)⟩ ∈ t → verdict.decision = .deny →
      Clean result.summary ∧ Clean result.detailForLlm
  recorded : ∀ e ∈ t, ∀ result action, Yields e result action → Records t result action →
    Clean result.summary
  fedBack : ∀ e ∈ t, ∀ result action, Yields e result action → FeedsBack h s t result action →
    Clean result.summary ∧ Clean result.detailForLlm

/-- The message has the text `w` from a result that came back in `t`: it stands in the
feedback behind a category, or in the detail of a recent step. -/
inductive Taken (t : List Ev) (s : LoopState) : Message → Str → Prop
  | feedback {e : Ev} {result : ToolResult} {F : Category} {w : Str} : e ∈ t → Answers e result →
      s.lastFeedback = formatFeedback F.value result → w <:+: report result →
      Taken t s ⟨.user, "FEEDBACK:\n".toList ++ s.lastFeedback⟩ w
  | step {e : Ev} {result : ToolResult} {i : ℕ} {record : StepRecord} {w : Str} : e ∈ t →
      Answers e result → record ∈ s.recentSteps → record.detail = result.summary →
      w <:+: record.detail → Taken t s (detailedStep i record) w

/-! ## The states of a run -/

/-- The state holds no credential of a result. -/
structure Presented (s : LoopState) : Prop where
  feedback : ∀ (F : Category) (result : ToolResult),
    s.lastFeedback = formatFeedback F.value result → Clean (report result)
  steps : ∀ record ∈ s.recentSteps, Clean record.detail

section Steps
variable {h : HarnessCore} {task : Str} {start : ℤ} {s s' : LoopState} {t : List Ev}

theorem clean_nil : Clean [] := by decide

theorem clean_report {result : ToolResult} (hsum : Clean result.summary)
    (hdetail : Clean result.detailForLlm) : Clean (report result) := by
  unfold report
  split
  · exact hsum
  · exact hdetail

/-- The first colon ends the category of a feedback. -/
theorem category_eq {a b c d : Str} (ha : ':' ∉ a) (hb : ':' ∉ b)
    (heq : a ++ ": ".toList ++ c = b ++ ": ".toList ++ d) : a = b ∧ c = d := by
  have htake : ∀ {x : Str} (y : Str), ':' ∉ x →
      (x ++ ": ".toList ++ y).takeWhile (· ≠ ':') = x := by
    intro x y hx
    rw [List.append_assoc]
    refine Redactor.takeWhile_run (fun e he => ?_) (by simp)
    exact decide_eq_true fun hcolon => hx (hcolon ▸ he)
  have hab : a = b := by rw [← htake c ha, heq, htake d hb]
  subst hab
  exact ⟨rfl, List.append_cancel_left heq⟩

theorem Category.colon_not_mem (F : Category) : ':' ∉ F.value := by
  cases F <;> decide

/-- A feedback that the loop writes itself reports nothing but its own text. -/
theorem report_eq {F : Category} {result : ToolResult} {a b : Str} (ha : ':' ∉ a)
    (heq : a ++ ": ".toList ++ b = formatFeedback F.value result) :
    a = F.value ∧ b = report result :=
  category_eq ha (Category.colon_not_mem F) heq

theorem mem_sliceFromEnd {α : Type} {n : ℤ} {xs : List α} {x : α} (hx : x ∈ sliceFromEnd n xs) :
    x ∈ xs := by
  unfold sliceFromEnd at hx
  split at hx
  · exact List.mem_of_mem_drop hx
  · exact List.mem_of_mem_drop hx

theorem Presented.appendStep (hs : Presented s) {action : Action} {verdict : GovernanceVerdict}
    {category : Option Str} {summary : Str} (hsum : Clean summary) (limits : Limits) :
    ∀ record ∈ AegisCode.appendStep s.recentSteps action verdict category summary limits,
      Clean record.detail := by
  intro record hrecord
  obtain hold | hnew := List.mem_append.mp (mem_sliceFromEnd hrecord)
  · exact hs.steps record hold
  · obtain rfl := List.mem_singleton.mp hnew
    exact hsum

/-- The state behind a refusal whose texts are clean. -/
theorem Presented.afterRefusal (hs : Presented s) {action : Action} {verdict : GovernanceVerdict}
    {result : ToolResult} (hsum : Clean result.summary) (hdetail : Clean result.detailForLlm) :
    Presented (h.afterRefusal (afterParse s) action verdict "POLICY_DENIED" result.summary
      (formatFeedback "POLICY_DENIED" result)) where
  feedback := by
    intro F result' heq
    have hreport := (report_eq (a := "POLICY_DENIED".toList) (b := report result) (by decide) heq).2
    rw [← hreport]
    exact clean_report hsum hdetail
  steps := hs.appendStep hsum _

/-- How a turn ends that the loop goes on from. -/
theorem turn_goes_on (hrun : Runs (h.turn task start s) t (.inl s')) :
    (∃ exc : Exn, s'.lastFeedback = "PARSE_ERROR: ".toList ++ exc.text ∧
      s'.recentSteps = s.recentSteps) ∨
    (∃ action verdict, s' = h.afterRefusal (afterParse s) action verdict "APPROVAL_REJECTED" []
      "APPROVAL_REJECTED: action was not approved") ∨
    (∃ proposed verdict result action,
      ⟨.dispatch proposed, .ok (verdict, some result, action)⟩ ∈ t ∧ verdict.decision = .deny ∧
      s' = h.afterRefusal (afterParse s) action verdict "POLICY_DENIED" result.summary
        (formatFeedback "POLICY_DENIED" result)) ∨
    ∃ e ∈ t, ∃ result action, Yields e result action ∧ Leaves h s t result action s' := by
  have hyield : ∀ {e : Ev} {result action}, e ∈ t → Yields e result action →
      ∃ e ∈ t, ∃ result action, Yields e result action ∧ Leaves h s t result action s' :=
    fun he hy => ⟨_, he, _, _, hy, turn_leaves hrun he hy⟩
  cases turn_cases hrun with
  | attempted now _ ha =>
    cases ha with
    | unparsed _ _ _ _ => exact .inl ⟨_, rfl, rfl⟩
    | @acted _ _ _ tₐ _ _ _ _ _ _ hact =>
      have hin : ∀ {e : Ev}, e ∈ tₐ → ∀ {u v w : List Ev}, e ∈ u ++ (v ++ (w ++ tₐ)) :=
        fun he _ _ _ => by simp [he]
      cases hact with
      | @judged verdict result action' t₁ _ hreq hc =>
        cases hc with
        | denied hdeny =>
          exact .inr (.inr (.inl ⟨_, _, _, _,
            hin (List.mem_cons_of_mem _ List.mem_cons_self), hdeny, rfl⟩))
        | finishRejected hdeny _ =>
          exact .inr (.inr (.inr (hyield (hin (List.mem_cons_of_mem _ List.mem_cons_self))
            (.dispatched hdeny hreq))))
        | executed hdeny _ =>
          exact .inr (.inr (.inr (hyield (hin (List.mem_cons_of_mem _ List.mem_cons_self))
            (.dispatched hdeny hreq))))
      | unapproved hreq happ =>
        cases happ with
        | noResolver _ => exact .inr (.inl ⟨_, _, rfl⟩)
        | rejected _ _ => exact .inr (.inl ⟨_, _, rfl⟩)
        | superseded action' verdict' result executed _ =>
          exact .inr (.inr (.inr (hyield (hin (List.mem_of_getElem? (i := 4) rfl))
            .approved)))
      | approved hreq happ hc =>
        cases happ with
        | approved action' verdict' result executed _ =>
          exact .inr (.inr (.inr (hyield (hin (List.mem_of_getElem? (i := 4) rfl))
            .approved)))

/-- A turn that presents its result keeps credentials out of the state. -/
theorem turn_presented (hrun : Runs (h.turn task start s) t (.inl s')) (hs : Presented s)
    (ht : Presents h s t) : Presented s' := by
  obtain ⟨exc, hfb, hsteps⟩ | ⟨action, verdict, rfl⟩ |
    ⟨proposed, verdict, result, action, hmem, hdeny, rfl⟩ |
    ⟨e, he, result, action, hy, hleaves⟩ := turn_goes_on hrun
  · refine ⟨fun F result heq => ?_, fun record hrecord => hs.steps record (hsteps ▸ hrecord)⟩
    rw [hfb] at heq
    have hcat := (report_eq (a := "PARSE_ERROR".toList) (b := exc.text) (by decide) heq).1
    exact absurd hcat (by cases F <;> decide)
  · refine ⟨fun F result heq => ?_, hs.appendStep clean_nil _⟩
    have hown := (report_eq (a := "APPROVAL_REJECTED".toList)
      (b := "action was not approved".toList) (by decide) heq).2
    rw [← hown]
    decide
  · obtain ⟨hsum, hdetail⟩ := ht.denied _ _ _ _ hmem hdeny
    exact hs.afterRefusal hsum hdetail
  · have hrecorded := ht.recorded e he result action hy
    have hfed := ht.fedBack e he result action hy
    cases hleaves with
    | finishRejected _ _ =>
      refine ⟨fun F result heq => ?_, hs.steps⟩
      have hown := (report_eq (a := "FINISH_REJECTED".toList)
        (b := "final verification failed".toList) (by decide) heq).2
      rw [← hown]
      decide
    | refused verdict hno =>
      obtain ⟨hsum, hdetail⟩ := hfed (.inl hno)
      exact hs.afterRefusal hsum hdetail
    | executed verdict _ hfin =>
      refine ⟨fun F result' heq => ?_, hs.appendStep (hrecorded (.inr hfin)) _⟩
      by_cases hseen : fingerprint h.sha256 action ∈ s.tracker.recent
      · have hrepeated : (h.afterExecution (afterParse s) verdict result action).lastFeedback =
            "NO_PROGRESS: repeated action detected" := by
          simp [afterExecution, recordResult, ProgressTracker.seen, hseen]
        rw [hrepeated] at heq
        have hown := (report_eq (a := "NO_PROGRESS".toList)
          (b := "repeated action detected".toList) (by decide) heq).2
        rw [← hown]
        decide
      · cases hclass : classify result with
        | none =>
          have hempty : (h.afterExecution (afterParse s) verdict result action).lastFeedback = [] := by
            simp [afterExecution, recordResult, ProgressTracker.seen, hseen, hclass]
          rw [hempty] at heq
          exact absurd heq.symm (formatFeedback_ne_nil _ _)
        | some G =>
          have hformat : (h.afterExecution (afterParse s) verdict result action).lastFeedback =
              formatFeedback G.value result := by
            simp [afterExecution, recordResult, ProgressTracker.seen, hseen, hclass]
          rw [hformat] at heq
          have hreport := (report_eq (b := report result) (Category.colon_not_mem G) heq).2
          obtain ⟨hsum, hdetail⟩ :=
            hfed (.inr ⟨hfin, by rw [hclass]; exact Option.some_ne_none G, hseen⟩)
          rw [← hreport]
          exact clean_report hsum hdetail

theorem initialState_presented : Presented h.initialState where
  feedback := fun _ _ heq => absurd heq.symm (formatFeedback_ne_nil _ _)
  steps := fun _ hrecord => absurd hrecord List.not_mem_nil

/-- The turns so far presented their results, each from the state in which it began. -/
def AllPresent (h : HarnessCore) (task : Str) (start : ℤ) (turns : List (List Ev)) : Prop :=
  ∀ before t after s, turns = before ++ t :: after →
    Iterates (h.turn task start) h.initialState before s → Presents h s t

theorem iterates_presented {turns : List (List Ev)}
    (hit : Iterates (h.turn task start) h.initialState turns s)
    (hall : AllPresent h task start turns) : Presented s := by
  induction turns using List.reverseRecOn generalizing s with
  | nil =>
    cases hit
    exact initialState_presented
  | append_singleton turns t ih =>
    obtain ⟨s₁, s₂, hbefore, hrun, hlast⟩ := hit.split
    cases hlast
    have hearlier : AllPresent h task start turns := by
      rintro before u after s₃ rfl hs₃
      exact hall before u (after ++ [t]) s₃ (by simp) hs₃
    exact turn_presented hrun (ih hbefore hearlier) (hall turns t [] s₁ rfl hbefore)

theorem Taken.clean {m : Message} {w : Str} (hw : Taken t s m w) (hs : Presented s) : Clean w := by
  cases hw with
  | feedback _ _ hfb hin => exact (hs.feedback _ _ hfb).inside hin
  | step _ _ hrecord _ hin => exact (hs.steps _ hrecord).inside hin

end Steps

/-- A run opens with a look at the clock. -/
theorem run_opens {h : HarnessCore} {task : Str} {fuel : ℕ} {tr : List Ev}
    {out : Option (Except Exn TerminationReason)} (hrun : Runs (h.run fuel task) tr out) :
    ∃ (opening : List Ev) (turns : List (List Ev)) (start : ℤ), tr = opening ++ turns.flatten ∧
      (∀ e ∈ opening, e.call = .monotonic) ∧
      ∀ before t after, turns = before ++ t :: after → ∃ s outcome,
        Iterates (h.turn task start) h.initialState before s ∧
        Runs (h.turn task start s) t outcome := by
  obtain rfl | ⟨start, turns, rfl, hturn⟩ := run_split hrun
  · exact ⟨[], [], 0, rfl, by simp, by simp⟩
  · exact ⟨[⟨.monotonic, start⟩], turns, start, rfl, List.forall_mem_singleton.mpr rfl, hturn⟩

/-- In every run: as long as the turns pass on nothing of their results that has a
credential, no message for the model has a credential of a result. -/
theorem feedback_scrubbed_of_presents (h : HarnessCore) (fuel : ℕ) (task : Str) (tr : List Ev)
    (out : Option (Except Exn TerminationReason)) (hrun : Runs (h.run fuel task) tr out) :
    ∃ (opening : List Ev) (turns : List (List Ev)) (start : ℤ), tr = opening ++ turns.flatten ∧
      (∀ e ∈ opening, e.call = .monotonic) ∧
      ∀ before t after, turns = before ++ t :: after → ∃ s outcome,
        Iterates (h.turn task start) h.initialState before s ∧
        Runs (h.turn task start s) t outcome ∧
        ∀ messages r, ⟨.complete messages, r⟩ ∈ t →
          (∃ memories, messages = h.messages task s memories) ∧
          (AllPresent h task start before → ∀ m ∈ messages, ∀ w, Taken before.flatten s m w →
            ∀ p ∈ keyPatterns, search p w = false) := by
  obtain ⟨opening, turns, start, rfl, hopening, hturn⟩ := run_opens hrun
  refine ⟨opening, turns, start, rfl, hopening, ?_⟩
  rintro before t after rfl
  obtain ⟨s, outcome, hbefore, ht⟩ := hturn before t after rfl
  refine ⟨s, outcome, hbefore, ht, fun messages r hmem => ⟨turn_messages ht hmem, ?_⟩⟩
  intro hall m _ w hw
  exact hw.clean (iterates_presented hbefore hall)

theorem feedback_scrubbed_testing :
    ∃ (opening : List Ev) (turns : List (List Ev)) (start : ℤ),
      testingRun.map Frame.event = opening ++ turns.flatten ∧
      (∀ e ∈ opening, e.call = .monotonic) ∧
      ∀ before t after, turns = before ++ t :: after → ∃ s outcome,
        Iterates ((repeatingHarness testAction).turn "fix the bug" start)
          (repeatingHarness testAction).initialState before s ∧
        Runs ((repeatingHarness testAction).turn "fix the bug" start s) t outcome ∧
        ∀ messages r, ⟨.complete messages, r⟩ ∈ t →
          (∃ memories, messages = (repeatingHarness testAction).messages "fix the bug" s memories) ∧
          (AllPresent (repeatingHarness testAction) "fix the bug" start before →
            ∀ m ∈ messages, ∀ w, Taken before.flatten s m w → ∀ p ∈ keyPatterns, search p w = false) :=
  feedback_scrubbed_of_presents _ _ _ _ _ testingRun_runs

/-! ## A test that prints a credential -/

def printedSecret : Str := "token=abcdefghijklmnop"

def printingResult : ToolResult :=
  { tool := "run_tests", status := .failure, summary := "1 failed", detailForLlm := printedSecret }

def afterPrinting : LoopState :=
  (repeatingHarness testAction).afterExecution
    (afterParse (repeatingHarness testAction).initialState) allowVerdict printingResult testAction

def printingRun : List Step :=
  [⟨⟨.monotonic, 0⟩, []⟩] ++
    [executingTurn (repeatingHarness testAction).initialState testAction printingResult,
      failingTurn afterPrinting testAction].flatten

theorem printingRun_runs : Runs ((repeatingHarness testAction).run 4 "fix the bug")
    (printingRun.map Frame.event) (some (.ok .llmError)) :=
  .call (.call (.call (.call (.call (.call (.call (.call (.call (.call (.call (.ret _)))))))))))

theorem printingRun_linked : ∀ f ∈ printingRun, Linked (implementation
    (repeatingHarness testAction).sha256 (allowingDispatcher testAction) gateContext) f := by
  simp only [printingRun, executingTurn, failingTurn, List.flatten_cons, List.flatten_nil,
    List.cons_append, List.nil_append, List.forall_mem_cons]
  exact ⟨rfl, rfl, rfl, rfl, .call (.call (.ret _)), rfl, rfl, rfl, rfl, rfl, rfl,
    fun _ h => absurd h List.not_mem_nil⟩

/-- The next prompt has the credential that the failing tests printed. -/
theorem printed_secret_fed_back :
    Runs ((repeatingHarness testAction).run 4 "fix the bug") (printingRun.map Frame.event)
        (some (.ok .llmError)) ∧
    (∀ f ∈ printingRun, Linked (implementation (repeatingHarness testAction).sha256
      (allowingDispatcher testAction) gateContext) f) ∧
    ∃ opening first second, printingRun = opening ++ [first, second].flatten ∧
      ∃ messages r, ⟨.complete messages, r⟩ ∈ second.map Frame.event ∧ ∃ m ∈ messages,
        Taken (first.map Frame.event) afterPrinting m printedSecret ∧
        printedSecret <:+: m.content ∧ ∃ p ∈ keyPatterns, search p printedSecret = true := by
  have hfb : afterPrinting.lastFeedback = formatFeedback Category.testFailure.value printingResult := by
    decide +kernel
  have hne : afterPrinting.lastFeedback ≠ [] := by
    rw [hfb]
    exact formatFeedback_ne_nil _ _
  have htold : report printingResult = printedSecret := by decide
  refine ⟨printingRun_runs, printingRun_linked, [⟨⟨.monotonic, 0⟩, []⟩], _, _, rfl, _, _,
    List.mem_of_getElem? (i := 1) rfl, _, feedback_mem_messages hne, ?_, ?_, ?_⟩
  · exact .feedback (e := ⟨.dispatch testAction, .ok (allowVerdict, some printingResult, testAction)⟩)
      (List.mem_of_getElem? (i := 3) rfl) .dispatched hfb (htold ▸ List.infix_rfl)
  · rw [hfb]
    exact ⟨"FEEDBACK:\nTEST_FAILURE: ".toList, [], by decide⟩
  · exact ⟨Redactor.genericAssignment, by simp [keyPatterns], by decide +kernel⟩

end HarnessCore

end AegisCode
