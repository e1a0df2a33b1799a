import AegisCode.Action

/-!
# Feedback and context

What a turn of the loop computes without calling anything: the classification
of a result, the window of recent fingerprints, and the messages for the model.
-/
namespace AegisCode

/-! ## Classification of results -/

def classify (tr : ToolResult) : Option Category :=
  match tr.category with
  | some .policyDenied => some .policyDenied
  | some .invalidAction => some .invalidAction
  | some .timeout => some .timeout
  | some .toolError => some .toolError
  | some .approvalRejected => some .approvalRejected
  | some .internalError => some .internalError
  | some .noProgress => some .noProgress
  | _ =>
    if tr.tool = "run_tests" ∧ tr.status = .failure then some .testFailure
    else if tr.status = .failure ∨ tr.status = .error then some .toolError
    else none

/-- `ProgressTracker`: the last `window` fingerprints, oldest first. -/
structure ProgressTracker where
  window : ℕ
  recent : List Str

/-- `seen`: whether the fingerprint is in the window, and the window after it. -/
def ProgressTracker.seen (t : ProgressTracker) (fp : Str) : Bool × ProgressTracker :=
  let appended := t.recent ++ [fp]
  (fp ∈ t.recent, { t with recent := appended.drop (appended.length - t.window) })

/-! ## Messages -/

inductive Role where
  | system
  | user
  | assistant
  deriving DecidableEq, Repr

structure Message where
  role : Role
  content : Str

/-- One entry of `recent_steps`. -/
structure StepRecord where
  tool : Str
  governanceDecision : Str
  feedbackCategory : Str
  detail : Str

/-- The columns of a memory row that the context reads. -/
structure MemoryRow where
  key : Str
  value : Str
  source : Str

def MemoryRow.isGovernanceUsable (r : MemoryRow) : Bool := r.source ≠ "agent"

def summarizeStep (s : StepRecord) : Str :=
  "[step tool=".toList ++ s.tool ++ " decision=".toList ++ s.governanceDecision ++
    " feedback=".toList ++ s.feedbackCategory ++ "]".toList

def contentLength (msgs : List Message) : ℕ := (msgs.map fun m => m.content.length).sum

def detailedStep (i : ℕ) (s : StepRecord) : Message where
  role := .assistant
  content := "step ".toList ++ Nat.toDigits 10 i ++ ": ".toList ++ s.tool ++ " -> ".toList ++
    s.feedbackCategory ++ "\n".toList ++ s.detail

/-- The loop that replaces the oldest detailed step by its summary while the
messages exceed the budget. `done` are the summaries made so far. -/
def compact (head tail : List Message) (budget : ℤ) (done : List Message) :
    List (StepRecord × Message) → List Message
  | [] => head ++ done ++ tail
  | (s, detailed) :: rest =>
    let msgs := head ++ done ++ (detailed :: rest.map Prod.snd) ++ tail
    if contentLength msgs > budget then
      compact head tail budget (done ++ [⟨.assistant, summarizeStep s⟩]) rest
    else msgs

def buildContext (systemPrompt toolProtocol task : Str) (recentSteps : List StepRecord)
    (lastFeedback : Str) (memories : List MemoryRow) (budgetChars : ℤ) : List Message :=
  let head : List Message := [⟨.system, systemPrompt ++ "\n".toList ++ toolProtocol⟩,
    ⟨.user, "TASK: ".toList ++ task⟩]
  let memTxt := Str.join "\n" (memories.map fun m =>
    "- ".toList ++ m.key ++ ": ".toList ++ m.value)
  let tail : List Message :=
    (if lastFeedback.isEmpty then [] else [⟨.user, "FEEDBACK:\n".toList ++ lastFeedback⟩]) ++
    (if memTxt.isEmpty then [] else [⟨.system, "MEMORY:\n".toList ++ memTxt⟩])
  compact head tail budgetChars []
    (recentSteps.zipIdx.map fun p => (p.1, detailedStep p.2 p.1))

end AegisCode
