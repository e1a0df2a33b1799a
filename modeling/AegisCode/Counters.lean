import AegisCode.Bounds

/-!
# Counters and history

The four counters are rebuilt by hand in every branch of the loop. Here each
finished turn is classified from the answers its calls got, and the counters at
the head of the loop are computed from the turns so far.
-/
namespace AegisCode.HarnessCore

open Program Prog

/-! ## The fate of a turn -/

/-- What the calls of a finished turn say of it. -/
inductive TurnClass where
  | parseFailure
  | denied
  | superseded
  | rejected
  | finishRejected
  | executed (fp : Str) (failed : Bool)

def dispatched (t : List Ev) : Option Gated :=
  t.findSome? fun
    | ⟨.dispatch _, .ok gated⟩ => some gated
    | _ => none

def resolved (t : List Ev) : Option (Bool × Action × GovernanceVerdict) :=
  t.findSome? fun
    | ⟨.resolve _ _, .ok answer⟩ => some answer
    | _ => none

def approvedRun (t : List Ev) : Option (ToolResult × Action) :=
  t.findSome? fun
    | ⟨.executeApproved _ _, .ok answer⟩ => some answer
    | _ => none

/-- A turn whose action needed no approval, or was approved. -/
def concluded (h : HarnessCore) : Gated → TurnClass
  | (verdict, result, action) =>
    if verdict.decision = .deny then .denied
    else if action.tool = "finish" then .finishRejected
    else .executed (fingerprint h.sha256 action) (result.bind classify).isSome

def turnClass (h : HarnessCore) (t : List Ev) : TurnClass :=
  match dispatched t with
  | none => .parseFailure
  | some (verdict, result, action) =>
    if verdict.decision = .requireApproval then
      match resolved t, approvedRun t with
      | some (true, _, verdict), some (result, action) =>
        if result.flagged "superseded" then .superseded
        else h.concluded (verdict, some result, action)
      | _, _ => .rejected
    else h.concluded (verdict, result, action)

inductive Fate where
  | parseFailure
  | denied
  | superseded
  | rejected
  | finishRejected
  | repeated
  | failure
  | success
  deriving DecidableEq, Repr

/-- The last `n` items. -/
def lastOf {α : Type} (n : ℕ) (xs : List α) : List α := xs.drop (xs.length - n)

/-- The fingerprints of the executed actions other than `finish`. -/
def executedFps (turns : List TurnClass) : List Str :=
  turns.filterMap fun
    | .executed fp _ => some fp
    | _ => none

/-- An execution repeats one of the last `window` executions. -/
def fateOf (window : ℕ) (earlier : List TurnClass) : TurnClass → Fate
  | .parseFailure => .parseFailure
  | .denied => .denied
  | .superseded => .superseded
  | .rejected => .rejected
  | .finishRejected => .finishRejected
  | .executed fp failed =>
    if fp ∈ lastOf window (executedFps earlier) then .repeated
    else if failed then .failure else .success

def fatesFrom (window : ℕ) (earlier : List TurnClass) : List TurnClass → List Fate
  | [] => []
  | turn :: turns => fateOf window earlier turn :: fatesFrom window (earlier ++ [turn]) turns

/-- The fates of the turns so far. -/
def fates (window : ℕ) (turns : List TurnClass) : List Fate := fatesFrom window [] turns

theorem fatesFrom_snoc (window : ℕ) (earlier turns : List TurnClass) (turn : TurnClass) :
    fatesFrom window earlier (turns ++ [turn]) =
      fatesFrom window earlier turns ++ [fateOf window (earlier ++ turns) turn] := by
  induction turns generalizing earlier with
  | nil => simp [fatesFrom]
  | cons first turns ih => simp [fatesFrom, ih]

theorem fates_snoc (window : ℕ) (turns : List TurnClass) (turn : TurnClass) :
    fates window (turns ++ [turn]) = fates window turns ++ [fateOf window turns turn] := by
  rw [fates, fatesFrom_snoc, List.nil_append]
  rfl

/-! ## The counters of a history -/

/-- The fates that count as a failure. -/
def Fate.fails : Fate → Bool
  | .denied | .superseded | .rejected | .finishRejected | .failure => true
  | .parseFailure | .repeated | .success => false

def countersOf (fates : List Fate) : LoopCounters where
  step := fates.countP (· ≠ .parseFailure)
  consecutiveFailures := (fates.reverse.takeWhile (· ≠ .success)).countP Fate.fails
  invalidActions := (fates.reverse.takeWhile (· = .parseFailure)).length
  noProgressHits := fates.count .repeated

/-- What one turn does to the counters. -/
def Fate.advance : Fate → LoopCounters → LoopCounters
  | .parseFailure, c => { c with invalidActions := c.invalidActions + 1 }
  | .repeated, c =>
    { c with step := c.step + 1, invalidActions := 0, noProgressHits := c.noProgressHits + 1 }
  | .success, c => { c with step := c.step + 1, invalidActions := 0, consecutiveFailures := 0 }
  | _, c => failStep { c with invalidActions := 0 }

theorem countersOf_snoc (fates : List Fate) (fate : Fate) :
    countersOf (fates ++ [fate]) = fate.advance (countersOf fates) := by
  cases fate <;> simp [countersOf, Fate.advance, failStep, Fate.fails, List.countP_cons]

/-! ## One turn -/

section Turn
variable {h : HarnessCore} {task : Str} {start : ℤ} {s : LoopState} {t : List Ev}

@[simp] theorem dispatched_append (t t' : List Ev) :
    dispatched (t ++ t') = (dispatched t).or (dispatched t') := List.findSome?_append

@[simp] theorem resolved_append (t t' : List Ev) :
    resolved (t ++ t') = (resolved t).or (resolved t') := List.findSome?_append

@[simp] theorem approvedRun_append (t t' : List Ev) :
    approvedRun (t ++ t') = (approvedRun t).or (approvedRun t') := List.findSome?_append

/-- No call of these is about an action. -/
def Idle (t : List Ev) : Prop := dispatched t = none ∧ resolved t = none ∧ approvedRun t = none

theorem opening_idle (now : ℤ) : Idle (h.opening now) := by
  unfold opening
  split <;> exact ⟨rfl, rfl, rfl⟩

theorem Retrieves.idle {memories : List MemoryRow} (hr : h.Retrieves t memories) : Idle t := by
  cases hr <;> exact ⟨rfl, rfl, rfl⟩

theorem Completes.idle {messages : List Message} {n : ℕ} {out : Option Str}
    (hc : Completes messages n t out) : Idle t := by
  induction hc with
  | exhausted => exact ⟨rfl, rfl, rfl⟩
  | answered n raw => exact ⟨rfl, rfl, rfl⟩
  | raised e _ ih => exact ih

theorem Concludes.idle {gated : Gated} {out : Except Exn Outcome}
    (hc : h.Concludes s gated t out) : Idle t := by
  cases hc <;> exact ⟨rfl, rfl, rfl⟩

theorem turnClass_idle_append {t₁ t₂ : List Ev} (hidle : Idle t₁) :
    h.turnClass (t₁ ++ t₂) = h.turnClass t₂ := by
  obtain ⟨hdispatched, hresolved, happroved⟩ := hidle
  simp only [turnClass, dispatched_append, resolved_append, approvedRun_append, hdispatched,
    hresolved, happroved, Option.none_or]

/-- The window of the tracker behind a turn. -/
def track (turn : TurnClass) (tracker : ProgressTracker) : ProgressTracker :=
  match turn with
  | .executed fp _ => (tracker.seen fp).2
  | _ => tracker

/-- The fate of a turn, given the fingerprints in the window. -/
def fateIn (recent : List Str) : TurnClass → Fate
  | .parseFailure => .parseFailure
  | .denied => .denied
  | .superseded => .superseded
  | .rejected => .rejected
  | .finishRejected => .finishRejected
  | .executed fp failed => if fp ∈ recent then .repeated else if failed then .failure else .success

theorem fateOf_eq (window : ℕ) (earlier : List TurnClass) (turn : TurnClass) :
    fateOf window earlier turn = fateIn (lastOf window (executedFps earlier)) turn := by
  cases turn <;> rfl

/-- A turn does to the counters and the window what its class says. -/
def Follows (turn : TurnClass) (s next : LoopState) : Prop :=
  next.c = (fateIn s.tracker.recent turn).advance s.c ∧ next.tracker = track turn s.tracker

theorem Concludes.follows {gated : Gated} {next : LoopState}
    (hc : h.Concludes (afterParse s) gated t (.ok (.inl next))) :
    Follows (h.concluded gated) s next := by
  cases hc with
  | denied hdeny =>
    rw [concluded, if_pos hdeny]
    exact ⟨rfl, rfl⟩
  | finishRejected hdeny hfin =>
    rw [concluded, if_neg hdeny, if_pos hfin]
    exact ⟨rfl, rfl⟩
  | @executed verdict result action hdeny hfin =>
    rw [concluded, if_neg hdeny, if_neg hfin]
    refine ⟨?_, rfl⟩
    by_cases hseen : fingerprint h.sha256 action ∈ s.tracker.recent
    · simp [afterExecution, recordResult, ProgressTracker.seen, fateIn, Fate.advance, hseen]
    · cases hcat : classify result with
      | none =>
        simp [afterExecution, recordResult, ProgressTracker.seen, fateIn, Fate.advance, hseen, hcat]
      | some category =>
        simp [afterExecution, recordResult, ProgressTracker.seen, fateIn, Fate.advance, hseen, hcat]

theorem Acts.follows {action : Action} {next : LoopState}
    (ha : h.Acts s action t (.ok (.inl next))) : Follows (h.turnClass t) s next := by
  cases ha with
  | @judged verdict result action' t _ hdec hc =>
    have hclass : h.turnClass (h.logged s.c .actionProposed (proposedPayload action) ::
        ⟨.dispatch action, .ok (verdict, result, action')⟩ ::
        h.logged s.c .governanceDecision (decisionPayload action' verdict) :: t) =
        h.concluded (verdict, result, action') := by
      simp only [turnClass, dispatched, List.findSome?_cons]
      rw [if_neg hdec]
    rw [hclass]
    exact hc.follows
  | @unapproved verdict result action' t _ hdec ha =>
    simp only [turnClass, dispatched, List.findSome?_cons]
    rw [if_pos hdec]
    cases ha with
    | noResolver _ => exact ⟨rfl, rfl⟩
    | rejected action' verdict' => exact ⟨rfl, rfl⟩
    | superseded action' verdict' result action'' hsup =>
      simp only [resolved, approvedRun, List.findSome?_cons]
      rw [if_pos hsup]
      exact ⟨rfl, rfl⟩
  | @approved verdict result action' gated t₁ t₂ _ hdec ha hc =>
    have hidle := hc.idle
    cases ha with
    | approved action' verdict' result action'' hsup =>
      simp only [turnClass, dispatched, List.findSome?_cons]
      rw [if_pos hdec]
      simp only [resolved, approvedRun, List.findSome?_cons, List.cons_append]
      rw [if_neg (by rw [hsup]; exact Bool.false_ne_true)]
      exact hc.follows

/-- A turn that goes on does what its class says. -/
theorem turn_follows {next : LoopState} (hrun : Runs (h.turn task start s) t (.inl next)) :
    Follows (h.turnClass t) s next := by
  cases turn_cases hrun with
  | attempted now _ ha =>
    rw [turnClass_idle_append (opening_idle now)]
    cases ha with
    | unparsed hr hc _ _ =>
      rw [turnClass_idle_append hr.idle, turnClass_idle_append hc.idle]
      exact ⟨rfl, rfl⟩
    | acted hr hc _ ha =>
      rw [turnClass_idle_append hr.idle, turnClass_idle_append hc.idle]
      exact ha.follows

end Turn

/-! ## Whole runs -/

theorem lastOf_snoc {α : Type} (n : ℕ) (xs : List α) (x : α) :
    lastOf n (lastOf n xs ++ [x]) = lastOf n (xs ++ [x]) := by
  simp only [lastOf, List.length_append, List.length_drop, List.length_singleton]
  by_cases hshort : xs.length ≤ n
  · have hzero : xs.length - n = 0 := by omega
    rw [hzero, List.drop_zero, Nat.sub_zero]
  · have hlength : xs.length - (xs.length - n) = n := by omega
    have hdrop : xs.drop (xs.length - n) ++ [x] = (xs ++ [x]).drop (xs.length - n) :=
      (List.drop_append_of_le_length (Nat.sub_le _ _)).symm
    rw [hlength, hdrop, List.drop_drop]
    congr 1
    omega

theorem executedFps_snoc (turns : List TurnClass) (turn : TurnClass) :
    executedFps (turns ++ [turn]) = executedFps turns ++ executedFps [turn] := List.filterMap_append

/-- The reasons of `decide_termination`, in their order. -/
def stopReasons : List TerminationReason :=
  [.timeout, .invalidActionLimit, .consecutiveFailures, .noProgress, .maxSteps]

/-- The threshold of a reason is met. -/
def met (limits : Limits) (c : LoopCounters) (elapsed : ℤ) :
    TerminationReason → Bool
  | .timeout => elapsed ≥ limits.wallClockTimeoutSec * 10 ^ 9
  | .invalidActionLimit => c.invalidActions ≥ limits.actionRetryLimit
  | .consecutiveFailures => c.consecutiveFailures ≥ limits.maxConsecutiveFailures
  | .noProgress => c.noProgressHits ≥ limits.noProgressRepeatLimit
  | .maxSteps => c.step ≥ limits.maxSteps
  | _ => false

theorem decideTermination_eq (c : LoopCounters) (limits : Limits) (elapsed : ℤ) :
    decideTermination c limits elapsed = stopReasons.find? (met limits c elapsed) := by
  have hcons : ∀ (x : TerminationReason) xs, (x :: xs).find? (met limits c elapsed) =
      if met limits c elapsed x = true then some x else xs.find? (met limits c elapsed) := by
    intro x xs
    rw [List.find?_cons]
    split <;> simp_all
  simp only [decideTermination, stopReasons, hcons, met, decide_eq_true_eq, List.find?_nil]

/-- The fates of the finished turns of a run. -/
def history (h : HarnessCore) (ts : List (List Ev)) : List Fate :=
  fates h.config.limits.noProgressRepeatLimit.toNat (ts.map h.turnClass)

section Runs
variable {h : HarnessCore} {task : Str} {start : ℤ} {s : LoopState} {ts : List (List Ev)}

/-- At the head of the loop the counters and the window are those of the history. -/
theorem iterates_counts (hit : Iterates (h.turn task start) h.initialState ts s) :
    s.c = countersOf (h.history ts) ∧
      s.tracker = ⟨h.config.limits.noProgressRepeatLimit.toNat,
        lastOf h.config.limits.noProgressRepeatLimit.toNat (executedFps (ts.map h.turnClass))⟩ := by
  refine hit.history (I := fun ts s => s.c = countersOf (h.history ts) ∧
    s.tracker = ⟨h.config.limits.noProgressRepeatLimit.toNat,
      lastOf h.config.limits.noProgressRepeatLimit.toNat (executedFps (ts.map h.turnClass))⟩)
    ⟨rfl, congrArg _ List.drop_nil.symm⟩ ?_
  rintro ts s t s' ⟨hcounters, htracker⟩ hrun
  obtain ⟨hnext, htracked⟩ := turn_follows hrun
  constructor
  · rw [hnext, history, List.map_append, List.map_singleton, fates_snoc, countersOf_snoc, fateOf_eq,
      hcounters, htracker]
    rfl
  · rw [htracked, htracker, List.map_append, List.map_singleton, executedFps_snoc]
    cases h.turnClass t with
    | executed fp failed =>
      change ProgressTracker.mk _ (lastOf _ (lastOf _ _ ++ [fp])) = _
      rw [lastOf_snoc]
      rfl
    | _ =>
      change _ = ProgressTracker.mk _ (lastOf _ (_ ++ []))
      rw [List.append_nil]
      rfl

/-- No iteration that goes on met a threshold. -/
theorem turn_unmet {t : List Ev} {next : LoopState}
    (hrun : Runs (h.turn task start s) t (.inl next)) :
    ∃ now, t.head? = some ⟨.monotonic, now⟩ ∧
      decideTermination s.c h.config.limits (now - start) = none := by
  cases turn_cases hrun with
  | attempted now hterm _ => exact ⟨now, rfl, hterm⟩

theorem turn_stops {t : List Ev} {reason : TerminationReason}
    (hrun : Runs (h.turn task start s) t (.inr reason)) (hreason : reason ∈ stopReasons) :
    ∃ now, t = [⟨.monotonic, now⟩, h.stopped s.c reason] ∧
      decideTermination s.c h.config.limits (now - start) = some reason := by
  cases turn_cases hrun with
  | limit now hterm => exact ⟨now, rfl, hterm⟩
  | cancelled now _ _ => exact absurd hreason (by decide)
  | attempted now _ ha =>
    obtain rfl | rfl := ha.reason
    · exact absurd hreason (by decide)
    · exact absurd hreason (by decide)
  | failed now e _ _ => exact absurd hreason (by decide)

end Runs

/-- At every head of the loop the counters are functions of the fates of the turns
so far. A run that stops for a threshold stops at the first head where one is met,
with the first reason whose threshold is met there. -/
theorem counters_follow_history (h : HarnessCore) (task : Str) :
    (∀ start ts s, Iterates (h.turn task start) h.initialState ts s →
      s.c = countersOf (h.history ts)) ∧
    ∀ fuel tr reason, Runs (h.run fuel task) tr (some (.ok reason)) → reason ∈ stopReasons →
      ∃ start now s, ∃ ts : List (List Ev),
        tr = ⟨.monotonic, start⟩ :: (ts.flatten ++
          [⟨.monotonic, now⟩, h.stopped (countersOf (h.history ts)) reason]) ∧
        Iterates (h.turn task start) h.initialState ts s ∧
        stopReasons.find? (met h.config.limits (countersOf (h.history ts)) (now - start)) =
          some reason ∧
        ∀ before turn after, ts = before ++ turn :: after → ∃ earlier,
          turn.head? = some ⟨.monotonic, earlier⟩ ∧
          stopReasons.find? (met h.config.limits (countersOf (h.history before))
            (earlier - start)) = none := by
  refine ⟨fun start ts s hit => (iterates_counts hit).1, fun fuel tr reason hrun hreason => ?_⟩
  obtain ⟨start, s, ts, last, rfl, hit, hlast⟩ := run_returns hrun
  obtain ⟨now, rfl, hterm⟩ := turn_stops hlast hreason
  rw [(iterates_counts hit).1] at hterm ⊢
  rw [decideTermination_eq] at hterm
  refine ⟨start, now, s, ts, rfl, hit, hterm, ?_⟩
  rintro before turn after rfl
  obtain ⟨s₁, s₂, hbefore, hturn, _⟩ := hit.split
  obtain ⟨earlier, hhead, hnone⟩ := turn_unmet hturn
  rw [(iterates_counts hbefore).1, decideTermination_eq] at hnone
  exact ⟨earlier, hhead, hnone⟩

/-! ## A run that makes no progress -/

def listAction : Action := { tool := "list_files" }

def listVerdict : GovernanceVerdict :=
  ⟨.allow, "TIER_READONLY", "readonly tool 'list_files' → ALLOW"⟩

def listResult : ToolResult :=
  { tool := "list_files", status := .success, summary := "0 entries" }

/-- The model answers with prose, and then asks for the files twice. -/
def stallingHarness : HarnessCore where
  config := { limits := { noProgressRepeatLimit := 1 } }
  sha256 := Digest.single (canonicalText listAction)
    "b8a92a084da4299e3a1a1e8205c519da8d293553d5904908ce4f946d3d97362d" (by decide)
  taskId := "task"
  parseAction raw :=
    if raw = "list" then .ok listAction else .error ⟨.actionParseError, "no JSON object found"⟩
  promptBuilder := none
  approvalResolver := false
  cancelCheck := false
  memoryStore := false

def stalledText : Str := "PARSE_ERROR: no JSON object found"

/-- The state behind the prose. -/
def stallingAsked : LoopState :=
  { stallingHarness.initialState with c := { invalidActions := 1 }, lastFeedback := stalledText }

def stallingListed (s : LoopState) : LoopState :=
  stallingHarness.afterExecution (afterParse s) listVerdict listResult listAction

def stallingTurn (s : LoopState) : List Ev :=
  let h := stallingHarness
  [⟨.monotonic, 5⟩, ⟨.complete (h.messages "fix the bug" s []), .ok "list"⟩,
    h.logged (afterParse s).c .actionProposed (proposedPayload listAction),
    ⟨.dispatch listAction, .ok (listVerdict, some listResult, listAction)⟩,
    h.logged (afterParse s).c .governanceDecision (decisionPayload listAction listVerdict),
    h.logged (afterParse s).c .toolExecuted (toolPayload listAction listResult),
    h.logged (stallingListed s).c .feedback
      (feedbackPayload "SUCCESS" (stallingListed s).lastFeedback)]

def stallingTurns : List (List Ev) :=
  let h := stallingHarness
  [[⟨.monotonic, 5⟩, ⟨.complete (h.messages "fix the bug" h.initialState []), .ok "Sure."⟩,
    h.logged {} .actionProposed (parseErrorPayload "Sure." "no JSON object found"),
    h.logged {} .feedback (feedbackPayload "INVALID_ACTION" stalledText)],
    stallingTurn stallingAsked, stallingTurn (stallingListed stallingAsked)]

def stallingRun : List Ev :=
  ⟨.monotonic, 0⟩ :: (stallingTurns.flatten ++ [⟨.monotonic, 9⟩,
    stallingHarness.stopped (stallingListed (stallingListed stallingAsked)).c .noProgress])

theorem stallingRun_iterates :
    Iterates (stallingHarness.turn "fix the bug" 0) stallingHarness.initialState stallingTurns
      (stallingListed (stallingListed stallingAsked)) := by
  have hlisted : Runs (stallingHarness.turn "fix the bug" 0 stallingAsked)
      (stallingTurn stallingAsked) (.inl (stallingListed stallingAsked)) :=
    .call (.call (.call (.call (.call (.call (.call (.ret _)))))))
  have hrepeated : Runs (stallingHarness.turn "fix the bug" 0 (stallingListed stallingAsked))
      (stallingTurn (stallingListed stallingAsked))
      (.inl (stallingListed (stallingListed stallingAsked))) :=
    .call (.call (.call (.call (.call (.call (.call (.ret _)))))))
  exact .step (.call (.call (.call (.call (.ret _))))) (.step hlisted (.step hrepeated (.refl _)))

theorem stallingRun_runs :
    Runs (stallingHarness.run 5 "fix the bug") stallingRun (some (.ok .noProgress)) :=
  .call (.call (.call (.call (.call (.call (.call (.call (.call (.call (.call (.call (.call
    (.call (.call (.call (.call (.call (.call (.call (.call (.ret _)))))))))))))))))))))

theorem counters_follow_history_stalling :
    (stallingListed (stallingListed stallingAsked)).c =
        countersOf (stallingHarness.history stallingTurns) ∧
      ∃ start now s, ∃ ts : List (List Ev),
        stallingRun = ⟨.monotonic, start⟩ :: (ts.flatten ++ [⟨.monotonic, now⟩,
          stallingHarness.stopped (countersOf (stallingHarness.history ts)) .noProgress]) ∧
        Iterates (stallingHarness.turn "fix the bug" start) stallingHarness.initialState ts s := by
  obtain ⟨hcounters, hstop⟩ := counters_follow_history stallingHarness "fix the bug"
  obtain ⟨start, now, s, ts, hrun, hit, -⟩ := hstop 5 _ _ stallingRun_runs (by decide)
  exact ⟨hcounters 0 _ _ stallingRun_iterates, start, now, s, ts, hrun, hit⟩

end AegisCode.HarnessCore
