import AegisCode.Turn

/-!
# What a run may spend

A turn that does not end the run either raises the number of invalid actions or
advances the step, which sets that number back to zero. The measure `remaining`
is lexicographic in the two and pays for the turns, the model calls and the
executions of a run.
-/
namespace AegisCode.HarnessCore

open Program Prog

/-! ## Counting calls -/

def isModelCall (e : Ev) : Bool :=
  match e.call with
  | .complete _ => true
  | _ => false

/-- A call in which a tool may run: an approved execution, or a dispatch that
did not answer with a refusal or a request for approval. -/
def mayExecute : Ev → Bool
  | ⟨.dispatch _, .ok (verdict, _, _)⟩ =>
      verdict.decision = .allow ∨ verdict.decision = .allowWithAudit
  | ⟨.dispatch _, .error _⟩ => true
  | ⟨.executeApproved _ _, _⟩ => true
  | _ => false

def modelCalls (t : List Ev) : ℕ := t.countP isModelCall

def executions (t : List Ev) : ℕ := t.countP mayExecute

@[simp] theorem modelCalls_append (t t' : List Ev) :
    modelCalls (t ++ t') = modelCalls t + modelCalls t' := List.countP_append ..

@[simp] theorem executions_append (t t' : List Ev) :
    executions (t ++ t') = executions t + executions t' := List.countP_append ..

section Counting
variable {h : HarnessCore} {task : Str} {start : ℤ} {s : LoopState} {t : List Ev}

theorem Completes.spends {messages : List Message} {n : ℕ} {out : Option Str}
    (hc : Completes messages n t out) : modelCalls t ≤ n ∧ executions t = 0 := by
  induction hc with
  | exhausted => simp [modelCalls, executions]
  | answered n raw => simp [modelCalls, executions, isModelCall, mayExecute]
  | raised e _ ih =>
    obtain ⟨hcalls, hexec⟩ := ih
    constructor
    · simp only [modelCalls, List.countP_cons, isModelCall] at hcalls ⊢
      simp only [if_true]
      omega
    · simpa [executions, mayExecute] using hexec

theorem Retrieves.spends {memories : List MemoryRow} (hr : h.Retrieves t memories) :
    modelCalls t = 0 ∧ executions t = 0 := by
  cases hr <;> simp [modelCalls, executions, isModelCall, mayExecute]

theorem opening_spends (now : ℤ) :
    modelCalls (h.opening now) = 0 ∧ executions (h.opening now) = 0 := by
  unfold opening
  split <;> simp [modelCalls, executions, isModelCall, mayExecute]

theorem Concludes.spends {gated : Gated} {out : Except Exn Outcome}
    (hc : h.Concludes s gated t out) : modelCalls t = 0 ∧ executions t = 0 := by
  cases hc <;> simp [modelCalls, executions, isModelCall, mayExecute]

theorem Approves.spends {verdict : GovernanceVerdict} {action : Action}
    {out : Except Exn (LoopState ⊕ Gated)} (ha : h.Approves s verdict action t out) :
    modelCalls t = 0 ∧ executions t ≤ 1 := by
  cases ha <;> simp [modelCalls, executions, List.countP_cons, isModelCall, mayExecute]

theorem Acts.spends {action : Action} {out : Except Exn Outcome} (ha : h.Acts s action t out) :
    modelCalls t = 0 ∧ executions t ≤ 1 := by
  cases ha with
  | dispatchRaised e => simp [modelCalls, executions, isModelCall, mayExecute]
  | judged hdec hc =>
    obtain ⟨hcalls, hexec⟩ := hc.spends
    simp only [modelCalls, executions] at hcalls hexec ⊢
    simp only [List.countP_cons, hcalls, hexec, isModelCall, mayExecute, Bool.false_eq_true,
      if_false, Nat.zero_add, Nat.add_zero, true_and, decide_eq_true_eq]
    split_ifs <;> omega
  | approvalRaised e hdec ha =>
    obtain ⟨hcalls, hexec⟩ := ha.spends
    simpa [modelCalls, executions, isModelCall, mayExecute, hdec] using And.intro hcalls hexec
  | unapproved hdec ha =>
    obtain ⟨hcalls, hexec⟩ := ha.spends
    simpa [modelCalls, executions, isModelCall, mayExecute, hdec] using And.intro hcalls hexec
  | approved hdec ha hc =>
    obtain ⟨hcalls, hexec⟩ := ha.spends
    obtain ⟨hcalls', hexec'⟩ := hc.spends
    simp only [modelCalls, executions] at hcalls hexec hcalls' hexec' ⊢
    simp [isModelCall, mayExecute, hdec, hcalls, hcalls', hexec, hexec']

theorem Attempts.spends {out : Except Exn Outcome} (ha : h.Attempts task s t out) :
    modelCalls t ≤ h.config.limits.llmMaxRetries.toNat ∧ executions t ≤ 1 := by
  cases ha with
  | memoryRaised e _ => simp [modelCalls, executions, isModelCall, mayExecute]
  | llmError hr hc =>
    simp only [modelCalls_append, executions_append, hr.spends, hc.spends.2]
    have hcalls := hc.spends.1
    simpa [modelCalls, executions, isModelCall, mayExecute] using hcalls
  | unparsed hr hc _ _ =>
    simp only [modelCalls_append, executions_append, hr.spends, hc.spends.2]
    have hcalls := hc.spends.1
    simpa [modelCalls, executions, isModelCall, mayExecute] using hcalls
  | parserRaised hr hc _ _ =>
    simp only [modelCalls_append, executions_append, hr.spends, hc.spends.2]
    have hcalls := hc.spends.1
    omega
  | acted hr hc _ ha =>
    simp only [modelCalls_append, executions_append, hr.spends, hc.spends.2, ha.spends.1]
    have hcalls := hc.spends.1
    have hexec := ha.spends.2
    omega

/-! ## Advancing -/

theorem recordResult_advances (c : LoopCounters) (noProgress : Bool) (failureCat : Option Str)
    (result : ToolResult) :
    (recordResult c noProgress failureCat result).1.step = c.step + 1 ∧
      (recordResult c noProgress failureCat result).1.invalidActions = c.invalidActions := by
  unfold recordResult
  by_cases hno : noProgress = true
  · rw [if_pos hno]
    exact ⟨rfl, rfl⟩
  · rw [if_neg hno]
    cases failureCat <;> exact ⟨rfl, rfl⟩

theorem Concludes.advances {gated : Gated} {next : LoopState}
    (hc : h.Concludes s gated t (.ok (.inl next))) :
    next.c.step = s.c.step + 1 ∧ next.c.invalidActions = s.c.invalidActions := by
  cases hc with
  | denied _ => exact ⟨rfl, rfl⟩
  | finishRejected _ _ => exact ⟨rfl, rfl⟩
  | executed _ _ => exact recordResult_advances ..

theorem Approves.advances {verdict : GovernanceVerdict} {action : Action} {next : LoopState}
    (ha : h.Approves s verdict action t (.ok (.inl next))) :
    next.c.step = s.c.step + 1 ∧ next.c.invalidActions = s.c.invalidActions := by
  cases ha <;> exact ⟨rfl, rfl⟩

theorem Acts.advances {action : Action} {next : LoopState}
    (ha : h.Acts s action t (.ok (.inl next))) :
    next.c.step = s.c.step + 1 ∧ next.c.invalidActions = 0 := by
  cases ha with
  | judged _ hc => exact hc.advances
  | unapproved _ ha => exact ha.advances
  | approved _ _ hc => exact hc.advances

/-- A turn that goes on was spent on a text that is no action, or made a step. -/
theorem Attempts.advances {next : LoopState} (ha : h.Attempts task s t (.ok (.inl next))) :
    (next.c.step = s.c.step ∧ next.c.invalidActions = s.c.invalidActions + 1 ∧
        executions t = 0) ∨
      (next.c.step = s.c.step + 1 ∧ next.c.invalidActions = 0) := by
  cases ha with
  | unparsed hr hc _ _ =>
    refine .inl ⟨rfl, rfl, ?_⟩
    simp only [executions_append, hr.spends, hc.spends.2]
    simp [executions, mayExecute]
  | acted _ _ _ ha => exact .inr ha.advances

/-- The turns that are left while failed parses do not count. -/
def remaining (h : HarnessCore) (s : LoopState) : ℕ :=
  (h.config.limits.maxSteps.toNat - s.c.step) * h.config.limits.actionRetryLimit.toNat -
    s.c.invalidActions

theorem decideTermination_none {c : LoopCounters} {limits : Limits} {elapsed : ℤ}
    (hterm : decideTermination c limits elapsed = none) :
    c.step < limits.maxSteps.toNat ∧ c.invalidActions < limits.actionRetryLimit.toNat := by
  unfold decideTermination at hterm
  split_ifs at hterm
  omega

/-- The measure of a turn that was let in is positive. -/
theorem remaining_pos {elapsed : ℤ}
    (hterm : decideTermination s.c h.config.limits elapsed = none) : 0 < h.remaining s := by
  obtain ⟨hstep, hinv⟩ := decideTermination_none hterm
  have hone : 1 * h.config.limits.actionRetryLimit.toNat ≤
      (h.config.limits.maxSteps.toNat - s.c.step) * h.config.limits.actionRetryLimit.toNat :=
    Nat.mul_le_mul_right _ (by omega)
  unfold remaining
  omega

/-- Both ways of going on lower the measure. -/
theorem remaining_lt {next : LoopState} {elapsed : ℤ}
    (hterm : decideTermination s.c h.config.limits elapsed = none)
    (hnext : (next.c.step = s.c.step ∧ next.c.invalidActions = s.c.invalidActions + 1) ∨
      (next.c.step = s.c.step + 1 ∧ next.c.invalidActions = 0)) :
    h.remaining next < h.remaining s := by
  have hpos := remaining_pos hterm
  obtain ⟨hstep, hinv⟩ := decideTermination_none hterm
  unfold remaining at hpos ⊢
  obtain ⟨hs, hi⟩ | ⟨hs, hi⟩ := hnext
  · rw [hs, hi]
    omega
  · have hsplit : h.config.limits.maxSteps.toNat - s.c.step =
        h.config.limits.maxSteps.toNat - (s.c.step + 1) + 1 := by omega
    rw [hs, hi, hsplit, Nat.add_mul, Nat.one_mul]
    omega

/-! ## Turns -/

theorem decideTermination_preStep {c : LoopCounters} {limits : Limits} {elapsed : ℤ}
    {reason : TerminationReason} (hterm : decideTermination c limits elapsed = some reason) :
    reason.preStep = true := by
  unfold decideTermination at hterm
  split_ifs at hterm <;> cases hterm <;> rfl

theorem Acts.reason {action : Action} {reason : TerminationReason}
    (ha : h.Acts s action t (.ok (.inr reason))) : reason = .completed := by
  cases ha with
  | judged _ hc => cases hc; rfl
  | approved _ _ hc => cases hc; rfl

theorem Attempts.reason {reason : TerminationReason}
    (ha : h.Attempts task s t (.ok (.inr reason))) : reason = .llmError ∨ reason = .completed := by
  cases ha with
  | llmError _ _ => exact .inl rfl
  | acted _ _ _ ha => exact .inr ha.reason

/-- A turn after which the loop goes on. -/
theorem turn_continues {next : LoopState} (hrun : Runs (h.turn task start s) t (.inl next)) :
    h.remaining next < h.remaining s ∧ modelCalls t ≤ h.config.limits.llmMaxRetries.toNat ∧
      executions t + (h.config.limits.maxSteps.toNat - next.c.step) ≤
        h.config.limits.maxSteps.toNat - s.c.step := by
  cases turn_cases hrun with
  | attempted now hterm ha =>
    obtain ⟨hcalls, hexec⟩ := ha.spends
    obtain ⟨hstep, _⟩ := decideTermination_none hterm
    simp only [modelCalls_append, executions_append, opening_spends]
    obtain ⟨hs, hi, hnone⟩ | ⟨hs, hi⟩ := ha.advances
    · exact ⟨remaining_lt hterm (.inl ⟨hs, hi⟩), by omega, by omega⟩
    · exact ⟨remaining_lt hterm (.inr ⟨hs, hi⟩), by omega, by omega⟩

/-- The iteration that ends the run: the check alone, or a turn that began. -/
theorem turn_ends {reason : TerminationReason} (hrun : Runs (h.turn task start s) t (.inr reason)) :
    (reason.preStep = true ∧ modelCalls t = 0 ∧ executions t = 0) ∨
      (reason.preStep = false ∧ 0 < h.remaining s ∧
        modelCalls t ≤ h.config.limits.llmMaxRetries.toNat ∧
        executions t ≤ h.config.limits.maxSteps.toNat - s.c.step) := by
  cases turn_cases hrun with
  | limit now hterm =>
    exact .inl ⟨decideTermination_preStep hterm,
      by simp [modelCalls, executions, isModelCall, mayExecute]⟩
  | cancelled now hterm _ =>
    refine .inr ⟨rfl, remaining_pos hterm, ?_⟩
    simp [modelCalls, executions, isModelCall, mayExecute]
  | attempted now hterm ha =>
    obtain ⟨hcalls, hexec⟩ := ha.spends
    obtain ⟨hstep, _⟩ := decideTermination_none hterm
    refine .inr ⟨?_, remaining_pos hterm, ?_⟩
    · obtain rfl | rfl := ha.reason <;> rfl
    · simp only [modelCalls_append, executions_append, opening_spends]
      omega
  | failed now e hterm ha =>
    obtain ⟨hcalls, hexec⟩ := ha.spends
    obtain ⟨hstep, _⟩ := decideTermination_none hterm
    refine .inr ⟨rfl, remaining_pos hterm, ?_⟩
    have hstop : modelCalls [h.stopped s.c .internalError] = 0 ∧
        executions [h.stopped s.c .internalError] = 0 := by
      simp [modelCalls, executions, isModelCall, mayExecute]
    simp only [modelCalls_append, executions_append, opening_spends, hstop]
    omega

/-! ## Whole runs -/

/-- The turns of a run: an iteration that ends at the check is not a turn. -/
def turnsBegun (ts : List (List Ev)) (reason : TerminationReason) : ℕ :=
  if reason.preStep then ts.length - 1 else ts.length

theorem iterates_length {ts : List (List Ev)} {s' : LoopState}
    (hit : Iterates (h.turn task start) s ts s') : ts.length + h.remaining s' ≤ h.remaining s := by
  have hpaid : (ts.map fun _ => 1).sum + h.remaining s' ≤ h.remaining s :=
    hit.sum_le (I := fun _ => True) trivial fun s t s' _ hrun => by
      have hlt := (turn_continues hrun).1
      exact ⟨trivial, by omega⟩
  simpa using hpaid

variable {ts : List (List Ev)} {reason : TerminationReason}

theorem turnsBegun_le (hrun : LoopRuns (h.turn task start) s ts reason) :
    turnsBegun ts reason ≤ h.remaining s := by
  obtain ⟨s', ts', t, hit, hlast, rfl⟩ := hrun
  have hlen := iterates_length hit
  unfold turnsBegun
  obtain ⟨hpre, _⟩ | ⟨hpre, hpos, _⟩ := turn_ends hlast
  · rw [if_pos hpre, List.length_append, List.length_singleton]
    omega
  · rw [if_neg (by simp [hpre]), List.length_append, List.length_singleton]
    omega

theorem sum_modelCalls_le (hrun : LoopRuns (h.turn task start) s ts reason) :
    (ts.map modelCalls).sum ≤ h.remaining s * h.config.limits.llmMaxRetries.toNat := by
  refine hrun.sum_le (μ := fun s => h.remaining s * h.config.limits.llmMaxRetries.toNat) ?_ ?_
  · intro s t next hrun
    obtain ⟨hlt, hcalls, _⟩ := turn_continues hrun
    have hmul : (h.remaining next + 1) * h.config.limits.llmMaxRetries.toNat ≤
        h.remaining s * h.config.limits.llmMaxRetries.toNat := Nat.mul_le_mul_right _ hlt
    rw [Nat.add_mul, Nat.one_mul] at hmul
    omega
  · intro s t reason hrun
    obtain ⟨_, hzero, _⟩ | ⟨_, hpos, hcalls, _⟩ := turn_ends hrun
    · omega
    · have hmul : 1 * h.config.limits.llmMaxRetries.toNat ≤
          h.remaining s * h.config.limits.llmMaxRetries.toNat := Nat.mul_le_mul_right _ hpos
      omega

theorem sum_executions_le (hrun : LoopRuns (h.turn task start) s ts reason) :
    (ts.map executions).sum ≤ h.config.limits.maxSteps.toNat - s.c.step := by
  refine hrun.sum_le (μ := fun s => h.config.limits.maxSteps.toNat - s.c.step) ?_ ?_
  · intro s t next hrun
    exact (turn_continues hrun).2.2
  · intro s t reason hrun
    obtain ⟨_, _, hzero⟩ | ⟨_, _, _, hexec⟩ := turn_ends hrun
    · omega
    · exact hexec

theorem remaining_initialState (h : HarnessCore) : h.remaining h.initialState =
    h.config.limits.maxSteps.toNat * h.config.limits.actionRetryLimit.toNat := rfl

/-- A run looks at the clock and then takes turn after turn, until one of them ends
it or the budget is used up. -/
theorem run_iterates {fuel : ℕ} {out : Option (Except Exn TerminationReason)}
    (hrun : Runs (h.run fuel task) t out) :
    t = [] ∨ ∃ start, ∃ ts : List (List Ev), ∃ s,
      Iterates (h.turn task start) h.initialState ts s ∧
      (t = ⟨.monotonic, start⟩ :: ts.flatten ∨ ∃ last reason,
        t = ⟨.monotonic, start⟩ :: (ts ++ [last]).flatten ∧
        Runs (h.turn task start s) last (.inr reason)) := by
  unfold run at hrun
  by_cases hwindow : h.config.limits.noProgressRepeatLimit < 0
  · rw [if_pos hwindow] at hrun
    obtain ⟨rfl, _⟩ := runs_pure.mp hrun
    exact .inl rfl
  · rw [if_neg hwindow] at hrun
    obtain ⟨start, t, rfl, hrest⟩ := runs_perform_bind.mp hrun
    obtain ⟨t₁, r, t₂, rfl, hloop, hret⟩ := runs_bind.mp hrest
    obtain ⟨rfl, rfl⟩ := runs_pure.mp hret
    rw [List.append_nil]
    obtain ⟨ts, _, rfl, rfl, s', ts', last, hit, hlast, rfl⟩ | ⟨rfl, ts, s', _, rfl, hit⟩ :=
      runs_loop hloop
    · exact .inr ⟨start, ts', s', hit, .inr ⟨last, _, rfl, hlast⟩⟩
    · exact .inr ⟨start, ts, s', hit, .inl rfl⟩

/-- A run that returns a reason took the turns before the last one, which gave it. -/
theorem run_returns {fuel : ℕ} {reason : TerminationReason}
    (hrun : Runs (h.run fuel task) t (some (.ok reason))) :
    ∃ start s, ∃ ts : List (List Ev), ∃ last, t = ⟨.monotonic, start⟩ :: (ts.flatten ++ last) ∧
      Iterates (h.turn task start) h.initialState ts s ∧
        Runs (h.turn task start s) last (.inr reason) := by
  unfold run at hrun
  by_cases hwindow : h.config.limits.noProgressRepeatLimit < 0
  · rw [if_pos hwindow] at hrun
    cases (runs_pure.mp hrun).2
  · rw [if_neg hwindow] at hrun
    obtain ⟨start, t, rfl, hrest⟩ := runs_perform_bind.mp hrun
    obtain ⟨t₁, r, t₂, rfl, hloop, hret⟩ := runs_bind.mp hrest
    obtain ⟨rfl, hout⟩ := runs_pure.mp hret
    obtain ⟨_, reason', rfl, rfl, s, ts, last, hit, hlast, rfl⟩ | ⟨rfl, _⟩ := runs_loop hloop
    · obtain rfl : reason = reason' := by simpa using hout
      exact ⟨start, s, ts, last, by simp, hit, hlast⟩
    · cases hout

/-- Every turn of a run, with the turns before it. -/
theorem run_split {fuel : ℕ} {out : Option (Except Exn TerminationReason)}
    (hrun : Runs (h.run fuel task) t out) :
    t = [] ∨ ∃ start, ∃ ts : List (List Ev), t = ⟨.monotonic, start⟩ :: ts.flatten ∧
      ∀ before u after, ts = before ++ u :: after → ∃ s outcome,
        Iterates (h.turn task start) h.initialState before s ∧
        Runs (h.turn task start s) u outcome := by
  obtain rfl | ⟨start, ts, s', hit, hend⟩ := run_iterates hrun
  · exact .inl rfl
  · have hinside : ∀ {before u after}, ts = before ++ u :: after → ∃ s outcome,
        Iterates (h.turn task start) h.initialState before s ∧
        Runs (h.turn task start s) u outcome := by
      rintro before u after rfl
      obtain ⟨s₁, s₂, hbefore, hu, -⟩ := hit.split
      exact ⟨s₁, _, hbefore, hu⟩
    obtain rfl | ⟨last, reason, rfl, hlast⟩ := hend
    · exact .inr ⟨start, ts, rfl, fun before u after hts => hinside hts⟩
    · refine .inr ⟨start, ts ++ [last], rfl, ?_⟩
      intro before u after hts
      obtain rfl | ⟨init, x, rfl⟩ := List.eq_nil_or_concat after
      · obtain ⟨rfl, hlast'⟩ := List.append_inj' hts rfl
        obtain rfl := List.singleton_inj.mp hlast'
        exact ⟨s', _, hit, hlast⟩
      · have hts : ts ++ [last] = (before ++ u :: init) ++ [x] := by simpa using hts
        obtain ⟨rfl, _⟩ := List.append_inj' hts rfl
        exact hinside rfl

theorem run_turns {fuel : ℕ} {out : Option (Except Exn TerminationReason)}
    (hrun : Runs (h.run fuel task) t out) :
    t = [] ∨ ∃ start, ∃ ts : List (List Ev), t = ⟨.monotonic, start⟩ :: ts.flatten ∧
      ∀ u ∈ ts, ∃ s outcome, Runs (h.turn task start s) u outcome := by
  obtain rfl | ⟨start, ts, rfl, hturn⟩ := run_split hrun
  · exact .inl rfl
  · refine .inr ⟨start, ts, rfl, fun u hu => ?_⟩
    obtain ⟨before, after, hts⟩ := List.append_of_mem hu
    obtain ⟨s, outcome, -, hrun⟩ := hturn before u after hts
    exact ⟨s, outcome, hrun⟩

/-- With a budget above the measure the loop always leaves it. -/
theorem run_cases {fuel : ℕ} {out : Option (Except Exn TerminationReason)}
    (hwindow : 0 ≤ h.config.limits.noProgressRepeatLimit)
    (hfuel : h.config.limits.maxSteps.toNat * h.config.limits.actionRetryLimit.toNat < fuel)
    (hrun : Runs (h.run fuel task) t out) :
    ∃ start ts reason, out = some (.ok reason) ∧ t = ⟨.monotonic, start⟩ :: ts.flatten ∧
      LoopRuns (h.turn task start) h.initialState ts reason := by
  rw [run, if_neg (by omega)] at hrun
  obtain ⟨start, t, rfl, hrest⟩ := runs_perform_bind.mp hrun
  obtain ⟨t₁, r, t₂, rfl, hloop, hret⟩ := runs_bind.mp hrest
  obtain ⟨rfl, rfl⟩ := runs_pure.mp hret
  obtain ⟨ts, reason, rfl, rfl, hwhole⟩ | ⟨rfl, ts, s', hlen, rfl, hit⟩ := runs_loop hloop
  · exact ⟨start, ts, reason, rfl, by rw [List.append_nil], hwhole⟩
  · have hle := iterates_length hit
    rw [remaining_initialState] at hle
    omega

end Counting

end AegisCode.HarnessCore
