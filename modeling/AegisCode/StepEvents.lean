import AegisCode.Counters
import AegisCode.Feedback

/-!
# The events of an action

The audit log of a run falls into segments: each finished turn logs a proposal
first, and the next turn begins with a proposal or with the end of the run. Which
turns log exactly one feedback, and all at the step of the proposal, depends on
how the turn was settled.
-/
namespace AegisCode.HarnessCore

open Program Prog

/-- A new action is proposed, or the run ends. -/
def isBoundary (e : AuditEvent) : Bool :=
  e.eventType = .actionProposed ∨ e.eventType = .termination

/-- The events before the next proposal or the end. -/
def segment (log : List AuditEvent) : List AuditEvent := log.takeWhile fun e => !isBoundary e

/-- One feedback, and every event at this step. -/
structure InPlace (stepIndex : ℕ) (events : List AuditEvent) : Prop where
  one_feedback : (events.filter fun e => e.eventType = .feedback).length = 1
  own_step : ∀ e ∈ events, e.stepIndex = stepIndex

/-- The log begins with a proposal, and what belongs to it is in place. -/
def Attributed (log : List AuditEvent) : Prop :=
  ∃ p later, log = p :: later ∧ p.eventType = .actionProposed ∧
    InPlace p.stepIndex (segment later)

/-- The turns whose feedback is logged, and before the step advances. -/
def TurnClass.inPlace : TurnClass → Bool
  | .rejected | .executed _ _ => false
  | .parseFailure | .denied | .superseded | .finishRejected => true

/-! ## Segments -/

theorem segment_eq {events later : List AuditEvent} (hinner : ∀ e ∈ events, isBoundary e = false)
    (hlater : ∀ e ∈ later.head?, isBoundary e = true) : segment (events ++ later) = events := by
  have hall : ∀ e ∈ events, (!isBoundary e) = true := by
    intro e he
    rw [hinner e he]
    rfl
  rw [segment, List.takeWhile_append_of_pos hall]
  cases later with
  | nil => exact List.append_nil _
  | cons e later =>
    have hstop : ¬ (!isBoundary e) = true := by
      rw [hlater e rfl]
      exact Bool.false_ne_true
    rw [List.takeWhile_cons_of_neg (p := fun e => !isBoundary e) hstop, List.append_nil]

theorem inPlace_cons {e : AuditEvent} {events : List AuditEvent} {stepIndex : ℕ}
    (hkind : e.eventType ≠ .feedback) (hstep : e.stepIndex = stepIndex) :
    InPlace stepIndex (e :: events) ↔ InPlace stepIndex events := by
  have hfilter : (e :: events).filter (fun e => decide (e.eventType = .feedback)) =
      events.filter fun e => decide (e.eventType = .feedback) :=
    List.filter_cons_of_neg (by simpa using hkind)
  constructor
  · rintro ⟨hone, hown⟩
    exact ⟨by rwa [hfilter] at hone, fun x hx => hown x (List.mem_cons_of_mem _ hx)⟩
  · rintro ⟨hone, hown⟩
    refine ⟨by rwa [hfilter], fun x hx => ?_⟩
    obtain rfl | hx := List.mem_cons.mp hx
    · exact hstep
    · exact hown x hx

theorem inPlace_feedback {e : AuditEvent} {stepIndex : ℕ} (hkind : e.eventType = .feedback) :
    InPlace stepIndex [e] ↔ e.stepIndex = stepIndex := by
  constructor
  · rintro ⟨-, hown⟩
    exact hown e (List.mem_singleton_self e)
  · intro hstep
    refine ⟨?_, fun x hx => ?_⟩
    · rw [List.filter_cons_of_pos (by simpa using hkind), List.filter_nil, List.length_singleton]
    · rwa [List.mem_singleton.mp hx]

theorem not_inPlace_nil (stepIndex : ℕ) : ¬ InPlace stepIndex [] := by
  rintro ⟨hone, -⟩
  exact absurd hone (by decide)

/-! ## What a turn logs -/

/-- The events behind the proposal: no other proposal, and in place as the class
of the turn has it. -/
def LogsAs (turn : TurnClass) (stepIndex : ℕ) (events : List AuditEvent) : Prop :=
  (∀ e ∈ events, isBoundary e = false) ∧ (InPlace stepIndex events ↔ turn.inPlace = true)

section Turn
variable {h : HarnessCore} {task : Str} {start : ℤ} {s : LoopState} {t : List Ev}

theorem LogsAs.cons {turn : TurnClass} {stepIndex : ℕ} {events : List AuditEvent} {e : AuditEvent}
    (hl : LogsAs turn stepIndex events) (hinner : isBoundary e = false)
    (hkind : e.eventType ≠ .feedback) (hstep : e.stepIndex = stepIndex) :
    LogsAs turn stepIndex (e :: events) :=
  ⟨List.forall_mem_cons.mpr ⟨hinner, hl.1⟩, (inPlace_cons hkind hstep).trans hl.2⟩

theorem logsAs_feedback {turn : TurnClass} {stepIndex : ℕ} {e : AuditEvent}
    (hkind : e.eventType = .feedback) (hturn : e.stepIndex = stepIndex ↔ turn.inPlace = true) :
    LogsAs turn stepIndex [e] := by
  refine ⟨?_, (inPlace_feedback hkind).trans hturn⟩
  intro x hx
  rw [List.mem_singleton.mp hx, isBoundary, hkind]
  rfl

theorem Concludes.logsAs {gated : Gated} {next : LoopState}
    (hc : h.Concludes s gated t (.ok (.inl next))) :
    LogsAs (h.concluded gated) s.c.step (auditLog t) := by
  cases hc with
  | denied hdeny =>
    rw [concluded, if_pos hdeny]
    exact logsAs_feedback rfl (iff_of_true rfl rfl)
  | finishRejected hdeny hfin =>
    rw [concluded, if_neg hdeny, if_pos hfin]
    exact LogsAs.cons (logsAs_feedback rfl (iff_of_true rfl rfl)) rfl (by rintro ⟨⟩) rfl
  | @executed verdict result action hdeny hfin =>
    rw [concluded, if_neg hdeny, if_neg hfin]
    refine LogsAs.cons (logsAs_feedback rfl (iff_of_false ?_ Bool.false_ne_true)) rfl (by rintro ⟨⟩) rfl
    -- the feedback is logged with the counters of the next step
    have hstep : (h.afterExecution s verdict result action).c.step = s.c.step + 1 :=
      (recordResult_advances _ _ _ _).1
    change (h.afterExecution s verdict result action).c.step ≠ s.c.step
    omega

theorem Acts.logsAs {action : Action} {next : LoopState}
    (ha : h.Acts s action t (.ok (.inl next))) : ∃ p events, auditLog t = p :: events ∧
      p.eventType = .actionProposed ∧ LogsAs (h.turnClass t) p.stepIndex events := by
  cases ha with
  | @judged verdict result action' t _ hdec hc =>
    refine ⟨_, _, rfl, rfl, ?_⟩
    simp only [turnClass, dispatched, List.findSome?_cons]
    rw [if_neg hdec]
    exact LogsAs.cons hc.logsAs rfl (by rintro ⟨⟩) rfl
  | @unapproved verdict result action' t _ hdec ha =>
    refine ⟨_, _, rfl, rfl, ?_⟩
    simp only [turnClass, dispatched, List.findSome?_cons]
    rw [if_pos hdec]
    have hrejected : LogsAs .rejected s.c.step [] :=
      ⟨List.forall_mem_nil _, iff_of_false (not_inPlace_nil _) Bool.false_ne_true⟩
    cases ha with
    | noResolver _ =>
      exact LogsAs.cons (LogsAs.cons hrejected rfl (by rintro ⟨⟩) rfl) rfl (by rintro ⟨⟩) rfl
    | rejected action' verdict' =>
      exact LogsAs.cons (LogsAs.cons hrejected rfl (by rintro ⟨⟩) rfl) rfl (by rintro ⟨⟩) rfl
    | superseded action' verdict' result action'' hsup =>
      simp only [resolved, approvedRun, List.findSome?_cons]
      rw [if_pos hsup]
      exact LogsAs.cons
        (LogsAs.cons (logsAs_feedback rfl (iff_of_true rfl rfl)) rfl (by rintro ⟨⟩) rfl)
        rfl (by rintro ⟨⟩) rfl
  | @approved verdict result action' gated t₁ t₂ _ hdec ha hc =>
    refine ⟨_, _, rfl, rfl, ?_⟩
    cases ha with
    | approved action' verdict' result action'' hsup =>
      simp only [turnClass, dispatched, List.findSome?_cons]
      rw [if_pos hdec]
      simp only [resolved, approvedRun, List.findSome?_cons, List.cons_append]
      rw [if_neg (by rw [hsup]; exact Bool.false_ne_true)]
      exact LogsAs.cons (LogsAs.cons hc.logsAs rfl (by rintro ⟨⟩) rfl) rfl (by rintro ⟨⟩) rfl

/-- A turn that goes on logs a proposal and then as its class says. -/
theorem turn_logsAs {next : LoopState} (hrun : Runs (h.turn task start s) t (.inl next)) :
    ∃ p events, auditLog t = p :: events ∧ p.eventType = .actionProposed ∧
      LogsAs (h.turnClass t) p.stepIndex events := by
  cases turn_cases hrun with
  | attempted now _ ha =>
    rw [turnClass_idle_append (opening_idle now), auditLog_append, auditLog_opening]
    cases ha with
    | unparsed hr hc _ _ =>
      rw [turnClass_idle_append hr.idle, turnClass_idle_append hc.idle, auditLog_append,
        hr.auditLog_eq, auditLog_append, hc.auditLog_eq]
      exact ⟨_, _, rfl, rfl, logsAs_feedback rfl (iff_of_true rfl rfl)⟩
    | acted hr hc _ ha =>
      rw [turnClass_idle_append hr.idle, turnClass_idle_append hc.idle, auditLog_append,
        hr.auditLog_eq, auditLog_append, hc.auditLog_eq]
      exact ha.logsAs

/-- The log of the iteration that ends the run begins a new segment. -/
theorem turn_ends_boundary {reason : TerminationReason}
    (hrun : Runs (h.turn task start s) t (.inr reason)) :
    ∀ e ∈ (auditLog t).head?, isBoundary e = true := by
  have hacts : ∀ {action : Action} {out : Except Exn Outcome} {tₐ : List Ev},
      h.Acts s action tₐ out → ∃ later, auditLog tₐ =
        ⟨h.taskId, s.c.step, .actionProposed, proposedPayload action⟩ :: later := by
    intro action out tₐ ha
    cases ha <;> exact ⟨_, rfl⟩
  suffices hstarts : ∃ p later, auditLog t = p :: later ∧ isBoundary p = true by
    obtain ⟨p, later, hlog, hp⟩ := hstarts
    rw [hlog]
    rintro e ⟨⟩
    exact hp
  cases turn_cases hrun with
  | limit now _ => exact ⟨_, _, rfl, rfl⟩
  | cancelled now _ _ => exact ⟨_, _, rfl, rfl⟩
  | attempted now _ ha =>
    rw [auditLog_append, auditLog_opening]
    cases ha with
    | llmError hr hc =>
      rw [auditLog_append, hr.auditLog_eq, auditLog_append, hc.auditLog_eq]
      exact ⟨_, _, rfl, rfl⟩
    | acted hr hc _ ha =>
      obtain ⟨later, hlog⟩ := hacts ha
      rw [auditLog_append, hr.auditLog_eq, auditLog_append, hc.auditLog_eq, hlog]
      exact ⟨_, _, rfl, rfl⟩
  | failed now e _ ha =>
    rw [auditLog_append, auditLog_opening, auditLog_append]
    cases ha with
    | memoryRaised e _ => exact ⟨_, _, rfl, rfl⟩
    | parserRaised hr hc _ _ =>
      rw [auditLog_append, hr.auditLog_eq, hc.auditLog_eq]
      exact ⟨_, _, rfl, rfl⟩
    | acted hr hc _ ha =>
      obtain ⟨later, hlog⟩ := hacts ha
      rw [auditLog_append, hr.auditLog_eq, auditLog_append, hc.auditLog_eq, hlog]
      exact ⟨_, _, rfl, rfl⟩

end Turn

/-! ## Whole runs -/

/-- A run: its finished turns, and the iteration that ended it, if one did. -/
def Unfolds (h : HarnessCore) (task : Str) (start : ℤ) (ts : List (List Ev)) (last : List Ev) :
    Prop :=
  ∃ s, Iterates (h.turn task start) h.initialState ts s ∧
    (last = [] ∨ ∃ reason, Runs (h.turn task start s) last (.inr reason))

section Runs
variable {h : HarnessCore} {task : Str} {start : ℤ} {ts : List (List Ev)} {last : List Ev}

theorem run_unfolds {fuel : ℕ} {tr : List Ev} {out : Option (Except Exn TerminationReason)}
    (hrun : Runs (h.run fuel task) tr out) :
    tr = [] ∨ ∃ start ts last, tr = ⟨.monotonic, start⟩ :: (ts.flatten ++ last) ∧
      h.Unfolds task start ts last := by
  obtain rfl | ⟨start, ts, s, hit, hend⟩ := run_iterates hrun
  · exact .inl rfl
  · obtain rfl | ⟨last, reason, rfl, hlast⟩ := hend
    · exact .inr ⟨start, ts, [], by rw [List.append_nil], s, hit, .inl rfl⟩
    · exact .inr ⟨start, ts, last, by simp, s, hit, .inr ⟨reason, hlast⟩⟩

/-- Behind a finished turn a new segment begins. -/
theorem later_boundary {s s' : LoopState} {after : List (List Ev)}
    (hit : Iterates (h.turn task start) s after s')
    (hlast : last = [] ∨ ∃ reason, Runs (h.turn task start s') last (.inr reason)) :
    ∀ e ∈ (auditLog (after.flatten ++ last)).head?, isBoundary e = true := by
  cases hit with
  | refl =>
    obtain rfl | ⟨reason, hlast⟩ := hlast
    · exact nofun
    · exact turn_ends_boundary hlast
  | step hrun _ =>
    obtain ⟨p, events, hlog, hp, _⟩ := turn_logsAs hrun
    rw [List.flatten_cons, List.append_assoc, auditLog_append, hlog]
    rintro e ⟨⟩
    rw [isBoundary, hp]
    rfl

/-- The events of a finished turn are in place as its class has it. -/
theorem attributed_iff (hrun : h.Unfolds task start ts last) {before after : List (List Ev)}
    {t : List Ev} (hts : ts = before ++ t :: after) :
    Attributed (auditLog (t ++ (after.flatten ++ last))) ↔ (h.turnClass t).inPlace = true := by
  obtain ⟨s, hit, hlast⟩ := hrun
  subst hts
  obtain ⟨s₁, s₂, _, hrun, hafter⟩ := hit.split
  obtain ⟨p, events, hlog, hp, hinner, hplace⟩ := turn_logsAs hrun
  rw [auditLog_append, hlog, List.cons_append, ← hplace]
  have hsegment := segment_eq hinner (later_boundary hafter hlast)
  constructor
  · rintro ⟨p', later, heq, _, hin⟩
    obtain ⟨rfl, rfl⟩ := List.cons.inj heq
    rwa [hsegment] at hin
  · intro hin
    exact ⟨p, _, rfl, hp, by rwa [hsegment]⟩

theorem inPlace_iff (hrun : h.Unfolds task start ts last) :
    (∀ before t after, ts = before ++ t :: after → h.turnClass t ≠ .parseFailure →
      Attributed (auditLog (t ++ (after.flatten ++ last)))) ↔
    ∀ t ∈ ts, (h.turnClass t).inPlace = true := by
  constructor
  · intro hall t ht
    obtain ⟨before, after, hts⟩ := List.append_of_mem ht
    by_cases hparsed : h.turnClass t = .parseFailure
    · rw [hparsed]
      rfl
    · exact (attributed_iff hrun hts).mp (hall before t after hts hparsed)
  · intro hall before t after hts _
    exact (attributed_iff hrun hts).mpr (hall t (by simp [hts]))

end Runs

/-- Every run unfolds into its finished turns and what ended it. There the events of every
parsed action that does not end the run are in place exactly if none of these actions was
rejected and none but `finish` executed. -/
theorem feedback_in_place_iff (h : HarnessCore) (task : Str) :
    (∀ fuel tr out, Runs (h.run fuel task) tr out →
      tr = [] ∨ ∃ start ts last, tr = ⟨.monotonic, start⟩ :: (ts.flatten ++ last) ∧
        h.Unfolds task start ts last) ∧
    ∀ start ts last, h.Unfolds task start ts last →
      ((∀ before t after, ts = before ++ t :: after → h.turnClass t ≠ .parseFailure →
        Attributed (auditLog (t ++ (after.flatten ++ last)))) ↔
      ∀ t ∈ ts, (h.turnClass t).inPlace = true) :=
  ⟨fun _ _ _ hrun => run_unfolds hrun, fun _ _ _ hrun => inPlace_iff hrun⟩

/-! ## A rejected action and an executed one -/

def askVerdict : GovernanceVerdict := ⟨.requireApproval, "ASK", "reads need a decision"⟩

/-- There is no resolver, so the action is rejected. -/
def rejectedTurn (s : LoopState) (action : Action) : List Ev :=
  let h := repeatingHarness action
  [⟨.monotonic, 0⟩, ⟨.complete (h.messages "fix the bug" s []), .ok "again"⟩,
    h.logged s.c .actionProposed (proposedPayload action),
    ⟨.dispatch action, .ok (askVerdict, none, action)⟩,
    h.logged s.c .governanceDecision (decisionPayload action askVerdict),
    h.logged s.c .approvalDecided (approvalPayload action "REJECTED")]

def afterRejection : LoopState :=
  (repeatingHarness readAction).afterRefusal (afterParse (repeatingHarness readAction).initialState)
    readAction askVerdict "APPROVAL_REJECTED" [] "APPROVAL_REJECTED: action was not approved"

def afterRejectedRead : LoopState :=
  (repeatingHarness readAction).afterExecution (afterParse afterRejection) allowVerdict readResult
    readAction

/-- The action is rejected, then allowed, and then the model fails. -/
def misplacingTurns : List (List Ev) :=
  [rejectedTurn (repeatingHarness readAction).initialState readAction,
    (executingTurn afterRejection readAction readResult).map Frame.event]

def misplacingEnd : List Ev := (failingTurn afterRejectedRead readAction).map Frame.event

theorem misplacing_unfolds :
    (repeatingHarness readAction).Unfolds "fix the bug" 0 misplacingTurns misplacingEnd := by
  have hrejected : Runs ((repeatingHarness readAction).turn "fix the bug" 0
      (repeatingHarness readAction).initialState)
      (rejectedTurn (repeatingHarness readAction).initialState readAction) (.inl afterRejection) :=
    .call (.call (.call (.call (.call (.call (.ret _))))))
  have hexecuted : Runs ((repeatingHarness readAction).turn "fix the bug" 0 afterRejection)
      ((executingTurn afterRejection readAction readResult).map Frame.event)
      (.inl afterRejectedRead) :=
    .call (.call (.call (.call (.call (.call (.call (.ret _)))))))
  refine ⟨afterRejectedRead, .step hrejected (.step hexecuted (.refl _)), .inr ⟨.llmError, ?_⟩⟩
  exact .call (.call (.call (.ret _)))

/-- The rejected action has no feedback, and that of the executed action stands at
the next step. -/
theorem feedback_misplaced :
    (repeatingHarness readAction).Unfolds "fix the bug" 0 misplacingTurns misplacingEnd ∧
      ∃ rejected executed, misplacingTurns = [rejected, executed] ∧
        (repeatingHarness readAction).turnClass rejected ≠ .parseFailure ∧
        ¬ Attributed (auditLog (rejected ++ ([executed].flatten ++ misplacingEnd))) ∧
        (repeatingHarness readAction).turnClass executed ≠ .parseFailure ∧
        ¬ Attributed (auditLog (executed ++ ([].flatten ++ misplacingEnd))) := by
  have hfirst : misplacingTurns =
      [] ++ rejectedTurn (repeatingHarness readAction).initialState readAction ::
        [(executingTurn afterRejection readAction readResult).map Frame.event] := rfl
  have hsecond : misplacingTurns =
      [rejectedTurn (repeatingHarness readAction).initialState readAction] ++
        (executingTurn afterRejection readAction readResult).map Frame.event :: [] := rfl
  refine ⟨misplacing_unfolds, _, _, rfl, nofun, ?_, nofun, ?_⟩
  · rw [attributed_iff misplacing_unfolds hfirst]
    exact Bool.false_ne_true
  · rw [attributed_iff misplacing_unfolds hsecond]
    exact Bool.false_ne_true

theorem feedback_in_place_iff_misplacing :
    (∀ before t after, misplacingTurns = before ++ t :: after →
      (repeatingHarness readAction).turnClass t ≠ .parseFailure →
      Attributed (auditLog (t ++ (after.flatten ++ misplacingEnd)))) ↔
    ∀ t ∈ misplacingTurns, ((repeatingHarness readAction).turnClass t).inPlace = true :=
  (feedback_in_place_iff (repeatingHarness readAction) "fix the bug").2 _ _ _ misplacing_unfolds

end AegisCode.HarnessCore
