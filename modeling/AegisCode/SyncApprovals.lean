import AegisCode.ApprovalService
import AegisCode.GovernanceGate
import AegisCode.Traces

/-!
# Approvals of a synchronous run

The resolver of a service that runs its tasks inline, over the table of the requests. It
asks the decision function of the service, and a service that has none rejects.
-/
namespace AegisCode

open Program Prog
open ApprovalService (ApprovalRow requestRow decision)

/-! ## Where a turn asks -/

namespace HarnessCore

/-- The calls with which an approval is asked for and used. -/
def Call.asks : Call → Bool
  | .resolve _ _ | .executeApproved _ _ => true
  | _ => false

def Unasked (t : List Ev) : Prop := ∀ e ∈ t, Call.asks e.call = false

section Turns
variable {h : HarnessCore} {task : Str} {start : ℤ} {s : LoopState} {t t' : List Ev}

theorem unasked_append : Unasked (t ++ t') ↔ Unasked t ∧ Unasked t' := List.forall_mem_append

theorem Retrieves.unasked {memories : List MemoryRow} (hr : h.Retrieves t memories) : Unasked t := by
  cases hr with
  | none _ => exact List.forall_mem_nil _
  | rows rows _ => exact List.forall_mem_singleton.mpr rfl

theorem Completes.unasked {messages : List Message} {n : ℕ} {out : Option Str}
    (hc : Completes messages n t out) : Unasked t := by
  induction hc with
  | exhausted => exact List.forall_mem_nil _
  | answered n raw => exact List.forall_mem_singleton.mpr rfl
  | raised e _ ih => exact List.forall_mem_cons.mpr ⟨rfl, ih⟩

theorem Concludes.unasked {gated : Gated} {out : Except Exn Outcome}
    (hc : h.Concludes s gated t out) : Unasked t := by
  cases hc <;> simp [Unasked, Call.asks]

theorem unasked_opening (now : ℤ) : Unasked (h.opening now) := by
  unfold opening
  split <;> simp [Unasked, Call.asks]

/-- An approval is asked for at one place, or nowhere; `raised` follows if that raises. -/
inductive Asks (h : HarnessCore) (raised : Prop) : List Ev → Prop
  | unasked {t : List Ev} : Unasked t → Asks h raised t
  | approval {before mid after : List Ev} {s : LoopState} {verdict : GovernanceVerdict}
      {action : Action} {out : Except Exn (LoopState ⊕ Gated)} :
      Unasked before → h.Approves s verdict action mid out → Unasked after →
      ((∃ e, out = .error e) → raised) → Asks h raised (before ++ (mid ++ after))

theorem Asks.append_left {raised : Prop} (ht : Unasked t) (ha : Asks h raised t') :
    Asks h raised (t ++ t') := by
  cases ha with
  | unasked ht' => exact .unasked (unasked_append.mpr ⟨ht, ht'⟩)
  | approval hbefore happ hafter hraised =>
    rw [← List.append_assoc]
    exact .approval (unasked_append.mpr ⟨ht, hbefore⟩) happ hafter hraised

theorem Asks.append_right {raised raised' : Prop} (ha : Asks h raised t) (ht : Unasked t')
    (himp : raised → raised') : Asks h raised' (t ++ t') := by
  cases ha with
  | unasked ht' => exact .unasked (unasked_append.mpr ⟨ht', ht⟩)
  | approval hbefore happ hafter hraised =>
    rw [List.append_assoc, List.append_assoc]
    exact .approval hbefore happ (unasked_append.mpr ⟨hafter, ht⟩) fun hout => himp (hraised hout)

theorem Approves.asks {raised : Prop} {verdict : GovernanceVerdict} {action : Action}
    {out : Except Exn (LoopState ⊕ Gated)} (happ : h.Approves s verdict action t out)
    (hraised : (∃ e, out = .error e) → raised) : Asks h raised t := by
  simpa using Asks.approval (List.forall_mem_nil _) happ (List.forall_mem_nil _) hraised

/-- The calls of an action up to its verdict ask for nothing. -/
theorem Asks.judged {raised : Prop} (ha : Asks h raised t) (c c' : LoopCounters)
    (payload payload' : Dict) (action : Action)
    (r : Except Exn (GovernanceVerdict × Option ToolResult × Action)) :
    Asks h raised (h.logged c .actionProposed payload :: ⟨.dispatch action, r⟩ ::
      h.logged c' .governanceDecision payload' :: t) :=
  Asks.append_left (t := [h.logged c .actionProposed payload, ⟨.dispatch action, r⟩,
    h.logged c' .governanceDecision payload']) (by simp [Unasked, Call.asks]) ha

theorem Acts.asks {action : Action} {out : Except Exn Outcome} (ha : h.Acts s action t out) :
    Asks h (∃ e, out = .error e) t := by
  cases ha with
  | dispatchRaised e => exact .unasked (by simp [Unasked, Call.asks])
  | judged _ hc => exact (Asks.unasked hc.unasked).judged _ _ _ _ _ _
  | approvalRaised e _ happ => exact (happ.asks fun _ => ⟨e, rfl⟩).judged _ _ _ _ _ _
  | unapproved _ happ => exact (happ.asks fun ⟨e, he⟩ => by cases he).judged _ _ _ _ _ _
  | approved _ happ hc =>
    exact ((happ.asks fun ⟨e, he⟩ => by cases he).append_right hc.unasked id).judged _ _ _ _ _ _

theorem Attempts.asks {out : Except Exn Outcome} (ha : h.Attempts task s t out) :
    Asks h (∃ e, out = .error e) t := by
  cases ha with
  | memoryRaised e _ => exact .unasked (by simp [Unasked, Call.asks])
  | llmError hr hc =>
    exact .unasked (unasked_append.mpr
      ⟨hr.unasked, unasked_append.mpr ⟨hc.unasked, by simp [Unasked, Call.asks]⟩⟩)
  | unparsed hr hc _ _ =>
    exact .unasked (unasked_append.mpr
      ⟨hr.unasked, unasked_append.mpr ⟨hc.unasked, by simp [Unasked, Call.asks]⟩⟩)
  | parserRaised hr hc _ _ => exact .unasked (unasked_append.mpr ⟨hr.unasked, hc.unasked⟩)
  | acted hr hc _ hact => exact .append_left hr.unasked (.append_left hc.unasked hact.asks)

theorem turn_asks {outcome : Outcome} (hrun : Runs (h.turn task start s) t outcome) :
    Asks h (outcome = .inr .internalError) t := by
  cases turn_cases hrun with
  | limit now _ => exact .unasked (by simp [Unasked, Call.asks])
  | cancelled now _ _ => exact .unasked (by simp [Unasked, Call.asks])
  | attempted now _ ha =>
    have hasks : Asks h (outcome = .inr .internalError) (_ ++ []) :=
      ha.asks.append_right (List.forall_mem_nil _) fun ⟨e, he⟩ => by cases he
    rw [List.append_nil] at hasks
    exact .append_left (unasked_opening now) hasks
  | failed now e _ ha =>
    exact .append_left (unasked_opening now)
      (ha.asks.append_right (List.forall_mem_singleton.mpr rfl) fun _ => rfl)

/-! ## The asks of a run -/

def isAsk : Ev → Bool
  | ⟨.resolve _ _, _⟩ => true
  | _ => false

/-- The asks of a run, in order. -/
def askEvents (t : List Ev) : List Ev := t.filter isAsk

/-- An ask that was answered with an exception. -/
def isRaisedAsk : Ev → Bool
  | ⟨.resolve _ _, .error _⟩ => true
  | _ => false

/-- The fingerprint that a granted ask was about. -/
def grantedFp? (H : Digest) : Ev → Option Str
  | ⟨.resolve action _, .ok (true, _)⟩ => some (fingerprint H action)
  | _ => none

/-- The fingerprint with which an approved action is executed. -/
def executedFp? : Ev → Option Str
  | ⟨.executeApproved _ fp, _⟩ => some fp
  | _ => none

theorem Unasked.askEvents (ht : Unasked t) : askEvents t = [] := by
  refine List.filter_eq_nil_iff.mpr fun e he => ?_
  obtain ⟨c, r⟩ := e
  cases c with
  | resolve action verdict => cases ht _ he
  | _ => simp [isAsk]

theorem Unasked.executedFps (ht : Unasked t) : t.filterMap executedFp? = [] := by
  refine List.filterMap_eq_nil_iff.mpr fun e he => ?_
  obtain ⟨c, r⟩ := e
  cases c with
  | executeApproved action fp => cases ht _ he
  | _ => rfl

theorem grantedFps_askEvents (H : Digest) (t : List Ev) :
    (askEvents t).filterMap (grantedFp? H) = t.filterMap (grantedFp? H) := by
  rw [askEvents, List.filterMap_filter]
  refine List.filterMap_congr fun e _ => ?_
  obtain ⟨c, r⟩ := e
  cases c <;> rfl

/-- An ask that is granted is followed by its execution, and an exception ends the turn. -/
theorem Approves.askEvents {verdict : GovernanceVerdict} {action : Action}
    {out : Except Exn (LoopState ⊕ Gated)} (ha : h.Approves s verdict action t out) :
    t.filterMap (grantedFp? h.sha256) = t.filterMap executedFp? ∧
      (askEvents t = [] ∨ ∃ e, askEvents t = [e] ∧
        (isRaisedAsk e = true → ∃ e, out = .error e)) := by
  cases ha with
  | noResolver _ => exact ⟨rfl, .inl rfl⟩
  | resolverRaised e => exact ⟨rfl, .inr ⟨_, rfl, fun _ => ⟨e, rfl⟩⟩⟩
  | rejected _ _ => exact ⟨rfl, .inr ⟨_, rfl, fun he => by cases he⟩⟩
  | executionRaised _ _ e => exact ⟨rfl, .inr ⟨_, rfl, fun he => by cases he⟩⟩
  | superseded _ _ _ _ _ => exact ⟨rfl, .inr ⟨_, rfl, fun he => by cases he⟩⟩
  | approved _ _ _ _ _ => exact ⟨rfl, .inr ⟨_, rfl, fun he => by cases he⟩⟩

theorem Asks.askEvents {raised : Prop} (ha : Asks h raised t) :
    t.filterMap (grantedFp? h.sha256) = t.filterMap executedFp? ∧
      (askEvents t = [] ∨ ∃ e, askEvents t = [e] ∧ (isRaisedAsk e = true → raised)) := by
  have hnone : ∀ {t : List Ev}, Unasked t → t.filterMap (grantedFp? h.sha256) = [] := by
    intro t ht
    rw [← grantedFps_askEvents, ht.askEvents, List.filterMap_nil]
  cases ha with
  | unasked ht => exact ⟨(hnone ht).trans ht.executedFps.symm, .inl ht.askEvents⟩
  | @approval before mid after _ _ _ _ hbefore happ hafter hraised =>
    obtain ⟨hfps, hasks⟩ := happ.askEvents
    have hall : HarnessCore.askEvents (before ++ (mid ++ after)) = HarnessCore.askEvents mid := by
      rw [HarnessCore.askEvents, List.filter_append, List.filter_append]
      rw [← HarnessCore.askEvents, ← HarnessCore.askEvents, ← HarnessCore.askEvents,
        hbefore.askEvents, hafter.askEvents, List.nil_append, List.append_nil]
    constructor
    · simp only [List.filterMap_append, hnone hbefore, hnone hafter, hbefore.executedFps,
        hafter.executedFps, hfps]
    · rw [hall]
      obtain hnil | ⟨e, he, himp⟩ := hasks
      · exact .inl hnil
      · exact .inr ⟨e, he, fun hr => hraised (himp hr)⟩

/-- The approved executions of a run are those of its granted asks, in order. -/
theorem run_executedFps {fuel : ℕ} {out : Option (Except Exn TerminationReason)}
    (hrun : Runs (h.run fuel task) t out) :
    t.filterMap executedFp? = (askEvents t).filterMap (grantedFp? h.sha256) := by
  rw [grantedFps_askEvents]
  obtain rfl | ⟨start, ts, rfl, hturn⟩ := run_turns hrun
  · rfl
  · change ts.flatten.filterMap executedFp? = ts.flatten.filterMap (grantedFp? h.sha256)
    clear hrun
    induction ts with
    | nil => rfl
    | cons u ts ih =>
      obtain ⟨s, outcome, hu⟩ := hturn u (List.mem_cons_self ..)
      rw [List.flatten_cons, List.filterMap_append, List.filterMap_append,
        ih fun v hv => hturn v (List.mem_cons_of_mem _ hv), (turn_asks hu).askEvents.1]

/-- An ask that raised is the last one, and the run that returns says INTERNAL_ERROR. -/
theorem run_raisedAsk {fuel : ℕ} {reason : TerminationReason} {before after : List Ev} {e : Ev}
    (hrun : Runs (h.run fuel task) t (some (.ok reason)))
    (hsplit : askEvents t = before ++ e :: after) (he : isRaisedAsk e = true) :
    after = [] ∧ reason = .internalError := by
  obtain ⟨start, s, ts, last, rfl, hit, hlast⟩ := run_returns hrun
  have hanswered : ∀ x ∈ askEvents ts.flatten, isRaisedAsk x = false := by
    intro x hx
    obtain ⟨hx, hres⟩ := List.mem_filter.mp hx
    obtain ⟨u, hu, hxu⟩ := List.mem_flatten.mp hx
    obtain ⟨_, s₁, s₂, -, hstep⟩ := hit.mem hu
    have hmem : x ∈ askEvents u := List.mem_filter.mpr ⟨hxu, hres⟩
    obtain hnil | ⟨y, hy, himp⟩ := (turn_asks hstep).askEvents.2
    · rw [hnil] at hmem
      cases hmem
    · rw [hy] at hmem
      obtain rfl := List.mem_singleton.mp hmem
      by_contra htrue
      cases himp (by simpa using htrue)
  have hall : askEvents (⟨.monotonic, start⟩ :: (ts.flatten ++ last)) =
      askEvents ts.flatten ++ askEvents last := List.filter_append ..
  rw [hall] at hsplit
  obtain ⟨c, hbefore, hrest⟩ | ⟨c, hts, hrest⟩ := List.append_eq_append_iff.mp hsplit
  · obtain hnil | ⟨y, hy, himp⟩ := (turn_asks hlast).askEvents.2
    · rw [hnil] at hrest
      simp at hrest
    · rw [hy, List.singleton_eq_append_iff] at hrest
      obtain ⟨-, hcons⟩ | ⟨-, hcons⟩ := hrest
      · obtain ⟨rfl, rfl⟩ := List.cons.inj hcons
        exact ⟨rfl, by simpa using himp he⟩
      · cases hcons
  · cases c with
    | nil =>
      obtain hnil | ⟨y, hy, himp⟩ := (turn_asks hlast).askEvents.2
      · rw [hnil] at hrest
        simp at hrest
      · rw [hy, List.nil_append] at hrest
        obtain ⟨rfl, rfl⟩ := List.cons.inj hrest
        exact ⟨rfl, by simpa using himp he⟩
    | cons x c =>
      obtain ⟨rfl, -⟩ := List.cons.inj hrest
      have hfalse := hanswered e (by rw [hts]; simp)
      rw [he] at hfalse
      cases hfalse

end Turns

end HarnessCore

/-! ## The resolver -/

inductive SyncCall where
  | latestActionStepIndex (taskId : Str)
  | insert (row : ApprovalRow)
  | decide (approvalId : Str)
  | updateState (approvalId : Str) (state : ApprovalService.ApprovalState)

@[reducible] def SyncResp : SyncCall → Type
  | .latestActionStepIndex _ => ℤ
  | .insert _ => Str
  | .decide _ => Except Exn Bool
  | .updateState _ _ => Unit

def askSync (c : SyncCall) : Prog SyncCall SyncResp (SyncResp c) := perform c

/-- The resolver of `_build_sync_approval_resolver`; `decideFn` says whether the service has
a decision function. -/
def syncResolver (H : Digest) (decideFn : Bool) (taskId : Str) (action : Action)
    (verdict : GovernanceVerdict) : ExceptT Exn (Prog SyncCall SyncResp) Bool := do
  let stepIndex ← ExceptT.lift (askSync (.latestActionStepIndex taskId))
  let approvalId ← ExceptT.lift (askSync (.insert (requestRow H taskId stepIndex action verdict)))
  let approved ← if decideFn then ExceptT.mk (askSync (.decide approvalId)) else pure false
  ExceptT.lift (askSync (.updateState approvalId (decision approved)))
  return approved

/-- The calls of the loop that the service answers with its resolver, which changes neither
the action nor the verdict. -/
def synchronous (H : Digest) (decideFn : Bool) (taskId : Str) :
    (c : Call) → Option (Prog SyncCall SyncResp (Resp c))
  | .resolve action verdict =>
    some do
      let answer ← (syncResolver H decideFn taskId action verdict).run
      return answer.map fun approved => (approved, action, verdict)
  | _ => none

/-- A call of the loop, with what its resolver did. -/
abbrev AskStep := Frame Call Resp SyncCall SyncResp

/-- The table `approval_requests`, its rows under their ids in the order of insertion. -/
abbrev ApprovalTable := List (Str × ApprovalRow)

/-- `UPDATE approval_requests SET state=?, decided_by=? WHERE approval_id=?`. -/
def ApprovalTable.updateState (table : ApprovalTable) (approvalId : Str)
    (state : ApprovalService.ApprovalState) : ApprovalTable :=
  table.map fun entry =>
    if entry.1 = approvalId then
      (entry.1, { entry.2 with state := state, decidedBy := some "service".toList })
    else entry

/-- The calls of the resolver on the table. The id of a new row is new. -/
inductive SyncStep : ApprovalTable → Event SyncCall SyncResp → ApprovalTable → Prop
  | latest {table : ApprovalTable} {taskId : Str} {stepIndex : ℤ} :
      SyncStep table ⟨.latestActionStepIndex taskId, stepIndex⟩ table
  | insert {table : ApprovalTable} {row : ApprovalRow} {approvalId : Str}
      (hnew : approvalId ∉ table.map Prod.fst) :
      SyncStep table ⟨.insert row, approvalId⟩ (table ++ [(approvalId, row)])
  | decide {table : ApprovalTable} {approvalId : Str} {answer : Except Exn Bool} :
      SyncStep table ⟨.decide approvalId, answer⟩ table
  | update {table : ApprovalTable} {approvalId : Str} {state : ApprovalService.ApprovalState} :
      SyncStep table ⟨.updateState approvalId state, ()⟩ (table.updateState approvalId state)

/-! ## The row of an ask -/

/-- The row that an ask of the loop leaves: it is decided as the ask was answered, and
PENDING if the answer was an exception. Without a decision function nothing is approved and
nothing raises. -/
inductive Recorded (H : Digest) (decideFn : Bool) (taskId : Str) :
    HarnessCore.Ev → ApprovalRow → Prop
  | decided {stepIndex : ℤ} {action : Action} {verdict : GovernanceVerdict} {approved : Bool} :
      (approved = true → decideFn = true) →
      Recorded H decideFn taskId ⟨.resolve action verdict, .ok (approved, action, verdict)⟩
        { requestRow H taskId stepIndex action verdict with
          state := decision approved, decidedBy := some "service" }
  | raised {stepIndex : ℤ} {action : Action} {verdict : GovernanceVerdict} (e : Exn) :
      decideFn = true →
      Recorded H decideFn taskId ⟨.resolve action verdict, .error e⟩
        (requestRow H taskId stepIndex action verdict)

section Rows
variable {H : Digest} {decideFn : Bool} {taskId : Str} {action : Action}
  {verdict : GovernanceVerdict} {tr : List (Event SyncCall SyncResp)}
  {table table' : ApprovalTable} {f : AskStep} {steps : List AskStep}

/-- The runs of the resolver. -/
inductive SyncRuns (H : Digest) (decideFn : Bool) (taskId : Str) (action : Action)
    (verdict : GovernanceVerdict) : List (Event SyncCall SyncResp) → Except Exn Bool → Prop
  | decided (stepIndex : ℤ) (approvalId : Str) (approved : Bool)
      (asked : List (Event SyncCall SyncResp)) :
      (approved = true → decideFn = true) →
      (asked = [] ∨ asked = [⟨.decide approvalId, .ok approved⟩]) →
      SyncRuns H decideFn taskId action verdict
        (⟨.latestActionStepIndex taskId, stepIndex⟩ ::
          ⟨.insert (requestRow H taskId stepIndex action verdict), approvalId⟩ ::
          (asked ++ [⟨.updateState approvalId (decision approved), ()⟩])) (.ok approved)
  | raised (stepIndex : ℤ) (approvalId : Str) (e : Exn) : decideFn = true →
      SyncRuns H decideFn taskId action verdict
        [⟨.latestActionStepIndex taskId, stepIndex⟩,
          ⟨.insert (requestRow H taskId stepIndex action verdict), approvalId⟩,
          ⟨.decide approvalId, .error e⟩] (.error e)

theorem syncResolver_cases {answer : Except Exn Bool}
    (hrun : Runs (syncResolver H decideFn taskId action verdict).run tr answer) :
    SyncRuns H decideFn taskId action verdict tr answer := by
  unfold syncResolver at hrun
  obtain ⟨stepIndex, t, rfl, hinserted⟩ := runs_lift_perform_bind.mp hrun
  obtain ⟨approvalId, t, rfl, hasked⟩ := runs_lift_perform_bind.mp hinserted
  cases decideFn with
  | false =>
    obtain ⟨_, t, rfl, hret⟩ := runs_lift_perform_bind.mp hasked
    obtain ⟨rfl, rfl⟩ := runs_return.mp hret
    exact .decided stepIndex approvalId false [] (fun h => by cases h) (.inl rfl)
  | true =>
    obtain ⟨e, hask, rfl⟩ | ⟨_, approved, t, rfl, hask, hupdated⟩ := runs_except_bind.mp hasked
    · obtain rfl := runs_perform.mp hask
      exact .raised stepIndex approvalId e rfl
    · obtain rfl := runs_perform.mp hask
      obtain ⟨_, t, rfl, hret⟩ := runs_lift_perform_bind.mp hupdated
      obtain ⟨rfl, rfl⟩ := runs_return.mp hret
      exact .decided stepIndex approvalId approved _ (fun _ => rfl) (.inr rfl)

/-- `update_state` decides the row that was inserted last, and no other one. -/
theorem updateState_append {approvalId : Str} (hnew : approvalId ∉ table.map Prod.fst)
    (row : ApprovalRow) (state : ApprovalService.ApprovalState) :
    ApprovalTable.updateState (table ++ [(approvalId, row)]) approvalId state =
      table ++ [(approvalId, { row with state := state, decidedBy := some "service" })] := by
  have hother : ∀ entry ∈ table, (if entry.1 = approvalId then
      (entry.1, { entry.2 with state := state, decidedBy := some "service".toList })
      else entry) = id entry := by
    intro entry hentry
    have hne : entry.1 ≠ approvalId := fun heq => hnew (heq ▸ List.mem_map_of_mem hentry)
    rw [if_neg hne]
    rfl
  rw [ApprovalTable.updateState, List.map_append, List.map_congr_left hother, List.map_id,
    List.map_singleton, if_pos rfl]

theorem SyncRuns.records {answer : Except Exn Bool}
    (hrun : SyncRuns H decideFn taskId action verdict tr answer)
    (htrace : Trace SyncStep table tr table') :
    ∃ entry, table' = table ++ [entry] ∧ Recorded H decideFn taskId
      ⟨.resolve action verdict, answer.map fun approved => (approved, action, verdict)⟩
      entry.2 := by
  cases hrun with
  | decided stepIndex approvalId approved asked hfn hasked =>
    obtain ⟨_, hlatest, htrace⟩ := trace_cons.mp htrace
    obtain ⟨_, hinsert, htrace⟩ := trace_cons.mp htrace
    obtain ⟨table₂, hask, htrace⟩ := trace_append.mp htrace
    cases hlatest
    cases hinsert with
    | @insert row approvalId hnew =>
      obtain rfl : table₂ =
          table ++ [(approvalId, requestRow H taskId stepIndex action verdict)] := by
        obtain rfl | rfl := hasked
        · exact trace_nil.mp hask
        · cases trace_singleton.mp hask
          rfl
      cases trace_singleton.mp htrace
      rw [updateState_append hnew]
      exact ⟨_, rfl, .decided hfn⟩
  | raised stepIndex approvalId e hfn =>
    obtain ⟨_, hlatest, htrace⟩ := trace_cons.mp htrace
    obtain ⟨_, hinsert, htrace⟩ := trace_cons.mp htrace
    cases hlatest
    cases hinsert
    cases trace_singleton.mp htrace
    exact ⟨_, rfl, .raised e hfn⟩

/-- A call of the loop adds the row of its ask, or leaves the table alone. -/
theorem step_rows (hlinked : Linked (synchronous H decideFn taskId) f)
    (htrace : Trace SyncStep table f.inner table') :
    ∃ new, table' = table ++ new ∧ List.Forall₂ (Recorded H decideFn taskId)
      (HarnessCore.askEvents [f.event]) (new.map Prod.snd) := by
  obtain ⟨⟨c, r⟩, tr⟩ := f
  cases c with
  | resolve action verdict =>
    obtain ⟨t, answer, t', rfl, hrun, hret⟩ := runs_bind.mp hlinked
    obtain ⟨rfl, rfl⟩ := runs_pure.mp hret
    rw [List.append_nil] at htrace
    obtain ⟨entry, rfl, hrecorded⟩ := (syncResolver_cases hrun).records htrace
    exact ⟨[entry], rfl, .cons hrecorded .nil⟩
  | _ =>
    obtain rfl : tr = [] := hlinked
    obtain rfl := trace_nil.mp htrace
    exact ⟨[], (List.append_nil _).symm, .nil⟩

/-- The rows of a run are those of its asks, each once and in order. -/
theorem run_rows (hlinked : ∀ f ∈ steps, Linked (synchronous H decideFn taskId) f)
    (htrace : Trace SyncStep table (steps.flatMap Frame.inner) table') :
    ∃ new, table' = table ++ new ∧ List.Forall₂ (Recorded H decideFn taskId)
      (HarnessCore.askEvents (steps.map Frame.event)) (new.map Prod.snd) := by
  induction steps generalizing table with
  | nil =>
    obtain rfl := trace_nil.mp htrace
    exact ⟨[], (List.append_nil _).symm, .nil⟩
  | cons f steps ih =>
    obtain ⟨hf, hsteps⟩ := List.forall_mem_cons.mp hlinked
    rw [List.flatMap_cons] at htrace
    obtain ⟨table₁, hfirst, hrest⟩ := trace_append.mp htrace
    obtain ⟨new₁, rfl, hrows₁⟩ := step_rows hf hfirst
    obtain ⟨new₂, rfl, hrows₂⟩ := ih hsteps hrest
    refine ⟨new₁ ++ new₂, List.append_assoc .., ?_⟩
    have hevents : HarnessCore.askEvents ((f :: steps).map Frame.event) =
        HarnessCore.askEvents [f.event] ++ HarnessCore.askEvents (steps.map Frame.event) :=
      List.filter_append [f.event] (steps.map Frame.event)
    rw [hevents, List.map_append]
    exact List.rel_append hrows₁ hrows₂

/-- The approved rows are those of the granted asks. -/
theorem approved_fps {es : List HarnessCore.Ev} {rows : List ApprovalRow}
    (h : List.Forall₂ (Recorded H decideFn taskId) es rows) :
    (rows.filter fun row => row.state = .approved).map ApprovalRow.actionFingerprint =
      es.filterMap (HarnessCore.grantedFp? H) := by
  induction h with
  | nil => rfl
  | cons hrecorded _ ih =>
    cases hrecorded with
    | @decided _ action _ approved _ =>
      cases approved with
      | true =>
        rw [List.filter_cons_of_pos (by rfl), List.map_cons, ih]
        rfl
      | false =>
        rw [List.filter_cons_of_neg (by simp [decision]), ih]
        rfl
    | raised e _ =>
      rw [List.filter_cons_of_neg (by simp [requestRow]), ih]
      rfl

/-- A PENDING row is that of an ask that raised. -/
theorem Recorded.raised_of_pending {e : HarnessCore.Ev} {row : ApprovalRow}
    (h : Recorded H decideFn taskId e row) (hpending : row.state = .pending) :
    HarnessCore.isRaisedAsk e = true := by
  cases h with
  | decided _ => exact absurd hpending (ApprovalService.decision_ne_pending _)
  | raised e _ => rfl

theorem Recorded.rejected {e : HarnessCore.Ev} {row : ApprovalRow}
    (h : Recorded H false taskId e row) : row.state = .rejected := by
  cases h with
  | @decided _ _ _ approved hfn =>
    cases approved with
    | true => cases hfn rfl
    | false => rfl
  | raised e hfn => cases hfn

end Rows

/-- A run whose asks the service answers inline leaves one row for each of them, in order,
with what was asked for and how it was decided. The approved executions are those of the
approved rows; a row stays PENDING only if the decision function raised, and that was the
last ask of a run that says INTERNAL_ERROR. Without a decision function every row is rejected
and nothing that needs an approval is executed. -/
theorem sync_approvals_of_run (h : HarnessCore) (fuel : ℕ) (task : Str) (decideFn : Bool)
    (steps : List AskStep) (out : Option (Except Exn TerminationReason))
    (hrun : Runs (h.run fuel task) (steps.map Frame.event) out)
    (hlinked : ∀ f ∈ steps, Linked (synchronous h.sha256 decideFn h.taskId) f)
    (table table' : ApprovalTable)
    (htrace : Trace SyncStep table (steps.flatMap Frame.inner) table') :
    ∃ new, table' = table ++ new ∧
      List.Forall₂ (Recorded h.sha256 decideFn h.taskId)
        (HarnessCore.askEvents (steps.map Frame.event)) (new.map Prod.snd) ∧
      (((new.map Prod.snd).filter fun row => row.state = .approved).map
        ApprovalRow.actionFingerprint) =
          (steps.map Frame.event).filterMap HarnessCore.executedFp? ∧
      (∀ before entry after reason, new = before ++ entry :: after →
        entry.2.state = .pending → out = some (.ok reason) →
        after = [] ∧ reason = .internalError) ∧
      (decideFn = false → (∀ entry ∈ new, entry.2.state = .rejected) ∧
        (steps.map Frame.event).filterMap HarnessCore.executedFp? = []) := by
  obtain ⟨new, htable, hrows⟩ := run_rows hlinked htrace
  have hfps : (((new.map Prod.snd).filter fun row => row.state = .approved).map
      ApprovalRow.actionFingerprint) =
        (steps.map Frame.event).filterMap HarnessCore.executedFp? := by
    rw [approved_fps hrows, HarnessCore.run_executedFps hrun]
  refine ⟨new, htable, hrows, hfps, ?_, ?_⟩
  · rintro before entry after reason rfl hpending rfl
    rw [List.map_append, List.map_cons] at hrows
    have hlast := List.forall₂_drop_append _ _ _ hrows
    obtain ⟨e, later, hrecorded, hafter, hdrop⟩ := List.forall₂_cons_right_iff.mp hlast
    have hsplit : HarnessCore.askEvents (steps.map Frame.event) =
        (HarnessCore.askEvents (steps.map Frame.event)).take (before.map Prod.snd).length ++
          e :: later := by
      rw [← hdrop, List.take_append_drop]
    obtain ⟨rfl, hreason⟩ :=
      HarnessCore.run_raisedAsk hrun hsplit (hrecorded.raised_of_pending hpending)
    exact ⟨List.map_eq_nil_iff.mp (List.forall₂_nil_left_iff.mp hafter), hreason⟩
  · rintro rfl
    have hrejected : ∀ row ∈ new.map Prod.snd, row.state = .rejected := by
      intro row hrow
      obtain ⟨i, hi, rfl⟩ := List.mem_iff_getElem.mp hrow
      exact (hrows.get (hrows.length_eq ▸ hi) hi).rejected
    refine ⟨fun entry hentry => hrejected _ (List.mem_map_of_mem hentry), ?_⟩
    rw [← hfps, List.map_eq_nil_iff, List.filter_eq_nil_iff]
    intro row hrow
    simp [hrejected row hrow]

/-! ## A run whose write is approved inline -/

def approvedRow : ApprovalRow :=
  requestRow writingHarness.sha256 writingHarness.taskId 0 writeAction writeVerdict

/-- What the resolver does in the run that writes a file. -/
def askedRun : List AskStep :=
  writingRun.map fun g => ⟨g.event, if HarnessCore.isAsk g.event then
    [⟨.latestActionStepIndex writingHarness.taskId, (0 : ℤ)⟩, ⟨.insert approvedRow, "a1".toList⟩,
      ⟨.decide "a1", .ok true⟩, ⟨.updateState "a1" .approved, ()⟩] else []⟩

theorem askedRun_linked : ∀ f ∈ askedRun,
    Linked (synchronous writingHarness.sha256 true writingHarness.taskId) f := by
  simp only [askedRun, writingRun, List.map_cons, List.forall_mem_cons]
  exact ⟨rfl, rfl, rfl, rfl, rfl, rfl, .call (.call (.call (.call (.ret _)))), rfl, rfl, rfl, rfl,
    rfl, rfl, fun _ h => absurd h List.not_mem_nil⟩

def askedTable : ApprovalTable :=
  [("a1".toList, { approvedRow with state := .approved, decidedBy := some "service" })]

theorem askedRun_table : Trace SyncStep [] (askedRun.flatMap Frame.inner) askedTable :=
  .snoc (.snoc (.snoc (.snoc .nil .latest) (.insert (by simp))) .decide) .update

theorem askedRun_runs : Runs (writingHarness.run 3 "fix the bug") (askedRun.map Frame.event)
    (some (.ok .maxSteps)) := writingRun_runs

theorem sync_approvals_of_run_approved :
    (((askedTable.map Prod.snd).filter fun row => row.state = .approved).map
      ApprovalRow.actionFingerprint) =
        (askedRun.map Frame.event).filterMap HarnessCore.executedFp? := by
  obtain ⟨new, htable, -, hfps, -⟩ := sync_approvals_of_run writingHarness 3 "fix the bug" true
    askedRun _ askedRun_runs askedRun_linked [] _ askedRun_table
  obtain rfl : askedTable = new := htable
  exact hfps

end AegisCode
