import AegisCode.AuditedRuns
import AegisCode.ReplayedRuns
import AegisCode.StructuredPayloads

/-!
# Replaying the rows of the table

`append` stores a redacted text of the payload, and a reader of the table gets the JSON
value of that text. What the replay asks of an event survives both, so the rows of a task
tell the counters of its run as the events themselves do.
-/
namespace AegisCode

open Program Prog HarnessCore AuditChain
open Redactor (redact Clean scrubLiteral)
open Json (Decoder Readable canon decoded mapStrings loads)

/-! ## Words that redaction leaves alone -/

/-- No word that takes a credential's place has these letters. -/
def Plain (w : Str) : Prop := '[' ∉ w ∧ Clean w

theorem scrubLiteral_eq_iff {s w : Str} (hw : Plain w) : scrubLiteral s = w ↔ s = w := by
  constructor
  · intro heq
    have hreplaced := Redactor.replaced_scrubLiteral s
    rw [heq, ← List.append_nil w] at hreplaced
    obtain ⟨s', rfl, hnil⟩ := hreplaced.word hw.1
    generalize ht : ([] : Str) = t at hnil
    cases hnil with
    | nil => exact List.append_nil w
    | keep c _ => cases ht
    | hide _ _ => simp at ht
  · rintro rfl
    exact (Redactor.replaced_scrubLiteral s).eq_of_clean hw.2

theorem plain_decision (decision : Decision) : Plain decision.value := by
  cases decision <;> exact ⟨by decide, by decide⟩

theorem plain_reason (reason : TerminationReason) : Plain reason.value := by
  cases reason <;> exact ⟨by decide, by decide⟩

/-! ## A stored payload -/

/-- What a reader of the table gets of a value. -/
def storedValue (v : Json) : Json := decoded (mapStrings scrubLiteral (canon v))

namespace Json

theorem lookup_decodedMembers {g : Str → Str} {ms : List (Str × Json)}
    (hfixed : ∀ m ∈ ms, g m.1 = m.1) (key : Str) :
    (decodedMembers (mapMembers g ms)).lookup key =
      (ms.lookup key).map fun v => decoded (mapStrings g v) := by
  induction ms with
  | nil => rfl
  | cons m ms ih =>
    obtain ⟨hm, hms⟩ := List.forall_mem_cons.mp hfixed
    rw [mapMembers, decodedMembers, List.lookup_cons, List.lookup_cons, ih hms, hm]
    cases key == m.1 <;> rfl

/-- The members of a payload whose keys differ and have no credentials. -/
theorem storedValue_obj {ms : Dict} (hnodup : (ms.map Prod.fst).Nodup)
    (hclean : ∀ key ∈ ms.map Prod.fst, Clean key) : ∃ read : Dict,
      storedValue (.obj ms) = .obj read ∧ ∀ key, read.get? key = (ms.get? key).map storedValue := by
  have hperm : ((canonMembers ms).insertionSort fun a b => a.1 ≤ b.1).map Prod.fst |>.Perm
      (ms.map Prod.fst) := by
    rw [← map_fst_canonMembers ms]
    exact (List.perm_insertionSort _ _).map _
  have hfixed : ∀ m ∈ (canonMembers ms).insertionSort fun a b => a.1 ≤ b.1,
      scrubLiteral m.1 = m.1 := by
    intro m hm
    have hkey := hclean m.1 (hperm.mem_iff.mp (List.mem_map_of_mem hm))
    exact (Redactor.replaced_scrubLiteral m.1).eq_of_clean hkey
  have hkeys : ((canonMembers ms).insertionSort fun a b => a.1 ≤ b.1).map
      (fun m => scrubLiteral m.1) =
        ((canonMembers ms).insertionSort fun a b => a.1 ≤ b.1).map Prod.fst :=
    List.map_congr_left hfixed
  refine ⟨_, rfl, fun key => ?_⟩
  rw [dictOf_eq, Dict.get?, lookup_decodedMembers hfixed, lookup_canonMembers, Option.map_map]
  · rfl
  · rw [map_fst_decodedMembers, hkeys]
    exact hperm.nodup_iff.mpr hnodup

end Json

/-! ## Events as the reader gets them -/

namespace HarnessCore

/-- The second event has the values of the first one, as a reader of the table gets them. -/
structure ReadAs (e e' : AuditEvent) : Prop where
  stepIndex : e'.stepIndex = e.stepIndex
  eventType : e'.eventType = e.eventType
  payload : ∀ key, e'.payload.get? key = (e.payload.get? key).map storedValue

section Reading
variable {e e' : AuditEvent} {log log' : List AuditEvent}

theorem ReadAs.text (h : ReadAs e e') (key : Str) :
    e'.text key = (e.text key).map scrubLiteral := by
  unfold AuditEvent.text
  rw [h.payload]
  cases e.payload.get? key with
  | none => rfl
  | some v => cases v <;> rfl

theorem ReadAs.text_iff (h : ReadAs e e') (key : Str) {w : Str} (hw : Plain w) :
    e'.text key = some w ↔ e.text key = some w := by
  rw [h.text]
  cases e.text key with
  | none => simp
  | some s => rw [Option.map_some, Option.some_inj, Option.some_inj, scrubLiteral_eq_iff hw]

theorem ReadAs.decision (h : ReadAs e e') : e'.decision = e.decision := by
  unfold AuditEvent.decision
  congr
  funext decision
  exact decide_eq_decide.mpr (h.text_iff _ (plain_decision decision))

theorem ReadAs.reason (h : ReadAs e e') : e'.reason = e.reason := by
  unfold AuditEvent.reason
  congr
  funext reason
  exact decide_eq_decide.mpr (h.text_iff _ (plain_reason reason))

theorem ReadAs.next (h : ReadAs e e') (limits : Limits) (r : Replay) :
    r.next limits e' = r.next limits e := by
  have herror : (e'.payload.get? "error").isSome = (e.payload.get? "error").isSome := by
    rw [h.payload, Option.isSome_map]
  have happroved := h.text_iff "state" (w := "APPROVED") ⟨by decide, by decide⟩
  have hsuperseded := h.text_iff "state" (w := "SUPERSEDED") ⟨by decide, by decide⟩
  have hfinish := h.text_iff "tool" (w := "finish") ⟨by decide, by decide⟩
  have hrepeated := h.text_iff "detail" (w := "NO_PROGRESS: repeated action detected")
    ⟨by decide, by decide⟩
  have hsuccess := h.text_iff "category" (w := "SUCCESS") ⟨by decide, by decide⟩
  simp only [Replay.next, Replay.ofProposal, Replay.stop, Replay.ofApproval, Replay.ofExecution,
    afterFeedback, h.eventType, h.decision, h.reason, herror, happroved, hsuperseded, hfinish,
    hrepeated, hsuccess]

theorem ReadAs.event (h : ReadAs e e') (limits : Limits) (r : Replay) :
    r.event limits e' = r.event limits e := by
  unfold Replay.event
  rw [h.next, h.stepIndex]

end Reading

/-! ## What a run can log -/

/-- The payloads of the loop. -/
inductive LoggedPayload : Dict → Prop
  | termination (reason : TerminationReason) : LoggedPayload (terminationPayload reason)
  | parseError (raw error : Str) : LoggedPayload (parseErrorPayload raw error)
  | proposed (action : Action) : LoggedPayload (proposedPayload action)
  | decision (action : Action) (verdict : GovernanceVerdict) :
      LoggedPayload (decisionPayload action verdict)
  | approval (action : Action) (state : Str) : LoggedPayload (approvalPayload action state)
  | superseded (action : Action) (result : ToolResult) :
      LoggedPayload (supersededPayload action result)
  | tool (action : Action) (result : ToolResult) : LoggedPayload (toolPayload action result)
  | feedback (category detail : Str) : LoggedPayload (feedbackPayload category detail)

theorem LoggedPayload.keys {payload : Dict} (h : LoggedPayload payload) :
    (payload.map Prod.fst).Nodup ∧ ∀ key ∈ payload.map Prod.fst, Clean key := by
  have hkeys : ∀ keys : List Str, payload.map Prod.fst = keys →
      (keys.Nodup ∧ ∀ key ∈ keys, key.length < 16) →
        (payload.map Prod.fst).Nodup ∧ ∀ key ∈ payload.map Prod.fst, Clean key := by
    rintro keys rfl ⟨hnodup, hshort⟩
    exact ⟨hnodup, fun key hkey => Redactor.clean_short (hshort key hkey)⟩
  cases h with
  | termination reason => exact hkeys ["reason"] rfl (by decide)
  | parseError raw error => exact hkeys ["raw", "error"] rfl (by decide)
  | proposed action => exact hkeys ["tool", "arguments"] rfl (by decide)
  | decision action verdict => exact hkeys ["tool", "decision", "rule", "reason"] rfl (by decide)
  | approval action state => exact hkeys ["tool", "state"] rfl (by decide)
  | superseded action result => exact hkeys ["tool", "state", "detail"] rfl (by decide)
  | feedback category detail => exact hkeys ["category", "detail"] rfl (by decide)
  | tool action result =>
    unfold toolPayload at hkeys ⊢
    cases hfiles : (result.artifacts.get? "changed_files").filter Json.truthy with
    | none => exact hfiles ▸ hkeys ["tool", "status"] (by rw [hfiles]; rfl) (by decide)
    | some files =>
      exact hfiles ▸ hkeys ["tool", "status", "changed_files"] (by rw [hfiles]; rfl) (by decide)

section Logged
variable {h : HarnessCore} {task : Str} {start : ℤ} {s : LoopState} {t : List Ev}

/-- Every event of these calls is one that the loop can log. -/
def AllLogged (t : List Ev) : Prop := ∀ e ∈ auditLog t, LoggedPayload e.payload

theorem AllLogged.append {t' : List Ev} (ht : AllLogged t) (ht' : AllLogged t') :
    AllLogged (t ++ t') := by
  intro e he
  rw [auditLog_append] at he
  obtain he | he := List.mem_append.mp he
  · exact ht e he
  · exact ht' e he

theorem allLogged_nil : AllLogged [] := List.forall_mem_nil _

theorem allLogged_of_auditLog (hlog : auditLog t = []) : AllLogged t := by
  intro e he
  rw [hlog] at he
  cases he

theorem AllLogged.call {c : Call} {r : Resp c} (hcall : auditEvent ⟨c, r⟩ = none)
    (ht : AllLogged t) : AllLogged (⟨c, r⟩ :: t) := by
  intro e he
  rw [auditLog_cons, hcall] at he
  exact ht e he

theorem AllLogged.log {c : LoopCounters} {eventType : EventType} {payload : Dict}
    (hpayload : LoggedPayload payload) (ht : AllLogged t) :
    AllLogged (h.logged c eventType payload :: t) := by
  intro e he
  rw [auditLog_cons] at he
  obtain rfl | he := List.mem_cons.mp he
  · exact hpayload
  · exact ht e he

theorem Concludes.allLogged {gated : Gated} {out : Except Exn Outcome}
    (hc : h.Concludes s gated t out) : AllLogged t := by
  cases hc with
  | denied _ => exact .log (.feedback _ _) allLogged_nil
  | noResult _ => exact allLogged_nil
  | verifierRaised _ _ _ => exact .log (.tool _ _) (.call rfl allLogged_nil)
  | completed _ _ =>
    exact .log (.tool _ _) (.call rfl (.log (.termination _) allLogged_nil))
  | finishRejected _ _ =>
    exact .log (.tool _ _) (.call rfl (.log (.feedback _ _) allLogged_nil))
  | executed _ _ => exact .log (.tool _ _) (.log (.feedback _ _) allLogged_nil)

theorem Approves.allLogged {verdict : GovernanceVerdict} {action : Action}
    {out : Except Exn (LoopState ⊕ Gated)} (ha : h.Approves s verdict action t out) :
    AllLogged t := by
  cases ha with
  | noResolver _ => exact .log (.approval _ _) allLogged_nil
  | resolverRaised _ => exact .call rfl allLogged_nil
  | rejected _ _ => exact .call rfl (.log (.approval _ _) allLogged_nil)
  | executionRaised _ _ _ => exact .call rfl (.call rfl allLogged_nil)
  | superseded _ _ _ _ _ =>
    exact .call rfl (.call rfl (.log (.superseded _ _) (.log (.feedback _ _) allLogged_nil)))
  | approved _ _ _ _ _ => exact .call rfl (.call rfl (.log (.approval _ _) allLogged_nil))

theorem Acts.allLogged {action : Action} {out : Except Exn Outcome} (ha : h.Acts s action t out) :
    AllLogged t := by
  cases ha with
  | dispatchRaised _ => exact .log (.proposed _) (.call rfl allLogged_nil)
  | judged _ hc => exact .log (.proposed _) (.call rfl (.log (.decision _ _) hc.allLogged))
  | approvalRaised _ _ ha =>
    exact .log (.proposed _) (.call rfl (.log (.decision _ _) ha.allLogged))
  | unapproved _ ha => exact .log (.proposed _) (.call rfl (.log (.decision _ _) ha.allLogged))
  | approved _ ha hc =>
    exact .log (.proposed _) (.call rfl (.log (.decision _ _) (ha.allLogged.append hc.allLogged)))

theorem Attempts.allLogged {out : Except Exn Outcome} (ha : h.Attempts task s t out) :
    AllLogged t := by
  cases ha with
  | memoryRaised _ _ => exact .call rfl allLogged_nil
  | llmError hr hc =>
    exact (allLogged_of_auditLog hr.auditLog_eq).append
      ((allLogged_of_auditLog hc.auditLog_eq).append (.log (.termination _) allLogged_nil))
  | unparsed hr hc _ _ =>
    exact (allLogged_of_auditLog hr.auditLog_eq).append
      ((allLogged_of_auditLog hc.auditLog_eq).append
        (.log (.parseError _ _) (.log (.feedback _ _) allLogged_nil)))
  | parserRaised hr hc _ _ =>
    exact (allLogged_of_auditLog hr.auditLog_eq).append (allLogged_of_auditLog hc.auditLog_eq)
  | acted hr hc _ ha =>
    exact (allLogged_of_auditLog hr.auditLog_eq).append
      ((allLogged_of_auditLog hc.auditLog_eq).append ha.allLogged)

theorem turn_allLogged {outcome : Outcome} (hrun : Runs (h.turn task start s) t outcome) :
    AllLogged t := by
  have hopening : ∀ now, AllLogged (h.opening now) :=
    fun now => allLogged_of_auditLog (auditLog_opening now)
  cases turn_cases hrun with
  | limit now _ => exact .call rfl (.log (.termination _) allLogged_nil)
  | cancelled now _ _ => exact .call rfl (.call rfl (.log (.termination _) allLogged_nil))
  | attempted now _ ha => exact (hopening now).append ha.allLogged
  | failed now _ _ ha =>
    exact (hopening now).append (ha.allLogged.append (.log (.termination _) allLogged_nil))

theorem run_allLogged {fuel : ℕ} {tr : List Ev} {out : Option (Except Exn TerminationReason)}
    (hrun : Runs (h.run fuel task) tr out) : AllLogged tr := by
  obtain rfl | ⟨start, ts, s, hit, hend⟩ := run_iterates hrun
  · exact allLogged_nil
  · have hturns : AllLogged ts.flatten := by
      refine hit.history (I := fun ts _ => AllLogged ts.flatten) allLogged_nil ?_
      intro ts s t s' hbefore hstep
      rw [List.flatten_append, List.flatten_singleton]
      exact hbefore.append (turn_allLogged hstep)
    obtain rfl | ⟨last, reason, rfl, hlast⟩ := hend
    · exact .call rfl hturns
    · rw [List.flatten_append, List.flatten_singleton]
      exact .call rfl (hturns.append (turn_allLogged hlast))

end Logged

end HarnessCore

/-! ## Reading the rows -/

def eventTypes : List EventType :=
  [.actionProposed, .governanceDecision, .approvalRequested, .approvalDecided, .toolExecuted,
    .feedback, .termination]

def EventType.ofText (text : Str) : Option EventType := eventTypes.find? fun t => text = t.str

/-- The event that a row of `list_since` shows, if its columns can be read. -/
def readRow (D : Decoder) (row : StoredEvent) : Option AuditEvent :=
  match row.stepIndex, row.eventType.bind EventType.ofText, row.payloadJson.bind (loads D) with
  | some stepIndex, some eventType, some (.obj payload) =>
    some ⟨row.taskId, stepIndex.toNat, eventType, payload⟩
  | _, _, _ => none

/-- The reader of the log, with rows for events. -/
def replayRows (D : Decoder) (limits : Limits) (rows : List StoredEvent) : Option Replay :=
  rows.foldlM (fun r row => (readRow D row).bind (r.event limits)) ⟨{}, .between⟩

section Rows
variable {D : Decoder} {row : StoredEvent} {rows : List StoredEvent} {e : AuditEvent}
  {log : List AuditEvent}

theorem ofText_str (eventType : EventType) : EventType.ofText eventType.str = some eventType := by
  cases eventType <;> decide

/-- What `json.loads` makes of a stored payload, if it can read it. -/
theorem loads_stored {v : Json} (hreadable : Readable D v)
    (hloads : (loads D (redact (Json.dumps (canon v)) none)).isSome) :
    loads D (redact (Json.dumps (canon v)) none) = some (storedValue v) := by
  have htext : redact (Json.dumps (canon v)) none =
      Json.printWith (fun s => Redactor.scrub id "[REDACTED]".toList (s.flatMap Json.escape))
        (canon v) := Redactor.scrub_dumps _
  have hcanon : Readable D (mapStrings scrubLiteral (canon v)) :=
    (Json.Readable.canon _ hreadable).mapStrings
  rw [htext] at hloads ⊢
  obtain ⟨-, hread⟩ | ⟨-, hnone⟩ := Redactor.codes_scrub.loads hcanon
  · exact hread
  · rw [hnone] at hloads
    cases hloads

theorem readRow_recorded (hrow : untimed row.toColumns = recorded e)
    (hpayload : LoggedPayload e.payload) (hreadable : Readable D (.obj e.payload))
    (hloads : ∀ text ∈ row.payloadJson, (loads D text).isSome) :
    ∃ e', readRow D row = some e' ∧ ReadAs e e' := by
  have hstep : row.stepIndex = some (e.stepIndex : ℤ) := congrArg Columns.stepIndex hrow
  have htype : row.eventType = some e.eventType.str := congrArg Columns.eventType hrow
  have htext : row.payloadJson = some (redact (Json.dumps (canon (.obj e.payload))) none) :=
    congrArg Columns.payloadJson hrow
  have hvalue := loads_stored hreadable (hloads _ htext)
  obtain ⟨hnodup, hclean⟩ := hpayload.keys
  obtain ⟨read, hread, hget⟩ := Json.storedValue_obj hnodup hclean
  refine ⟨⟨row.taskId, e.stepIndex, e.eventType, read⟩, ?_, rfl, rfl, hget⟩
  unfold readRow
  rw [hstep, htype, htext, Option.bind_some, Option.bind_some, ofText_str, hvalue, hread]
  rfl

/-- Rows that show the events of a log are followed as the log is. -/
theorem foldlM_readRow (limits : Limits)
    (h : List.Forall₂ (fun row e => ∃ e', readRow D row = some e' ∧ ReadAs e e') rows log) :
    ∀ r : Replay, rows.foldlM (fun r row => (readRow D row).bind (r.event limits)) r =
      r.events limits log := by
  induction h with
  | nil => exact fun r => rfl
  | cons hrow _ ih =>
    intro r
    obtain ⟨e', hread, hsame⟩ := hrow
    rw [List.foldlM_cons, hread, Option.bind_some, hsame.event, Replay.events_cons]
    exact Option.bind_congr fun r' _ => ih r'

end Rows

/-- Lists with the same images are related as the images allow. -/
theorem forall₂_of_map_eq {α β γ : Type} {f : α → γ} {g : β → γ} {P : α → β → Prop} {xs : List α}
    {ys : List β} (h : xs.map f = ys.map g) (hP : ∀ x ∈ xs, ∀ y ∈ ys, f x = g y → P x y) :
    List.Forall₂ P xs ys := by
  induction xs generalizing ys with
  | nil =>
    obtain rfl := List.map_eq_nil_iff.mp h.symm
    exact .nil
  | cons x xs ih =>
    obtain ⟨y, ys, rfl, hy, hys⟩ := List.map_eq_cons_iff.mp h.symm
    refine .cons (hP x (.head _) y (.head _) hy.symm) (ih hys.symm fun x hx y hy => ?_)
    exact hP x (.tail _ hx) y (.tail _ hy)

/-! ## The rows of a run -/

/-- However the threads interleave: from the first rows of a task, as `list_since` and
`json.loads` give them, a reader gets what the first events of its run give, and it never
meets a row that the counters do not allow. Once the thread has returned a reason, the rows
end with this reason. -/
theorem rows_replay {ι : Type} [DecidableEq ι] (H : Digest) (runners : ι → Runner)
    (hids : Function.Injective fun i => (runners i).harness.taskId) (ls : List (AuditedLabel ι))
    (s : AuditedState ι) (h : AuditedRun H runners ls s) (i : ι) (D : Decoder)
    (hfree : NoProgressFree (auditedEvents i ls))
    (hreadable : ∀ e ∈ auditLog (auditedEvents i ls), Readable D (.obj e.payload))
    (hloads : ∀ row ∈ listSince (storedEvents s.writers.table) (runners i).harness.taskId 0,
      ∀ text ∈ row.payloadJson, (loads D text).isSome) :
    let limits := (runners i).harness.config.limits
    let rows := listSince (storedEvents s.writers.table) (runners i).harness.taskId 0
    let log := auditLog (auditedEvents i ls)
    (∀ n, replayRows D limits (rows.take n) = replay limits (log.take n)) ∧
      (∃ r, replayRows D limits rows = some r) ∧
      ∀ reason, s.program i = .ret (some (.ok reason)) → Explains limits log reason ∧
        ∃ c, replayRows D limits rows = some ⟨c, .ended reason⟩ := by
  intro limits rows log
  have hagrees := h.agrees hids i
  have hevents : rows.map StoredEvent.toEventRow =
      rowsOf (runners i).harness.taskId s.writers.table :=
    map_listSince_zero s.writers.table _
  have hrows : (rows.map fun row => untimed row.toColumns) = log.map recorded := by
    rw [← hagrees.rows, ← hevents, List.map_map]
    rfl
  obtain ⟨tr', out, hrun, hfree'⟩ := exists_run_of_reaches hagrees.reaches hfree
  have hlogged : AllLogged (auditedEvents i ls) := by
    intro e he
    refine run_allLogged hrun e ?_
    rw [auditLog_append]
    exact List.mem_append_left _ he
  have hread : List.Forall₂ (fun row e => ∃ e', readRow D row = some e' ∧ ReadAs e e') rows log :=
    forall₂_of_map_eq hrows fun row hrow e he heq =>
      readRow_recorded heq (hlogged e he) (hreadable e he) (hloads row hrow)
  have hall : replayRows D limits rows = replay limits log := foldlM_readRow limits hread _
  refine ⟨fun n => foldlM_readRow limits (List.forall₂_take n hread) _, ?_, fun reason hret => ?_⟩
  · rw [hall]
    exact reaches_accepted hagrees.reaches hfree
  · have hreaches := hagrees.reaches
    rw [hret] at hreaches
    have hdone : Runs (runners i).program (auditedEvents i ls) (some (.ok reason)) := by
      simpa using hreaches.runs (.ret _)
    obtain ⟨c, hreplay⟩ := run_replay hdone hfree
    rw [hall]
    exact ⟨explains_of_replay hreplay, c, hreplay⟩

/-! ## The rows of two tasks -/

def leakAction : Action :=
  { tool := "write_file"
    arguments := [("path", .str ".env"), ("content", .str "token=abcdefghijklmnop")] }

def leakVerdict : GovernanceVerdict := ⟨.deny, "PATH_FENCE", "sensitive file blocked: .env"⟩

def leakResult : ToolResult := deniedResult leakAction leakVerdict.reason

def leakFeedback : Str := formatFeedback "POLICY_DENIED" leakResult

/-- Two tasks of one step, in which the model tries to write a token. -/
def leakingRunner (b : Bool) : Runner where
  harness := { writingHarness with
    taskId := if b then "t2" else "t1"
    parseAction := fun _ => .ok leakAction }
  dispatcher := askingDispatcher
  ctx := gateContext
  fuel := 3
  task := "fix the bug"

/-- The events of the first one. -/
def leakLog : List AuditEvent :=
  [⟨"t1", 0, .actionProposed, proposedPayload leakAction⟩,
    ⟨"t1", 0, .governanceDecision, decisionPayload leakAction leakVerdict⟩,
    ⟨"t1", 0, .feedback, feedbackPayload "POLICY_DENIED" leakFeedback⟩,
    ⟨"t1", 1, .termination, terminationPayload .maxSteps⟩]

/-- The steps of one of the tasks. -/
def leakSteps (b : Bool) : List (AuditedLabel Bool) :=
  let h := (leakingRunner b).harness
  [.call b ⟨.monotonic, (0 : ℤ)⟩, .call b ⟨.monotonic, (0 : ℤ)⟩,
    .call b ⟨.complete (h.messages "fix the bug" h.initialState []), .ok "write"⟩,
    .read b "2026-01-01T00:00:00+00:00",
    .insert b (h.logged {} .actionProposed (proposedPayload leakAction)),
    .call b ⟨.dispatch leakAction, .ok (leakVerdict, some leakResult, leakAction)⟩,
    .read b "2026-01-01T00:00:01+00:00",
    .insert b (h.logged {} .governanceDecision (decisionPayload leakAction leakVerdict)),
    .read b "2026-01-01T00:00:02+00:00",
    .insert b (h.logged {} .feedback (feedbackPayload "POLICY_DENIED" leakFeedback)),
    .call b ⟨.monotonic, (0 : ℤ)⟩, .read b "2026-01-01T00:00:03+00:00",
    .insert b (h.stopped (failStep {}) .maxSteps)]

/-- The tasks take turns, inside their appends too. -/
def leakLabels : List (AuditedLabel Bool) :=
  ((leakSteps false).zip (leakSteps true)).flatMap fun ls => [ls.1, ls.2]

theorem leakLabels_run : ∃ s, AuditedRun sampleDigest leakingRunner leakLabels s ∧
    ∀ b, s.program b = .ret (some (.ok .maxSteps)) := by
  have hfits : fitsInteger (1 : ℕ) = true := by decide
  exact ⟨_, .cons (.call _ rfl rfl) (.cons (.call _ rfl rfl)
    (.cons (.call _ rfl rfl) (.cons (.call _ rfl rfl)
    (.cons (.call _ rfl rfl) (.cons (.call _ rfl rfl)
    (.cons (.read _ _ rfl rfl) (.cons (.read _ _ rfl rfl)
    (.cons (.insert_of_pending rfl rfl fitsInteger_zero)
    (.cons (.insert_of_pending rfl rfl fitsInteger_zero)
    (.cons (.call _ rfl rfl) (.cons (.call _ rfl rfl)
    (.cons (.read _ _ rfl rfl) (.cons (.read _ _ rfl rfl)
    (.cons (.insert_of_pending rfl rfl fitsInteger_zero)
    (.cons (.insert_of_pending rfl rfl fitsInteger_zero)
    (.cons (.read _ _ rfl rfl) (.cons (.read _ _ rfl rfl)
    (.cons (.insert_of_pending rfl rfl fitsInteger_zero)
    (.cons (.insert_of_pending rfl rfl fitsInteger_zero)
    (.cons (.call _ rfl rfl) (.cons (.call _ rfl rfl)
    (.cons (.read _ _ rfl rfl) (.cons (.read _ _ rfl rfl)
    (.cons (.insert_of_pending rfl rfl hfits)
    (.cons (.insert_of_pending rfl rfl hfits) .nil))))))))))))))))))))))))),
    fun b => by cases b <;> rfl⟩

theorem leak_auditLog : auditLog (auditedEvents false leakLabels) = leakLog := rfl

theorem leak_free : NoProgressFree (auditedEvents false leakLabels) := by
  intro e he result hresult
  have hevents : auditedEvents false leakLabels =
      let h := (leakingRunner false).harness
      [⟨.monotonic, (0 : ℤ)⟩, ⟨.monotonic, (0 : ℤ)⟩,
        ⟨.complete (h.messages "fix the bug" h.initialState []), .ok "write"⟩,
        h.logged {} .actionProposed (proposedPayload leakAction),
        ⟨.dispatch leakAction, .ok (leakVerdict, some leakResult, leakAction)⟩,
        h.logged {} .governanceDecision (decisionPayload leakAction leakVerdict),
        h.logged {} .feedback (feedbackPayload "POLICY_DENIED" leakFeedback),
        ⟨.monotonic, (0 : ℤ)⟩, h.stopped (failStep {}) .maxSteps] := rfl
  rw [hevents] at he
  simp only [List.mem_cons, List.not_mem_nil, or_false] at he
  obtain rfl | rfl | rfl | rfl | rfl | rfl | rfl | rfl | rfl := he
  all_goals cases hresult
  decide

theorem stored_leaks : ∀ e ∈ leakLog, (loads payloadDecoder
    (redact (Json.dumps (canon (.obj e.payload))) none)).isSome = true := by
  decide +kernel

theorem rows_replay_overlapping : ∃ s, AuditedRun sampleDigest leakingRunner leakLabels s ∧
    ∃ c, replayRows payloadDecoder (leakingRunner false).harness.config.limits
      (listSince (storedEvents s.writers.table) "t1" 0) = some ⟨c, .ended .maxSteps⟩ := by
  obtain ⟨s, hrun, hret⟩ := leakLabels_run
  have hids : Function.Injective fun b => (leakingRunner b).harness.taskId := by
    intro a b hab
    cases a <;> cases b <;> first | rfl | exact absurd hab (by decide)
  have hreadable : ∀ e ∈ auditLog (auditedEvents false leakLabels),
      Readable payloadDecoder (.obj e.payload) := by
    rw [leak_auditLog]
    simp only [leakLog, List.forall_mem_cons]
    exact ⟨⟨trivial, ⟨trivial, trivial, trivial⟩, trivial⟩,
      ⟨trivial, trivial, trivial, trivial, trivial⟩, ⟨trivial, trivial, trivial⟩,
      ⟨trivial, trivial⟩, fun _ h => absurd h List.not_mem_nil⟩
  have hloads : ∀ row ∈ listSince (storedEvents s.writers.table) "t1" 0,
      ∀ text ∈ row.payloadJson, (loads payloadDecoder text).isSome := by
    intro row hrow text htext
    have hmem : row.toEventRow ∈ rowsOf "t1" s.writers.table := by
      rw [← map_listSince_zero]
      exact List.mem_map_of_mem hrow
    have hrecorded := List.mem_map_of_mem (f := fun row => untimed row.toColumns) hmem
    have hrows : (rowsOf "t1" s.writers.table).map (fun row => untimed row.toColumns) =
        (auditLog (auditedEvents false leakLabels)).map recorded :=
      (hrun.agrees hids false).rows
    rw [hrows, leak_auditLog] at hrecorded
    obtain ⟨e, he, heq⟩ := List.mem_map.mp hrecorded
    obtain rfl := Option.some.inj ((congrArg Columns.payloadJson heq).trans htext)
    exact stored_leaks e he
  obtain ⟨-, -, hended⟩ := rows_replay sampleDigest leakingRunner hids _ s hrun false payloadDecoder
    leak_free hreadable hloads
  exact ⟨s, hrun, (hended .maxSteps (hret false)).2⟩

end AegisCode
