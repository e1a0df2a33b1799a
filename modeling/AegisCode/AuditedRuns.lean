import AegisCode.EventsEndpoint
import AegisCode.OwnAppends
import AegisCode.Projection
import AegisCode.RunThreads
import AegisCode.Traces

/-!
# The audit table of concurrent runs

Any number of run threads write one table of events. An append reads the last hash of its
task and inserts the row in a later step, and between the two the rows of other tasks land
in the table. What a task finds there is the log of its own run, whatever the order.
-/
namespace AegisCode

open Program Prog HarnessCore AuditChain
open Redactor (redact)

/-! ## Writing steps -/

namespace AuditChain
variable {H : Digest} {redact : Str → Str} {s s' : Writers} {taskId : Str}

theorem writerStep_read {stepIndex : ℤ} {eventType timestamp : Str} {payload : Json}
    (h : writerStep H redact s (.read taskId stepIndex eventType timestamp payload) = some s') :
    s.pending taskId = none ∧ ∃ prev, s' = { s with
      pending := Function.update s.pending taskId (some ⟨prev, stepIndex, eventType, timestamp,
        redact (Json.dumps (Json.canon payload))⟩) } := by
  simp only [writerStep] at h
  split at h
  · rename_i prev hnone _
    exact ⟨hnone, prev, (Option.some.inj h).symm⟩
  · cases h

theorem writerStep_insert (h : writerStep H redact s (.insert taskId) = some s') :
    ∃ a, s.pending taskId = some a ∧ s' = ⟨s.table ++ [(taskId, appendRow H taskId a)],
      Function.update s.pending taskId none⟩ := by
  simp only [writerStep] at h
  split at h
  · rename_i a ha
    split_ifs at h
    exact ⟨a, ha, (Option.some.inj h).symm⟩
  · cases h

end AuditChain

/-! ## Threads and the table -/

structure AuditedState (ι : Type) where
  program : ι → RunProgram
  writers : Writers

/-- A step of a thread: a call that is answered at once, or one of the two steps of an
append, the second of which returns. -/
inductive AuditedLabel (ι : Type) where
  | call (i : ι) (e : HarnessCore.Ev)
  | read (i : ι) (timestamp : Str)
  | insert (i : ι) (e : HarnessCore.Ev)

section Steps
variable {ι : Type} [DecidableEq ι]

def AuditedState.initial (runners : ι → Runner) : AuditedState ι where
  program i := (runners i).program
  writers := .initial

inductive AuditedStep (H : Digest) : AuditedState ι → AuditedLabel ι → AuditedState ι → Prop
  | call {s : AuditedState ι} {i : ι} {c : Call} {k : Resp c → RunProgram} (r : Resp c) :
      s.program i = .call c k → auditEvent ⟨c, r⟩ = none →
      AuditedStep H s (.call i ⟨c, r⟩) { s with program := Function.update s.program i (k r) }
  | read {s : AuditedState ι} {i : ι} {taskId : Str} {stepIndex : ℕ} {eventType : EventType}
      {payload : Dict} {k : Unit → RunProgram} (timestamp : Str) (writers : Writers) :
      s.program i = .call (.append taskId stepIndex eventType payload) k →
      writerStep H (redact · none) s.writers
        (.read taskId stepIndex eventType.str timestamp (.obj payload)) = some writers →
      AuditedStep H s (.read i timestamp) { s with writers := writers }
  | insert {s : AuditedState ι} {i : ι} {taskId : Str} {stepIndex : ℕ} {eventType : EventType}
      {payload : Dict} {k : Unit → RunProgram} (writers : Writers) :
      s.program i = .call (.append taskId stepIndex eventType payload) k →
      writerStep H (redact · none) s.writers (.insert taskId) = some writers →
      AuditedStep H s (.insert i ⟨.append taskId stepIndex eventType payload, ()⟩)
        ⟨Function.update s.program i (k ()), writers⟩

/-- The call of thread `i` that a step completes. -/
def AuditedLabel.event? (i : ι) : AuditedLabel ι → Option HarnessCore.Ev
  | .call j e => if j = i then some e else none
  | .read _ _ => none
  | .insert j e => if j = i then some e else none

/-- The completed calls of thread `i`. -/
def auditedEvents (i : ι) (ls : List (AuditedLabel ι)) : List HarnessCore.Ev :=
  ls.filterMap (AuditedLabel.event? i)

theorem auditedEvents_concat (i : ι) (ls : List (AuditedLabel ι)) (l : AuditedLabel ι) :
    auditedEvents i (ls ++ [l]) = auditedEvents i ls ++ (l.event? i).toList := by
  rw [auditedEvents, List.filterMap_append]
  cases h : l.event? i <;> simp [auditedEvents, h]

end Steps

/-! ## What a row records -/

/-- The columns that `append` writes of an event, but the time. -/
def recorded (e : AuditEvent) : Columns where
  stepIndex := some e.stepIndex
  timestamp := none
  eventType := some e.eventType.str
  payloadJson := some (redact (Json.dumps (Json.canon (.obj e.payload))) none)

def untimed (c : Columns) : Columns := { c with timestamp := none }

/-- The append under way is the one that the program stands at. -/
def AppendUnderWay (taskId : Str) (p : RunProgram) (a : Pending) : Prop :=
  ∃ stepIndex eventType payload k, p = .call (.append taskId stepIndex eventType payload) k ∧
    untimed a.columns = recorded ⟨taskId, stepIndex, eventType, payload⟩

/-- A thread, its events and the rows of its task. -/
structure Agrees {ι : Type} [DecidableEq ι] (runners : ι → Runner) (ls : List (AuditedLabel ι))
    (s : AuditedState ι) (i : ι) : Prop where
  reaches : Reaches (runners i).program (auditedEvents i ls) (s.program i)
  rows : ((rowsOf (runners i).harness.taskId s.writers.table).map fun row => untimed row.toColumns) =
    (auditLog (auditedEvents i ls)).map recorded
  underWay : ∀ a ∈ s.writers.pending (runners i).harness.taskId,
    AppendUnderWay (runners i).harness.taskId (s.program i) a

section Runs
variable {ι : Type} [DecidableEq ι] {runners : ι → Runner} {H : Digest}
  {ls : List (AuditedLabel ι)} {s s' : AuditedState ι} {i : ι}

/-- A thread stands at an append of its own task only. -/
theorem Agrees.own {taskId : Str} {stepIndex : ℕ} {eventType : EventType} {payload : Dict}
    {k : Unit → RunProgram} (h : Agrees runners ls s i)
    (hprog : s.program i = .call (.append taskId stepIndex eventType payload) k) :
    taskId = (runners i).harness.taskId := by
  have hown := (OwnAppends.run (runners i).harness (runners i).fuel (runners i).task).of_reaches
    h.reaches
  rw [hprog] at hown
  exact hown.1

theorem agrees_initial (runners : ι → Runner) (i : ι) :
    Agrees runners [] (.initial runners) i :=
  ⟨.refl _, rfl, nofun⟩

/-- A step of another thread leaves a thread and its rows as they are. -/
theorem Agrees.other {l : AuditedLabel ι} (h : Agrees runners ls s i) (hl : l.event? i = none)
    (hprog : s'.program i = s.program i)
    (hrows : rowsOf (runners i).harness.taskId s'.writers.table =
      rowsOf (runners i).harness.taskId s.writers.table)
    (hpending : s'.writers.pending (runners i).harness.taskId =
      s.writers.pending (runners i).harness.taskId) :
    Agrees runners (ls ++ [l]) s' i := by
  have hevents : auditedEvents i (ls ++ [l]) = auditedEvents i ls := by
    rw [auditedEvents_concat, hl]
    exact List.append_nil _
  constructor
  · rw [hevents, hprog]
    exact h.reaches
  · rw [hevents, hrows]
    exact h.rows
  · rw [hpending, hprog]
    exact h.underWay

theorem agrees_call {j : ι} {c : Call} {k : Resp c → RunProgram} {r : Resp c}
    (h : Agrees runners ls s i) (hprog : s.program j = .call c k)
    (hnone : auditEvent ⟨c, r⟩ = none) :
    Agrees runners (ls ++ [.call j ⟨c, r⟩])
      { s with program := Function.update s.program j (k r) } i := by
  by_cases hij : j = i
  · subst hij
    have hevents : auditedEvents j (ls ++ [.call j ⟨c, r⟩]) = auditedEvents j ls ++ [⟨c, r⟩] := by
      rw [auditedEvents_concat, AuditedLabel.event?, if_pos rfl]
      rfl
    have hreaches := h.reaches
    rw [hprog] at hreaches
    constructor
    · rw [hevents]
      simpa using hreaches.snoc r
    · rw [hevents, auditLog_append, auditLog_cons, hnone]
      simpa using h.rows
    · intro a ha
      -- an append that is under way has not been answered
      obtain ⟨stepIndex, eventType, payload, k', hcall, -⟩ := h.underWay a ha
      rw [hprog] at hcall
      cases hcall
      cases hnone
  · exact h.other (if_neg hij) (Function.update_of_ne (Ne.symm hij) _ _) rfl rfl

theorem agrees_read {j : ι} {taskId : Str} {stepIndex : ℕ} {eventType : EventType} {payload : Dict}
    {k : Unit → RunProgram} {timestamp : Str} {writers : Writers}
    (hids : Function.Injective fun i => (runners i).harness.taskId) (h : ∀ i, Agrees runners ls s i)
    (hprog : s.program j = .call (.append taskId stepIndex eventType payload) k)
    (hwrite : writerStep H (redact · none) s.writers
      (.read taskId stepIndex eventType.str timestamp (.obj payload)) = some writers) :
    Agrees runners (ls ++ [.read j timestamp]) { s with writers := writers } i := by
  obtain rfl := (h j).own hprog
  obtain ⟨-, prev, rfl⟩ := writerStep_read hwrite
  by_cases hij : i = j
  · subst hij
    have hevents : auditedEvents i (ls ++ [.read i timestamp]) = auditedEvents i ls := by
      rw [auditedEvents_concat]
      exact List.append_nil _
    refine ⟨by rw [hevents]; exact (h i).reaches, by rw [hevents]; exact (h i).rows, ?_⟩
    intro a ha
    dsimp only at ha
    rw [Function.update_self] at ha
    obtain rfl := Option.some.inj ha
    exact ⟨stepIndex, eventType, payload, k, hprog, rfl⟩
  · exact (h i).other rfl rfl rfl (Function.update_of_ne (fun heq => hij (hids heq)) _ _)

theorem agrees_insert {j : ι} {taskId : Str} {stepIndex : ℕ} {eventType : EventType}
    {payload : Dict} {k : Unit → RunProgram} {writers : Writers}
    (hids : Function.Injective fun i => (runners i).harness.taskId) (h : ∀ i, Agrees runners ls s i)
    (hprog : s.program j = .call (.append taskId stepIndex eventType payload) k)
    (hwrite : writerStep H (redact · none) s.writers (.insert taskId) = some writers) :
    Agrees runners (ls ++ [.insert j ⟨.append taskId stepIndex eventType payload, ()⟩])
      ⟨Function.update s.program j (k ()), writers⟩ i := by
  obtain rfl := (h j).own hprog
  obtain ⟨a, ha, rfl⟩ := writerStep_insert hwrite
  by_cases hij : i = j
  · subst hij
    have hevents : auditedEvents i
        (ls ++ [.insert i ⟨.append (runners i).harness.taskId stepIndex eventType payload, ()⟩]) =
        auditedEvents i ls ++
          [⟨.append (runners i).harness.taskId stepIndex eventType payload, ()⟩] := by
      rw [auditedEvents_concat, AuditedLabel.event?, if_pos rfl]
      rfl
    have hrecords : untimed a.columns =
        recorded ⟨(runners i).harness.taskId, stepIndex, eventType, payload⟩ := by
      obtain ⟨_, _, _, _, hcall, hrecords⟩ := (h i).underWay a ha
      rw [hprog] at hcall
      cases hcall
      exact hrecords
    have hreaches := (h i).reaches
    rw [hprog] at hreaches
    constructor
    · rw [hevents]
      simpa using hreaches.snoc ()
    · rw [hevents, auditLog_append, rowsOf_append, if_pos rfl, List.map_append, List.map_append,
        (h i).rows]
      exact congrArg _ (congrArg (· :: []) hrecords)
    · intro b hb
      cases (Function.update_self ..).symm.trans hb
  · have htask : (runners j).harness.taskId ≠ (runners i).harness.taskId :=
      fun heq => hij (hids heq).symm
    refine (h i).other (if_neg (Ne.symm hij)) (Function.update_of_ne hij _ _) ?_
      (Function.update_of_ne (Ne.symm htask) _ _)
    rw [rowsOf_append, if_neg htask, List.append_nil]

abbrev AuditedRun (H : Digest) (runners : ι → Runner) (ls : List (AuditedLabel ι))
    (s : AuditedState ι) : Prop :=
  Trace (AuditedStep H) (.initial runners) ls s

theorem AuditedRun.agrees (hids : Function.Injective fun i => (runners i).harness.taskId)
    (h : AuditedRun H runners ls s) (i : ι) : Agrees runners ls s i := by
  induction h generalizing i with
  | nil => exact agrees_initial runners i
  | snoc _ hstep ih =>
    cases hstep with
    | call r hprog hnone => exact agrees_call (ih i) hprog hnone
    | read timestamp writers hprog hwrite => exact agrees_read hids ih hprog hwrite
    | insert writers hprog hwrite => exact agrees_insert hids ih hprog hwrite

theorem execute_concat {σ ℓ : Type} {step : σ → ℓ → Option σ} {s s₁ s₂ : σ} {ls : List ℓ} {l : ℓ}
    (h : Program.execute step s ls = some s₁) (hl : step s₁ l = some s₂) :
    Program.execute step s (ls ++ [l]) = some s₂ := by
  rw [execute_append, h]
  simp [Program.execute, hl]

/-- The writers took steps of their own. -/
theorem AuditedRun.execute (h : AuditedRun H runners ls s) :
    ∃ steps, Program.execute (writerStep H (redact · none)) .initial steps = some s.writers := by
  induction h with
  | nil => exact ⟨[], rfl⟩
  | snoc _ hstep ih =>
    obtain ⟨steps, hsteps⟩ := ih
    cases hstep with
    | call r hprog hnone => exact ⟨steps, hsteps⟩
    | read timestamp writers hprog hwrite => exact ⟨_, execute_concat hsteps hwrite⟩
    | insert writers hprog hwrite => exact ⟨_, execute_concat hsteps hwrite⟩

end Runs

/-! ## What the readers of the table find -/

/-- The table with the ids of its rows, which count from 1. -/
def storedEvents (table : List (Str × EventRow)) : List StoredEvent :=
  table.mapIdx fun k r => ⟨r.2, k + 1, r.1⟩

section Readers
variable {table : List (Str × EventRow)} {taskId : Str}

theorem storedEvents_sorted (table : List (Str × EventRow)) :
    (storedEvents table).Pairwise fun a b => a.eventId < b.eventId := by
  rw [List.pairwise_iff_getElem]
  intro i j hi hj hij
  simp only [storedEvents, List.getElem_mapIdx]
  omega

theorem listSince_zero (table : List (Str × EventRow)) (taskId : Str) :
    listSince (storedEvents table) taskId 0 =
      (storedEvents table).filter fun e => e.taskId = taskId := by
  have hsame : ((storedEvents table).filter fun e => decide (e.taskId = taskId ∧ 0 < e.eventId)) =
      (storedEvents table).filter fun e => e.taskId = taskId := by
    refine List.filter_congr fun e he => ?_
    obtain ⟨k, hk, rfl⟩ := List.mem_mapIdx.mp he
    have hpos : (0 : ℤ) < k + 1 := by omega
    simp [hpos]
  rw [listSince, hsame]
  exact (((storedEvents_sorted table).sublist List.filter_sublist).imp le_of_lt).insertionSort_eq

/-- `list_since` shows the rows of the task, in their order. -/
theorem map_listSince_zero (table : List (Str × EventRow)) (taskId : Str) :
    (listSince (storedEvents table) taskId 0).map StoredEvent.toEventRow = rowsOf taskId table := by
  rw [listSince_zero, storedEvents]
  induction table using List.reverseRecOn with
  | nil => rfl
  | append_singleton table r ih =>
    rw [List.mapIdx_append, List.filter_append, List.map_append, ih, rowsOf_append]
    by_cases h : r.1 = taskId <;> simp [h]

end Readers

/-! ## The log of every task -/

theorem run_closed {h : HarnessCore} {fuel : ℕ} {task : Str} {tr : List HarnessCore.Ev}
    {reason : TerminationReason} (hrun : Runs (h.run fuel task) tr (some (.ok reason))) :
    h.Closed (auditLog tr) reason := by
  obtain ⟨start, s, ts, last, rfl, hit, hlast⟩ := run_returns hrun
  have hclosed := loop_closed ⟨s, ts, last, hit, hlast, rfl⟩
  rw [List.flatten_append, List.flatten_singleton] at hclosed
  have hclock := auditLog_cons (⟨.monotonic, start⟩ : HarnessCore.Ev) (ts.flatten ++ last)
  rw [hclock]
  exact hclosed

theorem EventType.str_injective : Function.Injective EventType.str := by
  intro a b h
  cases a <;> cases b <;> first | rfl | exact absurd h (by decide)

/-- The rows end with the only TERMINATION row, which carries the reason. -/
def EndsWith (events : List StoredEvent) (reason : TerminationReason) : Prop :=
  ∃ init row, events = init ++ [row] ∧ row.eventType = some EventType.termination.str ∧
    row.payloadJson =
      some (redact (Json.dumps (Json.canon (.obj (terminationPayload reason)))) none) ∧
    ∀ e ∈ init, e.eventType ≠ some EventType.termination.str

theorem endsWith_of_closed {h : HarnessCore} {log : List AuditEvent} {events : List StoredEvent}
    {reason : TerminationReason} (hclosed : h.Closed log reason)
    (hrows : (events.map fun e => untimed e.toColumns) = log.map recorded) :
    EndsWith events reason := by
  obtain ⟨opened, stepIndex, hopen, rfl⟩ := hclosed
  rw [List.map_append] at hrows
  obtain ⟨init, last, rfl, hinit, hlast⟩ := List.map_eq_append_iff.mp hrows
  obtain ⟨row, rest, rfl, hrow, hnil⟩ := List.map_eq_cons_iff.mp hlast
  obtain rfl := List.map_eq_nil_iff.mp hnil
  refine ⟨init, row, rfl, congrArg Columns.eventType hrow, congrArg Columns.payloadJson hrow, ?_⟩
  intro e he hterm
  have hmem : untimed e.toColumns ∈ opened.map recorded := hinit ▸ List.mem_map_of_mem he
  obtain ⟨event, hevent, heq⟩ := List.mem_map.mp hmem
  have hsame : some event.eventType.str = some EventType.termination.str :=
    (congrArg Columns.eventType heq).trans hterm
  exact hopen event hevent (EventType.str_injective (Option.some.inj hsame))

/-- However the threads interleave, inside their appends too: what the readers of the table
find of a task are the events of its own run, each once and in order, as `append` redacts
them, and the chain of the rows verifies with their number. Once the thread has returned
they are the log of a whole run, and the last one alone says why it ended. -/
theorem audit_table_of_runs {ι : Type} [DecidableEq ι] (H : Digest) (runners : ι → Runner)
    (hids : Function.Injective fun i => (runners i).harness.taskId) (ls : List (AuditedLabel ι))
    (s : AuditedState ι) (h : AuditedRun H runners ls s) (i : ι) :
    let taskId := (runners i).harness.taskId
    let events := listSince (storedEvents s.writers.table) taskId 0
    (events.map fun e => untimed e.toColumns) = (auditLog (auditedEvents i ls)).map recorded ∧
      (events.Pairwise fun a b => a.eventId < b.eventId) ∧
      verifyChain H taskId (rowsOf taskId s.writers.table) (some events.length) = (true, none) ∧
      ∀ out, s.program i = .ret out → Runs (runners i).program (auditedEvents i ls) out ∧
        ∀ reason, out = some (.ok reason) → EndsWith events reason := by
  intro taskId events
  have hagrees := h.agrees hids i
  have hevents : events.map StoredEvent.toEventRow = rowsOf taskId s.writers.table :=
    map_listSince_zero s.writers.table taskId
  have hlength : events.length = (rowsOf taskId s.writers.table).length := by
    rw [← hevents, List.length_map]
  have hrows : (events.map fun e => untimed e.toColumns) =
      (auditLog (auditedEvents i ls)).map recorded := by
    rw [← hagrees.rows, ← hevents, List.map_map]
    rfl
  refine ⟨hrows, ?_, ?_, fun out hret => ?_⟩
  · change (listSince _ _ _).Pairwise _
    rw [listSince_zero]
    exact (storedEvents_sorted _).sublist List.filter_sublist
  · obtain ⟨steps, hsteps⟩ := h.execute
    obtain ⟨hintact, -, -⟩ := logInvariant_execute hsteps taskId
    refine verifyChain_eq_true_iff.mpr ⟨hintact, ?_⟩
    rintro n ⟨⟩
    rw [hlength]
  · have hreaches := hagrees.reaches
    rw [hret] at hreaches
    have hrun : Runs (runners i).program (auditedEvents i ls) out := by
      simpa using hreaches.runs (.ret out)
    refine ⟨hrun, ?_⟩
    rintro reason rfl
    exact endsWith_of_closed (run_closed hrun) hrows

/-! ## Two threads inside each other's append -/

/-- Two tasks that may take no step. -/
def idleRunner (b : Bool) : Runner where
  harness := { writingHarness with
    config := { limits := { maxSteps := 0 } }
    taskId := if b then "t2" else "t1" }
  dispatcher := askingDispatcher
  ctx := gateContext
  fuel := 1
  task := "fix the bug"

def overlappingLabels : List (AuditedLabel Bool) :=
  [.call false ⟨.monotonic, (0 : ℤ)⟩, .call true ⟨.monotonic, (0 : ℤ)⟩,
    .call false ⟨.monotonic, (0 : ℤ)⟩, .call true ⟨.monotonic, (0 : ℤ)⟩,
    .read false "2026-01-01T00:00:00+00:00", .read true "2026-01-01T00:00:00+00:00",
    .insert true ((idleRunner true).harness.stopped {} .maxSteps),
    .insert false ((idleRunner false).harness.stopped {} .maxSteps)]

theorem AuditedStep.insert_of_pending {ι : Type} [DecidableEq ι] {H : Digest} {s : AuditedState ι}
    {i : ι} {taskId : Str} {stepIndex : ℕ} {eventType : EventType} {payload : Dict}
    {k : Unit → RunProgram} {a : Pending}
    (hprog : s.program i = .call (.append taskId stepIndex eventType payload) k)
    (hpending : s.writers.pending taskId = some a) (hfits : fitsInteger a.stepIndex = true) :
    AuditedStep H s (.insert i ⟨.append taskId stepIndex eventType payload, ()⟩)
      ⟨Function.update s.program i (k ()), ⟨s.writers.table ++ [(taskId, appendRow H taskId a)],
        Function.update s.writers.pending taskId none⟩⟩ := by
  refine .insert _ hprog ?_
  simp only [writerStep, hpending, hfits, if_true]

theorem fitsInteger_zero : fitsInteger (0 : ℕ) = true := by decide

theorem overlappingLabels_run : ∃ s, AuditedRun sampleDigest idleRunner overlappingLabels s ∧
    ∀ b, s.program b = .ret (some (.ok .maxSteps)) :=
  ⟨_, .cons (.call _ rfl rfl) (.cons (.call _ rfl rfl) (.cons (.call _ rfl rfl)
    (.cons (.call _ rfl rfl) (.cons (.read _ _ rfl rfl) (.cons (.read _ _ rfl rfl)
    (.cons (.insert_of_pending rfl rfl fitsInteger_zero)
    (.cons (.insert_of_pending rfl rfl fitsInteger_zero) .nil))))))),
    fun b => by cases b <;> rfl⟩

theorem audit_table_of_runs_overlapping : ∃ s : AuditedState Bool,
    EndsWith (listSince (storedEvents s.writers.table) "t1" 0) .maxSteps ∧
      EndsWith (listSince (storedEvents s.writers.table) "t2" 0) .maxSteps := by
  obtain ⟨s, hrun, hret⟩ := overlappingLabels_run
  have hids : Function.Injective fun b => (idleRunner b).harness.taskId := by
    intro a b hab
    cases a <;> cases b <;> first | rfl | exact absurd hab (by decide)
  exact ⟨s,
    ((audit_table_of_runs sampleDigest idleRunner hids _ s hrun false).2.2.2 _ (hret false)).2 _ rfl,
    ((audit_table_of_runs sampleDigest idleRunner hids _ s hrun true).2.2.2 _ (hret true)).2 _ rfl⟩

end AegisCode
