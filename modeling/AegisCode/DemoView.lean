import AegisCode.DemoScenarios

/-!
# The view of a demo run

`get_run` shows the acceptance of a run and a summary of its steps. Both are made of
the audit rows of its task, and of a payload they keep only the fields that name the
tool and the decisions on it: the arguments of the tools do not flow into the view.
-/
namespace AegisCode.Demo

open Json (Decoder setItem)

/-- `_normalize_event_type`: the name of the enumeration is taken off. -/
def normalizeEventType (eventType : Option Str) : Str :=
  let text := eventType.getD "None"
  if text.startsWith "EventType." then text.drop "EventType.".toList.length else text

def normalizeEvents (rawEvents : List StoredEvent) : List StoredEvent :=
  rawEvents.map fun row => { row with eventType := some (normalizeEventType row.eventType) }

/-! ## The summary of the steps -/

/-- The entry of a step after one more of its rows. -/
def noteRow (D : Decoder) (entry : Dict) (row : StoredEvent) : Dict :=
  let payload := payloadOf D row
  if row.eventType = some "ACTION_PROPOSED".toList then
    setItem entry "tool" (field payload "tool")
  else if row.eventType = some "GOVERNANCE_DECISION".toList then
    setItem entry "governance_decision" (field payload "decision")
  else if row.eventType = some "APPROVAL_DECIDED".toList then
    setItem entry "approval_state" (field payload "state")
  else if row.eventType = some "TOOL_EXECUTED".toList then
    setItem entry "tool_status" (field payload "status")
  else if row.eventType = some "FEEDBACK".toList then
    setItem entry "feedback_category" (field payload "category")
  else entry

/-- `step_map[i] = entry`: the steps stand in the order they were met. -/
def setStep (stepMap : List (ℤ × Dict)) (i : ℤ) (entry : Dict) : List (ℤ × Dict) :=
  match stepMap with
  | [] => [(i, entry)]
  | (j, e) :: stepMap => if j = i then (j, entry) :: stepMap else (j, e) :: setStep stepMap i entry

def summarizeRow (D : Decoder) (stepMap : List (ℤ × Dict)) (row : StoredEvent) :
    List (ℤ × Dict) :=
  match row.stepIndex with
  | none => stepMap
  | some stepIndex =>
      let entry := (stepMap.lookup stepIndex).getD [("step".toList, .int stepIndex)]
      setStep stepMap stepIndex (noteRow D entry row)

/-- `_summarize_steps`. -/
def summarizeSteps (D : Decoder) (rawEvents : List StoredEvent) : List Dict :=
  ((rawEvents.foldl (summarizeRow D) []).insertionSort fun a b => a.1 ≤ b.1).map Prod.snd

/-! ## The view -/

/-- What `start_run` records of a run. -/
structure RunMeta where
  scenarioId : Str
  workspace : Str
  deriving DecidableEq

/-- The answer of `get_run`. -/
structure RunView where
  scenarioId : Str
  state : Str
  acceptance : List Acceptance
  steps : List Dict
  done : Bool

def terminalStates : List Str := ["COMPLETED".toList, "CANCELLED".toList, "FAILED".toList]

/-- What `get_run` answers of a run in a state with these rows. -/
def viewOf (D : Decoder) (scenario : DemoScenario) (scenarioId state : Str)
    (events : List StoredEvent) : RunView :=
  let rawEvents := normalizeEvents events
  { scenarioId
    state
    acceptance := evaluate scenario (buildRunOutcome D scenarioId state rawEvents)
    steps := summarizeSteps D rawEvents
    done := state ∈ terminalStates }

/-- The tables `get_run` reads: its own record of the runs, the states of the tasks, and
the audit rows. -/
structure RunTables where
  runMeta : Str → Option RunMeta
  tasks : Str → Option Str
  auditEvents : List StoredEvent

/-- The answer of `get_run`; `none` is a `KeyError`. -/
def getRun (D : Decoder) (t : RunTables) (runId : Str) : Option RunView := do
  let runMeta ← t.runMeta runId
  let scenario ← getScenario runMeta.scenarioId
  let state ← t.tasks runId
  return viewOf D scenario runMeta.scenarioId state (listSince t.auditEvents runId 0)

/-! ## What flows into the view -/

variable {D : Decoder}

theorem SameShown.normalized {row row' : StoredEvent} (h : SameShown D row row') :
    SameShown D { row with eventType := some (normalizeEventType row.eventType) }
      { row' with eventType := some (normalizeEventType row'.eventType) } :=
  { h with eventType := by simp only [h.eventType] }

theorem normalizeEvents_shown {rows rows' : List StoredEvent}
    (h : List.Forall₂ (SameShown D) rows rows') :
    List.Forall₂ (SameShown D) (normalizeEvents rows) (normalizeEvents rows') := by
  rw [normalizeEvents, normalizeEvents, List.forall₂_map_left_iff, List.forall₂_map_right_iff]
  exact h.imp fun _ _ hrow => hrow.normalized

theorem SameShown.noteRow {row row' : StoredEvent} (h : SameShown D row row') (entry : Dict) :
    noteRow D entry row = noteRow D entry row' := by
  simp only [Demo.noteRow, h.eventType, h.fields "tool" (by decide),
    h.fields "decision" (by decide), h.fields "state" (by decide), h.fields "status" (by decide),
    h.fields "category" (by decide)]

theorem SameShown.summarizeRow {row row' : StoredEvent} (h : SameShown D row row')
    (stepMap : List (ℤ × Dict)) : summarizeRow D stepMap row = summarizeRow D stepMap row' := by
  simp only [Demo.summarizeRow, h.stepIndex, h.noteRow]

theorem summarizeSteps_shown {rows rows' : List StoredEvent}
    (h : List.Forall₂ (SameShown D) rows rows') :
    summarizeSteps D rows = summarizeSteps D rows' := by
  have hfold : ∀ stepMap, rows.foldl (summarizeRow D) stepMap =
      rows'.foldl (summarizeRow D) stepMap := by
    induction h with
    | nil => exact fun _ => rfl
    | cons hrow _ ih =>
        intro stepMap
        rw [List.foldl_cons, List.foldl_cons, hrow.summarizeRow, ih]
  rw [summarizeSteps, summarizeSteps, hfold]

/-- Rows that show the same give the same view. -/
theorem viewOf_shown {rows rows' : List StoredEvent} {scenario : DemoScenario} {scenarioId : Str}
    (hscenario : getScenario scenarioId = some scenario) (state : Str)
    (h : List.Forall₂ (SameShown D) rows rows') :
    viewOf D scenario scenarioId state rows = viewOf D scenario scenarioId state rows' := by
  have hrows := normalizeEvents_shown h
  have halike := buildRunOutcome_alike scenarioId state hrows
  simp only [viewOf, evaluate_alike hscenario halike, summarizeSteps_shown hrows]

/-- Two runs of one scenario in one state, whose rows agree on what may be shown, have
the same steps and the same acceptance, whatever else their payloads say. -/
theorem getRun_shown {t t' : RunTables} {runId : Str}
    (hmeta : (t.runMeta runId).map RunMeta.scenarioId = (t'.runMeta runId).map RunMeta.scenarioId)
    (htask : t.tasks runId = t'.tasks runId)
    (hrows : List.Forall₂ (SameShown D) (listSince t.auditEvents runId 0)
      (listSince t'.auditEvents runId 0)) :
    (getRun D t runId).map RunView.steps = (getRun D t' runId).map RunView.steps ∧
      (getRun D t runId).map RunView.acceptance = (getRun D t' runId).map RunView.acceptance := by
  have hview : getRun D t runId = getRun D t' runId := by
    simp only [getRun]
    rw [htask]
    cases hm : t.runMeta runId with
    | none =>
        cases hm' : t'.runMeta runId with
        | none => rfl
        | some m' => simp [hm, hm'] at hmeta
    | some m =>
        cases hm' : t'.runMeta runId with
        | none => simp [hm, hm'] at hmeta
        | some m' =>
            have hid : m.scenarioId = m'.scenarioId := by simpa [hm, hm'] using hmeta
            cases hscenario : getScenario m.scenarioId with
            | none => simp [hscenario, ← hid]
            | some scenario => simp [hscenario, ← hid, viewOf_shown hscenario _ hrows]
  rw [hview]
  exact ⟨rfl, rfl⟩

/-! ## A proposed action -/

theorem eq_str_of_isText {text : Str} {v : Json} (h : isText text v = true) : v = .str text := by
  cases v with
  | str s => rw [of_decide_eq_true h]
  | _ => cases h

/-- A row of a proposed action with this payload. -/
def proposedRow (payloadJson : Str) : StoredEvent :=
  { firstEvent payloadJson with eventType := some "EventType.ACTION_PROPOSED".toList }

/-- Payloads with one tool and none of the other fields show the same. -/
theorem proposedRow_shown {a b : Str} {tool : Json}
    (htool : field (payloadOf D (proposedRow a)) "tool" = tool ∧
      field (payloadOf D (proposedRow b)) "tool" = tool)
    (hothers : ∀ k ∈ "event_type".toList :: shownFields.tail,
      (payloadOf D (proposedRow a)).get? k = none ∧ (payloadOf D (proposedRow b)).get? k = none) :
    SameShown D (proposedRow a) (proposedRow b) := by
  refine ⟨rfl, rfl, (hothers _ List.mem_cons_self).1, (hothers _ List.mem_cons_self).2, ?_⟩
  refine List.forall_mem_cons.mpr ⟨?_, fun k hk => ?_⟩
  · rw [htool.1, htool.2]
  · obtain ⟨h, h'⟩ := hothers k (List.mem_cons_of_mem _ hk)
    rw [field, field, h, h']

def removeText : Str :=
  "\x7b\"arguments\": \x7b\"command\": \"rm -rf /\"\x7d, \"tool\": \"run_command\"\x7d"

def printText : Str :=
  "\x7b\"arguments\": \x7b\"command\": \"cat key\"\x7d, \"tool\": \"run_command\"\x7d"

theorem removeText_shown :
    SameShown AuditChain.payloadDecoder (proposedRow removeText) (proposedRow printText) := by
  have htool : isText "run_command"
        (field (payloadOf AuditChain.payloadDecoder (proposedRow removeText)) "tool") = true ∧
      isText "run_command"
        (field (payloadOf AuditChain.payloadDecoder (proposedRow printText)) "tool") = true := by
    decide +kernel
  have hothers : ("event_type".toList :: shownFields.tail).all (fun k =>
      ((payloadOf AuditChain.payloadDecoder (proposedRow removeText)).get? k).isNone &&
        ((payloadOf AuditChain.payloadDecoder (proposedRow printText)).get? k).isNone) = true := by
    decide +kernel
  refine proposedRow_shown (htool.imp eq_str_of_isText eq_str_of_isText) fun k hk => ?_
  obtain ⟨h, h'⟩ := Bool.and_eq_true_iff.mp (List.all_eq_true.mp hothers k hk)
  exact ⟨Option.isNone_iff_eq_none.mp h, Option.isNone_iff_eq_none.mp h'⟩

/-- The tables during the first run. -/
def denialTables (payloadJson : Str) : RunTables where
  runMeta runId := if runId = "t1".toList then
    some ⟨"dangerous-action-denial", "/base/aegis_demorun_1"⟩ else none
  tasks runId := if runId = "t1".toList then some "RUNNING".toList else none
  auditEvents := [proposedRow payloadJson]

theorem listSince_denialTables (payloadJson : Str) :
    listSince (denialTables payloadJson).auditEvents "t1" 0 = [proposedRow payloadJson] := rfl

theorem getRun_shown_arguments :
    (getRun AuditChain.payloadDecoder (denialTables removeText) "t1").map RunView.steps =
        (getRun AuditChain.payloadDecoder (denialTables printText) "t1").map RunView.steps ∧
      (getRun AuditChain.payloadDecoder (denialTables removeText) "t1").map RunView.acceptance =
        (getRun AuditChain.payloadDecoder (denialTables printText) "t1").map RunView.acceptance := by
  refine getRun_shown rfl rfl ?_
  rw [listSince_denialTables, listSince_denialTables]
  exact .cons removeText_shown .nil

end AegisCode.Demo
