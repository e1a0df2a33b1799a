import AegisCode.ApprovalService
import AegisCode.GovernanceGate

/-!
# Run threads

Any number of run threads over one approval service, with calls of `decide` and
`cancel` and a clock between their steps. A thread is the program of its loop and
what is left of it. The call of its resolver is not one step: the thread asks,
the service goes its way, and the thread takes the answer.
-/
namespace AegisCode

open Program Prog HarnessCore ApprovalService

/-- What the thread of a task runs. -/
structure Runner where
  harness : HarnessCore
  dispatcher : Dispatcher
  ctx : TaskContext
  fuel : ℕ
  task : Str

abbrev RunProgram := Prog Call Resp (Option (Except Exn TerminationReason))

def Runner.program (r : Runner) : RunProgram := r.harness.run r.fuel r.task

structure ServiceState (ι Id : Type) where
  program : ι → RunProgram
  resolving : ι → Option Id
  approvals : Service Id
  cancelled : ι → Bool
  clock : ℤ

inductive ServiceLabel (ι Id : Type) where
  | call (i : ι) (f : Step)
  | ask (i : ι) (id : Id) (row : ApprovalRow)
  | answer (i : ι) (id : Id) (e : HarnessCore.Ev)
  | approval (id : Id) (op : Op)
  | cancel (i : ι)
  | tick (now : ℤ)

section Steps
variable {ι Id : Type} [DecidableEq ι] [DecidableEq Id] (runners : ι → Runner)

/-- Before the first step: some rows may be there already. -/
def ServiceState.initial (rows : Id → Option ApprovalRow) (now : ℤ) : ServiceState ι Id where
  program i := (runners i).program
  resolving _ := none
  approvals id := idle (rows id)
  cancelled _ := false
  clock := now

/-- The clock and the cancellation flag answer the calls that read them. A resolver
does not answer at once; what the dispatcher answers is said by `Linked`. -/
def Answers (s : ServiceState ι Id) (i : ι) : HarnessCore.Ev → Prop
  | ⟨.monotonic, now⟩ => now = s.clock
  | ⟨.cancelCheck, b⟩ => b = s.cancelled i
  | ⟨.resolve _ _, _⟩ => False
  | _ => True

inductive ServiceStep : ServiceState ι Id → ServiceLabel ι Id → ServiceState ι Id → Prop
  | call {s : ServiceState ι Id} {i : ι} {c : Call} {k : Resp c → RunProgram} (r : Resp c)
      (inner : List Dispatcher.Ev) :
      s.program i = .call c k → Answers s i ⟨c, r⟩ →
      Linked (implementation (runners i).harness.sha256 (runners i).dispatcher (runners i).ctx)
        ⟨⟨c, r⟩, inner⟩ →
      ServiceStep s (.call i ⟨⟨c, r⟩, inner⟩) { s with program := Function.update s.program i (k r) }
  | ask {s : ServiceState ι Id} {i : ι} {action : Action} {verdict : GovernanceVerdict}
      {k : Resp (.resolve action verdict) → RunProgram} (id : Id) (stepIndex : ℤ) (slot : Slot) :
      s.program i = .call (.resolve action verdict) k → s.resolving i = none →
      (s.approvals id).step (.register (requestRow (runners i).harness.sha256
        (runners i).harness.taskId stepIndex action verdict)) = some slot →
      ServiceStep s (.ask i id (requestRow (runners i).harness.sha256
          (runners i).harness.taskId stepIndex action verdict))
        { s with
          resolving := Function.update s.resolving i (some id)
          approvals := Function.update s.approvals id slot }
  -- the resolver leaves the action and the verdict as they are
  | answer {s : ServiceState ι Id} {i : ι} {action : Action} {verdict : GovernanceVerdict}
      {k : Resp (.resolve action verdict) → RunProgram} (id : Id) (approved : Bool) :
      s.program i = .call (.resolve action verdict) k → s.resolving i = some id →
      (s.approvals id).resolver = some (.returned approved) →
      ServiceStep s (.answer i id ⟨.resolve action verdict, .ok (approved, action, verdict)⟩)
        { s with
          program := Function.update s.program i (k (.ok (approved, action, verdict)))
          resolving := Function.update s.resolving i none }
  | approval {s : ServiceState ι Id} (id : Id) (op : Op) (slot : Slot) :
      (∀ row, op ≠ .register row) → (s.approvals id).step op = some slot →
      ServiceStep s (.approval id op) { s with approvals := Function.update s.approvals id slot }
  | cancel {s : ServiceState ι Id} (i : ι) :
      ServiceStep s (.cancel i) { s with cancelled := Function.update s.cancelled i true }
  | tick {s : ServiceState ι Id} (now : ℤ) : s.clock ≤ now →
      ServiceStep s (.tick now) { s with clock := now }

end Steps

/-! ## Histories -/

section Histories
variable {ι Id : Type}

/-- The call of thread `i` that a step completes. -/
def ServiceLabel.event? [DecidableEq ι] (i : ι) : ServiceLabel ι Id → Option HarnessCore.Ev
  | .call j f => if j = i then some f.event else none
  | .answer j _ e => if j = i then some e else none
  | _ => none

/-- The step in the slot of the approval `id`. -/
def ServiceLabel.op? [DecidableEq Id] (id : Id) : ServiceLabel ι Id → Option Op
  | .ask _ id' row => if id' = id then some (.register row) else none
  | .approval id' op => if id' = id then some op else none
  | _ => none

/-- The approval whose answer thread `i` takes. -/
def ServiceLabel.answered? [DecidableEq ι] (i : ι) : ServiceLabel ι Id → Option Id
  | .answer j id _ => if j = i then some id else none
  | _ => none

/-- The approval that thread `i` got its last answer about. -/
def lastAnswered [DecidableEq ι] (i : ι) (ls : List (ServiceLabel ι Id)) : Option Id :=
  (ls.filterMap (ServiceLabel.answered? i)).getLast?

/-- The completed calls of thread `i`. -/
def eventsOf [DecidableEq ι] (i : ι) (ls : List (ServiceLabel ι Id)) : List HarnessCore.Ev :=
  ls.filterMap (ServiceLabel.event? i)

def opsOf [DecidableEq Id] (id : Id) (ls : List (ServiceLabel ι Id)) : List Op :=
  ls.filterMap (ServiceLabel.op? id)

theorem eventsOf_append [DecidableEq ι] (i : ι) (ls ls' : List (ServiceLabel ι Id)) :
    eventsOf i (ls ++ ls') = eventsOf i ls ++ eventsOf i ls' := List.filterMap_append

theorem opsOf_append [DecidableEq Id] (id : Id) (ls ls' : List (ServiceLabel ι Id)) :
    opsOf id (ls ++ ls') = opsOf id ls ++ opsOf id ls' := List.filterMap_append

theorem register_mem_opsOf [DecidableEq Id] {i : ι} {id : Id} {row : ApprovalRow}
    {ls : List (ServiceLabel ι Id)} (h : .ask i id row ∈ ls) : .register row ∈ opsOf id ls :=
  List.mem_filterMap.mpr ⟨_, h, if_pos rfl⟩

theorem op?_eq_some [DecidableEq Id] {id : Id} {l : ServiceLabel ι Id} {op : Op}
    (h : l.op? id = some op) : (∃ i row, l = .ask i id row ∧ op = .register row) ∨
      l = .approval id op := by
  cases l with
  | ask i id' row =>
    obtain ⟨rfl, hop⟩ := Option.ite_none_right_eq_some.mp h
    exact .inl ⟨i, row, rfl, (Option.some.inj hop).symm⟩
  | approval id' op' =>
    obtain ⟨rfl, hop⟩ := Option.ite_none_right_eq_some.mp h
    exact .inr (congrArg _ (Option.some.inj hop))
  | _ => cases h

theorem event?_eq_some [DecidableEq ι] {i : ι} {l : ServiceLabel ι Id} {e : HarnessCore.Ev}
    (h : l.event? i = some e) : (∃ f, l = .call i f ∧ e = f.event) ∨ ∃ id, l = .answer i id e := by
  cases l with
  | call j f =>
    obtain ⟨rfl, he⟩ := Option.ite_none_right_eq_some.mp h
    exact .inl ⟨f, rfl, (Option.some.inj he).symm⟩
  | answer j id e' =>
    obtain ⟨rfl, he⟩ := Option.ite_none_right_eq_some.mp h
    exact .inr ⟨id, congrArg _ (Option.some.inj he)⟩
  | _ => cases h

/-- As long as a thread completes no call it gets no other answer. -/
theorem lastAnswered_eq [DecidableEq ι] {i : ι} {id : Id} {e : HarnessCore.Ev}
    {pre post : List (ServiceLabel ι Id)} (h : eventsOf i post = []) :
    lastAnswered i (pre ++ .answer i id e :: post) = some id := by
  have hpost : post.filterMap (ServiceLabel.answered? i) = [] := by
    refine List.filterMap_eq_nil_iff.mpr fun l hl => ?_
    have hquiet := List.filterMap_eq_nil_iff.mp h l hl
    cases l with
    | answer j id' e' =>
      by_cases hj : j = i
      · simp [ServiceLabel.event?, hj] at hquiet
      · exact if_neg hj
    | _ => rfl
  simp [lastAnswered, hpost, ServiceLabel.answered?]

/-- The place where the last completed call of a thread stands in the history. -/
theorem exists_last_event [DecidableEq ι] {i : ι} {ls : List (ServiceLabel ι Id)}
    {es : List HarnessCore.Ev} {e : HarnessCore.Ev} (h : eventsOf i ls = es ++ [e]) :
    ∃ pre l post, ls = pre ++ l :: post ∧ l.event? i = some e ∧ eventsOf i post = [] := by
  obtain ⟨pre, rest, rfl, _, hrest⟩ := List.filterMap_eq_append_iff.mp h
  obtain ⟨skip, l, post, rfl, _, hl, hpost⟩ := List.filterMap_eq_cons_iff.mp hrest
  exact ⟨pre ++ skip, l, post, by simp, hl, hpost⟩

end Histories

instance (c : Call) : Nonempty (Resp c) := by
  cases c with
  | monotonic => exact ⟨(0 : ℤ)⟩
  | cancelCheck => exact ⟨false⟩
  | append _ _ _ _ => exact ⟨()⟩
  | _ => exact ⟨.error ⟨.other, []⟩⟩

/-! ## What every run of the service keeps -/

section Runs
variable {ι Id : Type} [DecidableEq ι] [DecidableEq Id] {runners : ι → Runner}
  {rows : Id → Option ApprovalRow} {now : ℤ} {ls : List (ServiceLabel ι Id)}
  {s : ServiceState ι Id}

/-- The service got from its start to `s` by these steps. -/
abbrev ServiceRun (runners : ι → Runner) (rows : Id → Option ApprovalRow) (now : ℤ)
    (ls : List (ServiceLabel ι Id)) (s : ServiceState ι Id) : Prop :=
  Trace (ServiceStep runners) (.initial runners rows now) ls s

/-- The completed calls of a thread are a run of its program under way. -/
theorem ServiceRun.reaches (h : ServiceRun runners rows now ls s) (i : ι) :
    Reaches (runners i).program (eventsOf i ls) (s.program i) := by
  induction h with
  | nil => exact .refl _
  | @snoc ls s s' l _ hstep ih =>
    rw [eventsOf_append]
    have hquiet : ∀ l : ServiceLabel ι Id, l.event? i = none →
        eventsOf i ls ++ eventsOf i [l] = eventsOf i ls := by
      intro l hl
      simp [eventsOf, hl]
    have hown : ∀ {i' : ι} {l : ServiceLabel ι Id} {c : Call} {k : Resp c → RunProgram} {r : Resp c},
        l.event? i = (if i' = i then some ⟨c, r⟩ else none) → s.program i' = .call c k →
        Reaches (runners i).program (eventsOf i ls ++ eventsOf i [l])
          (Function.update s.program i' (k r) i) := by
      intro i' l c k r hl hprog
      by_cases hi : i' = i
      · subst hi
        rw [if_pos rfl] at hl
        rw [hprog] at ih
        have hevent : eventsOf i' [l] = [⟨c, r⟩] := by simp [eventsOf, hl]
        rw [hevent, Function.update_self]
        exact ih.snoc r
      · rw [if_neg hi] at hl
        rw [hquiet l hl, Function.update_of_ne (Ne.symm hi)]
        exact ih
    cases hstep with
    | call _ _ hprog _ _ => exact hown rfl hprog
    | answer _ _ hprog _ _ => exact hown rfl hprog
    | ask _ _ _ _ _ _ => rwa [hquiet _ rfl]
    | approval _ _ _ _ _ => rwa [hquiet _ rfl]
    | cancel _ => rwa [hquiet _ rfl]
    | tick _ _ => rwa [hquiet _ rfl]

/-- The slot of an id went through the steps of this id. -/
theorem ServiceRun.slot (h : ServiceRun runners rows now ls s) (id : Id) :
    execute Slot.step (idle (rows id)) (opsOf id ls) = some (s.approvals id) := by
  induction h with
  | nil => rfl
  | @snoc ls s s' l _ hstep ih =>
    rw [opsOf_append, execute_append, ih, Option.bind_some]
    have hquiet : ∀ l : ServiceLabel ι Id, l.op? id = none → opsOf id [l] = [] := by
      intro l hl
      simp [opsOf, hl]
    have hown : ∀ {id' : Id} {op : Op} {l : ServiceLabel ι Id} {slot : Slot},
        l.op? id = (if id' = id then some op else none) →
        (s.approvals id').step op = some slot →
        execute Slot.step (s.approvals id) (opsOf id [l]) =
          some (Function.update s.approvals id' slot id) := by
      intro id' op l slot hl hop
      by_cases hid : id' = id
      · subst hid
        rw [if_pos rfl] at hl
        simp [opsOf, hl, execute, hop]
      · rw [if_neg hid] at hl
        rw [hquiet l hl, Function.update_of_ne (Ne.symm hid)]
        rfl
    cases hstep with
    | call _ _ _ _ _ => rw [hquiet _ rfl]; rfl
    | ask id' stepIndex slot _ _ hop => exact hown rfl hop
    | answer _ _ _ _ _ => rw [hquiet _ rfl]; rfl
    | approval id' op slot _ hop => exact hown rfl hop
    | cancel _ => rw [hquiet _ rfl]; rfl
    | tick _ _ => rw [hquiet _ rfl]; rfl

theorem ServiceRun.resolver_of_ask (h : ServiceRun runners rows now ls s) {i : ι} {id : Id}
    {row : ApprovalRow} (hask : .ask i id row ∈ ls) : (s.approvals id).resolver.isSome :=
  (history_of_execute (h.slot id)).1.register_mem.mpr ⟨row, register_mem_opsOf hask⟩

/-- An id is asked for once. -/
theorem ServiceRun.ask_unique (h : ServiceRun runners rows now ls s) {id : Id} {i j : ι}
    {row row' : ApprovalRow} (hi : .ask i id row ∈ ls) (hj : .ask j id row' ∈ ls) :
    i = j ∧ row = row' := by
  induction h with
  | nil => exact absurd hi List.not_mem_nil
  | @snoc ls s s' l hrun hstep ih =>
    rw [List.mem_append, List.mem_singleton] at hi hj
    obtain hi | rfl := hi
    · obtain hj | rfl := hj
      · exact ih hi hj
      · cases hstep with
        | ask _ _ _ _ _ hop =>
          cases step_cases hop with
          | register _ hnone _ =>
            have hsome := ServiceRun.resolver_of_ask hrun hi
            rw [hnone] at hsome
            cases hsome
    · obtain hj | hj := hj
      · cases hstep with
        | ask _ _ _ _ _ hop =>
          cases step_cases hop with
          | register _ hnone _ =>
            have hsome := ServiceRun.resolver_of_ask hrun hj
            rw [hnone] at hsome
            cases hsome
      · cases hj
        exact ⟨rfl, rfl⟩

/-- The request that a thread is waiting for. -/
theorem ServiceRun.resolving_asked (h : ServiceRun runners rows now ls s) {i : ι} {id : Id}
    (hres : s.resolving i = some id) : ∃ action verdict k stepIndex,
      s.program i = .call (.resolve action verdict) k ∧
      .ask i id (requestRow (runners i).harness.sha256 (runners i).harness.taskId stepIndex
        action verdict) ∈ ls := by
  induction h with
  | nil => cases hres
  | @snoc ls s s' l _ hstep ih =>
    have hkeep : s.resolving i = some id → s'.program i = s.program i →
        ∃ action verdict k stepIndex, s'.program i = .call (.resolve action verdict) k ∧
          .ask i id (requestRow (runners i).harness.sha256 (runners i).harness.taskId stepIndex
            action verdict) ∈ ls ++ [l] := by
      intro hres hprog
      obtain ⟨action, verdict, k, stepIndex, hcall, hask⟩ := ih hres
      exact ⟨action, verdict, k, stepIndex, hprog.trans hcall, List.mem_append_left _ hask⟩
    cases hstep with
    | @call j c k r inner hprog hanswers _ =>
      refine hkeep hres (Function.update_of_ne ?_ _ _)
      rintro rfl
      obtain ⟨action, verdict, k', _, hcall, _⟩ := ih hres
      rw [hcall] at hprog
      cases hprog
      exact hanswers
    | @ask j action verdict k id' stepIndex slot hprog hnone hop =>
      by_cases hj : i = j
      · subst hj
        dsimp only at hres
        rw [Function.update_self] at hres
        obtain rfl := Option.some.inj hres
        exact ⟨action, verdict, k, stepIndex, hprog, by simp⟩
      · exact hkeep ((Function.update_of_ne hj _ _).symm.trans hres) rfl
    | @answer j action verdict k id' approved hprog hj hret =>
      by_cases hj : i = j
      · subst hj
        dsimp only at hres
        rw [Function.update_self] at hres
        cases hres
      · exact hkeep ((Function.update_of_ne hj _ _).symm.trans hres) (Function.update_of_ne hj _ _)
    | approval _ _ _ _ _ => exact hkeep hres rfl
    | cancel _ => exact hkeep hres rfl
    | tick _ _ => exact hkeep hres rfl

/-- A row is inserted by the resolver that asks for it, by nobody else. -/
theorem ServiceRun.not_register (h : ServiceRun runners rows now ls s) (id : Id)
    (row : ApprovalRow) : .approval id (.register row) ∉ ls := by
  intro hmem
  obtain ⟨pre, post, rfl⟩ := List.append_of_mem hmem
  obtain ⟨s₁, s₂, _, hstep⟩ := h.at
  cases hstep with
  | approval _ _ _ hno _ => exact hno row rfl

/-- The request that an answer answers, and the approval behind a True. -/
theorem ServiceRun.answer_asked {i : ι} {id : Id} {e : HarnessCore.Ev}
    {pre post : List (ServiceLabel ι Id)}
    (h : ServiceRun runners rows now (pre ++ .answer i id e :: post) s) :
    ∃ action verdict stepIndex approved,
      e = ⟨.resolve action verdict, .ok (approved, action, verdict)⟩ ∧
      .ask i id (requestRow (runners i).harness.sha256 (runners i).harness.taskId stepIndex
        action verdict) ∈ pre ∧
      (approved = true → ApprovedAfterInsert (opsOf id pre)) := by
  obtain ⟨s₁, s₂, hpre, hstep⟩ := h.at
  cases hstep with
  | @answer _ action verdict k _ approved hprog hres hret =>
    obtain ⟨action', verdict', k', stepIndex, hcall, hask⟩ := ServiceRun.resolving_asked hpre hres
    rw [hprog] at hcall
    cases hcall
    refine ⟨action, verdict, stepIndex, approved, rfl, hask, ?_⟩
    rintro rfl
    exact (provenance_of_execute (ServiceRun.slot hpre id)).returned hret

/-- Nobody waits for an approval that has been answered. -/
theorem ServiceRun.answered_once (h : ServiceRun runners rows now ls s) {i j : ι} {id : Id}
    {e : HarnessCore.Ev} (hans : .answer i id e ∈ ls) : s.resolving j ≠ some id := by
  induction h with
  | nil => exact absurd hans List.not_mem_nil
  | @snoc ls s s' l hrun hstep ih =>
    rw [List.mem_append, List.mem_singleton] at hans
    obtain hans | rfl := hans
    · cases hstep with
      | @ask j' action verdict k id' stepIndex slot _ _ hop =>
        dsimp only
        by_cases hj : j = j'
        · subst hj
          rw [Function.update_self]
          rintro ⟨⟩
          obtain ⟨pre, post, rfl⟩ := List.append_of_mem hans
          obtain ⟨_, _, _, _, _, hask, _⟩ := ServiceRun.answer_asked hrun
          have hsome := ServiceRun.resolver_of_ask hrun (List.mem_append_left _ hask)
          cases step_cases hop with
          | register _ hnone _ =>
            rw [hnone] at hsome
            cases hsome
        · rw [Function.update_of_ne hj]
          exact ih hans
      | @answer j' _ _ _ _ _ _ _ _ =>
        dsimp only
        by_cases hj : j = j'
        · subst hj
          simp
        · rw [Function.update_of_ne hj]
          exact ih hans
      | call _ _ _ _ _ => exact ih hans
      | approval _ _ _ _ _ => exact ih hans
      | cancel _ => exact ih hans
      | tick _ _ => exact ih hans
    · cases hstep with
      | answer _ _ _ hres _ =>
        dsimp only
        by_cases hj : j = i
        · subst hj
          simp
        · rw [Function.update_of_ne hj]
          intro hres'
          obtain ⟨_, _, _, _, _, hask⟩ := ServiceRun.resolving_asked hrun hres
          obtain ⟨_, _, _, _, _, hask'⟩ := ServiceRun.resolving_asked hrun hres'
          exact hj (ServiceRun.ask_unique hrun hask' hask).1

/-- An approval is answered once. -/
theorem ServiceRun.answer_unique {i j : ι} {id : Id} {e e' : HarnessCore.Ev}
    {pre post pre' post' : List (ServiceLabel ι Id)} (h : ServiceRun runners rows now ls s)
    (hi : ls = pre ++ .answer i id e :: post) (hj : ls = pre' ++ .answer j id e' :: post') :
    pre = pre' ∧ i = j := by
  have hlater : ∀ {i j : ι} {e e' : HarnessCore.Ev} {a b c : List (ServiceLabel ι Id)},
      ls ≠ a ++ .answer i id e :: (b ++ .answer j id e' :: c) := by
    rintro i j e e' a b c rfl
    rw [← List.cons_append, ← List.append_assoc] at h
    obtain ⟨s₁, s₂, hpre, hstep⟩ := h.at
    cases hstep with
    | answer _ _ _ hres _ =>
      have hmem : .answer i id e ∈ a ++ .answer i id e :: b := by simp
      exact ServiceRun.answered_once hpre hmem hres
  obtain hsplit | hsplit := List.append_eq_append_iff.mp (hi.symm.trans hj)
  · obtain ⟨m, rfl, hm⟩ := hsplit
    cases m with
    | nil => exact ⟨by simp, by cases hm; rfl⟩
    | cons l m =>
      cases hm
      exact absurd hj (by simpa using hlater)
  · obtain ⟨m, rfl, hm⟩ := hsplit
    cases m with
    | nil => exact ⟨by simp, by cases hm; rfl⟩
    | cons l m =>
      cases hm
      exact absurd hi (by simpa using hlater)

/-! ## Approved executions -/

/-- A call of the loop under a verdict REQUIRE_APPROVAL: the dispatch that gave
this verdict, or the execution of what was approved. -/
def UnderApproval : HarnessCore.Ev → Prop
  | ⟨.dispatch _, .ok (verdict, _, _)⟩ => verdict.decision = .requireApproval
  | ⟨.executeApproved _ _, _⟩ => True
  | _ => False

/-- The step ran this tool under a verdict REQUIRE_APPROVAL. -/
def RanApproved (f : Step) (tool : Str) (arguments : Dict) : Prop :=
  UnderApproval f.event ∧ ∃ e ∈ f.inner, e.call = .run tool arguments

/-- What ran is the approved action, whose fingerprint was checked right before. -/
theorem RanApproved.executed {H : Digest} {d : Dispatcher} {ctx : TaskContext} {f : Step}
    {tool : Str} {arguments : Dict} (hran : RanApproved f tool arguments)
    (hl : Linked (implementation H d ctx) f) : ∃ executed, executed.tool = tool ∧
      executed.arguments = arguments ∧
      f.event.call = .executeApproved executed (fingerprint H executed) ∧
      f.inner.countP isToolRun = 1 := by
  obtain ⟨hunder, e, he, hcall⟩ := hran
  have hone : f.inner.countP isToolRun = 1 := by
    have hle := countP_isToolRun_le hl
    have hpos : 0 < f.inner.countP isToolRun :=
      List.countP_pos_iff.mpr ⟨e, he, by rw [isToolRun, hcall]⟩
    split_ifs at hle <;> omega
  obtain ⟨⟨call, answer⟩, inner⟩ := f
  cases call with
  | dispatch action =>
    cases answer with
    | error e => exact hunder.elim
    | ok r =>
      obtain ⟨verdict, result, action'⟩ := r
      have hno := countP_isToolRun_le hl
      have hverdict : verdict.decision = .requireApproval := hunder
      simp only [mayExecute, hverdict] at hno
      exact absurd (hone.symm.trans_le hno) (by decide)
  | executeApproved action fp =>
    obtain ⟨_, hnil, _⟩ | ⟨hfp, hexec⟩ := Dispatcher.executeApproved_cases hl
    · obtain rfl : inner = [] := hnil
      exact absurd he List.not_mem_nil
    · obtain ⟨rfl, rfl, _⟩ := hexec.of_run he hcall
      exact ⟨action, rfl, rfl, congrArg _ hfp.symm, hone⟩
  | _ => exact hunder.elim

/-- Before an approved execution the resolver answered True, and then the thread
did nothing else. -/
theorem ServiceRun.execution_answered {i : ι} {f : Step} {action : Action} {fp : Str}
    {pre post : List (ServiceLabel ι Id)}
    (h : ServiceRun runners rows now (pre ++ .call i f :: post) s)
    (hcall : f.event.call = .executeApproved action fp) :
    ∃ before id judged verdict verdict' after,
      pre = before ++ .answer i id ⟨.resolve judged verdict, .ok (true, action, verdict')⟩ :: after ∧
      eventsOf i after = [] ∧ fp = fingerprint (runners i).harness.sha256 judged := by
  obtain ⟨s₁, s₂, hpre, hstep⟩ := h.at
  have hown : eventsOf i [(.call i f : ServiceLabel ι Id)] = [f.event] := by
    simp [eventsOf, ServiceLabel.event?]
  have hreach := ServiceRun.reaches (.snoc hpre hstep) i
  rw [eventsOf_append, hown] at hreach
  obtain ⟨rest, out, hrun⟩ := hreach.exists_runs
  have hgranted := run_granted hrun
  obtain hnil | ⟨es, e, hes⟩ := List.eq_nil_or_concat (eventsOf i pre)
  · rw [hnil] at hgranted
    exact absurd hcall (hgranted.head f.event rfl _ (List.mem_singleton_self _) action fp)
  · rw [List.concat_eq_append] at hes
    have hchain := hgranted.chain
    rw [hes, List.append_assoc, List.append_assoc, List.isChain_append] at hchain
    have hgrants : Grants (runners i).harness e f.event :=
      (List.isChain_cons_cons.mp hchain.2.1).1
    obtain ⟨judged, verdict, verdict', rfl, hfp⟩ := hgrants action fp hcall
    obtain ⟨before, l, after, rfl, hl, hafter⟩ := exists_last_event hes
    obtain ⟨g, rfl, hg⟩ | ⟨id, rfl⟩ := event?_eq_some hl
    · obtain ⟨s₃, s₄, _, hstep'⟩ := hpre.at
      cases hstep' with
      | call r inner _ hanswers _ =>
        cases hg
        exact hanswers.elim
    · exact ⟨before, id, judged, verdict, verdict', after, rfl, hafter, hfp⟩

/-- The row that an executed action stands on: it belongs to the task, carries the
fingerprint of what ran, and was inserted before a decision approved it. -/
structure AuthorisedBy (runners : ι → Runner) (s : ServiceState ι Id)
    (pre : List (ServiceLabel ι Id)) (i : ι) (executed : Action) (id : Id) : Prop where
  row : ∃ row, (s.approvals id).row = some row ∧ row.taskId = (runners i).harness.taskId ∧
    row.actionFingerprint = fingerprint (runners i).harness.sha256 executed
  decided : ∃ before row after, pre = before ++ .ask i id row :: after ∧
    row.taskId = (runners i).harness.taskId ∧
    row.actionFingerprint = fingerprint (runners i).harness.sha256 executed ∧
    .approval id (.decide true) ∈ after

theorem ServiceRun.authorised {i : ι} {id : Id} {judged executed : Action}
    {verdict : GovernanceVerdict} {e : HarnessCore.Ev} {before after : List (ServiceLabel ι Id)}
    (h : ServiceRun runners rows now (before ++ .answer i id e :: after) s)
    (he : ∃ action verdict', e = ⟨.resolve judged verdict, .ok (true, action, verdict')⟩)
    (hfp : fingerprint (runners i).harness.sha256 executed =
      fingerprint (runners i).harness.sha256 judged) :
    AuthorisedBy runners s (before ++ .answer i id e :: after) i executed id := by
  obtain ⟨action, verdict', he⟩ := he
  obtain ⟨judged', verdict', stepIndex, approved, heq, hask, happroved⟩ := h.answer_asked
  cases he.symm.trans heq
  have hins := provenance_of_execute (h.slot id)
  have hsome := h.resolver_of_ask (List.mem_append_left _ hask)
  constructor
  · obtain ⟨row, hrow⟩ := Option.isSome_iff_exists.mp
      ((consistent_of_execute (h.slot id)).row_isSome hsome)
    obtain ⟨row₀, hmem, htask, hrowFp⟩ := hins.inserted row hrow hsome
    obtain ⟨l, hl, hop⟩ := List.mem_filterMap.mp hmem
    obtain ⟨j, row₁, rfl, ⟨⟩⟩ | rfl := op?_eq_some hop
    · obtain ⟨rfl, rfl⟩ := h.ask_unique (List.mem_append_left _ hask) hl
      exact ⟨row, hrow, htask, hrowFp.trans hfp.symm⟩
    · exact absurd hl (h.not_register id row₀)
  · obtain ⟨ops, row₀, ops', hops, hdec⟩ := happroved rfl
    obtain ⟨b, rest, rfl, _, hrest⟩ := List.filterMap_eq_append_iff.mp hops
    obtain ⟨skip, l, a, rfl, _, hop, rfl⟩ := List.filterMap_eq_cons_iff.mp hrest
    have hl : l ∈ b ++ (skip ++ l :: a) := by simp
    obtain ⟨j, row₁, rfl, ⟨⟩⟩ | rfl := op?_eq_some hop
    · obtain ⟨rfl, rfl⟩ := h.ask_unique (List.mem_append_left _ hask) (List.mem_append_left _ hl)
      obtain ⟨l', hl', hop'⟩ := List.mem_filterMap.mp hdec
      obtain ⟨_, _, _, ⟨⟩⟩ | rfl := op?_eq_some hop'
      refine ⟨b ++ skip, requestRow _ _ stepIndex judged verdict, a ++ .answer i id e :: after, ?_,
        rfl, hfp.symm, List.mem_append_left _ hl'⟩
      rw [List.append_assoc, List.append_assoc, List.append_assoc, List.cons_append]
    · exact absurd (List.mem_append_left _ hl) (h.not_register id row₀)

/-- In every interleaving of run threads, decisions and timeouts: what a thread runs
under a verdict REQUIRE_APPROVAL is the action of a row that a decision approved
after it was inserted, and no row lets anything run twice. -/
theorem approved_runs_authorised (runners : ι → Runner) (rows : Id → Option ApprovalRow) (now : ℤ)
    (ls : List (ServiceLabel ι Id)) (s : ServiceState ι Id) (h : ServiceRun runners rows now ls s) :
    (∀ pre i f post tool arguments, ls = pre ++ .call i f :: post → RanApproved f tool arguments →
      f.inner.countP isToolRun = 1 ∧ ∃ executed id s₁, executed.tool = tool ∧
        executed.arguments = arguments ∧ lastAnswered i pre = some id ∧
        ServiceRun runners rows now pre s₁ ∧ AuthorisedBy runners s₁ pre i executed id) ∧
    (∀ pre i f post pre' i' f' post' tool arguments tool' arguments',
      ls = pre ++ .call i f :: post → RanApproved f tool arguments →
      ls = pre' ++ .call i' f' :: post' → RanApproved f' tool' arguments' →
      lastAnswered i pre = lastAnswered i' pre' → pre = pre') := by
  have hexec : ∀ {pre i f post tool arguments}, ls = pre ++ .call i f :: post →
      RanApproved f tool arguments → f.inner.countP isToolRun = 1 ∧
      ∃ executed s₁ before id e after, executed.tool = tool ∧ executed.arguments = arguments ∧
        pre = before ++ .answer i id e :: after ∧ eventsOf i after = [] ∧
        ServiceRun runners rows now pre s₁ ∧ AuthorisedBy runners s₁ pre i executed id := by
    rintro pre i f post tool arguments rfl hran
    obtain ⟨s₁, s₂, hpre, hstep⟩ := h.at
    have hl : Linked (implementation (runners i).harness.sha256 (runners i).dispatcher
        (runners i).ctx) f := by
      cases hstep with
      | call _ _ _ _ hl => exact hl
    obtain ⟨executed, htool, harg, hcall, hone⟩ := hran.executed hl
    obtain ⟨before, id, judged, verdict, verdict', after, rfl, hafter, hfp⟩ :=
      h.execution_answered hcall
    exact ⟨hone, executed, s₁, before, id, _, after, htool, harg, rfl, hafter, hpre,
      ServiceRun.authorised hpre ⟨_, _, rfl⟩ hfp⟩
  constructor
  · intro pre i f post tool arguments hls hran
    obtain ⟨hone, executed, s₁, before, id, e, after, htool, harg, rfl, hafter, hpre, hauth⟩ :=
      hexec hls hran
    exact ⟨hone, executed, id, s₁, htool, harg, lastAnswered_eq hafter, hpre, hauth⟩
  · intro pre i f post pre' i' f' post' tool arguments tool' arguments' hls hran hls' hran' hsame
    obtain ⟨_, _, _, before, id, e, after, _, _, rfl, hafter, _⟩ := hexec hls hran
    obtain ⟨_, _, _, before', id', e', after', _, _, rfl, hafter', _⟩ := hexec hls' hran'
    rw [lastAnswered_eq hafter, lastAnswered_eq hafter'] at hsame
    obtain rfl := Option.some.inj hsame
    rw [List.append_assoc, List.cons_append] at hls hls'
    obtain ⟨rfl, rfl⟩ := h.answer_unique hls hls'
    obtain ⟨rfl, hrest⟩ := List.cons.inj (List.append_cancel_left (hls.symm.trans hls'))|>.imp_left
      fun heq => (ServiceLabel.answer.inj heq).2.2
    -- a further call of the thread would be a completed one
    have hquiet : ∀ {x y : List (ServiceLabel ι Id)} {g : Step},
        eventsOf i (x ++ .call i g :: y) ≠ [] := by
      intro x y g
      simp [eventsOf, ServiceLabel.event?]
    obtain ⟨m, rfl, hm⟩ | ⟨m, rfl, hm⟩ := List.append_eq_append_iff.mp hrest
    · cases m with
      | nil => simp
      | cons l m =>
        cases hm
        exact absurd hafter' hquiet
    · cases m with
      | nil => simp
      | cons l m =>
        cases hm
        exact absurd hafter hquiet

end Runs

/-! ## An approved write of a thread -/

def writingRunner : Runner where
  harness := writingHarness
  dispatcher := askingDispatcher
  ctx := gateContext
  fuel := 3
  task := "fix the bug"

def approvedWrite : Step :=
  ⟨⟨.executeApproved writeAction (fingerprint writingHarness.sha256 writeAction),
      .ok (writeResult, writeAction)⟩,
    [⟨.filesystem, gateWorkspace⟩,
      ⟨.run "write_file" writeAction.arguments, .ok (writeResult, writeAction.arguments)⟩]⟩

/-- The thread asks, the decision comes while it waits, and it takes the answer. -/
def approvedLabels : List (ServiceLabel Unit Unit) :=
  [.call () ⟨⟨.monotonic, (0 : ℤ)⟩, []⟩, .call () ⟨⟨.monotonic, (0 : ℤ)⟩, []⟩,
    .call () ⟨⟨.complete (writingHarness.messages "fix the bug" writingHarness.initialState []),
      .ok "write"⟩, []⟩,
    .call () ⟨writingHarness.logged {} .actionProposed (proposedPayload writeAction), []⟩,
    .call () ⟨⟨.dispatch writeAction, .ok (writeVerdict, none, writeAction)⟩,
      [⟨.filesystem, gateWorkspace⟩]⟩,
    .call () ⟨writingHarness.logged {} .governanceDecision
      (decisionPayload writeAction writeVerdict), []⟩,
    .ask () () (requestRow writingHarness.sha256 "task" 0 writeAction writeVerdict),
    .approval () (.decide true), .approval () .set, .approval () .wake, .approval () .pop,
    .approval () .reread,
    .answer () () ⟨.resolve writeAction writeVerdict, .ok (true, writeAction, writeVerdict)⟩]

theorem approvedLabels_run : ∃ s, ServiceRun (fun _ : Unit => writingRunner)
    (fun _ : Unit => none) 0 (approvedLabels ++ [.call () approvedWrite]) s :=
  ⟨_, .cons (.call _ _ rfl rfl rfl) (.cons (.call _ _ rfl rfl rfl)
    (.cons (.call _ _ rfl trivial rfl) (.cons (.call _ _ rfl trivial rfl)
    (.cons (.call _ _ rfl trivial (.call (.ret _))) (.cons (.call _ _ rfl trivial rfl)
    (.cons (.ask () 0 _ rfl rfl rfl) (.cons (.approval () _ _ (fun _ => nofun) rfl)
    (.cons (.approval () _ _ (fun _ => nofun) rfl) (.cons (.approval () _ _ (fun _ => nofun) rfl)
    (.cons (.approval () _ _ (fun _ => nofun) rfl) (.cons (.approval () _ _ (fun _ => nofun) rfl)
    (.cons (.answer () true rfl rfl rfl)
    (.cons (.call _ _ rfl trivial (.call (.call (.ret _)))) .nil)))))))))))))⟩

theorem approved_runs_authorised_write : ∃ executed id s₁, executed.tool = writeAction.tool ∧
    executed.arguments = writeAction.arguments ∧ lastAnswered () approvedLabels = some id ∧
    ServiceRun (fun _ : Unit => writingRunner) (fun _ : Unit => none) 0 approvedLabels s₁ ∧
    AuthorisedBy (fun _ : Unit => writingRunner) s₁ approvedLabels () executed id := by
  obtain ⟨s, hrun⟩ := approvedLabels_run
  exact ((approved_runs_authorised _ _ _ _ s hrun).1 approvedLabels () approvedWrite []
    _ _ rfl ⟨trivial, _, List.mem_cons_of_mem _ (List.mem_singleton_self _), rfl⟩).2

end AegisCode
