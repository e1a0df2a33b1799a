import AegisCode.DemoRuns

/-!
# The views of demo runs

A run that has ended has one view, and `get_run` returns it before and after the cleanup.
So in every state that the threads of the manager reach, the runs that have not ended are
isolated, and those that have are settled.
-/
namespace AegisCode.Demo

open Program Prog ThreadPool

variable {u : DemoSetup} {i n : ℕ} {s s' : DemoState} {t w d : Str}

/-! ## Looking at a run -/

/-- The view of the run is there, and it is the last one. -/
def Settled (u : DemoSetup) (runId : Str) (v : RunView) (s : DemoState) : Prop :=
  getRun u.decoder s.tables runId = some v ∧ v.done = true

theorem value_mem_terminalStates (state : TaskState) :
    decide (state.value ∈ terminalStates) = state.terminal := by
  cases state <;> decide

theorem settled_iff {runId : Str} {v : RunView} : Settled u runId v s ↔ ∃ m scenario row,
    s.runMeta runId = some m ∧ getScenario m.scenarioId = some scenario ∧
      s.tasks runId = some row ∧ row.state.terminal = true ∧
        v = viewOf u.decoder scenario m.scenarioId row.state.value
          (listSince s.auditEvents runId 0) := by
  constructor
  · rintro ⟨hview, hdone⟩
    obtain ⟨m, hm, hrest⟩ := Option.bind_eq_some_iff.mp hview
    obtain ⟨scenario, hscenario, hrest⟩ := Option.bind_eq_some_iff.mp hrest
    obtain ⟨state, hstate, hrest⟩ := Option.bind_eq_some_iff.mp hrest
    obtain ⟨row, hrow, rfl⟩ := Option.map_eq_some_iff.mp hstate
    obtain rfl := Option.some.inj hrest
    exact ⟨m, scenario, row, hm, hscenario, hrow,
      (value_mem_terminalStates row.state).symm.trans hdone, rfl⟩
  · rintro ⟨m, scenario, row, hm, hscenario, hrow, hterminal, rfl⟩
    refine ⟨?_, (value_mem_terminalStates row.state).trans hterminal⟩
    simp [getRun, DemoState.tables, hm, hscenario, hrow]

/-- A settled run stays as it is. -/
theorem lasting_settled {runId : Str} {v : RunView} : Lasting (Settled u runId v) := by
  intro j s s' _ hleaves hsettled
  rw [settled_iff] at hsettled ⊢
  obtain ⟨m, scenario, row, hm, hscenario, hrow, hterminal, hview⟩ := hsettled
  obtain ⟨row', hrow', -, -, hsame⟩ := hleaves.rows runId row hrow
  obtain rfl := hsame (.inr hterminal)
  exact ⟨m, scenario, row', hleaves.recorded runId m hm, hscenario, hrow', hterminal,
    by rw [hview, hleaves.events runId row' hrow hterminal]⟩

/-- What `get_run` promises: a view that says it is the last one is the settled one, and
of a run that was settled when it was called (`q`) it returns one. -/
def Shows (u : DemoSetup) (runId : Str) (q : Prop) (out : Except DemoError RunView)
    (s : DemoState) : Prop :=
  (∀ v, out = .ok v → v.done = true → Settled u runId v s) ∧
    (q → ∃ v, out = .ok v ∧ v.done = true)

theorem stable_shows {runId : Str} {q : Prop} (out : Except DemoError RunView) :
    contract.Stable i (Shows u runId q out) :=
  stable_of_leaves fun j s s' hinv hleaves h =>
    ⟨fun v hv hdone => lasting_settled j s s' hinv hleaves (h.1 v hv hdone), h.2⟩

/-- The row of an ended task is final. -/
theorem lasting_row {row : TaskRow} (hterminal : row.state.terminal = true) :
    Lasting fun s => s.tasks t = some row := by
  intro j s s' _ hleaves hrow
  obtain ⟨row', hrow', -, -, hsame⟩ := hleaves.rows t row hrow
  rw [hrow', hsame (.inr hterminal)]

theorem safe_getRun {runId : Str} {q : Prop} (hq : q → ∃ v, Settled u runId v s) :
    SafeAt u i (Shows u runId q) (getRunProgram u runId).run s := by
  have hlasting : Lasting fun s => q → ∃ v, Settled u runId v s :=
    fun j s s' hinv hleaves h hq => (h hq).imp fun v hv => lasting_settled j s s' hinv hleaves hv
  have hraised : ∀ {e : DemoError} {s}, ¬ q →
      SafeAt u i (Shows u runId q) (pure (Except.error e : Except DemoError RunView)) s :=
    fun hnot => safe_pure (stable_shows _) ⟨fun _ hv => (by cases hv), fun hq => absurd hq hnot⟩
  unfold getRunProgram
  rw [ExceptT.run_bind_lift]
  refine safe_perform hlasting.stable (fun s n r s' hq hinv hanswer => ?_) hq
  obtain ⟨rfl, rfl⟩ := hanswer
  refine ⟨allowed_read rfl hinv, ?_⟩
  cases hm : s'.runMeta runId with
  | none =>
      refine hraised fun h => ?_
      obtain ⟨v, hv⟩ := hq h
      obtain ⟨m, -, -, hm', -⟩ := settled_iff.mp hv
      rw [hm] at hm'
      cases hm'
  | some m =>
      dsimp only
      cases hscenario : getScenario m.scenarioId with
      | none =>
          refine hraised fun h => ?_
          obtain ⟨v, hv⟩ := hq h
          obtain ⟨m', scenario, -, hm', hscenario', -⟩ := settled_iff.mp hv
          obtain rfl := Option.some.inj (hm.symm.trans hm')
          rw [hscenario] at hscenario'
          cases hscenario'
      | some scenario =>
          dsimp only
          have hrecorded : Lasting fun s => s.runMeta runId = some m :=
            fun _ _ _ _ hleaves h => hleaves.recorded runId m h
          rw [ExceptT.run_bind_lift]
          refine safe_perform (hlasting.and hrecorded).stable
            (fun s n r s' hA hinv hanswer => ?_) ⟨hq, hm⟩
          obtain ⟨rfl, rfl⟩ := hanswer
          obtain ⟨hq, hm⟩ := hA
          refine ⟨allowed_read rfl hinv, ?_⟩
          cases hrow : s'.tasks runId with
          | none =>
              obtain ⟨row, hrow', -⟩ := hinv.recorded runId m hm
              rw [hrow] at hrow'
              cases hrow'
          | some row =>
              dsimp only
              have hdone := value_mem_terminalStates row.state
              rw [ExceptT.run_bind_lift]
              by_cases hterminal : row.state.terminal = true
              · refine safe_perform (hrecorded.and (lasting_row hterminal)).stable
                  (fun s n r s' hA hinv hanswer => ?_) ⟨hm, hrow⟩
                obtain ⟨rfl, rfl⟩ := hanswer
                obtain ⟨hm, hrow⟩ := hA
                refine ⟨allowed_read rfl hinv, ?_⟩
                have hsettled : Settled u runId (viewOf u.decoder scenario m.scenarioId
                    row.state.value (listSince s'.auditEvents runId 0)) s' :=
                  settled_iff.mpr ⟨m, scenario, row, hm, hscenario, hrow, hterminal, rfl⟩
                obtain ⟨row', hrow', hmeta⟩ := hinv.recorded runId m hm
                obtain rfl := Option.some.inj (hrow.symm.trans hrow')
                have hended : Ended m.workspace s' := ⟨runId, row, hrow, by rw [hmeta], hterminal⟩
                rw [if_pos hsettled.2, ExceptT.run_bind_lift]
                refine Safe.bind ((safe_cleanup lasting_settled hended hsettled).mono
                  fun _ s _ hsettled => ?_) hinv
                refine safe_pure (stable_shows _) ⟨fun v hv _ => ?_, fun _ => ⟨_, rfl, hsettled.2⟩⟩
                cases hv
                exact hsettled
              · have hnot : ¬ q := by
                  intro h
                  obtain ⟨v, hv⟩ := hq h
                  obtain ⟨_, _, row', -, -, hrow', hterminal', -⟩ := settled_iff.mp hv
                  obtain rfl := Option.some.inj (hrow.symm.trans hrow')
                  exact hterminal hterminal'
                refine safe_perform (Contract.stable_const True)
                  (fun s n r s' _ hinv hanswer => ?_) trivial
                obtain ⟨rfl, -⟩ := hanswer
                refine ⟨allowed_read rfl hinv, ?_⟩
                have hopen :
                    ¬ (viewOf u.decoder scenario m.scenarioId row.state.value r).done = true :=
                  fun hdone' => hterminal (hdone.symm.trans hdone')
                rw [if_neg hopen]
                refine safe_pure (stable_shows _) ⟨fun v hv hdone' => ?_, fun h => absurd h hnot⟩
                cases hv
                exact absurd hdone' hopen

/-! ## All threads -/

/-- What the thread of a job promises for its return, where `q` holds of runs that were
settled when it started. -/
def Promise (u : DemoSetup) (q : Str → Prop) : Job → Answer → DemoState → Prop
  | .startRun scenarioId, .started out, s => Recorded scenarioId out s
  | .getRun runId, .view out, s => Shows u runId (q runId) out s
  | .run _ _ _, .over _, _ => True
  | _, _, _ => False

theorem safe_code {q : Str → Prop} {j : Job} (hinv : Consistent s) (hpre : contract.pre j i s)
    (hq : ∀ t, q t → ∃ v, Settled u t v s) :
    Safe (demoSystem u) contract i (Promise u q j) (code u j) s := by
  cases j with
  | startRun scenarioId =>
      exact Safe.bind ((safe_startRun hinv scenarioId).mono fun out s _ hout =>
        safe_pure (stable_recorded out) hout) hinv
  | getRun runId =>
      exact Safe.bind ((safe_getRun (hq runId)).mono fun out s _ hout =>
        safe_pure (stable_shows out) hout) hinv
  | run t w d =>
      exact Safe.bind ((safe_runInThread hinv hpre d).mono fun out s _ _ =>
        safe_pure (Contract.stable_const True) trivial) hinv

theorem contract_valid : contract.Valid (demoSystem u) where
  enters j n s henters _ := by
    cases j with
    | run t w d => exact henters.elim
    | _ => trivial
  safe j n s hinv hpre :=
    (safe_code (q := fun _ => False) hinv hpre fun _ => False.elim).mono fun _ _ _ _ => trivial

/-! ## Reachable states -/

/-- What a harness is built for, and that its model is used by no other run. -/
structure Tailored (s : DemoState) (runId : Str) (row : TaskRow) (h : DemoHarness) : Prop where
  taskId : h.taskId = runId
  workspace : h.workspace = row.workspacePath
  scenario : ∃ scenario, getScenario row.taskDescription = some scenario ∧
    h.scenario = some scenario ∧ h.llm.script = scenario.mockScript
  alone : ∀ t h', s.harnesses t = some h' → h'.llm.ref = h.llm.ref → t = runId
  entry : ∀ w llm, s.wsLlms w = some llm → llm.ref = h.llm.ref → w = row.workspacePath

/-- A run that has its directory, its entries and its harness for itself. -/
structure Isolated (s : DemoState) (runId : Str) (row : TaskRow) : Prop where
  isdir : s.isdir row.workspacePath = true
  scenario : s.wsToScenario row.workspacePath = some row.taskDescription
  llm : ∃ llm, s.wsLlms row.workspacePath = some llm ∧
    ∀ w llm', s.wsLlms w = some llm' → llm'.ref = llm.ref → w = row.workspacePath
  alone : ∀ t row', s.tasks t = some row' → row'.workspacePath = row.workspacePath → t = runId
  recorded : ∀ t m, s.runMeta t = some m → (t = runId ↔ m.workspace = row.workspacePath) ∧
    (t = runId → m.scenarioId = row.taskDescription)
  harness : ∀ h, s.harnesses runId = some h → Tailored s runId row h

theorem Consistent.tailored (hinv : Consistent s) {row : TaskRow} (hrow : s.tasks t = some row)
    {h : DemoHarness} (hharness : s.harnesses t = some h) : Tailored s t row h := by
  obtain ⟨htask, row', hrow', hworkspace, hscenario, hllm⟩ := hinv.built t h hharness
  obtain rfl := Option.some.inj (hrow.symm.trans hrow')
  refine ⟨htask, hworkspace, hscenario, fun t' h' hharness' href => ?_, fun w llm hget href => ?_⟩
  · obtain ⟨-, row', hrow', -, -, hllm'⟩ := hinv.built t' h' hharness'
    rw [href, hllm] at hllm'
    exact hinv.own t' t row' row hrow' hrow (Option.some.inj hllm').symm
  · have hmade := hinv.llms w llm hget
    rw [href, hllm] at hmade
    exact (Option.some.inj hmade).symm

theorem Consistent.isolated (hinv : Consistent s) {row : TaskRow} (hrow : s.tasks t = some row)
    (hrunning : row.state.terminal = false) : Isolated s t row := by
  obtain ⟨hdir, hscenario, llm, -, hget, -⟩ := hinv.live t row hrow hrunning
  have halone : ∀ t' row', s.tasks t' = some row' → row'.workspacePath = row.workspacePath →
      t' = t := fun t' row' hrow' heq => hinv.own t' t row' row hrow' hrow heq
  refine ⟨hdir, hscenario, ⟨llm, hget, fun w llm' hget' href => ?_⟩, halone, fun t' m hm => ?_,
    fun h hharness => hinv.tailored hrow hharness⟩
  · have hmade := hinv.llms w llm' hget'
    rw [href, hinv.llms _ llm hget] at hmade
    exact (Option.some.inj hmade).symm
  · obtain ⟨row', hrow', rfl⟩ := hinv.recorded t' m hm
    refine ⟨⟨fun heq => ?_, halone t' row' hrow'⟩, fun heq => ?_⟩
    · subst heq
      obtain rfl := Option.some.inj (hrow.symm.trans hrow')
      rfl
    · subst heq
      obtain rfl := Option.some.inj (hrow.symm.trans hrow')
      rfl

/-- A recorded run that has ended is settled. -/
theorem Consistent.settled (hinv : Consistent s) {row : TaskRow} (hrow : s.tasks t = some row)
    (hterminal : row.state.terminal = true) {m : RunMeta} (hm : s.runMeta t = some m) :
    ∃ v, Settled u t v s ∧ v.scenarioId = row.taskDescription ∧ v.state = row.state.value := by
  obtain ⟨row', hrow', rfl⟩ := hinv.recorded t m hm
  obtain rfl := Option.some.inj (hrow.symm.trans hrow')
  obtain ⟨scenario, hscenario⟩ := Option.isSome_iff_exists.mp (hinv.named t row hrow)
  exact ⟨_, settled_iff.mpr ⟨_, scenario, row, hm, hscenario, hrow, hterminal, rfl⟩, rfl, rfl⟩

theorem Settled.unique {runId : Str} {v v' : RunView} (h : Settled u runId v s)
    (h' : Settled u runId v' s) : v' = v :=
  Option.some.inj (h'.1.symm.trans h.1)

section Runs
variable {isdir : Str → Bool} {auditEvents : List StoredEvent}
  {pool pool' : Pool DemoCall DemoResp Job DemoState Answer}

/-- The pool that the manager reaches is safe, and its threads keep their promises. -/
theorem safe_reached
    (hrun : (demoSystem u).Steps ⟨DemoState.fresh isdir auditEvents, []⟩ pool) :
    Pool.Safe (demoSystem u) contract pool ∧ ∀ i j a, pool.Returned i j a →
      Promise u (fun _ => False) j a pool.state := by
  have hempty : Pool.Safe (demoSystem u) contract ⟨DemoState.fresh isdir auditEvents, []⟩ :=
    Pool.safe_empty (consistent_fresh isdir auditEvents)
  obtain ⟨hsafe, -, hthreads⟩ := hempty.steps contract_valid (A := fun _ => True)
    (fun _ _ _ _ _ _ => trivial)
    (fun j i s hinv hpre _ => safe_code (q := fun _ => False) hinv hpre fun _ => False.elim)
    trivial hrun
  exact ⟨hsafe, fun i j a hmem =>
    (hthreads i j _ (Nat.zero_le i) hmem).returned hsafe.inv⟩

/-- A settled run stays settled, and who asks for it from then on gets its view. -/
theorem settled_steps (hsafe : Pool.Safe (demoSystem u) contract pool) {runId : Str} {v : RunView}
    (hsettled : Settled u runId v pool.state) (hsteps : (demoSystem u).Steps pool pool') :
    Settled u runId v pool'.state ∧ ∀ i a, pool.threads.length ≤ i →
      pool'.Returned i (.getRun runId) a → a = .view (.ok v) := by
  obtain ⟨hsafe', hsettled', hthreads⟩ := hsafe.steps contract_valid
    (A := Settled u runId v) lasting_settled
    (fun j i s hinv hpre hA => safe_code (q := fun t => t = runId) hinv hpre
      fun t ht => ⟨v, ht ▸ hA⟩)
    hsettled hsteps
  refine ⟨hsettled', fun i a hlen hmem => ?_⟩
  have hpromise := (hthreads i _ _ hlen hmem).returned hsafe'.inv
  cases a with
  | view out =>
      obtain ⟨hshown, hthere⟩ := hpromise
      obtain ⟨v', rfl, hdone⟩ := hthere rfl
      rw [hsettled'.unique (hshown v' rfl hdone)]
  | _ => exact hpromise.elim

/-- In every state that the threads of a manager reach, a run that has not ended is
isolated and of the scenario that it was started with. A recorded run that has ended has
one view, of its scenario and its state: every `get_run` from then on returns it, and it
is what each `get_run` returned that found the run ended. -/
theorem demo_runs_isolated
    (hrun : (demoSystem u).Steps ⟨DemoState.fresh isdir auditEvents, []⟩ pool) :
    (∀ runId row, pool.state.tasks runId = some row → row.state.terminal = false →
      Isolated pool.state runId row) ∧
    (∀ i scenarioId runId, pool.Returned i (.startRun scenarioId) (.started (.ok runId)) →
      ∃ row, pool.state.tasks runId = some row ∧ row.taskDescription = scenarioId ∧
        pool.state.runMeta runId = some ⟨scenarioId, row.workspacePath⟩) ∧
    (∀ runId m row, pool.state.runMeta runId = some m → pool.state.tasks runId = some row →
      row.state.terminal = true →
      ∃ v, v.scenarioId = row.taskDescription ∧ v.state = row.state.value ∧ v.done = true ∧
        ∀ pool', (demoSystem u).Steps pool pool' →
          getRun u.decoder pool'.state.tables runId = some v ∧
          ∀ i a, pool.threads.length ≤ i →
            pool'.Returned i (.getRun runId) a → a = .view (.ok v)) ∧
    (∀ i runId v, pool.Returned i (.getRun runId) (.view (.ok v)) → v.done = true →
      getRun u.decoder pool.state.tables runId = some v) := by
  obtain ⟨hsafe, hpromises⟩ := safe_reached hrun
  refine ⟨fun runId row hrow hrunning => hsafe.inv.isolated hrow hrunning,
    fun i scenarioId runId hmem => ?_, fun runId m row hm hrow hterminal => ?_,
    fun i runId v hmem hdone => ?_⟩
  · have hrecorded : Recorded scenarioId (.ok runId) pool.state := hpromises i _ _ hmem
    obtain ⟨w, hm⟩ := hrecorded runId rfl
    obtain ⟨row, hrow, hmeta⟩ := hsafe.inv.recorded runId _ hm
    cases hmeta
    exact ⟨row, hrow, rfl, hm⟩
  · obtain ⟨v, hsettled, hscenario, hstate⟩ := hsafe.inv.settled (u := u) hrow hterminal hm
    refine ⟨v, hscenario, hstate, hsettled.2, fun pool' hsteps => ?_⟩
    obtain ⟨hsettled', hviews⟩ := settled_steps hsafe hsettled hsteps
    exact ⟨hsettled'.1, hviews⟩
  · have hshows : Shows u runId False (.ok v) pool.state := hpromises i _ _ hmem
    exact (hshows.1 v rfl hdone).1

/-! ## Runs that are only just created -/

/-- The last thread makes a call. -/
theorem steps_call {start : Pool DemoCall DemoResp Job DemoState Answer}
    {others : List (Job × DemoProg Answer)} {j : Job} {p : DemoProg Answer} {c : DemoCall}
    {k : DemoResp c → DemoProg Answer} {r : DemoResp c}
    (hsteps : (demoSystem u).Steps start ⟨s, others ++ [(j, p)]⟩) (hcall : p = .call c k)
    (hanswer : answers others.length (others.length + 1) s c r s') (hstarts : starts c r = none) :
    (demoSystem u).Steps start ⟨s', others ++ [(j, k r)]⟩ := by
  subst hcall
  let pool : Pool DemoCall DemoResp Job DemoState Answer := ⟨s, others ++ [(j, .call c k)]⟩
  have hlength : pool.threads.length = others.length + 1 := List.length_append
  have hstep : (demoSystem u).Step pool
      ⟨s', pool.threads.set others.length (j, k r) ++ (demoSystem u).started c r⟩ :=
    .call List.getElem?_concat_length (by rw [hlength]; exact hanswer)
  have hnone : (demoSystem u).started c r = [] := by
    show (starts c r).toList.map _ = []
    rw [hstarts]
    rfl
  have hset : pool.threads.set others.length (j, k r) = others ++ [(j, k r)] := by
    rw [List.set_append_right _ _ le_rfl, Nat.sub_self]
    rfl
  rw [hnone, List.append_nil, hset] at hstep
  exact hsteps.tail hstep

end Runs

def exampleSetup : DemoSetup where
  decoder := ⟨fun _ => Json.nan, fun _ => 'x'⟩
  sync := false
  digest := anyDigest
  config := baseConfig
  core _ :=
    { config := {}, sha256 := anyDigest, taskId := []
      parseAction := fun _ => .error ⟨.other, []⟩, promptBuilder := none
      approvalResolver := false, cancelCheck := false, memoryStore := false }
  fuel := 50

/-- A call of `start_run` up to the row of its task, which is not recorded as a run yet. -/
theorem startRun_reaches {start : Pool DemoCall DemoResp Job DemoState Answer}
    {others : List (Job × DemoProg Answer)} {scenario : DemoScenario} {s : DemoState}
    {t w d : Str} (hsteps : (demoSystem exampleSetup).Steps start ⟨s, others⟩)
    (hscenario : getScenario d = some scenario) (hnew : s.tasks t = none)
    (hmetas : ∀ runId, s.runMeta runId = none) (hmaker : s.maker w = none) (hne : w ≠ [])
    (hvalid : validateString bareWorkspace w baseConfig.workspace.base = .ok ()) :
    ∃ pool row, (demoSystem exampleSetup).Steps start pool ∧
      pool.state.tasks = Function.update s.tasks t (some row) ∧ row.state.terminal = false ∧
      (∀ runId, pool.state.runMeta runId = none) ∧
      pool.state.maker = Function.update s.maker w (some others.length) := by
  have hcode : code exampleSetup (.startRun d) = (ExceptT.run (do
      ExceptT.lift sweepOrphanedRuns
      let workspace ← raising .raised (ExceptT.mk (perform DemoCall.mkdtemp))
      launchRun exampleSetup scenario d workspace)) >>= fun out => pure (.started out) := by
    simp only [code, startRun, hscenario]
  have hentered : (demoSystem exampleSetup).Steps start
      ⟨s, others ++ [(.startRun d, code exampleSetup (.startRun d))]⟩ :=
    hsteps.tail (.enter trivial)
  have hswept := steps_call (c := .metas) (r := []) hentered hcode ⟨rfl, by simp [hmetas]⟩ rfl
  have hmade := steps_call (c := .mkdtemp) (r := .ok w) hswept rfl ⟨hmaker, hne, rfl⟩ rfl
  have hfilled := steps_call (c := .materialize scenario.fixture w) (r := .ok ()) hmade
    rfl rfl rfl
  have hnamed := steps_call (c := .setScenario w d) (r := ()) hfilled rfl rfl rfl
  have hmodel := steps_call (c := .newLlm w scenario.mockScript)
    (r := ⟨s.llms.length, scenario.mockScript⟩) hnamed rfl ⟨rfl, rfl⟩ rfl
  have hentries := steps_call (c := .setLlm w ⟨s.llms.length, scenario.mockScript⟩) (r := ())
    hmodel rfl rfl rfl
  have hlooked := steps_call (c := .service .filesystem) (r := bareWorkspace) hentries
    (by simp only [createTask, validateWorkspace, if_neg hne]; rfl) rfl rfl
  have hbase : validateString bareWorkspace w exampleSetup.config.workspace.base = .ok () := hvalid
  have hinserted := steps_call
    (c := .service (.insert w (workspaceHash anyDigest w) d)) (r := t) hlooked (by
      dsimp only [Prog.bind, ExceptT.bindCont, Function.comp, Bind.bind, ExceptT.bind,
        ExceptT.mk, interpret]
      rw [hbase]
      rfl) ⟨hnew, rfl⟩ rfl
  exact ⟨_, ⟨t, w, workspaceHash anyDigest w, d, .running, none, 0⟩, hinserted, rfl, rfl, hmetas,
    rfl⟩

/-- Two runs are isolated from each other already between their rows and their records. -/
theorem demo_runs_isolated_created : ∃ pool row row',
    (demoSystem exampleSetup).Steps ⟨DemoState.fresh (fun _ => false) [], []⟩ pool ∧
      pool.state.tasks "t" = some row ∧ pool.state.tasks "u" = some row' ∧
      pool.state.runMeta "t" = none ∧ pool.state.runMeta "u" = none ∧
      Isolated pool.state "t" row ∧ Isolated pool.state "u" row' := by
  have hthere : (getScenario "dangerous-action-denial").isSome = true := by decide +kernel
  obtain ⟨scenario, hscenario⟩ := Option.isSome_iff_exists.mp hthere
  have hfresh : (demoSystem exampleSetup).Steps ⟨DemoState.fresh (fun _ => false) [], []⟩
      ⟨DemoState.fresh (fun _ => false) [], []⟩ := .refl
  obtain ⟨⟨s, threads⟩, row, hfirst, htasks, hrunning, hmeta, hmaker⟩ := startRun_reaches
    (t := "t") (w := "/x/ws/run") hfresh hscenario rfl (fun _ => rfl) rfl (by decide) rfl
  dsimp only at htasks hmeta hmaker
  obtain ⟨pool, row', hsteps, htasks', hrunning', hmeta', -⟩ := startRun_reaches
    (t := "u") (w := "/x/ws/other") hfirst hscenario (by simp [htasks, DemoState.fresh]) hmeta
    (by simp [hmaker, DemoState.fresh]) (by decide) rfl
  have hrow : pool.state.tasks "t" = some row := by
    rw [htasks', htasks, Function.update_of_ne (by decide), Function.update_self]
  have hrow' : pool.state.tasks "u" = some row' := by
    rw [htasks', Function.update_self]
  have hisolated := (demo_runs_isolated hsteps).1
  exact ⟨pool, row, row', hsteps, hrow, hrow', hmeta' _, hmeta' _, hisolated "t" row hrow hrunning,
    hisolated "u" row' hrow' hrunning'⟩

end AegisCode.Demo
