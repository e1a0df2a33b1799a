import AegisCode.DemoIsolation

/-!
# The runs of the demo manager

Starting a run and running it keep the contract: each call is allowed in the window it
stands in, whatever the other threads do there.
-/
namespace AegisCode.Demo

open Program Prog ThreadPool

variable {u : DemoSetup} {i n : ℕ} {s s' : DemoState} {t w d : Str} {β γ : Type}
  {post : β → DemoState → Prop} {P : Option Str → Option MockLLM → Prop}

/-- The program is safe for thread `i` of the manager. -/
abbrev SafeAt (u : DemoSetup) (i : ℕ) (post : β → DemoState → Prop) (p : DemoProg β)
    (s : DemoState) : Prop :=
  Safe (demoSystem u) contract i post p s

/-- A call from where `A` holds, and what is left to do behind it. -/
theorem safe_perform {A : DemoState → Prop} {c : DemoCall} {f : DemoResp c → DemoProg β}
    (hstable : contract.Stable i A)
    (h : ∀ s n r s', A s → Consistent s → answers i n s c r s' →
      AllowedAt u i n s c r s' ∧ SafeAt u i post (f r) s') (hA : A s) :
    SafeAt u i post (perform c >>= f) s :=
  safe_call hstable (fun s n r s' hA hinv _ hanswer => h s n r s' hA hinv hanswer) hA

/-- The last call of a program. -/
theorem safe_last {A : DemoState → Prop} {c : DemoCall} {post : DemoResp c → DemoState → Prop}
    (hstable : contract.Stable i A) (hpost : ∀ r, contract.Stable i (post r))
    (h : ∀ s n r s', A s → Consistent s → answers i n s c r s' →
      AllowedAt u i n s c r s' ∧ post r s') (hA : A s) :
    SafeAt u i post (perform c) s :=
  safe_call hstable (fun s n r s' hA hinv _ hanswer =>
    (h s n r s' hA hinv hanswer).imp_right fun hr => safe_pure (hpost r) hr) hA

/-- A call that reads and writes nothing of the state. -/
theorem safe_idle {A : DemoState → Prop} {c : DemoCall} (hstable : contract.Stable i A)
    (hstarts : ∀ r, starts c r = none) (hidle : ∀ i n s r s', answers i n s c r s' → s' = s)
    (hA : A s) : SafeAt u i (fun _ => A) (perform c) s :=
  safe_last hstable (fun _ => hstable) (fun _ _ r _ hA hinv hanswer => by
    obtain rfl := hidle _ _ _ _ _ hanswer
    exact ⟨allowed_read (hstarts r) hinv, hA⟩) hA

/-- What no call of any thread makes false. -/
def Lasting (B : DemoState → Prop) : Prop :=
  ∀ j s s', Consistent s' → Leaves j s s' → B s → B s'

theorem Lasting.stable {B : DemoState → Prop} (h : Lasting B) : contract.Stable i B :=
  stable_of_leaves h

theorem lasting_known : Lasting (Known t w d) := fun _ _ _ _ hleaves h => hleaves.known h

theorem lasting_ended : Lasting (Ended w) := fun _ _ _ _ hleaves h => hleaves.ended h

theorem Lasting.and {A B : DemoState → Prop} (hA : Lasting A) (hB : Lasting B) :
    Lasting fun s => A s ∧ B s :=
  fun j s s' hinv hleaves h => ⟨hA j s s' hinv hleaves h.1, hB j s s' hinv hleaves h.2⟩

/-! ## Cleaning up -/

/-- The calls of a cleanup. -/
def Cleans (w : Str) : DemoCall → Prop
  | .isdir _ => True
  | .rmtree w' => w' = w
  | .popScenario w' => w' = w
  | .popLlm w' => w' = w
  | _ => False

theorem calls_cleanupWorkspace (w : Str) : AllCalls (Cleans w) (cleanupWorkspace w) := by
  have hscenario : AllCalls (Cleans w) (perform (DemoCall.popScenario w) : DemoProg Unit) :=
    allCalls_perform (rfl : w = w)
  have hllm : AllCalls (Cleans w) (perform (DemoCall.popLlm w) : DemoProg Unit) :=
    allCalls_perform (rfl : w = w)
  refine AllCalls.bind ?_ fun _ => hscenario.bind fun _ => hllm
  unfold removeTree
  split
  · trivial
  · refine (allCalls_perform trivial).bind fun there => ?_
    cases there with
    | true => exact allCalls_perform (rfl : w = w)
    | false => trivial

/-- The workspace of an ended task may be cleaned up. -/
theorem allowed_cleans {c : DemoCall} (hc : Cleans w c) {r : DemoResp c} (hinv : Consistent s)
    (hended : Ended w s) (hanswer : answers i n s c r s') : AllowedAt u i n s c r s' := by
  cases c with
  | isdir path =>
      obtain ⟨rfl, -⟩ := hanswer
      exact allowed_read rfl hinv
  | rmtree path =>
      obtain rfl : path = w := hc
      obtain rfl | rfl := hanswer
      · exact allowed_read rfl hinv
      · have hentries := entries_rmtree (i := i) hinv hended
        exact allowed_of rfl (hentries.consistent hinv) hentries.leaves
  | popScenario workspace =>
      obtain rfl : workspace = w := hc
      obtain rfl := hanswer
      have hentries := entries_popScenario (i := i) hinv hended
      exact allowed_of rfl (hentries.consistent hinv) hentries.leaves
  | popLlm workspace =>
      obtain rfl : workspace = w := hc
      obtain rfl := hanswer
      have hentries := entries_popLlm (i := i) hinv hended
      exact allowed_of rfl (hentries.consistent hinv) hentries.leaves
  | _ => exact hc.elim

theorem safe_cleanup {B : DemoState → Prop} (hB : Lasting B) (hended : Ended w s) (h : B s) :
    SafeAt u i (fun _ => B) (cleanupWorkspace w) s := by
  have hlasting := lasting_ended (w := w).and hB
  have hsafe : SafeAt u i (fun _ s => Ended w s ∧ B s) (cleanupWorkspace w) s := by
    refine safe_of_calls hlasting.stable (fun c hc s n r s' hA hinv _ hanswer => ?_)
      (calls_cleanupWorkspace w) ⟨hended, h⟩
    have hallowed := allowed_cleans (u := u) hc hinv hA.1 hanswer
    exact ⟨hallowed, hlasting _ _ _ hallowed.inv hallowed.guar hA⟩
  exact hsafe.mono fun _ _ _ hpost => hpost.2

theorem safe_sweepRun {B : DemoState → Prop} (hB : Lasting B) (hknown : Known t w d s) (h : B s) :
    SafeAt u i (fun _ => B) (sweepRun t w) s := by
  have hlasting := (lasting_known (t := t) (w := w) (d := d)).and hB
  unfold sweepRun
  split
  · exact safe_pure hB.stable h
  · refine safe_perform hlasting.stable (fun s n there s' hA hinv hanswer => ?_) ⟨hknown, h⟩
    obtain ⟨rfl, -⟩ := hanswer
    refine ⟨allowed_read rfl hinv, ?_⟩
    cases there with
    | false => exact safe_pure hB.stable hA.2
    | true =>
        refine safe_perform hlasting.stable (fun s n row s' hA hinv hanswer => ?_) hA
        obtain ⟨rfl, rfl⟩ := hanswer
        refine ⟨allowed_read rfl hinv, ?_⟩
        obtain ⟨row, hrow, hworkspace, -⟩ := hA.1
        rw [hrow]
        show SafeAt u i _ (if row.state.terminal = true then cleanupWorkspace w else pure ()) s'
        split
        · next hterminal => exact safe_cleanup hB ⟨t, row, hrow, hworkspace, hterminal⟩ hA.2
        · exact safe_pure hB.stable hA.2

/-- The sweep is safe: it cleans up after runs whose row says that they have ended. -/
theorem safe_sweep : SafeAt u i (fun _ _ => True) sweepOrphanedRuns s := by
  refine safe_perform (Contract.stable_const True) (fun s n runs s' _ hinv hanswer => ?_) trivial
  obtain ⟨rfl, hruns⟩ := hanswer
  refine ⟨allowed_read rfl hinv, ?_⟩
  have hknown : ∀ run ∈ runs, Known run.1 run.2.workspace run.2.scenarioId s' := by
    rintro ⟨t, m⟩ hrun
    obtain ⟨row, hrow, rfl⟩ := hinv.recorded t m ((hruns t m).mp hrun)
    exact ⟨row, hrow, rfl, rfl⟩
  clear hruns
  induction runs generalizing s' with
  | nil => exact safe_pure (Contract.stable_const True) trivial
  | cons run runs ih =>
      obtain ⟨hfirst, hrest⟩ := List.forall_mem_cons.mp hknown
      have hlasting : Lasting fun s => ∀ run ∈ runs,
          Known run.1 run.2.workspace run.2.scenarioId s :=
        fun j s s' _ hleaves h run hrun => hleaves.known (h run hrun)
      refine Safe.bind ((safe_sweepRun hlasting hfirst hrest).mono fun _ s hinv hrest => ?_) hinv
      exact ih s hinv hrest

/-! ## The runners -/

theorem safe_harnessFactory (hrunning : Running i t w d s) :
    SafeAt u i (fun _ => Running i t w d) (harnessFactory t w) s := by
  refine safe_perform stable_running (fun s n r s' hrunning hinv hanswer => ?_) hrunning
  obtain ⟨rfl, rfl⟩ := hanswer
  refine ⟨allowed_read rfl hinv, ?_⟩
  -- the row is not written yet, so the entry of its workspace is there
  obtain ⟨-, row, hrow, rfl, rfl, hstate⟩ := id hrunning
  obtain ⟨-, hscenario, -, scenario, -, hget, -⟩ := hinv.live t row hrow hstate
  simp only [hscenario, hget]
  refine safe_perform stable_running (fun s n r s' hrunning hinv hanswer => ?_) hrunning
  obtain ⟨rfl, rfl⟩ := hanswer
  refine ⟨allowed_read rfl hinv, ?_⟩
  obtain ⟨-, row', hrow', hw, hd, hstate⟩ := id hrunning
  obtain ⟨-, -, llm, scenario', hllm, hget', hscript⟩ := hinv.live t row' hrow' hstate
  rw [hw] at hllm
  rw [hd, hget, Option.some.injEq] at hget'
  subst hget'
  simp only [hllm]
  refine safe_last (A := fun s => Running i t row.workspacePath row.taskDescription s ∧
    s.llms[llm.ref]? = some row.workspacePath) (stable_running.and stable_llms)
    (fun _ => stable_running) (fun s n r s' hA hinv hanswer => ?_) ⟨hrunning, hinv.llms _ _ hllm⟩
  obtain ⟨hrunning, href⟩ := hA
  cases r with
  | error e =>
      obtain rfl := hanswer
      exact ⟨allowed_read rfl hinv, hrunning⟩
  | ok _ =>
      obtain rfl := hanswer
      exact ⟨allowed_of rfl (consistent_build hinv hrunning hget hscript href)
        (leaves_build hrunning), hrunning⟩

/-- A call of the loop of a runner keeps the row unwritten. -/
theorem allowed_harness {c : Call} (hc : HarnessCore.OwnAppend t c) {r : Resp c}
    (hinv : Consistent s) (hrunning : Running i t w d s)
    (hanswer : answers i n s (.harness t c) r s') :
    AllowedAt u i n s (.harness t c) r s' ∧ Running i t w d s' := by
  cases c with
  | append taskId stepIndex eventType payload =>
      obtain ⟨e, htask, -, -, rfl⟩ := hanswer
      have hown : e.taskId = t := htask.trans hc
      exact ⟨allowed_of rfl { hinv with } (leaves_append hrunning hown), hrunning⟩
  | _ =>
      obtain rfl := hanswer
      exact ⟨allowed_read rfl hinv, hrunning⟩

theorem safe_runLoop (hrunning : Running i t w d s) (description : Str) :
    SafeAt u i (fun _ => Running i t w d) (runLoop u t description) s := by
  refine safe_perform stable_running (fun s n r s' hrunning hinv hanswer => ?_) hrunning
  obtain ⟨rfl, rfl⟩ := hanswer
  refine ⟨allowed_read rfl hinv, ?_⟩
  cases hharness : s'.harnesses t with
  | none => exact safe_pure stable_running hrunning
  | some h =>
      obtain ⟨rfl, -⟩ := hinv.built t h hharness
      have hcalls : AllCalls (fun c => ∃ c', c = DemoCall.harness h.taskId c' ∧
          HarnessCore.OwnAppend h.taskId c')
          (interpret (harnessImpl h.taskId) ((u.loopOf h).run u.fuel description)) := by
        refine (HarnessCore.OwnAppends.run (u.loopOf h) u.fuel description).interpret fun c hc => ?_
        exact allCalls_perform ⟨c, rfl, hc⟩
      have hloop : SafeAt u i (fun _ => Running i h.taskId w d)
          (interpret (harnessImpl h.taskId) ((u.loopOf h).run u.fuel description)) s' := by
        refine safe_of_calls stable_running (fun c hc s n r s' hrunning hinv _ hanswer => ?_) hcalls
          hrunning
        obtain ⟨c', rfl, hown⟩ := hc
        exact allowed_harness hown hinv hrunning hanswer
      refine Safe.bind (hloop.mono fun out s hinv hrunning => ?_) hinv
      cases out with
      | some out => exact safe_pure stable_running hrunning
      | none => exact safe_perform stable_running (fun _ _ r => nomatch r) hrunning

/-- Both runners, from the factory on: at the end the row is written. -/
theorem safe_runHarness (hinv : Consistent s) (hrunning : Running i t w d s)
    (description : Str) :
    SafeAt u i (fun _ => Known t w d)
      (interpretE (runnerImpl u t w) (runHarness description)).run s := by
  have hraised : ∀ {e : Exn} {s}, Running i t w d s →
      SafeAt u i (fun _ => Known t w d) (pure (Except.error e : Except Exn Unit)) s :=
    fun hrunning => safe_pure stable_known hrunning.known
  simp only [runHarness, interpretE_bind, interpretE_mk, interpretE_lift, interpret_perform,
    runnerImpl]
  refine Safe.except_bind ((safe_harnessFactory hrunning).mono fun out s hinv hrunning => ?_) hinv
  refine ⟨fun _ _ => ?_, fun _ _ => hraised hrunning⟩
  rw [ExceptT.run_bind_lift]
  refine Safe.bind ((safe_runLoop hrunning description).mono fun reason s hinv hrunning => ?_) hinv
  have hproject : SafeAt u i (fun _ => Running i t w d)
      (perform (DemoCall.runner t .projectSteps)) _ :=
    safe_idle stable_running (fun _ => rfl) (fun _ _ _ _ _ hanswer => hanswer) hrunning
  refine Safe.except_bind (hproject.mono fun out s hinv hrunning => ?_) hinv
  refine ⟨fun stepCount _ => ?_, fun _ _ => hraised hrunning⟩
  rw [ExceptT.run_lift]
  refine safe_perform stable_running (fun s n r s' hrunning hinv hanswer => ?_) hrunning
  obtain rfl := hanswer
  refine ⟨allowed_of rfl (consistent_updateState hinv hrunning (terminal_terminationToState _))
    (leaves_updateState hrunning), safe_pure stable_known ?_⟩
  exact (leaves_updateState hrunning).known hrunning.known

/-- A run thread. -/
theorem safe_runInThread (hinv : Consistent s) (hrunning : Running i t w d s) (description : Str) :
    SafeAt u i (fun _ _ => True)
      (interpret (runnerImpl u t w) (runInThread [t] t description).run) s := by
  show SafeAt u i _ (interpretE (runnerImpl u t w) (runInThread [t] t description)).run s
  have hdone : ∀ {out : Except Exn Unit} {s}, SafeAt u i (fun _ _ => True) (pure out) s :=
    safe_pure (Contract.stable_const True) trivial
  have hopen : SafeAt u i (fun _ => Running i t w d) (perform (DemoCall.runner t .openDb)) s :=
    safe_idle stable_running (fun _ => rfl) (fun _ _ _ _ _ hanswer => hanswer) hrunning
  simp only [runInThread, interpretE_bind, interpretE_mk, interpret_perform, runnerImpl]
  refine Safe.except_bind (hopen.mono fun out s hinv hrunning => ?_) hinv
  refine ⟨fun _ _ => ?_, fun _ _ => hdone⟩
  rw [if_neg (not_not.mpr (List.mem_singleton_self t))]
  show SafeAt u i _ (interpret (runnerImpl u t w) (_ >>= _)) _
  rw [interpret_bind]
  refine Safe.bind ((safe_runHarness hinv hrunning description).mono fun out s hinv _ => ?_) hinv
  rw [interpret_bind, interpret_perform]
  refine safe_perform (Contract.stable_const True) (fun s n r s' _ hinv hanswer => ?_) trivial
  obtain rfl := hanswer
  exact ⟨allowed_read rfl hinv, hdone⟩

/-! ## Starting a run -/

/-- A task that was created is known. -/
def Created (w d : Str) {ε : Type} (out : Except ε Str) (s : DemoState) : Prop :=
  ∀ t, out = .ok t → Known t w d s

theorem stable_created {ε : Type} (out : Except ε Str) : contract.Stable i (Created w d out) :=
  stable_of_leaves fun _ _ _ _ hleaves h t ht => hleaves.known (h t ht)

theorem created_error {ε : Type} (e : ε) (s : DemoState) : Created w d (.error e) s :=
  fun _ ht => by cases ht

/-- The runner is started in a thread of its own, or run to its end. -/
theorem safe_startRunner (hinv : Consistent s) (hrunning : Running i t w d s) :
    SafeAt u i (Created w d)
      (interpretE (taskImpl u) (AegisCode.startRun u.sync t w d)).run s := by
  have hstarted : ∀ {s}, Known t w d s →
      SafeAt u i (Created w d) (pure (Except.ok t : Except AdmissionError Str)) s :=
    fun hknown => safe_pure (stable_created _) fun t' ht => by cases ht; exact hknown
  unfold AegisCode.startRun
  split
  · rw [interpretE_bind, interpretE_lift, interpret_perform, ExceptT.run_bind_lift]
    refine Safe.bind ((safe_runHarness hinv hrunning d).mono fun out s _ hknown => ?_) hinv
    cases out with
    | ok _ => exact hstarted hknown
    | error e => exact safe_pure (stable_created _) (created_error _ _)
  · rw [interpretE_bind, interpretE_lift, interpret_perform, ExceptT.run_bind_lift]
    refine safe_perform stable_running (fun s n r s' hrunning hinv hanswer => ?_) hrunning
    obtain rfl := hanswer
    have hleaves := leaves_startThread (n := n) hrunning
    refine ⟨⟨consistent_startThread hinv hrunning, hleaves, fun j hj => ?_⟩,
      hstarted (hleaves.known hrunning.known)⟩
    cases hj
    exact running_startThread hrunning

theorem safe_launch (hreserved : Reserved i w (Prepared d) s) :
    SafeAt u i (Created w d)
      (interpretE (taskImpl u) (launch u.digest u.sync w d false)).run s := by
  simp only [launch, Bool.false_eq_true, if_false, interpretE_bind, interpretE_lift,
    interpret_perform, ExceptT.run_bind_lift, taskImpl]
  refine safe_perform stable_reserved (fun s n t s' hreserved hinv hanswer => ?_) hreserved
  obtain ⟨hnew, rfl⟩ := hanswer
  refine ⟨allowed_of rfl (consistent_insert hnew hreserved rfl hinv rfl)
    (leaves_insert hnew hreserved rfl hinv), ?_⟩
  refine safe_perform stable_running (fun s n r s' hrunning hinv hanswer => ?_)
    (running_insert rfl rfl rfl)
  obtain rfl := hanswer
  exact ⟨allowed_read rfl hinv, safe_startRunner hinv hrunning⟩

theorem safe_validateWorkspace {base : Str} (hreserved : Reserved i w P s) :
    SafeAt u i (fun out s => Reserved i w P s ∧ ∀ w', out = .ok w' → w' = w)
      (interpretE (taskImpl u) (validateWorkspace (.str w) base)).run s := by
  have hdone : ∀ {out : Except AdmissionError Str} {s}, Reserved i w P s →
      (∀ w', out = .ok w' → w' = w) →
      SafeAt u i (fun out s => Reserved i w P s ∧ ∀ w', out = .ok w' → w' = w) (pure out) s :=
    fun hreserved hout => safe_pure (stable_reserved.and (Contract.stable_const _)) ⟨hreserved, hout⟩
  unfold validateWorkspace
  dsimp only
  split
  · exact hdone hreserved fun _ heq => by cases heq
  · rw [interpretE_bind, interpretE_lift, interpret_perform, ExceptT.run_bind_lift]
    refine safe_perform stable_reserved (fun s n fs s' hreserved hinv hanswer => ?_) hreserved
    obtain rfl := hanswer
    refine ⟨allowed_read rfl hinv, ?_⟩
    rw [interpretE_bind, interpretE_mk]
    cases validateString fs w base with
    | error e => exact hdone hreserved fun _ heq => by cases heq
    | ok _ => exact hdone hreserved fun _ heq => by cases heq; rfl

theorem safe_createTask (hinv : Consistent s) (hreserved : Reserved i w (Prepared d) s) :
    SafeAt u i (Created w d)
      (interpretE (taskImpl u)
        (createTask u.digest u.config u.sync (.str w) d false)).run s := by
  unfold createTask
  rw [interpretE_bind]
  refine Safe.except_bind ((safe_validateWorkspace hreserved).mono fun out s _ hout => ?_) hinv
  obtain ⟨hreserved, hsame⟩ := hout
  refine ⟨fun w' hw' => ?_, fun e _ => safe_pure (stable_created _) (created_error _ _)⟩
  obtain rfl := hsame w' hw'
  exact safe_launch hreserved

/-- An exception of its own becomes one of the manager. -/
theorem run_raising_bind {ε : Type} (wrap : ε → DemoError) (x : ExceptT ε DemoProg β)
    (f : β → Managing γ) : (raising wrap x >>= f).run = x.run >>= fun out =>
      match out with
      | .ok a => (f a).run
      | .error e => pure (.error (wrap e)) := by
  rw [ExceptT.run_bind]
  show Except.mapError wrap <$> x.run >>= _ = _
  rw [bind_map_left]
  refine congrArg (x.run >>= ·) (funext fun out => ?_)
  cases out <;> rfl

/-- A run that was started is recorded with its scenario. -/
def Recorded (d : Str) (out : Except DemoError Str) (s : DemoState) : Prop :=
  ∀ t, out = .ok t → ∃ w, s.runMeta t = some ⟨d, w⟩

theorem stable_recorded (out : Except DemoError Str) : contract.Stable i (Recorded d out) :=
  stable_of_leaves fun _ _ _ _ hleaves h t ht => by
    obtain ⟨w, hm⟩ := h t ht
    exact ⟨w, hleaves.recorded t _ hm⟩

theorem recorded_error (e : DemoError) (s : DemoState) : Recorded d (.error e) s :=
  fun _ ht => by cases ht

/-- The entries of a reserved workspace are prepared, its task is created and recorded. -/
theorem safe_launchRun {scenario : DemoScenario} (hscenario : getScenario d = some scenario)
    (hreserved : Reserved i w (fun _ _ => True) s) :
    SafeAt u i (Recorded d) (launchRun u scenario d w).run s := by
  have hraised : ∀ {e : DemoError} {s},
      SafeAt u i (Recorded d) (pure (Except.error e : Except DemoError Str)) s :=
    safe_pure (stable_recorded _) (recorded_error _ _)
  unfold launchRun
  rw [run_raising_bind]
  refine safe_perform stable_reserved (fun s n out s' hreserved hinv hanswer => ?_) hreserved
  obtain rfl := hanswer
  refine ⟨allowed_read rfl hinv, ?_⟩
  cases out with
  | error e => exact hraised
  | ok _ =>
      show SafeAt u i _ (ExceptT.run (_ >>= _)) _
      rw [ExceptT.run_bind_lift]
      refine safe_perform stable_reserved (fun s n r s' hreserved hinv hanswer => ?_) hreserved
      obtain rfl := hanswer
      have hentries := entries_setScenario (d := d) hinv hreserved
      refine ⟨allowed_of rfl (hentries.consistent hinv) hentries.leaves, ?_⟩
      obtain ⟨hmaker, hunused, hdir, -⟩ := hreserved
      have hnamed : Reserved i w (fun scenario _ => scenario = some d)
          { s with wsToScenario := Function.update s.wsToScenario w (some d) } :=
        ⟨hmaker, hunused, hdir, Function.update_self ..⟩
      rw [ExceptT.run_bind_lift]
      refine safe_perform stable_reserved (fun s n llm s' hnamed hinv hanswer => ?_) hnamed
      obtain ⟨hllm, rfl⟩ := hanswer
      refine ⟨allowed_of rfl (consistent_newLlm hinv) leaves_newLlm, ?_⟩
      have hmade : (s.llms ++ [w])[llm.ref]? = some w := by simp [hllm]
      have hscript : llm.script = scenario.mockScript := by rw [hllm]
      clear hllm
      have hnamed : Reserved i w (fun scenario _ => scenario = some d)
          { s with llms := s.llms ++ [w] } := hnamed
      rw [ExceptT.run_bind_lift]
      refine safe_perform (stable_reserved.and stable_llms)
        (fun s n r s' hnamed hinv hanswer => ?_) ⟨hnamed, hmade⟩
      obtain rfl := hanswer
      have hentries := entries_setLlm hinv hnamed.1 hnamed.2
      refine ⟨allowed_of rfl (hentries.consistent hinv) hentries.leaves, ?_⟩
      obtain ⟨⟨hmaker, hunused, hdir, hnamed⟩, -⟩ := hnamed
      have hprepared : Prepared d (s.wsToScenario w) (Function.update s.wsLlms w (some llm) w) :=
        ⟨hnamed, llm, scenario, Function.update_self .., hscenario, hscript⟩
      have hinv' := hentries.consistent hinv
      rw [run_raising_bind]
      refine Safe.bind ((safe_createTask hinv' ⟨hmaker, hunused, hdir, hprepared⟩).mono
        fun out s hinv hcreated => ?_) hinv'
      cases out with
      | error e => exact hraised
      | ok t =>
          show SafeAt u i _ (ExceptT.run (_ >>= _)) _
          rw [ExceptT.run_bind_lift]
          refine safe_perform stable_known (fun s n r s' hknown hinv hanswer => ?_) (hcreated t rfl)
          obtain rfl := hanswer
          refine ⟨allowed_of rfl (consistent_recordMeta hinv hknown)
            (leaves_recordMeta hinv hknown), safe_pure (stable_recorded _) fun t' ht' => ?_⟩
          cases ht'
          exact ⟨w, Function.update_self ..⟩

theorem safe_startRun (hinv : Consistent s) (scenarioId : Str) :
    SafeAt u i (Recorded scenarioId) (startRun u scenarioId).run s := by
  have hraised : ∀ {e : DemoError} {s},
      SafeAt u i (Recorded scenarioId) (pure (Except.error e : Except DemoError Str)) s :=
    safe_pure (stable_recorded _) (recorded_error _ _)
  unfold startRun
  cases hscenario : getScenario scenarioId with
  | none => exact hraised
  | some scenario =>
      dsimp only
      rw [ExceptT.run_bind_lift]
      refine Safe.bind (safe_sweep.mono fun _ s hinv _ => ?_) hinv
      rw [run_raising_bind]
      refine safe_perform (Contract.stable_const True) (fun s n made s' _ hinv hanswer => ?_) trivial
      cases made with
      | error e =>
          obtain rfl := hanswer
          exact ⟨allowed_read rfl hinv, hraised⟩
      | ok w =>
          obtain ⟨hnew, -, rfl⟩ := hanswer
          refine ⟨allowed_of rfl (consistent_mkdtemp hinv hnew) (leaves_mkdtemp hnew), ?_⟩
          refine safe_launchRun hscenario
            ⟨Function.update_self .., ?_, Function.update_self .., trivial⟩
          rintro t row hrow rfl
          exact hinv.made t row hrow hnew

end AegisCode.Demo
