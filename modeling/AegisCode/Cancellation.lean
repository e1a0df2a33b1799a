import AegisCode.RunThreads

/-!
# Cancelled and expired runs

The loop looks at the clock and at the cancellation flag at the top of a turn
and nowhere else. So a cancelled or expired run may still execute the action of
the turn under way, also one that waits for its approval, and then it stops.
-/
namespace AegisCode

open Program Prog ApprovalService

namespace HarnessCore
variable {h : HarnessCore} {task : Str} {start : ℤ} {s : LoopState} {t u v : List Ev} {e : Ev}

/-- Behind the calls `u` the run is in a turn that the limits let in, and that has
executed nothing yet. -/
def Opened (h : HarnessCore) (start : ℤ) (u : List Ev) : Prop :=
  ∃ before now mid c, u = before ++ (h.opening now ++ mid) ∧
    decideTermination c h.config.limits (now - start) = none ∧ executions mid = 0

theorem Opened.append_left (hu : Opened h start u) (before : List Ev) :
    Opened h start (before ++ u) := by
  obtain ⟨before', now, mid, c, rfl, hterm, hmid⟩ := hu
  exact ⟨before ++ before', now, mid, c, by simp, hterm, hmid⟩

/-- A turn executes behind its opening, and once. -/
theorem opened_of_opening {now : ℤ} {c : LoopCounters}
    (hterm : decideTermination c h.config.limits (now - start) = none)
    (hone : executions (h.opening now ++ t) ≤ 1) (hsplit : h.opening now ++ t = u ++ e :: v)
    (he : mayExecute e = true) : Opened h start u := by
  have hzero : executions u = 0 := by
    rw [hsplit, executions_append] at hone
    have hpos : 0 < executions (e :: v) := by simp [executions, he]
    omega
  obtain ⟨m, rfl, _⟩ | ⟨m, hopen⟩ := append_eq_append_cons hsplit
  · rw [executions_append] at hzero
    exact ⟨[], now, m, c, rfl, hterm, by omega⟩
  · have hnone := (opening_spends (h := h) now).2
    have hpos : 0 < executions (u ++ e :: m) := by simp [executions, he]
    rw [hopen] at hnone
    omega

theorem turn_opened {outcome : Outcome} (hrun : Runs (h.turn task start s) t outcome)
    (hsplit : t = u ++ e :: v) (he : mayExecute e = true) : Opened h start u := by
  have hone := turn_executions_le hrun
  have hnone : executions t ≠ 0 := by
    rw [hsplit]
    simp [executions, he]
  cases turn_cases hrun with
  | limit now _ => exact absurd (by simp [executions, mayExecute]) hnone
  | cancelled now _ _ => exact absurd (by simp [executions, mayExecute]) hnone
  | attempted now hterm _ => exact opened_of_opening hterm hone hsplit he
  | failed now _ hterm _ => exact opened_of_opening hterm hone hsplit he

/-- In every run an execution stands in an opened turn. -/
theorem run_opened {fuel : ℕ} {out : Option (Except Exn TerminationReason)}
    (hrun : Runs (h.run fuel task) t out) (hsplit : t = u ++ e :: v) (he : mayExecute e = true) :
    ∃ start w, u = ⟨.monotonic, start⟩ :: w ∧ Opened h start w := by
  obtain rfl | ⟨start, ts, rfl, hturn⟩ := run_turns hrun
  · simp at hsplit
  · obtain _ | ⟨x, w⟩ := u
    · cases hsplit
      cases he
    · obtain ⟨rfl, hflat⟩ := List.cons.inj hsplit
      obtain ⟨t, ht, before, u', v', hu, rfl⟩ := flatten_eq_append_cons hflat
      obtain ⟨s, outcome, hrun⟩ := hturn t ht
      exact ⟨start, _, rfl, (turn_opened hrun hu he).append_left before⟩

theorem decideTermination_elapsed {c : LoopCounters} {limits : Limits} {elapsed : ℤ}
    (hterm : decideTermination c limits elapsed = none) :
    elapsed < limits.wallClockTimeoutSec * 10 ^ 9 := by
  unfold decideTermination at hterm
  split_ifs at hterm with hclock
  omega

end HarnessCore

open HarnessCore

/-! ## Turns in the service -/

section Service
variable {ι Id : Type} [DecidableEq ι] [DecidableEq Id] {runners : ι → Runner}
  {rows : Id → Option ApprovalRow} {now : ℤ} {ls : List (ServiceLabel ι Id)}
  {s : ServiceState ι Id}

/-- The flag of a task is set by `cancel`. -/
theorem ServiceRun.cancelled_iff (h : ServiceRun runners rows now ls s) (i : ι) :
    s.cancelled i = true ↔ .cancel i ∈ ls := by
  induction h with
  | nil => simp [ServiceState.initial]
  | snoc _ hstep ih =>
    rw [List.mem_append, List.mem_singleton, ← ih]
    cases hstep with
    | @cancel j =>
      by_cases hj : i = j
      · subst hj
        simp
      · simp [hj]
    | _ => simp

/-- The step ran a tool. -/
def RanTool (f : Step) : Prop := ∃ e ∈ f.inner, isToolRun e = true

theorem RanTool.mayExecute {H : Digest} {d : Dispatcher} {ctx : TaskContext} {f : Step}
    (hran : RanTool f) (hl : Linked (implementation H d ctx) f) :
    HarnessCore.mayExecute f.event = true ∧ f.inner.countP isToolRun = 1 := by
  have hle := countP_isToolRun_le hl
  have hpos := List.countP_pos_iff.mpr hran
  split_ifs at hle with hmay
  · exact ⟨hmay, by omega⟩
  · omega

/-- Thread `i` is in a turn: it read the clock below the timeout of its run, then
it found the cancellation flag unset, and since then it has run no tool. -/
def TurnOpened (runners : ι → Runner) (rows : Id → Option ApprovalRow) (now : ℤ) (i : ι)
    (pre : List (ServiceLabel ι Id)) : Prop :=
  ∃ before between after start s₁,
    pre = before ++ .call i ⟨⟨.monotonic, s₁.clock⟩, []⟩ ::
      (between ++ .call i ⟨⟨.cancelCheck, false⟩, []⟩ :: after) ∧
    (eventsOf i pre).head? = some ⟨.monotonic, start⟩ ∧
    ServiceRun runners rows now before s₁ ∧
    s₁.clock - start < (runners i).harness.config.limits.wallClockTimeoutSec * 10 ^ 9 ∧
    .cancel i ∉ before ++ .call i ⟨⟨.monotonic, s₁.clock⟩, []⟩ :: between ∧
    ∀ f, .call i f ∈ between ++ after → ¬ RanTool f

/-- The step that completed a call which no resolver answers. -/
theorem ServiceRun.call_of_event {i : ι} {l : ServiceLabel ι Id} {e : HarnessCore.Ev}
    {pre post : List (ServiceLabel ι Id)} (h : ServiceRun runners rows now (pre ++ l :: post) s)
    (hl : l.event? i = some e) (he : ∀ action verdict, e.call ≠ .resolve action verdict) :
    ∃ inner s₁, l = .call i ⟨e, inner⟩ ∧ ServiceRun runners rows now pre s₁ ∧ Answers s₁ i e ∧
      Linked (implementation (runners i).harness.sha256 (runners i).dispatcher (runners i).ctx)
        ⟨e, inner⟩ := by
  obtain ⟨s₁, s₂, hpre, hstep⟩ := h.at
  obtain ⟨⟨e', inner⟩, rfl, rfl⟩ | ⟨id, rfl⟩ := event?_eq_some hl
  · cases hstep with
    | call r inner _ hanswers hlinked => exact ⟨inner, s₁, rfl, hpre, hanswers, hlinked⟩
  · cases hstep with
    | answer _ _ _ _ _ => exact absurd rfl (he _ _)

theorem ServiceRun.linked (h : ServiceRun runners rows now ls s) {i : ι} {f : Step}
    (hf : .call i f ∈ ls) : Linked (implementation (runners i).harness.sha256
      (runners i).dispatcher (runners i).ctx) f := by
  obtain ⟨pre, post, rfl⟩ := List.append_of_mem hf
  obtain ⟨s₁, s₂, _, hstep⟩ := h.at
  cases hstep with
  | call _ _ _ _ hl => exact hl

/-- Every tool of a thread that looks at the flag runs in an opened turn. -/
theorem ServiceRun.turnOpened {i : ι} {f : Step} {pre post : List (ServiceLabel ι Id)}
    (h : ServiceRun runners rows now (pre ++ .call i f :: post) s)
    (hcheck : (runners i).harness.cancelCheck = true) (hran : RanTool f) :
    TurnOpened runners rows now i pre ∧ f.inner.countP isToolRun = 1 := by
  obtain ⟨hmay, hone⟩ := hran.mayExecute (h.linked (List.mem_append_right _ (List.mem_cons_self ..)))
  refine ⟨?_, hone⟩
  obtain ⟨s₁, s₂, hpre, hstep⟩ := h.at
  have hown : eventsOf i [(.call i f : ServiceLabel ι Id)] = [f.event] := by
    simp [eventsOf, ServiceLabel.event?]
  have hreach := ServiceRun.reaches (.snoc hpre hstep) i
  rw [eventsOf_append, hown] at hreach
  obtain ⟨rest, out, hrun⟩ := hreach.exists_runs
  obtain ⟨start, w, hw, before, now', mid, c, rfl, hterm, hmid⟩ :=
    run_opened hrun (List.append_assoc ..) hmay
  rw [opening, if_pos hcheck, List.cons_append, List.singleton_append, ← List.cons_append] at hw
  -- the two checks are steps of the history
  obtain ⟨b, rest₁, rfl, hb, hrest₁⟩ := List.filterMap_eq_append_iff.mp hw
  obtain ⟨skip, l₁, rest₂, rfl, hskip, hl₁, hrest₂⟩ := List.filterMap_eq_cons_iff.mp hrest₁
  obtain ⟨between, l₂, after, rfl, hbetween, hl₂, hafter⟩ := List.filterMap_eq_cons_iff.mp hrest₂
  have hclock : ServiceRun runners rows now ((b ++ skip) ++ l₁ :: (between ++ l₂ :: after)) s₁ := by
    simpa using hpre
  obtain ⟨inner₁, sc, rfl, hsc, hnow, hinner₁⟩ := hclock.call_of_event hl₁ (by rintro _ _ ⟨⟩)
  have hflag : ServiceRun runners rows now
      ((b ++ skip ++ .call i ⟨⟨.monotonic, now'⟩, inner₁⟩ :: between) ++ l₂ :: after) s₁ := by
    simpa using hpre
  obtain ⟨inner₂, sf, rfl, hsf, hfalse, hinner₂⟩ := hflag.call_of_event hl₂ (by rintro _ _ ⟨⟩)
  obtain rfl : now' = sc.clock := hnow
  obtain rfl : inner₁ = [] := hinner₁
  obtain rfl : inner₂ = [] := hinner₂
  refine ⟨b ++ skip, between, after, start, sc, by simp, ?_, hsc, decideTermination_elapsed hterm,
    ?_, ?_⟩
  · exact (congrArg List.head? hw).trans rfl
  · intro hmem
    rw [← hsf.cancelled_iff] at hmem
    exact absurd (Eq.trans hfalse hmem) Bool.false_ne_true
  · intro g hg hran'
    obtain hg | hg := List.mem_append.mp hg
    · exact absurd (hbetween _ hg) (by simp [ServiceLabel.event?])
    · have hmay' := (hran'.mayExecute (hflag.linked (List.mem_append_right _
        (List.mem_cons_of_mem _ hg)))).1
      have hmem : g.event ∈ mid := by
        rw [← hafter]
        exact List.mem_filterMap.mpr ⟨_, hg, if_pos rfl⟩
      exact absurd hmid (List.countP_pos_iff.mpr ⟨_, hmem, hmay'⟩).ne'

/-- In every interleaving, a tool of a thread runs in a turn that found the clock
below the timeout and the flag unset, and that has run no tool before. So behind a
`cancel` at most one tool runs, that of the turn then under way. -/
theorem cancelled_thread_stops (runners : ι → Runner) (rows : Id → Option ApprovalRow) (now : ℤ)
    (ls : List (ServiceLabel ι Id)) (s : ServiceState ι Id) (h : ServiceRun runners rows now ls s)
    (i : ι) (hcheck : (runners i).harness.cancelCheck = true) :
    (∀ pre f post, ls = pre ++ .call i f :: post → RanTool f →
      TurnOpened runners rows now i pre ∧ f.inner.countP isToolRun = 1) ∧
    (∀ pre f post pre' f' post', ls = pre ++ .call i f :: post → RanTool f → .cancel i ∈ pre →
      ls = pre' ++ .call i f' :: post' → RanTool f' → .cancel i ∈ pre' → pre = pre') := by
  have hopen : ∀ pre f post, ls = pre ++ .call i f :: post → RanTool f →
      TurnOpened runners rows now i pre ∧ f.inner.countP isToolRun = 1 := by
    rintro pre f post rfl hran
    exact h.turnOpened hcheck hran
  -- a tool that ran behind the cancellation would stand before the check of the later turn
  have hlater : ∀ pre f mid f' post', ls = (pre ++ .call i f :: mid) ++ .call i f' :: post' →
      RanTool f → .cancel i ∈ pre → RanTool f' → False := by
    intro pre f mid f' post' hls hran hcancel hran'
    obtain ⟨⟨before, between, after, start, sc, hsplit, _, _, _, hunset, hnone⟩, _⟩ :=
      hopen _ f' post' hls hran'
    have hquiet : ∀ e : HarnessCore.Ev, f ≠ ⟨e, []⟩ := by
      rintro e rfl
      obtain ⟨x, hx, _⟩ := hran
      cases hx
    obtain ⟨m, rfl, hm⟩ | ⟨m, rfl, hm⟩ := List.append_eq_append_iff.mp hsplit
    · exact hunset (by simp [hcancel])
    · have hmem : .call i f ∈ .call i ⟨⟨.monotonic, sc.clock⟩, []⟩ ::
          (between ++ .call i ⟨⟨.cancelCheck, false⟩, []⟩ :: after) := by
        rw [hm]
        simp
      simp only [List.mem_cons, List.mem_append, ServiceLabel.call.injEq, true_and, hquiet,
        false_or] at hmem
      exact hnone f (List.mem_append.mpr hmem) hran
  refine ⟨hopen, ?_⟩
  intro pre f post pre' f' post' hls hran hcancel hls' hran' hcancel'
  obtain ⟨m, rfl, hm⟩ | ⟨m, rfl, hm⟩ := List.append_eq_append_iff.mp (hls.symm.trans hls')
  · cases m with
    | nil => simp
    | cons l m =>
      cases hm
      exact (hlater pre f m f' post' hls' hran hcancel hran').elim
  · cases m with
    | nil => simp
    | cons l m =>
      cases hm
      exact (hlater pre' f' m f post hls hran' hcancel' hran).elim

end Service

/-! ## An approval that outlives the run -/

/-- The thread of a service that passes its flag to the harness. -/
def cancellingRunner : Runner :=
  { writingRunner with harness := { writingHarness with cancelCheck := true } }

/-- The action waits for its approval when `cancel` returns. -/
def waitingLabels : List (ServiceLabel Unit Unit) :=
  [.call () ⟨⟨.monotonic, (0 : ℤ)⟩, []⟩, .call () ⟨⟨.monotonic, (0 : ℤ)⟩, []⟩,
    .call () ⟨⟨.cancelCheck, false⟩, []⟩,
    .call () ⟨⟨.complete (writingHarness.messages "fix the bug" writingHarness.initialState []),
      .ok "write"⟩, []⟩,
    .call () ⟨writingHarness.logged {} .actionProposed (proposedPayload writeAction), []⟩,
    .call () ⟨⟨.dispatch writeAction, .ok (writeVerdict, none, writeAction)⟩,
      [⟨.filesystem, gateWorkspace⟩]⟩,
    .call () ⟨writingHarness.logged {} .governanceDecision
      (decisionPayload writeAction writeVerdict), []⟩,
    .ask () () (requestRow writingHarness.sha256 "task" 0 writeAction writeVerdict),
    .cancel ()]

/-- The timeout passes, and only then the decision comes. -/
def lateLabels : List (ServiceLabel Unit Unit) :=
  [.tick (301 * 10 ^ 9), .approval () (.decide true), .approval () .set, .approval () .wake,
    .approval () .pop, .approval () .reread,
    .answer () () ⟨.resolve writeAction writeVerdict, .ok (true, writeAction, writeVerdict)⟩]

theorem waitingLabels_run : ∃ s₁ s₂ s₃,
    ServiceRun (fun _ : Unit => cancellingRunner) (fun _ : Unit => none) 0 waitingLabels s₁ ∧
    s₁.resolving () = some () ∧
    Trace (ServiceStep fun _ : Unit => cancellingRunner) s₁ lateLabels s₂ ∧
    s₂.clock = 301 * 10 ^ 9 ∧
    ServiceStep (fun _ : Unit => cancellingRunner) s₂ (.call () approvedWrite) s₃ := by
  refine ⟨_, _, _, .cons (.call _ _ rfl rfl rfl) (.cons (.call _ _ rfl rfl rfl)
    (.cons (.call _ _ rfl rfl rfl) (.cons (.call _ _ rfl trivial rfl)
    (.cons (.call _ _ rfl trivial rfl) (.cons (.call _ _ rfl trivial (.call (.ret _)))
    (.cons (.call _ _ rfl trivial rfl) (.cons (.ask () 0 _ rfl rfl rfl)
    (.cons (.cancel ()) .nil)))))))), rfl,
    .cons (.tick _ (by decide)) (.cons (.approval () _ _ (fun _ => nofun) rfl)
    (.cons (.approval () _ _ (fun _ => nofun) rfl) (.cons (.approval () _ _ (fun _ => nofun) rfl)
    (.cons (.approval () _ _ (fun _ => nofun) rfl) (.cons (.approval () _ _ (fun _ => nofun) rfl)
    (.cons (.answer () true rfl rfl rfl) .nil)))))), rfl,
    .call _ _ rfl trivial (.call (.call (.ret _)))⟩

theorem ranTool_approvedWrite : RanTool approvedWrite :=
  ⟨_, List.mem_cons_of_mem _ (List.mem_singleton_self _), rfl⟩

theorem cancelled_action_executes : ∃ s₁ s₂ s₃,
    ServiceRun (fun _ : Unit => cancellingRunner) (fun _ : Unit => none) 0 waitingLabels s₁ ∧
    s₁.resolving () = some () ∧ .cancel () ∈ waitingLabels ∧
    ServiceRun (fun _ : Unit => cancellingRunner) (fun _ : Unit => none) 0
      (waitingLabels ++ lateLabels) s₂ ∧
    (eventsOf () waitingLabels).head? = some ⟨.monotonic, (0 : ℤ)⟩ ∧
    cancellingRunner.harness.config.limits.wallClockTimeoutSec * 10 ^ 9 ≤ s₂.clock - 0 ∧
    ServiceStep (fun _ : Unit => cancellingRunner) s₂ (.call () approvedWrite) s₃ ∧
    RanTool approvedWrite := by
  obtain ⟨s₁, s₂, s₃, hwait, hres, hlate, hclock, hexec⟩ := waitingLabels_run
  refine ⟨s₁, s₂, s₃, hwait, hres, by simp [waitingLabels], hwait.append hlate, rfl, ?_, hexec,
    ranTool_approvedWrite⟩
  rw [hclock]
  decide

theorem cancelled_thread_stops_write :
    TurnOpened (fun _ : Unit => cancellingRunner) (fun _ : Unit => none) 0 ()
      (waitingLabels ++ lateLabels) := by
  obtain ⟨s₁, s₂, s₃, hwait, _, hlate, _, hexec⟩ := waitingLabels_run
  exact ((cancelled_thread_stops _ _ _ _ s₃ (.snoc (hwait.append hlate) hexec) () rfl).1 _ _ [] rfl
    ranTool_approvedWrite).1

end AegisCode
