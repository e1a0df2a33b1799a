import AegisCode.Assembly
import AegisCode.Completion

/-!
# Completion and the tests

The final verifier of the assembled service runs the command of the tests. A run is
completed exactly when that process ended with exit code 0, and then nothing runs behind it.
-/
namespace AegisCode

open Program Prog Posix

namespace HarnessCore

section Ends
variable {h : HarnessCore} {task : Str} {start : ℤ} {s : LoopState} {t : List Ev}

/-- The verifier says yes, the reason is recorded, and that is all. -/
def VerifiedLast (h : HarnessCore) (t : List Ev) : Prop :=
  ∃ init c, t = init ++ [⟨.verify, .ok true⟩, h.stopped c .completed] ∧
    (⟨.verify, .ok true⟩ : Ev) ∉ init

theorem VerifiedLast.append {u : List Ev} (hu : (⟨.verify, .ok true⟩ : Ev) ∉ u)
    (hv : h.VerifiedLast t) : h.VerifiedLast (u ++ t) := by
  obtain ⟨init, c, rfl, hinit⟩ := hv
  exact ⟨u ++ init, c, (List.append_assoc ..).symm, by simp [hu, hinit]⟩

theorem Concludes.verifiedLast {gated : Gated}
    (hc : h.Concludes s gated t (.ok (.inr .completed))) : h.VerifiedLast t := by
  cases hc with
  | completed hdec hfin => exact ⟨[_], _, rfl, by simp [HarnessCore.logged]⟩

theorem Acts.verifiedLast {action : Action} (ha : h.Acts s action t (.ok (.inr .completed))) :
    h.VerifiedLast t := by
  cases ha with
  | @judged verdict result action' t out hdec hc =>
    exact hc.verifiedLast.append (u := [_, _, _]) (by simp [HarnessCore.logged])
  | @approved verdict result action' gated t₁ t₂ out hdec ha hc =>
    have happroved := hc.verifiedLast.append ha.verify_not_mem
    exact happroved.append (u := [_, _, _]) (by simp [HarnessCore.logged])

theorem Completes.verify_not_mem {messages : List Message} {n : ℕ} {out : Option Str}
    (hc : Completes messages n t out) : (⟨.verify, .ok true⟩ : Ev) ∉ t :=
  fun hmem => by cases hc.mem_call hmem

theorem Retrieves.verify_not_mem {memories : List MemoryRow} (hr : h.Retrieves t memories) :
    (⟨.verify, .ok true⟩ : Ev) ∉ t := by
  cases hr <;> simp

theorem verify_not_mem_opening (now : ℤ) : (⟨.verify, .ok true⟩ : Ev) ∉ h.opening now := by
  unfold opening
  split <;> simp

theorem turn_verifiedLast (hrun : Runs (h.turn task start s) t (.inr .completed)) :
    h.VerifiedLast t := by
  cases turn_cases hrun with
  | limit now hterm => cases decideTermination_preStep hterm
  | attempted now _ ha =>
    cases ha with
    | acted hr hc _ hacts =>
      exact ((hacts.verifiedLast.append hc.verify_not_mem).append hr.verify_not_mem).append
        (verify_not_mem_opening now)

/-- The verifier's yes ends the turn with COMPLETED. -/
theorem turn_completed_of_mem {outcome : Outcome} (hrun : Runs (h.turn task start s) t outcome)
    (hver : (⟨.verify, .ok true⟩ : Ev) ∈ t) : outcome = .inr .completed := by
  cases turn_cases hrun with
  | limit now _ => simp [HarnessCore.stopped, HarnessCore.logged] at hver
  | cancelled now _ _ => simp [HarnessCore.stopped, HarnessCore.logged] at hver
  | attempted now _ ha =>
    exact Except.ok.inj (ha.completed_of_mem (by simpa [verify_not_mem_opening] using hver))
  | failed now e _ ha =>
    cases ha.completed_of_mem
      (by simpa [verify_not_mem_opening, HarnessCore.stopped, HarnessCore.logged] using hver)

/-- A run that returns COMPLETED ends with the verifier's yes; no other run has one. -/
theorem run_verifiedLast {fuel : ℕ} {reason : TerminationReason}
    (hrun : Runs (h.run fuel task) t (some (.ok reason))) :
    if reason = .completed then h.VerifiedLast t else (⟨.verify, .ok true⟩ : Ev) ∉ t := by
  obtain ⟨start, s, ts, last, rfl, hit, hlast⟩ := run_returns hrun
  have hbefore : (⟨.verify, .ok true⟩ : Ev) ∉ ⟨.monotonic, start⟩ :: ts.flatten := by
    intro hmem
    obtain habs | hmem := List.mem_cons.mp hmem
    · cases habs
    · obtain ⟨u, hu, hver⟩ := List.mem_flatten.mp hmem
      obtain ⟨_, s₁, s₂, _, hstep⟩ := hit.mem hu
      cases turn_completed_of_mem hstep hver
  rw [← List.cons_append]
  split_ifs with hreason
  · subst hreason
    exact (turn_verifiedLast hlast).append hbefore
  · intro hmem
    obtain hmem | hmem := List.mem_append.mp hmem
    · exact hbefore hmem
    · exact hreason (Sum.inr.inj (turn_completed_of_mem hlast hmem))

end Ends

end HarnessCore

/-! ## The process of the verifier -/

section Tests
variable {config : ServiceConfig} {relpath : Str → Str → Str} {workspace : Str} {H : Digest}

/-- A step in which the verifier ran the command of the tests in the workspace, and the
process ended with exit code 0. -/
def TestsPassed (config : ServiceConfig) (workspace : Str) (f : HostStep) : Prop :=
  f.event.call = .verify ∧ ∃ argv p, shlexSplit config.feedback.testCommand = .ok argv ∧
    f.inner = [⟨.os (.subprocess argv workspace), .ok p⟩] ∧ p.returncode = 0

theorem processVerdict_eq_true {answer : Except ProcessError Completed} :
    processVerdict answer = .ok true ↔ ∃ p, answer = .ok p ∧ p.returncode = 0 := by
  obtain e | p := answer
  · cases e with
    | timeoutExpired => simp [processVerdict]
    | raised exc =>
      unfold processVerdict
      dsimp only
      split_ifs <;> simp
  · simp [processVerdict]

theorem testsPassed_iff {f : HostStep} (h : Linked (config.assembled relpath workspace H) f) :
    TestsPassed config workspace f ↔ f.event = ⟨.verify, .ok true⟩ := by
  obtain ⟨⟨call, answer⟩, inner⟩ := f
  constructor
  · rintro ⟨hverify, argv, p, hsplit, hinner, hexit⟩
    obtain rfl : call = .verify := hverify
    obtain rfl : inner = _ := hinner
    obtain ⟨_, _, habs, _⟩ | ⟨argv', answer', _, hone, hout⟩ := runs_makeFinalVerifier.mp h
    · cases habs
    · cases hone
      have htrue : answer = .ok true := hout.trans (processVerdict_eq_true.mpr ⟨p, rfl, hexit⟩)
      rw [htrue]
  · intro hevent
    cases hevent
    obtain ⟨_, _, _, habs⟩ | ⟨argv, answer', hsplit, hinner, hout⟩ :=
      runs_makeFinalVerifier.mp h
    · cases habs
    · obtain ⟨p, rfl, hexit⟩ := processVerdict_eq_true.mp hout.symm
      exact ⟨rfl, argv, p, hsplit, hinner, hexit⟩

theorem reason_completed_iff {h : HarnessCore} {fuel : ℕ} {task : Str} {reason : TerminationReason}
    {steps : List HostStep}
    (hrun : Runs (h.run fuel task) (steps.map Frame.event) (some (.ok reason)))
    (hlinked : ∀ f ∈ steps, Linked (config.assembled relpath workspace h.sha256) f) :
    reason = .completed ↔ ∃ f ∈ steps, TestsPassed config workspace f := by
  have hlast := HarnessCore.run_verifiedLast hrun
  have hpassed : (∃ f ∈ steps, TestsPassed config workspace f) ↔
      (⟨.verify, .ok true⟩ : HarnessCore.Ev) ∈ steps.map Frame.event := by
    rw [List.mem_map]
    exact exists_congr fun f => and_congr_right fun hf => testsPassed_iff (hlinked f hf)
  rw [hpassed]
  split_ifs at hlast with hreason
  · obtain ⟨init, c, hevents, -⟩ := hlast
    simp [hreason, hevents]
  · simp [hreason, hlast]

/-- A run of the assembled service returns COMPLETED exactly when a process of the final
verifier, which runs the command of the tests in the workspace, ended with exit code 0. It
was the first that did, and behind it the run only records its reason: a command that is
missing, fails or times out completes no run. -/
theorem completed_iff_tests_passed (config : ServiceConfig) (relpath : Str → Str → Str)
    (workspace : Str) (h : HarnessCore) (fuel : ℕ) (task : Str) (reason : TerminationReason)
    (steps : List HostStep)
    (hrun : Runs (h.run fuel task) (steps.map Frame.event) (some (.ok reason)))
    (hlinked : ∀ f ∈ steps, Linked (config.assembled relpath workspace h.sha256) f) :
    (reason = .completed ↔ ∃ f ∈ steps, TestsPassed config workspace f) ∧
    ∀ before f after, steps = before ++ f :: after → TestsPassed config workspace f →
      (∀ g ∈ before, ¬ TestsPassed config workspace g) ∧
      ∃ c, after.map Frame.event = [h.stopped c .completed] := by
  refine ⟨reason_completed_iff hrun hlinked, fun before f after heq hp => ?_⟩
  have hpassed : ∀ f ∈ steps, (TestsPassed config workspace f ↔ f.event = ⟨.verify, .ok true⟩) :=
    fun f hf => testsPassed_iff (hlinked f hf)
  have hlast := HarnessCore.run_verifiedLast hrun
  by_cases hreason : reason = .completed
  · rw [if_pos hreason] at hlast
    obtain ⟨init, c, hevents, hinit⟩ := hlast
    obtain ⟨first, rest, hsteps, hfirst, hrest⟩ := List.map_eq_append_iff.mp hevents
    obtain ⟨g, gs, rfl, hg, hgs⟩ := List.map_eq_cons_iff.mp hrest
    have hfirst' : ∀ f ∈ first, ¬ TestsPassed config workspace f := by
      intro f hf hp
      refine hinit (hfirst ▸ ?_)
      rw [← (hpassed f (hsteps ▸ List.mem_append_left _ hf)).mp hp]
      exact List.mem_map_of_mem hf
    have hrest' : ∀ f ∈ gs, ¬ TestsPassed config workspace f := by
      intro f hf hp
      have hstopped : f.event ∈ [h.stopped c .completed] := hgs ▸ List.mem_map_of_mem hf
      have hcall := hp.1
      rw [List.mem_singleton.mp hstopped] at hcall
      cases hcall
    -- the one step that passed stands at one place
    obtain ⟨rfl, rfl⟩ : before = first ∧ after = gs := by
      obtain ⟨mid, rfl, hmid⟩ | ⟨mid, rfl, hmid⟩ :=
        List.append_eq_append_iff.mp (heq.symm.trans hsteps)
      · cases mid with
        | nil => exact ⟨(List.append_nil _).symm, (List.cons.inj hmid).2⟩
        | cons x mid =>
          obtain ⟨rfl, -⟩ := List.cons.inj hmid
          exact absurd hp (hfirst' _ (List.mem_append_right _ (List.mem_cons_self ..)))
      · cases mid with
        | nil => exact ⟨List.append_nil _, (List.cons.inj hmid).2.symm⟩
        | cons x mid =>
          obtain ⟨-, rfl⟩ := List.cons.inj hmid
          exact absurd hp (hrest' _ (List.mem_append_right _ (List.mem_cons_self ..)))
    exact ⟨hfirst', c, hgs⟩
  · have hf : f ∈ steps := heq ▸ List.mem_append_right _ (List.mem_cons_self ..)
    exact absurd ((reason_completed_iff hrun hlinked).mpr ⟨f, hf, hp⟩) hreason

end Tests

/-! ## A run whose tests pass -/

/-- The run that finishes, on a host where the tests pass. -/
def passingRun : List HostStep :=
  HarnessCore.finishingRun.map fun e => ⟨e,
    match e.call with
    | .dispatch _ => [⟨.look, gateWorkspace⟩]
    | .verify => [⟨.os (.subprocess ["pytest", "-q"] "/ws"), .ok ⟨0, "1 passed", []⟩⟩]
    | _ => []⟩

theorem passingRun_linked : ∀ f ∈ passingRun,
    Linked (ServiceConfig.assembled {} (fun fp _ => fp) "/ws"
      HarnessCore.finishingHarness.sha256) f := by
  simp only [passingRun, HarnessCore.finishingRun, List.map_cons, List.map_nil,
    List.forall_mem_cons]
  refine ⟨rfl, rfl, rfl, rfl, .call (.ret _), rfl, rfl, .call (.ret _), rfl,
    fun _ h => absurd h List.not_mem_nil⟩

theorem completed_iff_tests_passed_passing :
    (TerminationReason.completed = .completed ↔ ∃ f ∈ passingRun, TestsPassed {} "/ws" f) ∧
    ∀ before f after, passingRun = before ++ f :: after → TestsPassed {} "/ws" f →
      (∀ g ∈ before, ¬ TestsPassed {} "/ws" g) ∧
      ∃ c, after.map Frame.event = [HarnessCore.finishingHarness.stopped c .completed] :=
  completed_iff_tests_passed {} (fun fp _ => fp) "/ws" HarnessCore.finishingHarness 2
    "fix the bug" .completed passingRun HarnessCore.finishingRun_runs passingRun_linked

end AegisCode
