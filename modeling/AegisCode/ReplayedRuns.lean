import AegisCode.LogReplay
import AegisCode.FinalVerifier
import AegisCode.Processes

/-!
# Replaying the runs of the service

The tools of the repository never answer with the category that the loop keeps for its own
feedback, so the log of every run of the assembled service can be replayed.
-/
namespace AegisCode

open Program Prog HarnessCore

/-! ## The results of the tools -/

/-- A result, if there is one, is not of the category that the loop has for itself. -/
def Ordinary (out : Except Exn ToolResult) : Prop :=
  ∀ result, out = .ok result → result.category ≠ some .noProgress

theorem ordinary_error (e : Exn) : Ordinary (.error e) := nofun

theorem ordinary_ok {result : ToolResult} (h : result.category ≠ some .noProgress) :
    Ordinary (.ok result) := by
  rintro result' heq
  obtain rfl := Except.ok.inj heq
  exact h

theorem classify_ordinary {result : ToolResult} (h : result.category ≠ some .noProgress) :
    classify result ≠ some .noProgress := by
  unfold classify
  cases hcat : result.category with
  | none =>
    dsimp only
    split_ifs <;> nofun
  | some cat =>
    rw [hcat] at h
    cases cat with
    | noProgress => exact absurd rfl h
    | testFailure =>
      dsimp only
      split_ifs <;> nofun
    | _ => nofun

namespace ToolSet
variable (t : ToolSet) (ctx : TaskContext) (arguments : Dict)

theorem ordinary_writeFile : AllReturns Ordinary (writeFile ctx arguments).run := by
  unfold writeFile
  split
  · exact ordinary_error _
  · exact ordinary_error _
  · split
    · exact ordinary_ok nofun
    · split
      · refine allReturns_except_bind ordinary_error fun r =>
          allReturns_except_bind ordinary_error fun r => ?_
        cases r with
        | error e => exact ordinary_ok nofun
        | ok _ =>
          refine allReturns_except_bind ordinary_error fun r =>
            allReturns_except_bind ordinary_error fun r => ?_
          cases r <;> exact ordinary_ok nofun
      · exact ordinary_error _
  · exact ordinary_error _

theorem ordinary_readFile : AllReturns Ordinary (readFile ctx arguments).run := by
  unfold readFile
  split
  · exact ordinary_error _
  · refine allReturns_except_bind ordinary_error fun r =>
      allReturns_except_bind ordinary_error fun r => ?_
    cases r with
    | error e => exact ordinary_ok nofun
    | ok raw =>
      refine ordinary_ok ?_
      unfold readResult
      split_ifs <;> nofun
  · exact ordinary_error _

theorem ordinary_listFiles : AllReturns Ordinary (listFiles ctx arguments).run := by
  unfold listFiles
  split
  · refine allReturns_except_bind ordinary_error fun r =>
      allReturns_except_bind ordinary_error fun r => ?_
    cases r <;> exact ordinary_ok nofun
  · exact ordinary_error _

theorem ordinary_searchText : AllReturns Ordinary (t.searchText ctx arguments).run := by
  unfold searchText
  split
  · exact ordinary_error _
  · exact allReturns_except_bind ordinary_error fun walked =>
      allReturns_except_bind ordinary_error fun hits => ordinary_ok nofun

theorem ordinary_runCommand : AllReturns Ordinary (t.runCommand ctx arguments).run := by
  unfold runCommand
  split
  · exact ordinary_error _
  · refine allReturns_except_bind ordinary_error fun argv =>
      allReturns_except_bind ordinary_error fun r => ?_
    cases r with
    | none => exact ordinary_ok nofun
    | some p =>
      refine ordinary_ok ?_
      unfold commandResult
      dsimp only
      split_ifs <;> nofun

theorem ordinary_runTests : AllReturns Ordinary (t.runTests ctx).run := by
  refine allReturns_except_bind ordinary_error fun argv =>
    allReturns_except_bind ordinary_error fun r => ?_
  cases r <;> exact ordinary_ok nofun

theorem ordinary_run (tool : Tool) : AllReturns Ordinary (t.run ctx arguments tool).run := by
  cases tool with
  | writeFile => exact ordinary_writeFile ctx arguments
  | readFile => exact ordinary_readFile ctx arguments
  | listFiles => exact ordinary_listFiles ctx arguments
  | searchText => exact t.ordinary_searchText ctx arguments
  | finish => exact ordinary_ok nofun
  | runCommand => exact t.ordinary_runCommand ctx arguments
  | runTests => exact t.ordinary_runTests ctx

end ToolSet

/-! ## The results that the loop gets -/

section Service
variable {t : ToolSet} {d : Dispatcher} {ctx : TaskContext} {action action' : Action}
  {result : ToolResult} {tr : List HostEv}

theorem ordinary_hosted {es : List Dispatcher.Ev} (hserves : Serves (hosted t ctx) es tr)
    {name : Str} {arguments arguments' : Dict}
    (he : ⟨.run name arguments, .ok (result, arguments')⟩ ∈ es) :
    result.category ≠ some .noProgress := by
  obtain ⟨u, hrun⟩ := hserves.mem he
  cases hname : ToolSet.toolNamed name with
  | none =>
    have hraised : hostTool t ctx name arguments = return .error ⟨.keyError, Str.repr name⟩ := by
      unfold hostTool
      rw [hname]
    change Runs (hostTool t ctx name arguments) u _ at hrun
    rw [hraised] at hrun
    cases (runs_pure.mp hrun).2
  | some tool =>
    obtain ⟨os, out, -, htool, hout⟩ := runs_hostTool hname hrun
    obtain ⟨result', rfl, heq⟩ := map_eq_ok hout.symm
    obtain rfl := (Prod.mk.inj heq).1
    exact (t.ordinary_run ctx arguments tool).of_runs htool _ rfl

theorem ordinary_ran {es us : List Dispatcher.Ev} (hserves : Serves (hosted t ctx) es tr)
    (ht : Dispatcher.RunsTool action us (.ok (result, action'))) (hsub : us ⊆ es) :
    result.category ≠ some .noProgress := by
  generalize hout : (Except.ok (result, action') : Except Exn _) = out at ht
  cases ht with
  | returned result' arguments' =>
    obtain rfl := (Prod.mk.inj (Except.ok.inj hout)).1
    exact ordinary_hosted hserves (hsub (.head _))
  | raised e => cases hout

theorem ordinary_dispatched {verdict : GovernanceVerdict}
    (hrun : Runs (dispatchOnHost t d ctx action) tr (.ok (verdict, some result, action'))) :
    result.category ≠ some .noProgress := by
  obtain ⟨es, hran, hserves⟩ := runs_interpret.mp hrun
  have hd := Dispatcher.dispatch_cases hran
  generalize hout : (Except.ok (verdict, some result, action') : Except Exn _) = out at hd
  cases hd with
  | unknown _ =>
    cases hout
    nofun
  | fenceRaised _ => cases hout
  | fenced _ =>
    cases hout
    nofun
  | engineRaised _ _ =>
    cases hout
    nofun
  | denied _ _ _ =>
    cases hout
    nofun
  | pending _ _ _ => cases hout
  | executed _ _ _ _ ht =>
    obtain ⟨⟨result', action''⟩, rfl, heq⟩ := map_eq_ok hout.symm
    cases heq
    exact ordinary_ran hserves ht (List.subset_cons_self _ _)

theorem ordinary_approved {H : Digest} {fp : Str}
    (hrun : Runs (executeOnHost t d ctx H action (some fp)) tr (.ok (result, action'))) :
    result.category ≠ some .noProgress := by
  obtain ⟨es, hran, hserves⟩ := runs_interpret.mp hrun
  obtain ⟨-, -, e, heq⟩ | ⟨-, hx⟩ := Dispatcher.executeApproved_cases hran
  · cases heq
    nofun
  · generalize hout : (Except.ok (result, action') : Except Exn _) = out at hx
    cases hx with
    | unknown _ =>
      cases hout
      nofun
    | fenceRaised _ => cases hout
    | fenced _ =>
      cases hout
      nofun
    | executed _ ht =>
      subst hout
      exact ordinary_ran hserves ht (List.subset_cons_self _ _)

/-- No result that the assembled service gives the loop is of that category. -/
theorem noProgressFree_of_linked {config : ServiceConfig} {relpath : Str → Str → Str}
    {workspace : Str} {H : Digest} {steps : List HostStep}
    (h : ∀ f ∈ steps, Linked (config.assembled relpath workspace H) f) :
    NoProgressFree (steps.map Frame.event) := by
  intro e he result hanswers
  obtain ⟨⟨event, inner⟩, hf, rfl⟩ := List.mem_map.mp he
  have hlinked := h _ hf
  cases hanswers with
  | dispatched => exact classify_ordinary (ordinary_dispatched hlinked)
  | approved => exact classify_ordinary (ordinary_approved hlinked)

end Service

/-! ## The log of a run -/

/-- The log is accepted to its end, which has this reason. A threshold that ended the run was
met by the counters that the log gives, and none was met at an earlier proposal. -/
structure Explains (limits : Limits) (log : List AuditEvent) (reason : TerminationReason) :
    Prop where
  ended : ∃ c, replay limits log = some ⟨c, .ended reason⟩ ∧
    (reason.preStep = true → reason = .timeout ∨ countersReason c limits = some reason)
  goesOn : ∀ before e after, log = before ++ e :: after → e.eventType = .actionProposed →
    ∃ c, replay limits before = some ⟨c, .between⟩ ∧ countersReason c limits = none

theorem explains_of_replay {limits : Limits} {log : List AuditEvent} {reason : TerminationReason}
    {c : LoopCounters} (h : replay limits log = some ⟨c, .ended reason⟩) :
    Explains limits log reason := by
  constructor
  · refine ⟨c, h, fun hpre => ?_⟩
    obtain ⟨init, e, -, -, hends⟩ := replay_ended h hpre
    obtain rfl | ⟨-, -, hreason⟩ := hends
    · exact .inl rfl
    · rw [if_pos hpre] at hreason
      exact .inr hreason
  · rintro before e after rfl htype
    exact replay_proposal h htype

/-- Wherever a run of the assembled service stands at the head of a turn, its log so far
gives the counters of the loop, and the log of the whole run accounts for its end. -/
theorem log_replays (config : ServiceConfig) (relpath : Str → Str → Str) (workspace : Str)
    (h : HarnessCore) (task : Str) (steps : List HostStep)
    (hlinked : ∀ f ∈ steps, Linked (config.assembled relpath workspace h.sha256) f) :
    (∀ start ts s rest, steps.map Frame.event = ⟨.monotonic, start⟩ :: (ts.flatten ++ rest) →
      Iterates (h.turn task start) h.initialState ts s →
      replay h.config.limits (auditLog ts.flatten) = some ⟨s.c, .between⟩) ∧
    ∀ fuel reason, Runs (h.run fuel task) (steps.map Frame.event) (some (.ok reason)) →
      Explains h.config.limits (auditLog (steps.map Frame.event)) reason := by
  have hfree := noProgressFree_of_linked hlinked
  constructor
  · intro start ts s rest hsteps hit
    refine iterates_replay hit fun e he => hfree e ?_
    rw [hsteps]
    exact List.mem_cons_of_mem _ (List.mem_append_left _ he)
  · intro fuel reason hrun
    obtain ⟨c, hreplay⟩ := run_replay hrun hfree
    exact explains_of_replay hreplay

theorem log_replays_passing :
    Explains finishingHarness.config.limits (auditLog finishingRun) .completed :=
  (log_replays {} (fun fp _ => fp) "/ws" finishingHarness "fix the bug" passingRun
    passingRun_linked).2 2 .completed finishingRun_runs

end AegisCode
