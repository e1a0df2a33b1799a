import AegisCode.GovernanceGate

/-!
# What the log says about executions

A turn makes at most one call in which a tool may run, and logs TOOL_EXECUTED
only behind it. The call of an approved execution may refuse, and the loop logs
its result all the same.
-/
namespace AegisCode

open Program Prog Posix

namespace HarnessCore
variable {h : HarnessCore} {task : Str} {start : ℤ} {s : LoopState} {t t' : List Ev}

def isExecutionLog : Ev → Bool
  | ⟨.append _ _ .toolExecuted _, _⟩ => true
  | _ => false

/-- Nothing can run in these calls, and they log no execution. -/
def Still (t : List Ev) : Prop := ∀ e ∈ t, mayExecute e = false ∧ isExecutionLog e = false

theorem still_nil : Still [] := List.forall_mem_nil _

@[simp] theorem still_cons {e : Ev} :
    Still (e :: t) ↔ (mayExecute e = false ∧ isExecutionLog e = false) ∧ Still t :=
  List.forall_mem_cons

theorem Still.append (ht : Still t) (ht' : Still t') : Still (t ++ t') :=
  List.forall_mem_append.mpr ⟨ht, ht'⟩

theorem still_opening (now : ℤ) : Still (h.opening now) := by
  unfold opening
  split <;> simp [Still, mayExecute, isExecutionLog]

theorem Retrieves.still {memories : List MemoryRow} (hr : h.Retrieves t memories) : Still t := by
  cases hr <;> simp [Still, mayExecute, isExecutionLog]

theorem Completes.still {messages : List Message} {n : ℕ} {out : Option Str}
    (hc : Completes messages n t out) : Still t := by
  induction hc with
  | exhausted => exact still_nil
  | answered n raw => simp [Still, mayExecute, isExecutionLog]
  | raised e _ ih => simpa [mayExecute, isExecutionLog] using ih

/-- `Logs u e b`: behind the calls `u` the call `e` is the one in which a tool
may run, and `b` says whether its turn goes on to log an execution. -/
inductive Logs : List Ev → Ev → Bool → Prop
  | dispatched {u : List Ev} {action action' : Action} {verdict : GovernanceVerdict}
      {result : Option ToolResult} : verdict.decision ≠ .deny →
      verdict.decision ≠ .requireApproval →
      Logs u ⟨.dispatch action, .ok (verdict, result, action')⟩ result.isSome
  | dispatchRaised {u : List Ev} {action : Action} (e : Exn) :
      Logs u ⟨.dispatch action, .error e⟩ false
  | approved {u : List Ev} {judged action action' : Action} {verdict verdict' : GovernanceVerdict}
      {fp : Str} {result : ToolResult} :
      Logs (u ++ [⟨.resolve judged verdict, .ok (true, action, verdict')⟩])
        ⟨.executeApproved action fp, .ok (result, action')⟩
        (!result.flagged "superseded" && decide (verdict'.decision ≠ .deny))
  | approvedRaised {u : List Ev} {action : Action} {fp : Str} (e : Exn) :
      Logs u ⟨.executeApproved action fp, .error e⟩ false

/-- The calls of a turn, as far as executions go. -/
inductive Executing (t : List Ev) : Prop
  | still : Still t → Executing t
  | once {u v : List Ev} {e : Ev} {b : Bool} : t = u ++ e :: v → Still u →
      mayExecute e = true → Logs u e b → (∀ x ∈ v, mayExecute x = false) →
      v.any isExecutionLog = b → Executing t

theorem Logs.append_left {pre : List Ev} {e : Ev} {b : Bool} (hl : Logs pre e b) (u : List Ev) :
    Logs (u ++ pre) e b := by
  cases hl with
  | dispatched hdeny hreq => exact .dispatched hdeny hreq
  | dispatchRaised e => exact .dispatchRaised e
  | approved =>
    rw [← List.append_assoc]
    exact .approved
  | approvedRaised e => exact .approvedRaised e

theorem Logs.not_log {pre : List Ev} {e : Ev} {b : Bool} (hl : Logs pre e b) :
    isExecutionLog e = false := by
  cases hl <;> rfl

theorem Executing.append_left {u : List Ev} (hu : Still u) (ht : Executing t) :
    Executing (u ++ t) := by
  cases ht with
  | still ht => exact .still (hu.append ht)
  | once hsplit hpre hmay hl hpost hlog =>
    exact .once (by rw [hsplit, List.append_assoc]) (hu.append hpre) hmay (hl.append_left u) hpost hlog

theorem Executing.append_right {u : List Ev} (ht : Executing t) (hu : Still u) :
    Executing (t ++ u) := by
  cases ht with
  | still ht => exact .still (ht.append hu)
  | @once pre post e b hsplit hpre hmay hl hpost hlog =>
    refine .once (v := post ++ u) (b := b) (by rw [hsplit, List.append_assoc, List.cons_append])
      hpre hmay hl ?_ ?_
    · exact List.forall_mem_append.mpr ⟨hpost, fun x hx => (hu x hx).1⟩
    · have hnone : u.any isExecutionLog = false := by
        rw [List.any_eq_false]
        intro x hx
        simp [(hu x hx).2]
      rw [List.any_append, hnone, Bool.or_false, hlog]

/-- Behind the verdict only the log of the execution matters. -/
theorem Concludes.logs {gated : Gated} {out : Except Exn Outcome}
    (hc : h.Concludes s gated t out) : (∀ x ∈ t, mayExecute x = false) ∧
      t.any isExecutionLog = (gated.2.1.isSome && decide (gated.1.decision ≠ .deny)) := by
  cases hc with
  | denied hdeny => simp [mayExecute, isExecutionLog, hdeny]
  | noResult e => simp
  | verifierRaised e hdeny _ => simp [mayExecute, isExecutionLog, hdeny]
  | completed hdeny _ => simp [mayExecute, isExecutionLog, hdeny]
  | finishRejected hdeny _ => simp [mayExecute, isExecutionLog, hdeny]
  | executed hdeny _ => simp [mayExecute, isExecutionLog, hdeny]

/-- An approval that ends the turn. -/
theorem Approves.executing {verdict : GovernanceVerdict} {action : Action}
    {out : Except Exn (LoopState ⊕ Gated)} (ha : h.Approves s verdict action t out)
    (hout : ∀ gated, out ≠ .ok (.inr gated)) : Executing t := by
  cases ha with
  | noResolver _ => exact .still (by simp [Still, mayExecute, isExecutionLog])
  | resolverRaised e => exact .still (by simp [Still, mayExecute, isExecutionLog])
  | rejected action' verdict' => exact .still (by simp [Still, mayExecute, isExecutionLog])
  | executionRaised action' verdict' e =>
    exact .once (u := [_]) (v := []) rfl (by simp [Still, mayExecute, isExecutionLog]) rfl
      (.approvedRaised e) (by simp) rfl
  | superseded action' verdict' result action'' hsup =>
    refine .once (u := [_]) rfl (by simp [Still, mayExecute, isExecutionLog]) rfl
      (.approved (u := [])) (by simp [mayExecute]) ?_
    rw [hsup]
    rfl
  | approved action' verdict' result action'' _ => exact absurd rfl (hout _)

theorem Acts.executing {action : Action} {out : Except Exn Outcome} (ha : h.Acts s action t out) :
    Executing t := by
  have hopen : ∀ {action action' : Action} {verdict : GovernanceVerdict}
      {result : Option ToolResult} {t : List Ev}, verdict.decision = .requireApproval →
      Executing t → Executing (h.logged s.c .actionProposed (proposedPayload action) ::
        ⟨.dispatch action, .ok (verdict, result, action')⟩ ::
        h.logged s.c .governanceDecision (decisionPayload action' verdict) :: t) := by
    intro action action' verdict result t hreq ht
    refine ht.append_left (u := [h.logged s.c .actionProposed (proposedPayload action),
      ⟨.dispatch action, .ok (verdict, result, action')⟩,
      h.logged s.c .governanceDecision (decisionPayload action' verdict)]) ?_
    simp [Still, mayExecute, isExecutionLog, hreq]
  cases ha with
  | dispatchRaised e =>
    exact .once (u := [_]) (v := []) rfl (by simp [Still, mayExecute, isExecutionLog]) rfl
      (.dispatchRaised e) (by simp) rfl
  | @judged verdict result action' t out hreq hc =>
    obtain ⟨hpost, hlog⟩ := hc.logs
    by_cases hdeny : verdict.decision = .deny
    · refine .still ?_
      simp only [still_cons, mayExecute, isExecutionLog, hdeny]
      refine ⟨by simp, by simp, by simp, fun x hx => ⟨hpost x hx, ?_⟩⟩
      have hnone : t.any isExecutionLog = false := by simpa [hdeny] using hlog
      simpa using List.any_eq_false.mp hnone x hx
    · refine .once (u := [_]) rfl (by simp [Still, mayExecute, isExecutionLog])
        (mayExecute_dispatch hdeny hreq) (.dispatched hdeny hreq) ?_ ?_
      · simpa [mayExecute] using hpost
      · simpa [isExecutionLog, hdeny] using hlog
  | approvalRaised e hreq happ => exact hopen hreq (happ.executing (by simp))
  | unapproved hreq happ => exact hopen hreq (happ.executing (by simp))
  | @approved verdict result action' gated t₁ t₂ out hreq happ hc =>
    refine hopen hreq ?_
    cases happ with
    | approved action'' verdict' result' executed hsup =>
      obtain ⟨hpost, hlog⟩ := hc.logs
      refine .once (u := [_]) rfl (by simp [Still, mayExecute, isExecutionLog]) rfl
        (.approved (u := [])) ?_ ?_
      · simpa [mayExecute] using hpost
      · rw [hsup]
        simpa [isExecutionLog] using hlog

theorem Attempts.executing {out : Except Exn Outcome} (ha : h.Attempts task s t out) :
    Executing t := by
  cases ha with
  | memoryRaised e _ => exact .still (by simp [Still, mayExecute, isExecutionLog])
  | llmError hr hc =>
    exact .still (hr.still.append (hc.still.append (by simp [Still, mayExecute, isExecutionLog])))
  | unparsed hr hc _ _ =>
    exact .still (hr.still.append (hc.still.append (by simp [Still, mayExecute, isExecutionLog])))
  | parserRaised hr hc _ _ => exact .still (hr.still.append hc.still)
  | acted hr hc _ ha => exact (ha.executing.append_left hc.still).append_left hr.still

theorem turn_executing {outcome : Outcome} (hrun : Runs (h.turn task start s) t outcome) :
    Executing t := by
  cases turn_cases hrun with
  | limit now _ => exact .still (by simp [Still, mayExecute, isExecutionLog])
  | cancelled now _ _ => exact .still (by simp [Still, mayExecute, isExecutionLog])
  | attempted now _ ha => exact ha.executing.append_left (still_opening now)
  | failed now e _ ha =>
    refine (Executing.append_right ha.executing ?_).append_left (still_opening now)
    simp [Still, mayExecute, isExecutionLog]

end HarnessCore

open HarnessCore

/-! ## Executions and their events -/

/-- The turn appended a TOOL_EXECUTED event. -/
def LogsExecution (t : List Step) : Prop := ∃ f ∈ t, isExecutionLog f.event = true

/-- The `run` method of a tool was called in the turn and returned. -/
def ToolReturned (t : List Step) : Prop := ∃ f ∈ t, ∃ tool arguments result,
  ⟨.run tool arguments, .ok result⟩ ∈ f.inner

/-- The second check of an approved action refuses it. -/
def Refused (d : Dispatcher) (ctx : TaskContext) (inner : List Dispatcher.Ev) (action : Action) :
    Prop :=
  action.tool ∉ d.registry ∨ ∃ fs stop, (⟨.filesystem, fs⟩ : Dispatcher.Ev) ∈ inner ∧
    d.fence fs action ctx = .ok (some stop)

/-- Executing an approved action leaves a true log: a refused action is logged as
executed unless the resolver left a DENY in the verdict, and what a tool returned
is logged unless it did so or the result calls itself superseded. -/
structure Truthful (d : Dispatcher) (ctx : TaskContext) (f : Step) (action : Action)
    (left : GovernanceVerdict) : Prop where
  refused : Refused d ctx f.inner action → left.decision = .deny
  returned : ∀ tool arguments result arguments',
    ⟨.run tool arguments, .ok (result, arguments')⟩ ∈ f.inner →
    left.decision ≠ .deny ∧ result.flagged "superseded" = false

/-- The approved execution of the turn, if it has one with the approved
fingerprint, leaves a true log. -/
def TruthfulTurn (h : HarnessCore) (d : Dispatcher) (ctx : TaskContext) (t : List Step) : Prop :=
  ∀ pre g f post judged verdict action left, t = pre ++ g :: f :: post →
    g.event = ⟨.resolve judged verdict, .ok (true, action, left)⟩ →
    f.event.call = .executeApproved action (fingerprint h.sha256 action) →
    Truthful d ctx f action left

/-- A list with one marked element can be cut there in one way. -/
theorem append_cons_unique {α : Type} {p : α → Bool} {a b a' b' : List α} {x y : α}
    (ha : ∀ z ∈ a, p z = false) (hb : ∀ z ∈ b, p z = false) (hy : p y = true)
    (h : a ++ x :: b = a' ++ y :: b') : a = a' ∧ x = y := by
  obtain ⟨m, rfl, hm⟩ | ⟨m, rfl, hm⟩ := List.append_eq_append_iff.mp h
  · cases m with
    | nil => exact ⟨by simp, by cases hm; rfl⟩
    | cons z m =>
      cases hm
      have hno := hb y (by simp)
      rw [hy] at hno
      cases hno
  · cases m with
    | nil => exact ⟨by simp, by cases hm; rfl⟩
    | cons z m =>
      cases hm
      have hno := ha y (by simp)
      rw [hy] at hno
      cases hno

section Steps
variable {h : HarnessCore} {d : Dispatcher} {ctx : TaskContext} {H : Digest} {t : List Step}

theorem mayExecute_of_returned {f : Step} (hl : Linked (implementation H d ctx) f) {tool : Str}
    {arguments : Dict} {result : ToolResult × Dict}
    (hret : (⟨.run tool arguments, .ok result⟩ : Dispatcher.Ev) ∈ f.inner) :
    mayExecute f.event = true := by
  have hle := countP_isToolRun_le hl
  have hpos : 0 < f.inner.countP isToolRun := List.countP_pos_iff.mpr ⟨_, hret, rfl⟩
  split_ifs at hle with hmay
  · exact hmay
  · omega

/-- A dispatch that allows the action and returns has run its tool. -/
theorem dispatch_returned {action action' : Action} {verdict : GovernanceVerdict}
    {result : Option ToolResult} {inner : List Dispatcher.Ev}
    (hl : Linked (implementation H d ctx)
      ⟨⟨.dispatch action, .ok (verdict, result, action')⟩, inner⟩)
    (hdeny : verdict.decision ≠ .deny) (hreq : verdict.decision ≠ .requireApproval) :
    result.isSome ∧ ∃ tool arguments result, ⟨.run tool arguments, .ok result⟩ ∈ inner := by
  have hd := Dispatcher.dispatch_cases hl
  generalize hout : (Except.ok (verdict, result, action') : Except Exn _) = out at hd
  cases hd with
  | unknown _ => cases hout; exact absurd rfl hdeny
  | fenceRaised _ => cases hout
  | fenced _ => cases hout; exact absurd rfl hdeny
  | engineRaised _ _ => cases hout; exact absurd rfl hdeny
  | denied _ _ hdec => cases hout; exact absurd hdec hdeny
  | pending _ _ hdec => cases hout; exact absurd hdec hreq
  | executed _ _ _ _ ht =>
    cases ht with
    | returned result arguments =>
      cases hout
      exact ⟨rfl, action.tool, action.arguments, (result, arguments), by simp⟩
    | raised e => cases hout

/-- No tool returns in a dispatch that raises. -/
theorem dispatch_raised {action : Action} {e : Exn} {inner : List Dispatcher.Ev}
    (hl : Linked (implementation H d ctx) ⟨⟨.dispatch action, .error e⟩, inner⟩) (tool : Str)
    (arguments : Dict) (result : ToolResult × Dict) : ⟨.run tool arguments, .ok result⟩ ∉ inner := by
  have hd := Dispatcher.dispatch_cases hl
  generalize hout : (Except.error e : Except Exn (GovernanceVerdict × Option ToolResult × Action)) =
    out at hd
  cases hd with
  | fenceRaised _ => simp
  | executed _ _ _ _ ht =>
    cases ht with
    | returned result arguments => cases hout
    | raised e => simp
  | _ => cases hout

/-- Nothing is called for an approved action that no tool is registered for. -/
theorem executeApproved_unregistered {action : Action} {fp : Option Str} {tr : List Dispatcher.Ev}
    {out : Except Exn (ToolResult × Action)} (hreg : action.tool ∉ d.registry)
    (hrun : Runs (d.executeApproved H action ctx fp).run tr out) : tr = [] := by
  have hfenced : Runs (d.executeFenced action ctx).run tr out → tr = [] := by
    intro hrun
    rw [Dispatcher.executeFenced, if_pos hreg] at hrun
    exact (runs_return.mp hrun).1
  unfold Dispatcher.executeApproved at hrun
  cases fp with
  | none => exact hfenced hrun
  | some fp =>
    cases hres : validateResume H fp action with
    | error e =>
      simp only [hres] at hrun
      exact (runs_return.mp hrun).1
    | ok u =>
      simp only [hres] at hrun
      exact hfenced hrun

theorem unknownToolResult_flagged (action : Action) (key : Str) :
    (unknownToolResult action).flagged key = false := rfl

theorem deniedResult_flagged (action : Action) (reason key : Str) :
    (deniedResult action reason).flagged key = false := rfl

/-- The call that executes an approved action refuses it, runs its tool, or raises. -/
theorem approved_step {action : Action} {answer : Except Exn (ToolResult × Action)}
    {inner : List Dispatcher.Ev}
    (hl : Linked (implementation H d ctx)
      ⟨⟨.executeApproved action (fingerprint H action), answer⟩, inner⟩) :
    (Refused d ctx inner action ∧
      (∃ result action', answer = .ok (result, action') ∧ result.flagged "superseded" = false) ∧
      ∀ tool arguments result, ⟨.run tool arguments, .ok result⟩ ∉ inner) ∨
    (¬ Refused d ctx inner action ∧
      ∃ fs result arguments,
        answer = .ok (result, { action with arguments := arguments }) ∧
        inner = [⟨.filesystem, fs⟩, ⟨.run action.tool action.arguments, .ok (result, arguments)⟩]) ∨
    (¬ Refused d ctx inner action ∧
      (∃ e, answer = .error e) ∧
      ∀ tool arguments result, ⟨.run tool arguments, .ok result⟩ ∉ inner) := by
  have hregistered : inner ≠ [] → action.tool ∈ d.registry := by
    intro hne
    by_contra hreg
    exact hne (executeApproved_unregistered hreg hl)
  obtain ⟨hno, _⟩ | ⟨_, hexec⟩ := Dispatcher.executeApproved_cases hl
  · exact absurd rfl hno
  · cases hexec with
    | unknown hreg =>
      exact .inl ⟨.inl hreg, ⟨_, _, rfl, unknownToolResult_flagged _ _⟩, by simp⟩
    | @fenced fs rule reason hfence =>
      exact .inl ⟨.inr ⟨fs, _, List.mem_singleton_self _, hfence⟩,
        ⟨_, _, rfl, deniedResult_flagged _ _ _⟩, by simp⟩
    | @fenceRaised fs e hfence =>
      refine .inr (.inr ⟨?_, ⟨e, rfl⟩, by simp⟩)
      rintro (hreg | ⟨fs', stop, hfs, hstop⟩)
      · exact hreg (hregistered (by simp))
      · cases List.mem_singleton.mp hfs
        rw [hfence] at hstop
        cases hstop
    | @executed fs t r hacc htool =>
      have hunrefused : ¬ Refused d ctx (⟨.filesystem, fs⟩ :: t) action := by
        rintro (hreg | ⟨fs', stop, hfs, hstop⟩)
        · exact hreg (hregistered (by simp))
        · obtain hfs | hfs := List.mem_cons.mp hfs
          · cases hfs
            exact absurd (hacc.symm.trans hstop) (by simp)
          · cases htool <;> cases List.mem_singleton.mp hfs
      cases htool with
      | returned result arguments =>
        exact .inr (.inl ⟨hunrefused, fs, result, arguments, rfl, rfl⟩)
      | raised e => exact .inr (.inr ⟨hunrefused, ⟨e, rfl⟩, by simp⟩)

theorem superseded_flagged (action : Action) (e : Exn) :
    (supersededResult action e).flagged "superseded" = true := rfl

/-- What is logged behind an approved execution that returned, and what ran in it. -/
theorem truthful_of_returned {action action' : Action} {result : ToolResult}
    {left : GovernanceVerdict} {inner : List Dispatcher.Ev}
    (hl : Linked (implementation H d ctx)
      ⟨⟨.executeApproved action (fingerprint H action), .ok (result, action')⟩, inner⟩) :
    ((!result.flagged "superseded" && decide (left.decision ≠ .deny)) = true ↔
      ∃ tool arguments result, ⟨.run tool arguments, .ok result⟩ ∈ inner) ↔
    Truthful d ctx
      ⟨⟨.executeApproved action (fingerprint H action), .ok (result, action')⟩, inner⟩ action left := by
  obtain ⟨href, ⟨_, _, hanswer, hflag⟩, hnone⟩ | ⟨hno, fs, result', arguments, hanswer, rfl⟩ |
    ⟨_, ⟨e, hanswer⟩, _⟩ := approved_step hl
  · cases hanswer
    have hret : ¬ ∃ tool arguments result, ⟨.run tool arguments, .ok result⟩ ∈ inner :=
      fun ⟨tool, arguments, result, hret⟩ => hnone tool arguments result hret
    rw [hflag, iff_false_right hret]
    constructor
    · intro hdeny
      exact ⟨fun _ => by simpa using hdeny,
        fun tool arguments result _ hret => absurd hret (hnone tool arguments _)⟩
    · intro htrue
      simp [htrue.refused href]
  · cases hanswer
    have hmem : (⟨.run action.tool action.arguments, .ok (result, arguments)⟩ : Dispatcher.Ev) ∈
        [⟨.filesystem, fs⟩, ⟨.run action.tool action.arguments, .ok (result, arguments)⟩] :=
      List.mem_cons_of_mem _ (List.mem_singleton_self _)
    have hret : ∃ tool arguments' result', (⟨.run tool arguments', .ok result'⟩ : Dispatcher.Ev) ∈
        [⟨.filesystem, fs⟩, ⟨.run action.tool action.arguments, .ok (result, arguments)⟩] :=
      ⟨_, _, _, hmem⟩
    rw [iff_true_right hret, Bool.and_eq_true, Bool.not_eq_true', decide_eq_true_eq]
    constructor
    · rintro ⟨hflag, hleft⟩
      refine ⟨fun href => absurd href hno, ?_⟩
      intro tool arguments' result' arguments'' hmem'
      obtain hmem' | hmem' := List.mem_cons.mp hmem'
      · cases hmem'
      · cases List.mem_singleton.mp hmem'
        exact ⟨hleft, hflag⟩
    · intro htrue
      exact (htrue.returned _ _ _ _ hmem).symm
  · cases hanswer

/-- An approved execution that raised is silent, as it has to be. -/
theorem truthful_of_raised {action : Action} {e : Exn} {inner : List Dispatcher.Ev}
    (left : GovernanceVerdict)
    (hl : Linked (implementation H d ctx)
      ⟨⟨.executeApproved action (fingerprint H action), .error e⟩, inner⟩) :
    Truthful d ctx ⟨⟨.executeApproved action (fingerprint H action), .error e⟩, inner⟩ action left ∧
      ∀ tool arguments result, ⟨.run tool arguments, .ok result⟩ ∉ inner := by
  obtain ⟨_, ⟨_, _, hanswer, _⟩, _⟩ | ⟨_, _, _, _, hanswer, _⟩ | ⟨hno, _, hnone⟩ := approved_step hl
  · cases hanswer
  · cases hanswer
  · exact ⟨⟨fun href => absurd href hno,
      fun tool arguments result _ hret => absurd hret (hnone tool arguments _)⟩, hnone⟩

/-- Where the call in which a tool may run stands in a turn. -/
structure Cut (t pre : List Step) (f : Step) (post : List Step) : Prop where
  split : t = pre ++ f :: post
  may : mayExecute f.event = true
  before : ∀ g ∈ pre, mayExecute g.event = false
  behind : ∀ g ∈ post, mayExecute g.event = false

theorem Cut.returned_iff {pre post : List Step} {f : Step} (hcut : Cut t pre f post)
    (hl : ∀ f ∈ t, Linked (implementation H d ctx) f) : ToolReturned t ↔
      ∃ tool arguments result, ⟨.run tool arguments, .ok result⟩ ∈ f.inner := by
  obtain ⟨rfl, _, hpre, hpost⟩ := hcut
  constructor
  · rintro ⟨g, hg, tool, arguments, result, hret⟩
    have hmay := mayExecute_of_returned (hl g hg) hret
    obtain hg | hg := List.mem_append.mp hg
    · exact absurd (hmay.symm.trans (hpre g hg)) Bool.false_ne_true.symm
    · obtain rfl | hg := List.mem_cons.mp hg
      · exact ⟨tool, arguments, result, hret⟩
      · exact absurd (hmay.symm.trans (hpost g hg)) Bool.false_ne_true.symm
  · rintro ⟨tool, arguments, result, hret⟩
    exact ⟨f, by simp, tool, arguments, result, hret⟩

/-- Only the one call of the turn can make its log untrue. -/
theorem Cut.truthful_of {pre post : List Step} {f : Step} (hcut : Cut t pre f post)
    (htrue : ∀ action left, f.event.call = .executeApproved action (fingerprint h.sha256 action) →
      Truthful d ctx f action left) : TruthfulTurn h d ctx t := by
  intro pre' g f' post' judged verdict action left hsplit hg hcall
  have hmay : mayExecute f'.event = true := by
    obtain ⟨⟨call, answer⟩, inner⟩ := f'
    obtain rfl : call = _ := hcall
    rfl
  have hsplit : pre ++ f :: post = (pre' ++ [g]) ++ f' :: post' := by
    rw [← hcut.split, hsplit, List.append_assoc, List.singleton_append]
  obtain ⟨_, rfl⟩ := append_cons_unique (p := fun f : Step => mayExecute f.event) hcut.before
    hcut.behind hmay hsplit
  exact htrue action left hcall

/-- A turn with an approved execution is as truthful as this execution. -/
theorem Cut.truthful_iff {pre post : List Step} {g f : Step} {judged action : Action}
    {verdict left : GovernanceVerdict} (hcut : Cut t (pre ++ [g]) f post)
    (hg : g.event = ⟨.resolve judged verdict, .ok (true, action, left)⟩)
    (hcall : f.event.call = .executeApproved action (fingerprint h.sha256 action)) :
    TruthfulTurn h d ctx t ↔ Truthful d ctx f action left := by
  constructor
  · intro hall
    exact hall pre g f post judged verdict action left (by simpa using hcut.split) hg hcall
  · intro htrue pre' g' f' post' judged' verdict' action' left' hsplit hg' hcall'
    have hmay : mayExecute f'.event = true := by
      obtain ⟨⟨call, answer⟩, inner⟩ := f'
      obtain rfl : call = _ := hcall'
      rfl
    have hsplit : pre ++ [g] ++ f :: post = (pre' ++ [g']) ++ f' :: post' := by
      rw [← hcut.split, hsplit, List.append_assoc, List.singleton_append]
    obtain ⟨hpre, rfl⟩ := append_cons_unique (p := fun f : Step => mayExecute f.event)
      hcut.before hcut.behind hmay hsplit
    obtain ⟨_, hlast⟩ := List.append_inj' hpre rfl
    obtain rfl := List.singleton_inj.mp hlast
    obtain ⟨rfl, _⟩ := Call.executeApproved.inj (hcall.symm.trans hcall')
    cases hg.symm.trans hg'
    exact htrue

/-- In a turn the log is right about executions exactly when the execution of what
was approved leaves a true log. -/
theorem logsExecution_iff {task : Str} {start : ℤ} {s : LoopState} {outcome : Outcome}
    (hrun : Runs (h.turn task start s) (t.map Frame.event) outcome)
    (hl : ∀ f ∈ t, Linked (implementation h.sha256 d ctx) f) :
    (LogsExecution t ↔ ToolReturned t) ↔ TruthfulTurn h d ctx t := by
  cases turn_executing hrun with
  | still hstill =>
    have hquiet : ∀ f ∈ t, mayExecute f.event = false ∧ isExecutionLog f.event = false :=
      fun f hf => hstill _ (List.mem_map_of_mem hf)
    have hlog : ¬ LogsExecution t := by
      rintro ⟨f, hf, hlog⟩
      exact absurd (hlog.symm.trans (hquiet f hf).2) Bool.false_ne_true.symm
    have hret : ¬ ToolReturned t := by
      rintro ⟨f, hf, tool, arguments, result, hret⟩
      exact absurd ((mayExecute_of_returned (hl f hf) hret).symm.trans (hquiet f hf).1)
        Bool.false_ne_true.symm
    have htrue : TruthfulTurn h d ctx t := by
      rintro pre g ⟨⟨call, answer⟩, inner⟩ post judged verdict action left rfl _ hcall
      obtain rfl : call = _ := hcall
      have hno := (hquiet ⟨⟨.executeApproved _ _, answer⟩, inner⟩ (by simp)).1
      simp [mayExecute] at hno
    exact iff_of_true (iff_of_false hlog hret) htrue
  | @once pre post e b hsplit hpre hmay hlogs hpost hlog =>
    obtain ⟨fpre, rest, rfl, rfl, hrest⟩ := List.map_eq_append_iff.mp hsplit
    obtain ⟨f, fpost, rfl, rfl, rfl⟩ := List.map_eq_cons_iff.mp hrest
    have hcut : Cut (fpre ++ f :: fpost) fpre f fpost :=
      ⟨rfl, hmay, fun g hg => (hpre _ (List.mem_map_of_mem hg)).1,
        fun g hg => hpost _ (List.mem_map_of_mem hg)⟩
    have hself := hlogs.not_log
    have hlog : LogsExecution (fpre ++ f :: fpost) ↔ b = true := by
      rw [← hlog, List.any_map, List.any_eq_true]
      constructor
      · rintro ⟨g, hg, hg'⟩
        obtain hmem | hmem := List.mem_append.mp hg
        · exact absurd (hg'.symm.trans (hpre _ (List.mem_map_of_mem hmem)).2)
            Bool.false_ne_true.symm
        · obtain rfl | hmem := List.mem_cons.mp hmem
          · exact absurd (hg'.symm.trans hself) Bool.false_ne_true.symm
          · exact ⟨g, hmem, hg'⟩
      · rintro ⟨g, hg, hg'⟩
        exact ⟨g, by simp [hg], hg'⟩
    rw [hlog, hcut.returned_iff hl]
    have hf := hl f (by simp)
    obtain ⟨ev, inner⟩ := f
    obtain ⟨pre', hpre'⟩ : ∃ pre', fpre.map Frame.event = pre' := ⟨_, rfl⟩
    rw [hpre'] at hlogs
    dsimp only at hlogs hf ⊢
    cases hlogs with
    | @dispatched _ action action' verdict result hdeny hreq =>
      obtain ⟨hsome, hret⟩ := dispatch_returned hf hdeny hreq
      exact iff_of_true (iff_of_true hsome hret) (hcut.truthful_of (by rintro _ _ ⟨⟩))
    | @dispatchRaised _ action e =>
      refine iff_of_true (iff_of_false Bool.false_ne_true ?_) (hcut.truthful_of (by rintro _ _ ⟨⟩))
      rintro ⟨tool, arguments, result, hret⟩
      exact dispatch_raised hf tool arguments result hret
    | @approved pre judged action action' verdict left fp result =>
      obtain ⟨fpre, last, rfl, rfl, hlast⟩ := List.map_eq_append_iff.mp hpre'
      obtain ⟨g, rfl, hg⟩ := List.map_eq_singleton_iff.mp hlast
      by_cases hfp : fp = fingerprint h.sha256 action
      · subst hfp
        rw [hcut.truthful_iff hg rfl]
        exact truthful_of_returned hf
      · refine iff_of_true ?_ (hcut.truthful_of ?_)
        · obtain ⟨_, rfl, e, hanswer⟩ | ⟨heq, _⟩ := Dispatcher.executeApproved_cases hf
          · cases hanswer
            rw [superseded_flagged]
            simp
          · exact absurd heq.symm hfp
        · intro action' left' hcall
          obtain ⟨rfl, rfl⟩ := Call.executeApproved.inj hcall
          exact absurd rfl hfp
    | @approvedRaised _ action fp e =>
      by_cases hfp : fp = fingerprint h.sha256 action
      · subst hfp
        have htrue := fun left => truthful_of_raised left hf
        refine iff_of_true (iff_of_false Bool.false_ne_true ?_) (hcut.truthful_of ?_)
        · rintro ⟨tool, arguments, result, hret⟩
          exact (htrue ⟨.deny, [], []⟩).2 tool arguments result hret
        · intro action' left hcall
          obtain ⟨rfl, _⟩ := Call.executeApproved.inj hcall
          exact (htrue left).1
      · obtain ⟨_, _, e, hanswer⟩ | ⟨heq, _⟩ := Dispatcher.executeApproved_cases hf
        · cases hanswer
        · exact absurd heq.symm hfp

end Steps

/-- In every run, whatever the resolver does and however the filesystem changes, the
log of a turn says TOOL_EXECUTED exactly when a tool ran and returned, if and only
if the approved execution of the turn, where there is one, is truthful. -/
theorem executions_logged_iff (h : HarnessCore) (d : Dispatcher) (ctx : TaskContext) (fuel : ℕ)
    (task : Str) (out : Option (Except Exn TerminationReason)) (frames : List Step)
    (hrun : Runs (h.run fuel task) (frames.map Frame.event) out)
    (hlinked : ∀ f ∈ frames, Linked (implementation h.sha256 d ctx) f) :
    ∃ (opening : List Step) (turns : List (List Step)),
      frames = opening ++ turns.flatten ∧ ¬ LogsExecution opening ∧ ¬ ToolReturned opening ∧
      ∀ t ∈ turns, (∃ start s outcome, Runs (h.turn task start s) (t.map Frame.event) outcome) ∧
        ((LogsExecution t ↔ ToolReturned t) ↔ TruthfulTurn h d ctx t) := by
  obtain ⟨opening, turns, start, rfl, hopening, hturn⟩ := run_steps hrun
  refine ⟨opening, turns, rfl, ?_, ?_, ?_⟩
  · rintro ⟨⟨⟨call, answer⟩, inner⟩, hf, hlog⟩
    obtain rfl : call = .monotonic := hopening _ hf
    cases hlog
  · rintro ⟨⟨⟨call, answer⟩, inner⟩, hf, tool, arguments, result, hret⟩
    obtain rfl : call = .monotonic := hopening _ hf
    obtain rfl : inner = [] := hlinked _ (List.mem_append_left _ hf)
    cases hret
  · intro t ht
    obtain ⟨s, outcome, hruns⟩ := hturn t ht
    refine ⟨⟨start, s, outcome, hruns⟩, logsExecution_iff hruns fun f hf => hlinked f ?_⟩
    exact List.mem_append_right _ (List.mem_flatten.mpr ⟨t, ht, hf⟩)

/-! ## A path that changed while the approval was pending -/

/-- While the approval was pending, the path became a link out of the workspace. -/
def relinkedWorkspace : FileSystem where
  entries := [(["ws"], .dir), (["ws", "a"], .link "/x")]
  cwd := []
  proper := by decide
  nodup := by decide
  closed := by decide
  cwd_dir := by decide

def escapeResult : ToolResult := deniedResult writeAction "path escapes workspace (traversal/symlink)"

/-- The turn in which the second check refuses what was approved. -/
def refusedTurn : List Step :=
  let h := writingHarness
  let fp := fingerprint h.sha256 writeAction
  let next := h.afterExecution (afterParse h.initialState) writeVerdict escapeResult writeAction
  [⟨⟨.monotonic, 5⟩, []⟩,
    ⟨⟨.complete (h.messages "fix the bug" h.initialState []), .ok "write"⟩, []⟩,
    ⟨h.logged {} .actionProposed (proposedPayload writeAction), []⟩,
    ⟨⟨.dispatch writeAction, .ok (writeVerdict, none, writeAction)⟩,
      [⟨.filesystem, gateWorkspace⟩]⟩,
    ⟨h.logged {} .governanceDecision (decisionPayload writeAction writeVerdict), []⟩,
    ⟨⟨.resolve writeAction writeVerdict, .ok (true, writeAction, writeVerdict)⟩, []⟩,
    ⟨⟨.executeApproved writeAction fp, .ok (escapeResult, writeAction)⟩,
      [⟨.filesystem, relinkedWorkspace⟩]⟩,
    ⟨h.logged {} .approvalDecided (approvalPayload writeAction "APPROVED"), []⟩,
    ⟨h.logged {} .toolExecuted (toolPayload writeAction escapeResult), []⟩,
    ⟨h.logged next.c .feedback (feedbackPayload "POLICY_DENIED"
      (formatFeedback "POLICY_DENIED" escapeResult)), []⟩]

def refusedRun : List Step :=
  let h := writingHarness
  let next := h.afterExecution (afterParse h.initialState) writeVerdict escapeResult writeAction
  [⟨⟨.monotonic, 0⟩, []⟩] ++
    [refusedTurn, [⟨⟨.monotonic, 9⟩, []⟩, ⟨h.stopped next.c .maxSteps, []⟩]].flatten

theorem refusedRun_linked : ∀ f ∈ refusedRun,
    Linked (implementation writingHarness.sha256 askingDispatcher gateContext) f := by
  simp only [refusedRun, refusedTurn, List.flatten_cons, List.flatten_nil, List.cons_append,
    List.nil_append, List.forall_mem_cons]
  exact ⟨rfl, rfl, rfl, rfl, .call (.ret _), rfl, rfl, .call (.ret _), rfl, rfl, rfl, rfl,
    rfl, fun _ h => absurd h List.not_mem_nil⟩

theorem refusedRun_runs : Runs (writingHarness.run 3 "fix the bug")
    (refusedRun.map Frame.event) (some (.ok .maxSteps)) :=
  .call (.call (.call (.call (.call (.call (.call (.call (.call (.call (.call (.call
    (.call (.ret _)))))))))))))

/-- What was approved is refused, and logged as executed. -/
theorem refused_logged_executed :
    Runs (writingHarness.run 3 "fix the bug") (refusedRun.map Frame.event) (some (.ok .maxSteps)) ∧
    (∀ f ∈ refusedRun,
      Linked (implementation writingHarness.sha256 askingDispatcher gateContext) f) ∧
    (∃ rest, refusedRun = [⟨⟨.monotonic, 0⟩, []⟩] ++ (refusedTurn ++ rest)) ∧
    LogsExecution refusedTurn ∧ ¬ ToolReturned refusedRun := by
  refine ⟨refusedRun_runs, refusedRun_linked, ⟨_, rfl⟩, ?_, ?_⟩
  · exact ⟨_, List.mem_of_getElem? (i := 8) rfl, rfl⟩
  · rintro ⟨f, hf, tool, arguments, result, hret⟩
    simp only [refusedRun, refusedTurn, List.flatten_cons, List.flatten_nil, List.cons_append,
      List.nil_append, List.append_nil, List.mem_cons, List.not_mem_nil, or_false] at hf
    obtain rfl | rfl | rfl | rfl | rfl | rfl | rfl | rfl | rfl | rfl | rfl | rfl | rfl := hf <;>
      simp at hret

theorem executions_logged_iff_refused :
    ∃ (opening : List Step) (turns : List (List Step)),
      refusedRun = opening ++ turns.flatten ∧ ¬ LogsExecution opening ∧ ¬ ToolReturned opening ∧
      ∀ t ∈ turns, (∃ start s outcome,
          Runs (writingHarness.turn "fix the bug" start s) (t.map Frame.event) outcome) ∧
        ((LogsExecution t ↔ ToolReturned t) ↔
          TruthfulTurn writingHarness askingDispatcher gateContext t) :=
  executions_logged_iff _ _ _ _ _ _ _ refusedRun_runs refusedRun_linked

end AegisCode
