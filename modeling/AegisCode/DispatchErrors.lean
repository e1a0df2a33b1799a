import AegisCode.FenceErrors
import AegisCode.GovernanceGate
import AegisCode.Interpretation
import AegisCode.ToolErrors

/-!
# The failures of an action

The dispatcher with the tools behind it, and the loop with the dispatcher behind it. A
failure stays with its action when the fence does not raise, and when the tool that is
reached can settle the call.
-/
namespace AegisCode

open Program Prog Posix

/-! ## The tools behind the dispatcher -/

namespace ToolSet

def allTools : List Tool :=
  [.writeFile, .readFile, .listFiles, .searchText, .finish, .runCommand, .runTests]

/-- The registry, by the names of the tools. -/
def toolNamed (name : Str) : Option Tool := allTools.find? fun tool => tool.name = name

theorem toolNamed_name (tool : Tool) : toolNamed tool.name = some tool := by
  cases tool <;> decide

theorem name_of_toolNamed {name : Str} {tool : Tool} (h : toolNamed name = some tool) :
    tool.name = name := by
  simpa using List.find?_some h

end ToolSet

inductive HostCall where
  | look
  | os (c : OsCall)

@[reducible] def HostResp : HostCall → Type
  | .look => FileSystem
  | .os c => OsResp c

/-- A look of the fence at the filesystem, or a call of the tool. -/
abbrev HostEv := Event HostCall HostResp

def osEvent (e : OsEv) : HostEv := ⟨.os e.call, e.answer⟩

/-- The calls of the tool. -/
def osEvents (tr : List HostEv) : List OsEv :=
  tr.filterMap fun
    | ⟨.os c, r⟩ => some ⟨c, r⟩
    | ⟨.look, _⟩ => none

theorem osEvents_look (fs : FileSystem) (tr : List HostEv) :
    osEvents (⟨.look, fs⟩ :: tr) = osEvents tr := rfl

theorem look_not_mem_map {fs : FileSystem} {u : List OsEv} :
    (⟨.look, fs⟩ : HostEv) ∉ u.map osEvent := by
  intro h
  obtain ⟨e, -, habs⟩ := List.mem_map.mp h
  cases habs

theorem osEvents_map (u : List OsEv) : osEvents (u.map osEvent) = u := by
  induction u with
  | nil => rfl
  | cons e u ih =>
    show e :: osEvents (u.map osEvent) = e :: u
    rw [ih]

def osCall (c : OsCall) : Prog HostCall HostResp (OsResp c) := perform (HostCall.os c)

/-- `tool.run(arguments, ctx)` of a registered tool, which leaves its arguments as they are. -/
def hostTool (t : ToolSet) (ctx : TaskContext) (name : Str) (arguments : Dict) :
    Prog HostCall HostResp (Except Exn (ToolResult × Dict)) :=
  match ToolSet.toolNamed name with
  | none => return .error ⟨.keyError, Str.repr name⟩
  | some tool => do
    let out ← interpret osCall (t.run ctx arguments tool).run
    return out.map fun result => (result, arguments)

/-- The calls of the dispatcher on the host. -/
def hosted (t : ToolSet) (ctx : TaskContext) :
    (c : DispatchCall) → Prog HostCall HostResp (DispatchResp c)
  | .filesystem => perform HostCall.look
  | .run name arguments => hostTool t ctx name arguments

theorem serves_osCall {es : List OsEv} {tr : List HostEv} (h : Serves osCall es tr) :
    tr = es.map osEvent := by
  induction h with
  | nil => rfl
  | cons hcall _ ih =>
    obtain rfl := runs_perform.mp hcall
    rw [ih]
    rfl

theorem runs_hostTool {t : ToolSet} {ctx : TaskContext} {name : Str} {tool : ToolSet.Tool}
    {arguments : Dict} {tr : List HostEv} {r : Except Exn (ToolResult × Dict)}
    (hname : ToolSet.toolNamed name = some tool)
    (hrun : Runs (hostTool t ctx name arguments) tr r) :
    ∃ es out, tr = es.map osEvent ∧ Runs (t.run ctx arguments tool).run es out ∧
      r = out.map fun result => (result, arguments) := by
  unfold hostTool at hrun
  rw [hname] at hrun
  obtain ⟨u, out, v, rfl, htool, hret⟩ := runs_bind.mp hrun
  obtain ⟨rfl, rfl⟩ := runs_pure.mp hret
  obtain ⟨es, hran, hserves⟩ := runs_interpret.mp htool
  obtain rfl := serves_osCall hserves
  exact ⟨es, out, List.append_nil _, hran, rfl⟩

section Dispatching
variable (t : ToolSet) (d : Dispatcher) (ctx : TaskContext)

/-- `dispatch` on the host. -/
def dispatchOnHost (action : Action) :
    Prog HostCall HostResp (Except Exn (GovernanceVerdict × Option ToolResult × Action)) :=
  interpret (hosted t ctx) (d.dispatch action ctx).run

/-- `execute_approved` on the host. -/
def executeOnHost (H : Digest) (action : Action) (approvedFp : Option Str) :
    Prog HostCall HostResp (Except Exn (ToolResult × Action)) :=
  interpret (hosted t ctx) (d.executeApproved H action ctx approvedFp).run

/-- What is asked of both: a return, and no success unless the tool did its work. -/
def Survived (action : Action) (tr : List HostEv) (out : Except Exn (Option ToolResult)) : Prop :=
  ∃ result, out = .ok result ∧ ∀ r, result = some r → r.status = .success →
    ∀ tool : ToolSet.Tool, tool.name = action.tool → Worked tool (osEvents tr)

/-- The fence does not raise on what it looks at, and the tool, if the action comes to it,
can settle the call. -/
structure Bearable (admitted : Prop) (action : Action) (tr : List HostEv) : Prop where
  fence : ∀ fs, (⟨.look, fs⟩ : HostEv) ∈ tr → ¬ FenceRaises d fs action ctx
  tool : ∀ fs (tool : ToolSet.Tool), (⟨.look, fs⟩ : HostEv) ∈ tr → d.Accepts fs action ctx →
    admitted → tool.name = action.tool → Able t ctx action.arguments tool (osEvents tr)

/-- The policy lets the action run without an approval. -/
def Admits (action : Action) : Prop :=
  ∃ verdict, d.engine.evaluate action ctx = .ok verdict ∧
    (verdict.decision = .allow ∨ verdict.decision = .allowWithAudit)

end Dispatching

section Containment
variable {t : ToolSet} {d : Dispatcher} {ctx : TaskContext} {action : Action} {fs : FileSystem}
  {tr : List HostEv} {admitted : Prop}

theorem not_survived_error {e : Exn} : ¬ Survived action tr (.error e) :=
  fun ⟨_, habs, _⟩ => by cases habs

theorem survived_ok {result : Option ToolResult}
    (h : ∀ r, result = some r → r.status ≠ .success) : Survived action tr (.ok result) :=
  ⟨result, rfl, fun r hr hsuccess => absurd hsuccess (h r hr)⟩

theorem forall_some_ne {result : ToolResult} (h : result.status ≠ .success) :
    ∀ r, some result = some r → r.status ≠ .success := by
  rintro r ⟨⟩
  exact h

/-- An action that the dispatcher does not look at is no trouble. -/
theorem bearable_nil : Bearable t d ctx admitted action [] :=
  ⟨fun _ h => absurd h List.not_mem_nil, fun _ _ h => absurd h List.not_mem_nil⟩

/-- An action that does not come to its tool is no trouble unless the fence raises. -/
theorem bearable_look_iff (h : d.Accepts fs action ctx → ¬ admitted) :
    Bearable t d ctx admitted action [⟨.look, fs⟩] ↔ ¬ FenceRaises d fs action ctx := by
  constructor
  · exact fun hbearable => hbearable.fence fs (List.mem_cons_self ..)
  · intro hcalm
    refine ⟨fun fs' hfs => ?_, fun fs' tool hfs haccepts hadmitted => ?_⟩
    · cases List.mem_singleton.mp hfs
      exact hcalm
    · cases List.mem_singleton.mp hfs
      exact absurd hadmitted (h haccepts)

theorem not_raises_of_ok {out : Option (Str × Str)} (h : d.fence fs action ctx = .ok out) :
    ¬ FenceRaises d fs action ctx := by
  rw [← fence_raises_iff, h]
  rintro ⟨e, habs⟩
  cases habs

theorem survived_settles_iff {tool : ToolSet.Tool} {out : Except Exn ToolResult}
    (hname : ToolSet.toolNamed action.tool = some tool) :
    Survived action tr (out.map some) ↔ Settles tool (osEvents tr) out := by
  cases out with
  | error e => exact iff_of_false not_survived_error settles_error
  | ok result =>
    rw [settles_ok]
    constructor
    · rintro ⟨_, heq, h⟩ hsuccess
      cases heq
      exact h result rfl hsuccess tool (ToolSet.name_of_toolNamed hname)
    · intro h
      refine ⟨some result, rfl, fun r hr hsuccess tool' hname' => ?_⟩
      cases hr
      have hsame : some tool' = some tool := by
        rw [← ToolSet.toolNamed_name tool', hname', hname]
      cases hsame
      exact h hsuccess

/-- The tool that the action comes to. -/
theorem tool_survived_iff {es : List Dispatcher.Ev} {out : Except Exn (ToolResult × Action)}
    (hknown : (ToolSet.toolNamed action.tool).isSome = true) (haccepts : d.Accepts fs action ctx)
    (hadmitted : admitted) (ht : Dispatcher.RunsTool action es out)
    (hserves : Serves (hosted t ctx) es tr) :
    Survived action (⟨.look, fs⟩ :: tr) (out.map fun p => some p.1) ↔
      Bearable t d ctx admitted action (⟨.look, fs⟩ :: tr) := by
  obtain ⟨tool, hname⟩ := Option.isSome_iff_exists.mp hknown
  have hone : ∃ r, es = [⟨.run action.tool action.arguments, r⟩] ∧
      (out.map fun p => some p.1) = (r.map Prod.fst).map some := by
    cases ht with
    | returned result arguments => exact ⟨_, rfl, rfl⟩
    | raised e => exact ⟨_, rfl, rfl⟩
  obtain ⟨r, rfl, hout⟩ := hone
  rw [hout]
  obtain _ | ⟨hcall, hnil⟩ := hserves
  cases hnil
  obtain ⟨os, result, rfl, hrun, rfl⟩ := runs_hostTool hname hcall
  have hresult : ((result.map fun r => (r, action.arguments)).map Prod.fst) = result := by
    cases result <;> rfl
  rw [hresult, survived_settles_iff hname, osEvents_look, List.append_nil, osEvents_map,
    ToolSet.run_settles_iff hrun]
  constructor
  · intro hable
    refine ⟨fun fs' hfs => ?_, fun fs' tool' hfs _ _ hname' => ?_⟩
    · obtain heq | hos := List.mem_cons.mp hfs
      · cases heq
        exact not_raises_of_ok haccepts
      · exact absurd hos look_not_mem_map
    · have hsame : some tool' = some tool := by
        rw [← ToolSet.toolNamed_name tool', hname', hname]
      cases hsame
      rw [osEvents_look, osEvents_map]
      exact hable
  · intro hbearable
    have hable := hbearable.tool fs tool (List.mem_cons_self ..) haccepts hadmitted
      (ToolSet.name_of_toolNamed hname)
    rwa [osEvents_look, osEvents_map] at hable

theorem serves_look {es : List Dispatcher.Ev}
    (h : Serves (hosted t ctx) (⟨.filesystem, fs⟩ :: es) tr) :
    ∃ u, tr = ⟨.look, fs⟩ :: u ∧ Serves (hosted t ctx) es u := by
  obtain _ | ⟨hcall, hserves⟩ := h
  obtain rfl := runs_perform.mp hcall
  exact ⟨_, rfl, hserves⟩

/-- The fence looks, and nothing follows. -/
theorem serves_only_look (h : Serves (hosted t ctx) [⟨.filesystem, fs⟩] tr) :
    tr = [⟨.look, fs⟩] := by
  obtain ⟨u, rfl, hnil⟩ := serves_look h
  cases hnil
  rfl

/-- Only the fence is at fault when it raises. -/
theorem raised_survived_iff {e : Exn} (h : d.fence fs action ctx = .error e) :
    Survived action [⟨.look, fs⟩] (.error e) ↔
      Bearable t d ctx admitted action [⟨.look, fs⟩] :=
  iff_of_false not_survived_error fun hbearable =>
    hbearable.fence fs (List.mem_cons_self ..) (fence_raises_iff.mp ⟨e, h⟩)

/-- An action that is stopped behind the fence is survived. -/
theorem stopped_survived_iff {found : Option (Str × Str)} {result : Option ToolResult}
    (h : d.fence fs action ctx = .ok found) (hno : d.Accepts fs action ctx → ¬ admitted)
    (hresult : ∀ r, result = some r → r.status ≠ .success) :
    Survived action [⟨.look, fs⟩] (.ok result) ↔
      Bearable t d ctx admitted action [⟨.look, fs⟩] :=
  iff_of_true (survived_ok hresult) ((bearable_look_iff hno).mpr (not_raises_of_ok h))

theorem registered_of_dispatch {e : Dispatcher.Ev} {es : List Dispatcher.Ev}
    {out : Except Exn (GovernanceVerdict × Option ToolResult × Action)}
    (hrun : Runs (d.dispatch action ctx).run (e :: es) out) : action.tool ∈ d.registry := by
  by_contra hno
  rw [Dispatcher.dispatch, if_pos hno] at hrun
  cases (runs_return.mp hrun).1

theorem registered_of_executeFenced {e : Dispatcher.Ev} {es : List Dispatcher.Ev}
    {out : Except Exn (ToolResult × Action)}
    (hrun : Runs (d.executeFenced action ctx).run (e :: es) out) : action.tool ∈ d.registry := by
  by_contra hno
  rw [Dispatcher.executeFenced, if_pos hno] at hrun
  cases (runs_return.mp hrun).1

/-- `dispatch` survives the failures of an action exactly when they can be borne. -/
theorem dispatch_survived_iff (hregistry : ∀ name ∈ d.registry, (ToolSet.toolNamed name).isSome)
    {out : Except Exn (GovernanceVerdict × Option ToolResult × Action)}
    (hrun : Runs (dispatchOnHost t d ctx action) tr out) :
    Survived action tr (out.map fun p => p.2.1) ↔
      Bearable t d ctx (Admits d ctx action) action tr := by
  obtain ⟨es, hran, hserves⟩ := runs_interpret.mp hrun
  have hrejected : ∀ {verdict}, d.engine.evaluate action ctx = .ok verdict →
      ¬ (verdict.decision = .allow ∨ verdict.decision = .allowWithAudit) →
      ¬ Admits d ctx action := by
    rintro verdict heval hno ⟨verdict', heval', hdecision⟩
    obtain rfl := Except.ok.inj (heval.symm.trans heval')
    exact hno hdecision
  have hd := Dispatcher.dispatch_cases hran
  cases hd with
  | unknown _ =>
    cases hserves
    exact iff_of_true (survived_ok (forall_some_ne Status.noConfusion)) bearable_nil
  | fenceRaised hraised =>
    obtain rfl := serves_only_look hserves
    exact raised_survived_iff hraised
  | fenced hout =>
    obtain rfl := serves_only_look hserves
    refine stopped_survived_iff hout (fun haccepts => ?_) (forall_some_ne Status.noConfusion)
    cases hout.symm.trans haccepts
  | engineRaised haccepts heval =>
    obtain rfl := serves_only_look hserves
    refine stopped_survived_iff haccepts (fun _ => ?_) (forall_some_ne Status.noConfusion)
    rintro ⟨verdict, heval', -⟩
    cases heval.symm.trans heval'
  | denied haccepts heval hdeny =>
    obtain rfl := serves_only_look hserves
    exact stopped_survived_iff haccepts (fun _ => hrejected heval (by simp [hdeny]))
      (forall_some_ne Status.noConfusion)
  | pending haccepts heval hreq =>
    obtain rfl := serves_only_look hserves
    exact stopped_survived_iff haccepts (fun _ => hrejected heval (by simp [hreq]))
      fun r hr => by cases hr
  | @executed _ verdict _ r haccepts heval hdeny hreq ht =>
    obtain ⟨u, rfl, htool⟩ := serves_look hserves
    have hregistered := registered_of_dispatch hran
    have hout : ((r.map fun p => (verdict, some p.1, p.2)).map
        fun p : GovernanceVerdict × Option ToolResult × Action => p.2.1) =
          r.map fun p => some p.1 := by
      cases r <;> rfl
    rw [hout]
    exact tool_survived_iff (hregistry _ hregistered) haccepts
      ⟨verdict, heval, Decision.allow_or_audit hdeny hreq⟩ ht htool

theorem executeFenced_survived_iff
    (hregistry : ∀ name ∈ d.registry, (ToolSet.toolNamed name).isSome) {es : List Dispatcher.Ev}
    {out : Except Exn (ToolResult × Action)}
    (hran : Runs (d.executeFenced action ctx).run es out) (hserves : Serves (hosted t ctx) es tr) :
    Survived action tr (out.map fun p => some p.1) ↔ Bearable t d ctx True action tr := by
  have hx := Dispatcher.executeFenced_cases hran
  cases hx with
  | unknown _ =>
    cases hserves
    exact iff_of_true (survived_ok (forall_some_ne Status.noConfusion)) bearable_nil
  | fenceRaised hraised =>
    obtain rfl := serves_only_look hserves
    exact raised_survived_iff hraised
  | fenced hout =>
    obtain rfl := serves_only_look hserves
    refine stopped_survived_iff hout (fun haccepts => ?_) (forall_some_ne Status.noConfusion)
    cases hout.symm.trans haccepts
  | executed haccepts ht =>
    obtain ⟨u, rfl, htool⟩ := serves_look hserves
    exact tool_survived_iff (hregistry _ (registered_of_executeFenced hran)) haccepts trivial ht
      htool

/-- `execute_approved` survives them under the same condition, whatever the policy says. -/
theorem executeApproved_survived_iff
    (hregistry : ∀ name ∈ d.registry, (ToolSet.toolNamed name).isSome) {H : Digest}
    {approvedFp : Option Str} {out : Except Exn (ToolResult × Action)}
    (hrun : Runs (executeOnHost t d ctx H action approvedFp) tr out) :
    Survived action tr (out.map fun p => some p.1) ↔ Bearable t d ctx True action tr := by
  obtain ⟨es, hran, hserves⟩ := runs_interpret.mp hrun
  cases approvedFp with
  | none => exact executeFenced_survived_iff hregistry hran hserves
  | some fp =>
    unfold Dispatcher.executeApproved at hran
    dsimp only at hran
    cases hvalid : validateResume H fp action with
    | error e =>
      rw [hvalid] at hran
      obtain ⟨rfl, rfl⟩ := runs_return.mp hran
      cases hserves
      exact iff_of_true (survived_ok (forall_some_ne Status.noConfusion)) bearable_nil
    | ok _ =>
      rw [hvalid] at hran
      exact executeFenced_survived_iff hregistry hran hserves

end Containment

/-! ## The loop -/

namespace HarnessCore

/-- A collaborator of the loop that is not the dispatcher raises, or the parser raises
what is no parse error. -/
inductive Interrupted (h : HarnessCore) : Ev → Prop where
  | retrieve (e : Exn) : Interrupted h ⟨.retrieve, .error e⟩
  | resolve (action : Action) (verdict : GovernanceVerdict) (e : Exn) :
      Interrupted h ⟨.resolve action verdict, .error e⟩
  | verify (e : Exn) : Interrupted h ⟨.verify, .error e⟩
  | parse (messages : List Message) (raw : Str) (e : Exn) (hparse : h.parseAction raw = .error e)
      (hkind : e.kind ≠ .actionParseError) : Interrupted h ⟨.complete messages, .ok raw⟩

/-- The dispatcher raises, or it neither comes to a result nor asks for an approval. -/
inductive Fatal : Ev → Prop where
  | dispatch (action : Action) (e : Exn) : Fatal ⟨.dispatch action, .error e⟩
  | noResult (action action' : Action) (verdict : GovernanceVerdict)
      (hreq : verdict.decision ≠ .requireApproval) :
      Fatal ⟨.dispatch action, .ok (verdict, none, action')⟩
  | execute (action : Action) (fp : Str) (e : Exn) :
      Fatal ⟨.executeApproved action fp, .error e⟩

section Errors
variable {h : HarnessCore} {s : LoopState} {t : List Ev} {task : Str}

/-- What was to blame for an exception in a turn. -/
def Blamed (h : HarnessCore) (t : List Ev) : Prop := ∃ e ∈ t, Interrupted h e ∨ Fatal e

theorem Blamed.cons {e : Ev} (hb : Blamed h t) : Blamed h (e :: t) := by
  obtain ⟨e', he, hblame⟩ := hb
  exact ⟨e', List.mem_cons_of_mem _ he, hblame⟩

theorem Blamed.append_right {u : List Ev} (hb : Blamed h t) : Blamed h (u ++ t) := by
  obtain ⟨e, he, hblame⟩ := hb
  exact ⟨e, List.mem_append_right u he, hblame⟩

theorem Concludes.blamed {verdict : GovernanceVerdict} {result : ToolResult} {action : Action}
    {e : Exn} (hc : h.Concludes s (verdict, some result, action) t (.error e)) : Blamed h t := by
  cases hc with
  | verifierRaised => exact ⟨_, by simp, .inl (.verify e)⟩

theorem Approves.blamed {verdict : GovernanceVerdict} {action : Action} {e : Exn}
    (ha : h.Approves s verdict action t (.error e)) : Blamed h t := by
  cases ha with
  | resolverRaised => exact ⟨_, by simp, .inl (.resolve action verdict e)⟩
  | executionRaised action' verdict' =>
    exact ⟨_, by simp, .inr (.execute action' (fingerprint h.sha256 action) e)⟩

theorem Acts.blamed {action : Action} {e : Exn} (ha : h.Acts s action t (.error e)) :
    Blamed h t := by
  cases ha with
  | dispatchRaised => exact ⟨_, by simp, .inr (.dispatch action e)⟩
  | @judged verdict result action' t _ hreq hc =>
    cases result with
    | none => exact ⟨_, by simp, .inr (.noResult action action' verdict hreq)⟩
    | some result => exact hc.blamed.cons.cons.cons
  | approvalRaised _ hreq ha => exact ha.blamed.cons.cons.cons
  | @approved verdict result action' gated t₁ t₂ _ hreq ha hc =>
    cases ha with
    | approved => exact hc.blamed.append_right.cons.cons.cons

theorem Completes.answered_mem {messages : List Message} {n : ℕ} {raw : Str}
    (hc : Completes messages n t (some raw)) : ⟨.complete messages, .ok raw⟩ ∈ t := by
  generalize hout : some raw = out at hc
  induction hc with
  | exhausted => cases hout
  | answered n raw' =>
    cases hout
    exact List.mem_singleton_self _
  | raised e _ ih => exact List.mem_cons_of_mem _ (ih hout)

theorem Attempts.blamed {e : Exn} (ha : h.Attempts task s t (.error e)) : Blamed h t := by
  cases ha with
  | memoryRaised => exact ⟨_, by simp, .inl (.retrieve e)⟩
  | parserRaised _ hc hparse hkind =>
    exact ⟨_, List.mem_append_right _ hc.answered_mem, .inl (.parse _ _ e hparse hkind)⟩
  | acted _ _ _ hacts => exact hacts.blamed.append_right.append_right

theorem Turns.blamed {start : ℤ} (ht : h.Turns task start s t (.inr .internalError)) :
    Blamed h t := by
  cases ht with
  | limit now hterm => cases decideTermination_preStep hterm
  | attempted now _ ha =>
    obtain habs | habs := ha.reason
    · cases habs
    · cases habs
  | failed now e _ ha =>
    obtain ⟨e', he, hblame⟩ := ha.blamed
    exact ⟨e', List.mem_append_right _ (List.mem_append_left _ he), hblame⟩

/-- An internal error of a run has someone to blame. -/
theorem internalError_blamed {fuel : ℕ}
    (hrun : Runs (h.run fuel task) t (some (.ok .internalError))) : Blamed h t := by
  obtain ⟨start, s, ts, last, rfl, -, hlast⟩ := run_returns hrun
  exact (turn_cases hlast).blamed.append_right.cons

end Errors

end HarnessCore

/-- A call of the loop, and what the host did for it. -/
abbrev HostStep := Frame Call Resp HostCall HostResp

section Steps
variable (t : ToolSet) (d : Dispatcher) (ctx : TaskContext)

/-- The calls of the loop that the dispatcher answers on the host. -/
def answered (H : Digest) : (c : Call) → Option (Prog HostCall HostResp (Resp c))
  | .dispatch action => some (dispatchOnHost t d ctx action)
  | .executeApproved action fp => some (executeOnHost t d ctx H action (some fp))
  | _ => none

/-- The failures of the step can be borne. -/
def StepBearable (f : HostStep) : Prop :=
  match f.event.call with
  | .dispatch action => Bearable t d ctx (Admits d ctx action) action f.inner
  | .executeApproved action _ => Bearable t d ctx True action f.inner
  | _ => True

variable {t d ctx}

/-- A dispatch without a result asks for an approval. -/
theorem dispatch_result {action action' : Action} {verdict : GovernanceVerdict} {tr : List HostEv}
    (hrun : Runs (dispatchOnHost t d ctx action) tr (.ok (verdict, none, action'))) :
    verdict.decision = .requireApproval := by
  obtain ⟨es, hran, -⟩ := runs_interpret.mp hrun
  generalize hout : (Except.ok (verdict, none, action') : Except Exn _) = out at hran
  have hd := Dispatcher.dispatch_cases hran
  cases hd with
  | pending _ _ hreq =>
    cases hout
    exact hreq
  | @executed _ _ _ r _ _ _ _ _ => cases r <;> cases hout
  | _ => cases hout

/-- A step whose failures can be borne is survived. -/
theorem not_fatal (hregistry : ∀ name ∈ d.registry, (ToolSet.toolNamed name).isSome)
    {H : Digest} {f : HostStep} (hlinked : Linked (answered t d ctx H) f)
    (hbearable : StepBearable t d ctx f) : ¬ HarnessCore.Fatal f.event := by
  obtain ⟨event, inner⟩ := f
  intro hun
  cases hun with
  | dispatch action e =>
    have hrun : Runs (dispatchOnHost t d ctx action) inner (.error e) := hlinked
    exact not_survived_error ((dispatch_survived_iff hregistry hrun).mpr hbearable)
  | noResult action action' verdict hreq => exact hreq (dispatch_result hlinked)
  | execute action fp e =>
    have hrun : Runs (executeOnHost t d ctx H action (some fp)) inner (.error e) := hlinked
    exact not_survived_error ((executeApproved_survived_iff hregistry hrun).mpr hbearable)

end Steps

/-- The failures of an action stay with it, in `dispatch` and in `execute_approved`,
exactly when they can be borne; and in a run where all of them can, an internal error is
not the fault of an action. -/
theorem action_failures_survived (t : ToolSet) (d : Dispatcher) (ctx : TaskContext)
    (hregistry : ∀ name ∈ d.registry, (ToolSet.toolNamed name).isSome) :
    (∀ action tr out, Runs (dispatchOnHost t d ctx action) tr out →
      (Survived action tr (out.map fun p => p.2.1) ↔
        Bearable t d ctx (Admits d ctx action) action tr)) ∧
    (∀ H action approvedFp tr out, Runs (executeOnHost t d ctx H action approvedFp) tr out →
      (Survived action tr (out.map fun p => some p.1) ↔ Bearable t d ctx True action tr)) ∧
    ∀ (h : HarnessCore) (fuel : ℕ) (task : Str) (steps : List HostStep),
      Runs (h.run fuel task) (steps.map Frame.event) (some (.ok .internalError)) →
      (∀ f ∈ steps, Linked (answered t d ctx h.sha256) f) →
      (∀ f ∈ steps, StepBearable t d ctx f) →
      ∃ f ∈ steps, HarnessCore.Interrupted h f.event := by
  refine ⟨fun _ _ _ hrun => dispatch_survived_iff hregistry hrun,
    fun _ _ _ _ _ hrun => executeApproved_survived_iff hregistry hrun,
    fun h fuel task steps hrun hlinked hbearable => ?_⟩
  obtain ⟨e, he, hblame⟩ := HarnessCore.internalError_blamed hrun
  obtain ⟨f, hf, rfl⟩ := List.mem_map.mp he
  have hsurvived := not_fatal hregistry (hlinked f hf) (hbearable f hf)
  exact ⟨f, hf, hblame.resolve_right hsurvived⟩

/-! ## An argument that is missing -/

def someTools : ToolSet where
  testCommand := "pytest"
  outputMaxBytes := 65536
  relpath fp _ := fp

def readingDispatcher : Dispatcher := buildDispatcher {} ["read_file"]

def pathless : Action := { tool := "read_file", arguments := [] }

def readingContext : TaskContext := { workspaceRoot := "/x/ws" }

theorem readingDispatcher_registry :
    ∀ name ∈ readingDispatcher.registry, (ToolSet.toolNamed name).isSome := by
  decide

theorem pathless_runs : Runs (dispatchOnHost someTools readingDispatcher readingContext pathless)
    [⟨.look, bareWorkspace⟩] (.error (missingArgument "path")) := by
  have hlook : Runs (hosted someTools readingContext .filesystem) [⟨.look, bareWorkspace⟩]
      bareWorkspace := .call (.ret _)
  have hread : Runs (hosted someTools readingContext (.run "read_file" [])) []
      (.error (missingArgument "path")) := .ret _
  refine runs_interpret.mpr ⟨[⟨.filesystem, bareWorkspace⟩,
    ⟨.run "read_file" [], .error (missingArgument "path")⟩], .call (.call (.ret _)), ?_⟩
  exact .cons hlook (.cons hread .nil)

theorem action_failures_survived_pathless :
    Survived pathless [⟨.look, bareWorkspace⟩] (.error (missingArgument "path")) ↔
      Bearable someTools readingDispatcher readingContext
        (Admits readingDispatcher readingContext pathless) pathless [⟨.look, bareWorkspace⟩] :=
  (action_failures_survived someTools readingDispatcher readingContext
    readingDispatcher_registry).1 pathless _ _ pathless_runs

/-- `read_file` without a path raises a `KeyError` through `dispatch`. -/
theorem pathless_raises :
    ¬ ∀ (t : ToolSet) (d : Dispatcher) (ctx : TaskContext) (action : Action) (tr : List HostEv)
      (out : Except Exn (GovernanceVerdict × Option ToolResult × Action)),
      (∀ name ∈ d.registry, (ToolSet.toolNamed name).isSome) →
      Runs (dispatchOnHost t d ctx action) tr out →
      Survived action tr (out.map fun p => p.2.1) := by
  intro h
  exact not_survived_error (h _ _ _ _ _ _ readingDispatcher_registry pathless_runs)

end AegisCode
