import AegisCode.Bounds

/-!
# Approved executions

An approved action is executed only behind a dispatch that asked for the
approval and a resolver that granted it, in the same turn; the fingerprint it is
checked against was taken between the two.
-/
namespace AegisCode.HarnessCore

open Program Prog

variable {h : HarnessCore} {task : Str} {start : ℤ} {s : LoopState} {t : List Ev}

/-- No approved action is executed in these calls. -/
def NoneApproved (t : List Ev) : Prop :=
  ∀ e ∈ t, ∀ action fp, e.call ≠ .executeApproved action fp

theorem noneApproved_logged (c : LoopCounters) (eventType : EventType) (payload : Dict) :
    NoneApproved [h.logged c eventType payload] := by
  simp [NoneApproved]

theorem noneApproved_opening (now : ℤ) : NoneApproved (h.opening now) := by
  unfold opening
  split <;> simp [NoneApproved]

theorem Retrieves.noneApproved {memories : List MemoryRow} (hr : h.Retrieves t memories) :
    NoneApproved t := by
  cases hr <;> simp [NoneApproved]

theorem Completes.noneApproved {messages : List Message} {n : ℕ} {out : Option Str}
    (hc : Completes messages n t out) : NoneApproved t := by
  induction hc with
  | exhausted => simp [NoneApproved]
  | answered n raw => simp [NoneApproved]
  | raised e _ ih => simpa [NoneApproved] using ih

theorem Concludes.noneApproved {gated : Gated} {out : Except Exn Outcome}
    (hc : h.Concludes s gated t out) : NoneApproved t := by
  cases hc <;> simp [NoneApproved]

/-- Before an approved action is executed, its dispatch asked for the approval
and the resolver granted it; the fingerprint is from before the resolver. -/
def BoundApprovals (h : HarnessCore) (t : List Ev) : Prop :=
  ∀ before e after action fp, t = before ++ e :: after → e.call = .executeApproved action fp →
    ∃ proposed judged verdict result verdict',
      (⟨.dispatch proposed, .ok (verdict, result, judged)⟩ : Ev) ∈ before ∧
      verdict.decision = .requireApproval ∧
      (⟨.resolve judged verdict, .ok (true, action, verdict')⟩ : Ev) ∈ before ∧
      fp = fingerprint h.sha256 judged

theorem NoneApproved.boundApprovals (hn : NoneApproved t) : BoundApprovals h t := by
  intro before e after action fp ht hcall
  exact absurd hcall (hn e (by simp [ht]) action fp)

theorem BoundApprovals.append_left {t' : List Ev} (hn : NoneApproved t)
    (hb : BoundApprovals h t') : BoundApprovals h (t ++ t') := by
  intro before e after action fp ht hcall
  obtain ⟨u, rfl, ht'⟩ | ⟨v, rfl⟩ := append_eq_append_cons ht
  · obtain ⟨proposed, judged, verdict, result, verdict', hd, hreq, hr, hfp⟩ :=
      hb u e after action fp ht' hcall
    exact ⟨proposed, judged, verdict, result, verdict', List.mem_append_right _ hd, hreq,
      List.mem_append_right _ hr, hfp⟩
  · exact absurd hcall (hn e (by simp) action fp)

theorem BoundApprovals.append_right {t' : List Ev} (hb : BoundApprovals h t)
    (hn : NoneApproved t') : BoundApprovals h (t ++ t') := by
  intro before e after action fp ht hcall
  obtain ⟨u, rfl, rfl⟩ | ⟨v, rfl⟩ := append_eq_append_cons ht
  · exact absurd hcall (hn e (by simp) action fp)
  · exact hb before e v action fp rfl hcall

/-- The approved action is executed right behind the resolver that was asked with the judged
one and granted it. -/
theorem Approves.executes {verdict : GovernanceVerdict} {judged : Action}
    {out : Except Exn (LoopState ⊕ Gated)} (ha : h.Approves s verdict judged t out) :
    NoneApproved t ∨ ∃ action verdict' answer rest, NoneApproved rest ∧
      t = [⟨.resolve judged verdict, .ok (true, action, verdict')⟩,
        ⟨.executeApproved action (fingerprint h.sha256 judged), answer⟩] ++ rest := by
  cases ha with
  | noResolver _ => exact .inl (noneApproved_logged _ _ _)
  | resolverRaised _ => exact .inl (by simp [NoneApproved])
  | rejected _ _ => exact .inl (by simp [NoneApproved])
  | executionRaised action verdict' _ =>
    exact .inr ⟨action, verdict', _, [], by simp [NoneApproved], rfl⟩
  | superseded action verdict' _ _ _ =>
    exact .inr ⟨action, verdict', _, _, by simp [NoneApproved], rfl⟩
  | approved action verdict' _ _ _ =>
    exact .inr ⟨action, verdict', _, _, noneApproved_logged _ _ _, rfl⟩

theorem boundApprovals_execution {proposed judged action : Action}
    {verdict verdict' : GovernanceVerdict} {result : Option ToolResult} {e : Ev}
    (hnone : NoneApproved t) (hreq : verdict.decision = .requireApproval)
    (hdispatch : (⟨.dispatch proposed, .ok (verdict, result, judged)⟩ : Ev) ∈ t)
    (hresolve : (⟨.resolve judged verdict, .ok (true, action, verdict')⟩ : Ev) ∈ t)
    (hexecute : e.call = .executeApproved action (fingerprint h.sha256 judged)) :
    BoundApprovals h (t ++ [e]) := by
  intro before e' after action' fp ht hcall
  obtain ⟨u, rfl, ht'⟩ | ⟨v, rfl⟩ := append_eq_append_cons ht
  · cases u with
    | nil =>
      obtain ⟨rfl, -⟩ := List.cons.inj ht'
      obtain ⟨rfl, rfl⟩ := Call.executeApproved.inj (hexecute.symm.trans hcall)
      rw [List.append_nil]
      exact ⟨proposed, judged, verdict, result, verdict', hdispatch, hreq, hresolve, rfl⟩
    | cons x u => simp at ht'
  · exact absurd hcall (hnone e' (by simp) action' fp)

theorem Approves.boundApprovals {verdict : GovernanceVerdict} {result : Option ToolResult}
    {proposed judged : Action} {out : Except Exn (LoopState ⊕ Gated)} {e₁ e₂ : Ev}
    (hreq : verdict.decision = .requireApproval) (ha : h.Approves s verdict judged t out)
    (h₁ : NoneApproved [e₁]) (h₂ : NoneApproved [e₂]) :
    BoundApprovals h (e₁ :: ⟨.dispatch proposed, .ok (verdict, result, judged)⟩ :: e₂ :: t) := by
  have hopening : NoneApproved [e₁, ⟨.dispatch proposed, .ok (verdict, result, judged)⟩, e₂] := by
    simp_all [NoneApproved]
  obtain hnone | ⟨action, verdict', answer, rest, hrest, rfl⟩ := ha.executes
  · exact .append_left hopening hnone.boundApprovals
  · let before : List Ev := [e₁, ⟨.dispatch proposed, .ok (verdict, result, judged)⟩, e₂,
      ⟨.resolve judged verdict, .ok (true, action, verdict')⟩]
    have hnone : NoneApproved before := by simp_all [before, NoneApproved]
    have hdispatch : ⟨.dispatch proposed, .ok (verdict, result, judged)⟩ ∈ before := by
      simp [before]
    have hresolve : ⟨.resolve judged verdict, .ok (true, action, verdict')⟩ ∈ before := by
      simp [before]
    exact .append_right (boundApprovals_execution hnone hreq hdispatch hresolve rfl) hrest

theorem Acts.boundApprovals {action : Action} {out : Except Exn Outcome}
    (ha : h.Acts s action t out) : BoundApprovals h t := by
  cases ha with
  | dispatchRaised e =>
    refine NoneApproved.boundApprovals ?_
    simp [NoneApproved]
  | judged _ hc =>
    refine NoneApproved.boundApprovals ?_
    have hnone := Concludes.noneApproved hc
    simpa [NoneApproved] using hnone
  | approvalRaised e hreq happ =>
    exact happ.boundApprovals hreq (noneApproved_logged _ _ _) (noneApproved_logged _ _ _)
  | unapproved hreq happ =>
    exact happ.boundApprovals hreq (noneApproved_logged _ _ _) (noneApproved_logged _ _ _)
  | approved hreq happ hc =>
    rw [← List.cons_append, ← List.cons_append, ← List.cons_append]
    refine BoundApprovals.append_right ?_ hc.noneApproved
    exact happ.boundApprovals hreq (noneApproved_logged _ _ _) (noneApproved_logged _ _ _)

theorem Attempts.boundApprovals {out : Except Exn Outcome} (ha : h.Attempts task s t out) :
    BoundApprovals h t := by
  cases ha with
  | memoryRaised e _ =>
    refine NoneApproved.boundApprovals ?_
    simp [NoneApproved]
  | llmError hr hc =>
    refine .append_left hr.noneApproved (.append_left hc.noneApproved ?_)
    refine NoneApproved.boundApprovals ?_
    simp [NoneApproved]
  | unparsed hr hc _ _ =>
    refine .append_left hr.noneApproved (.append_left hc.noneApproved ?_)
    refine NoneApproved.boundApprovals ?_
    simp [NoneApproved]
  | parserRaised hr hc _ _ =>
    exact .append_left hr.noneApproved hc.noneApproved.boundApprovals
  | acted hr hc _ hact =>
    exact .append_left hr.noneApproved (.append_left hc.noneApproved hact.boundApprovals)

theorem turn_boundApprovals {outcome : Outcome} (hrun : Runs (h.turn task start s) t outcome) :
    BoundApprovals h t := by
  cases turn_cases hrun with
  | limit now _ =>
    refine NoneApproved.boundApprovals ?_
    simp [NoneApproved]
  | cancelled now _ _ =>
    refine NoneApproved.boundApprovals ?_
    simp [NoneApproved]
  | attempted now _ ha => exact .append_left (noneApproved_opening now) ha.boundApprovals
  | failed now e _ ha =>
    refine .append_left (noneApproved_opening now) (.append_right ha.boundApprovals ?_)
    simp [NoneApproved]

theorem turn_executions_le {outcome : Outcome} (hrun : Runs (h.turn task start s) t outcome) :
    executions t ≤ 1 := by
  cases turn_cases hrun with
  | limit now _ => simp [executions, mayExecute]
  | cancelled now _ _ => simp [executions, mayExecute]
  | attempted now _ ha =>
    rw [executions_append, (opening_spends now).2, Nat.zero_add]
    exact ha.spends.2
  | failed now e _ ha =>
    have hexec := ha.spends.2
    have hstop : executions [h.stopped s.c .internalError] = 0 := by simp [executions, mayExecute]
    rw [executions_append, executions_append, (opening_spends now).2, hstop]
    omega

/-! ## The call before an approved execution -/

/-- `e` granted the approval with which the next call executes. -/
def Grants (h : HarnessCore) (e next : Ev) : Prop :=
  ∀ action fp, next.call = .executeApproved action fp → ∃ judged verdict verdict',
    e = ⟨.resolve judged verdict, .ok (true, action, verdict')⟩ ∧ fp = fingerprint h.sha256 judged

/-- Right before every approved execution its approval was granted. -/
structure Granted (h : HarnessCore) (t : List Ev) : Prop where
  head : ∀ e ∈ t.head?, NoneApproved [e]
  chain : t.IsChain (Grants h)

theorem Grants.of_noneApproved {e next : Ev} (hn : NoneApproved [next]) : Grants h e next :=
  fun action fp hcall => absurd hcall (hn next (List.mem_singleton_self _) action fp)

theorem granted_nil : Granted h [] := ⟨by simp, .nil⟩

theorem Granted.append {t' : List Ev} (ht : Granted h t) (ht' : Granted h t') :
    Granted h (t ++ t') := by
  constructor
  · cases t with
    | nil => exact ht'.head
    | cons e t => exact ht.head
  · rw [List.isChain_append]
    exact ⟨ht.chain, ht'.chain, fun e _ next hnext => .of_noneApproved (ht'.head next hnext)⟩

theorem NoneApproved.granted (hn : NoneApproved t) : Granted h t := by
  induction t with
  | nil => exact granted_nil
  | cons e t ih =>
    have hhead : NoneApproved [e] := fun x hx => hn x (by simp_all)
    have htail : NoneApproved t := fun x hx => hn x (List.mem_cons_of_mem _ hx)
    exact Granted.append (t := [e]) ⟨by simpa using hhead, .singleton e⟩ (ih htail)

theorem Approves.granted {verdict : GovernanceVerdict} {judged : Action}
    {out : Except Exn (LoopState ⊕ Gated)} (ha : h.Approves s verdict judged t out) :
    Granted h t := by
  obtain hnone | ⟨action, verdict', answer, rest, hrest, rfl⟩ := ha.executes
  · exact hnone.granted
  · refine Granted.append ⟨by simp [NoneApproved], ?_⟩ hrest.granted
    rw [List.isChain_pair]
    rintro action' fp ⟨⟩
    exact ⟨judged, verdict, verdict', rfl, rfl⟩

theorem Acts.granted {action : Action} {out : Except Exn Outcome} (ha : h.Acts s action t out) :
    Granted h t := by
  have hopen : ∀ (e : Ev) (r : Except Exn (GovernanceVerdict × Option ToolResult × Action))
      (e' : Ev), NoneApproved [e] → NoneApproved [e'] →
      Granted h [e, ⟨.dispatch action, r⟩, e'] := by
    intro e r e' he he'
    refine NoneApproved.granted fun x hx => ?_
    obtain rfl | rfl | rfl : x = e ∨ x = ⟨.dispatch action, r⟩ ∨ x = e' := by simpa using hx
    · exact he x (List.mem_singleton_self _)
    · exact fun _ _ hcall => by cases hcall
    · exact he' x (List.mem_singleton_self _)
  cases ha with
  | dispatchRaised e => exact NoneApproved.granted (by simp [NoneApproved])
  | judged _ hc =>
    exact (hopen _ _ _ (noneApproved_logged _ _ _) (noneApproved_logged _ _ _)).append
      hc.noneApproved.granted
  | approvalRaised e _ happ =>
    exact (hopen _ _ _ (noneApproved_logged _ _ _) (noneApproved_logged _ _ _)).append happ.granted
  | unapproved _ happ =>
    exact (hopen _ _ _ (noneApproved_logged _ _ _) (noneApproved_logged _ _ _)).append happ.granted
  | approved _ happ hc =>
    exact (hopen _ _ _ (noneApproved_logged _ _ _) (noneApproved_logged _ _ _)).append
      (happ.granted.append hc.noneApproved.granted)

theorem Attempts.granted {out : Except Exn Outcome} (ha : h.Attempts task s t out) :
    Granted h t := by
  cases ha with
  | memoryRaised e _ => exact NoneApproved.granted (by simp [NoneApproved])
  | llmError hr hc =>
    exact hr.noneApproved.granted.append
      (hc.noneApproved.granted.append (noneApproved_logged _ _ _).granted)
  | unparsed hr hc _ _ =>
    exact hr.noneApproved.granted.append
      (hc.noneApproved.granted.append (NoneApproved.granted (by simp [NoneApproved])))
  | parserRaised hr hc _ _ => exact hr.noneApproved.granted.append hc.noneApproved.granted
  | acted hr hc _ hact =>
    exact hr.noneApproved.granted.append (hc.noneApproved.granted.append hact.granted)

theorem turn_granted {outcome : Outcome} (hrun : Runs (h.turn task start s) t outcome) :
    Granted h t := by
  cases turn_cases hrun with
  | limit now _ => exact NoneApproved.granted (by simp [NoneApproved])
  | cancelled now _ _ => exact NoneApproved.granted (by simp [NoneApproved])
  | attempted now _ ha => exact (noneApproved_opening now).granted.append ha.granted
  | failed now e _ ha =>
    exact (noneApproved_opening now).granted.append
      (ha.granted.append (noneApproved_logged _ _ _).granted)

theorem run_granted {fuel : ℕ} {out : Option (Except Exn TerminationReason)}
    (hrun : Runs (h.run fuel task) t out) : Granted h t := by
  obtain rfl | ⟨start, ts, rfl, hturn⟩ := run_turns hrun
  · exact granted_nil
  · refine Granted.append (t := [_]) (NoneApproved.granted (by simp [NoneApproved])) ?_
    clear hrun
    induction ts with
    | nil => exact granted_nil
    | cons u ts ih =>
      obtain ⟨s, outcome, hu⟩ := hturn u (List.mem_cons_self ..)
      exact Granted.append (turn_granted hu) (ih fun v hv => hturn v (List.mem_cons_of_mem _ hv))

end AegisCode.HarnessCore
