import AegisCode.DemoManager
import AegisCode.OwnAppends

/-!
# The isolation of demo runs

A thread reserves a workspace by making it, and owns its task until the row is written.
Nothing is cleaned up but workspaces of ended tasks, so a reserved workspace and a
running task stay as their thread knows them, in every window between two calls.
-/
namespace AegisCode.Demo

open Program Prog ThreadPool

/-! ## The contract -/

/-- What a running task finds: its directory, its scenario, and a model of its script. -/
structure Live (isdir : Str → Bool) (wsToScenario : Str → Option Str)
    (wsLlms : Str → Option MockLLM) (row : TaskRow) : Prop where
  isdir : isdir row.workspacePath = true
  scenario : wsToScenario row.workspacePath = some row.taskDescription
  llm : ∃ llm scenario, wsLlms row.workspacePath = some llm ∧
    getScenario row.taskDescription = some scenario ∧ llm.script = scenario.mockScript

/-- The harness is built for the scenario of the row, with the model of its workspace. -/
structure BuiltFor (llms : List Str) (row : TaskRow) (h : DemoHarness) : Prop where
  workspace : h.workspace = row.workspacePath
  scenario : ∃ scenario, getScenario row.taskDescription = some scenario ∧
    h.scenario = some scenario ∧ h.llm.script = scenario.mockScript
  llm : llms[h.llm.ref]? = some row.workspacePath

/-- The invariant. -/
structure Consistent (s : DemoState) : Prop where
  live : ∀ t row, s.tasks t = some row → row.state.terminal = false →
    Live s.isdir s.wsToScenario s.wsLlms row
  own : ∀ t t' row row', s.tasks t = some row → s.tasks t' = some row' →
    row.workspacePath = row'.workspacePath → t = t'
  named : ∀ t row, s.tasks t = some row → (getScenario row.taskDescription).isSome
  llms : ∀ w llm, s.wsLlms w = some llm → s.llms[llm.ref]? = some w
  recorded : ∀ t m, s.runMeta t = some m →
    ∃ row, s.tasks t = some row ∧ m = ⟨row.taskDescription, row.workspacePath⟩
  built : ∀ t h, s.harnesses t = some h →
    h.taskId = t ∧ ∃ row, s.tasks t = some row ∧ BuiltFor s.llms row h
  made : ∀ t row, s.tasks t = some row → s.maker row.workspacePath ≠ none
  run : ∀ t, s.runner t ≠ none → s.tasks t ≠ none

/-- The task is known with its workspace and its scenario, for good. -/
def Known (t w d : Str) (s : DemoState) : Prop :=
  ∃ row, s.tasks t = some row ∧ row.workspacePath = w ∧ row.taskDescription = d

/-- The task of the workspace has ended, for good. -/
def Ended (w : Str) (s : DemoState) : Prop :=
  ∃ t row, s.tasks t = some row ∧ row.workspacePath = w ∧ row.state.terminal = true

/-- What thread `i` leaves to the others: rows that it does not run, workspaces that it
did not make and whose task has not ended, and all that is there for good. -/
structure Leaves (i : ℕ) (s s' : DemoState) : Prop where
  rows : ∀ t row, s.tasks t = some row → ∃ row', s'.tasks t = some row' ∧
    row'.workspacePath = row.workspacePath ∧ row'.taskDescription = row.taskDescription ∧
    (s.runner t ≠ some i ∨ row.state.terminal = true → row' = row)
  created : ∀ t row, s'.tasks t = some row → s.tasks t = none →
    s.maker row.workspacePath = some i
  maker : ∀ w j, s.maker w = some j → s'.maker w = some j
  runner : ∀ t j, s.runner t = some j → j ≠ i → s'.runner t = some j
  entries : ∀ w j, s.maker w = some j → j ≠ i → ¬ Ended w s → s'.isdir w = s.isdir w ∧
    s'.wsToScenario w = s.wsToScenario w ∧ s'.wsLlms w = s.wsLlms w
  events : ∀ t row, s.tasks t = some row → row.state.terminal = true → ∀ since,
    listSince s'.auditEvents t since = listSince s.auditEvents t since
  recorded : ∀ t m, s.runMeta t = some m → s'.runMeta t = some m
  llms : ∀ (ref : ℕ) (w : Str), s.llms[ref]? = some w → s'.llms[ref]? = some w
  harnesses : ∀ t j, s.runner t = some j → j ≠ i → s'.harnesses t = s.harnesses t

/-- Thread `i` runs the task, and its row is not written yet. -/
def Running (i : ℕ) (t w d : Str) (s : DemoState) : Prop :=
  s.runner t = some i ∧ ∃ row, s.tasks t = some row ∧ row.workspacePath = w ∧
    row.taskDescription = d ∧ row.state.terminal = false

/-- A run thread starts as the owner of its task. -/
def contract : Contract Job DemoState where
  inv := Consistent
  guar := Leaves
  pre
    | .run t w d, n, s => Running n t w d s
    | _, _, _ => True

theorem consistent_fresh (isdir : Str → Bool) (auditEvents : List StoredEvent) :
    Consistent (DemoState.fresh isdir auditEvents) := by
  constructor <;> simp [DemoState.fresh]

theorem leaves_refl (i : ℕ) (s : DemoState) : Leaves i s s where
  rows _ row h := ⟨row, h, rfl, rfl, fun _ => rfl⟩
  created _ _ h h' := by
    rw [h] at h'
    cases h'
  maker _ _ h := h
  runner _ _ h _ := h
  entries _ _ _ _ _ := ⟨rfl, rfl, rfl⟩
  events _ _ _ _ _ := rfl
  recorded _ _ h := h
  llms _ _ h := h
  harnesses _ _ _ _ := rfl

/-! ## What lasts -/

variable {i n : ℕ} {s s' : DemoState} {t w d : Str}

theorem Leaves.known (h : Leaves i s s') (hknown : Known t w d s) : Known t w d s' := by
  obtain ⟨row, ht, rfl, rfl⟩ := hknown
  obtain ⟨row', ht', hw, hd, -⟩ := h.rows t row ht
  exact ⟨row', ht', hw, hd⟩

theorem Leaves.ended (h : Leaves i s s') (hended : Ended w s) : Ended w s' := by
  obtain ⟨t, row, ht, hw, hterminal⟩ := hended
  obtain ⟨row', ht', -, -, hsame⟩ := h.rows t row ht
  obtain rfl := hsame (.inr hterminal)
  exact ⟨t, row', ht', hw, hterminal⟩

/-- What every thread leaves as it is, is stable for each of them. -/
theorem stable_of_leaves {A : DemoState → Prop}
    (h : ∀ j s s', Consistent s' → Leaves j s s' → A s → A s') : contract.Stable i A :=
  fun s s' j _ hinv hleaves hA => h j s s' hinv hleaves hA

theorem stable_known : contract.Stable i (Known t w d) :=
  stable_of_leaves fun _ _ _ _ hleaves hA => hleaves.known hA

theorem stable_llms {ref : ℕ} : contract.Stable i fun s => s.llms[ref]? = some w :=
  stable_of_leaves fun _ _ _ _ hleaves hA => hleaves.llms ref w hA

theorem stable_running : contract.Stable i (Running i t w d) := by
  intro s s' j hne _ hleaves ⟨hrunner, row, ht, hw, hd, hterminal⟩
  obtain ⟨row', ht', -, -, hsame⟩ := hleaves.rows t row ht
  have hother : s.runner t ≠ some j := fun heq => hne (Option.some.inj (heq.symm.trans hrunner))
  obtain rfl := hsame (.inl hother)
  exact ⟨hleaves.runner t i hrunner hne.symm, row', ht', hw, hd, hterminal⟩

theorem Running.known (h : Running i t w d s) : Known t w d s := by
  obtain ⟨-, row, ht, hw, hd, -⟩ := h
  exact ⟨row, ht, hw, hd⟩

/-- Thread `i` has made the workspace and no task has it yet; its entries satisfy `P`. -/
def Reserved (i : ℕ) (w : Str) (P : Option Str → Option MockLLM → Prop) (s : DemoState) : Prop :=
  s.maker w = some i ∧ (∀ t row, s.tasks t = some row → row.workspacePath ≠ w) ∧
    s.isdir w = true ∧ P (s.wsToScenario w) (s.wsLlms w)

variable {P : Option Str → Option MockLLM → Prop}

theorem Reserved.not_ended (h : Reserved i w P s) : ¬ Ended w s :=
  fun ⟨t, row, ht, hw, _⟩ => h.2.1 t row ht hw

theorem stable_reserved : contract.Stable i (Reserved i w P) := by
  intro s s' j hne _ hleaves hreserved
  obtain ⟨hisdir, hscenario, hllm⟩ :=
    hleaves.entries w i hreserved.1 hne.symm hreserved.not_ended
  obtain ⟨hmaker, hunused, hdir, hP⟩ := hreserved
  refine ⟨hleaves.maker w i hmaker, fun t row ht => ?_, hisdir.trans hdir, ?_⟩
  · cases hold : s.tasks t with
    | none =>
        rintro rfl
        have hmade := hleaves.created t row ht hold
        exact hne (Option.some.inj (hmade.symm.trans hmaker))
    | some row' =>
        obtain ⟨row'', ht'', hw, -⟩ := hleaves.rows t row' hold
        obtain rfl := Option.some.inj (ht''.symm.trans ht)
        exact hw ▸ hunused t row' hold
  · rw [hscenario, hllm]
    exact hP

/-! ## The calls -/

/-- The call is allowed for thread `i`. -/
abbrev AllowedAt (u : DemoSetup) (i n : ℕ) (s : DemoState) (c : DemoCall) (r : DemoResp c)
    (s' : DemoState) : Prop :=
  Allowed (demoSystem u) contract i n s c r s'

variable {u : DemoSetup} {c : DemoCall} {r : DemoResp c}

/-- A call that starts no thread has to keep the contract only. -/
theorem allowed_of (hstarts : starts c r = none) (hinv : Consistent s') (hleaves : Leaves i s s') :
    AllowedAt u i n s c r s' where
  inv := hinv
  guar := hleaves
  starts j hj := by
    have hnone : starts c r = some j := hj
    rw [hstarts] at hnone
    cases hnone

/-- A call that only reads. -/
theorem allowed_read (hstarts : starts c r = none) (hinv : Consistent s) : AllowedAt u i n s c r s :=
  allowed_of hstarts hinv (leaves_refl i s)

theorem consistent_recordMeta (h : Consistent s) (hknown : Known t w d s) :
    Consistent { s with runMeta := Function.update s.runMeta t (some ⟨d, w⟩) } := by
  refine { h with recorded := fun t' m hm => ?_ }
  by_cases ht : t' = t
  · subst ht
    obtain ⟨row, hrow, rfl, rfl⟩ := hknown
    simp only [Function.update_self, Option.some.injEq] at hm
    exact ⟨row, hrow, hm.symm⟩
  · simp only [Function.update_of_ne ht] at hm
    exact h.recorded t' m hm

theorem leaves_recordMeta (h : Consistent s) (hknown : Known t w d s) :
    Leaves i s { s with runMeta := Function.update s.runMeta t (some ⟨d, w⟩) } := by
  refine { leaves_refl i s with recorded := fun t' m hm => ?_ }
  by_cases ht : t' = t
  · subst ht
    obtain ⟨row, hrow, rfl, rfl⟩ := hknown
    obtain ⟨row', hrow', rfl⟩ := h.recorded _ m hm
    obtain rfl := Option.some.inj (hrow.symm.trans hrow')
    exact Function.update_self ..
  · simpa only [Function.update_of_ne ht] using hm

/-- The entries of a workspace change: it is one of thread `i` without a task, or its
task has ended. -/
structure EntriesOnly (i : ℕ) (w : Str) (s s' : DemoState) : Prop where
  free : (s.maker w = some i ∧ ∀ t row, s.tasks t = some row → row.workspacePath ≠ w) ∨ Ended w s
  isdir : ∀ w', w' ≠ w → s'.isdir w' = s.isdir w'
  scenario : ∀ w', w' ≠ w → s'.wsToScenario w' = s.wsToScenario w'
  llm : ∀ w', w' ≠ w → s'.wsLlms w' = s.wsLlms w'
  llms : ∀ w llm, s'.wsLlms w = some llm → s'.llms[llm.ref]? = some w
  rest : s' = { s with isdir := s'.isdir, wsToScenario := s'.wsToScenario, wsLlms := s'.wsLlms }

/-- No running task has such a workspace. -/
theorem EntriesOnly.ne_of_running (h : EntriesOnly i w s s') (hinv : Consistent s) {row : TaskRow}
    (ht : s.tasks t = some row) (hrunning : row.state.terminal = false) :
    row.workspacePath ≠ w := by
  obtain ⟨-, hunused⟩ | ⟨t', row', ht', hw, hterminal⟩ := h.free
  · exact hunused t row ht
  · intro heq
    obtain rfl := hinv.own t t' row row' ht ht' (heq.trans hw.symm)
    obtain rfl := Option.some.inj (ht.symm.trans ht')
    rw [hrunning] at hterminal
    cases hterminal

theorem EntriesOnly.consistent (h : EntriesOnly i w s s') (hinv : Consistent s) : Consistent s' := by
  have hllms := h.llms
  rw [h.rest] at hllms ⊢
  refine { hinv with live := fun t row ht hrunning => ?_, llms := hllms, built := hinv.built }
  have hne := h.ne_of_running hinv ht hrunning
  obtain ⟨hdir, hscenario, hllm⟩ := hinv.live t row ht hrunning
  constructor
  · exact (h.isdir _ hne).trans hdir
  · exact (h.scenario _ hne).trans hscenario
  · obtain ⟨llm, scenario, hget, hrest⟩ := hllm
    exact ⟨llm, scenario, (h.llm _ hne).trans hget, hrest⟩

theorem EntriesOnly.leaves (h : EntriesOnly i w s s') : Leaves i s s' := by
  have hentries : ∀ w' j, s.maker w' = some j → j ≠ i → ¬ Ended w' s → s'.isdir w' = s.isdir w' ∧
      s'.wsToScenario w' = s.wsToScenario w' ∧ s'.wsLlms w' = s.wsLlms w' := by
    intro w' j hmaker hne hnot
    have hother : w' ≠ w := by
      rintro rfl
      obtain ⟨hmine, -⟩ | hended := h.free
      · exact hne (Option.some.inj (hmaker.symm.trans hmine))
      · exact hnot hended
    exact ⟨h.isdir w' hother, h.scenario w' hother, h.llm w' hother⟩
  rw [h.rest] at hentries ⊢
  exact { leaves_refl i s with entries := hentries }

/-- A reserved workspace gets its scenario. -/
theorem entries_setScenario (h : Consistent s) (hreserved : Reserved i w P s) :
    EntriesOnly i w s
      { s with wsToScenario := Function.update s.wsToScenario w (some d) } where
  free := .inl ⟨hreserved.1, hreserved.2.1⟩
  isdir _ _ := rfl
  scenario _ hne := Function.update_of_ne hne ..
  llm _ _ := rfl
  llms := h.llms
  rest := rfl

/-- A reserved workspace gets a model that was made for it. -/
theorem entries_setLlm (h : Consistent s) (hreserved : Reserved i w P s) {llm : MockLLM}
    (hllm : s.llms[llm.ref]? = some w) :
    EntriesOnly i w s { s with wsLlms := Function.update s.wsLlms w (some llm) } where
  free := .inl ⟨hreserved.1, hreserved.2.1⟩
  isdir _ _ := rfl
  scenario _ _ := rfl
  llm _ hne := Function.update_of_ne hne ..
  llms w' llm' hget := by
    by_cases hw : w' = w
    · subst hw
      simp only [Function.update_self, Option.some.injEq] at hget
      exact hget ▸ hllm
    · simp only [Function.update_of_ne hw] at hget
      exact h.llms w' llm' hget
  rest := rfl

theorem entries_rmtree (h : Consistent s) (hended : Ended w s) :
    EntriesOnly i w s { s with isdir := Function.update s.isdir w false } where
  free := .inr hended
  isdir _ hne := Function.update_of_ne hne ..
  scenario _ _ := rfl
  llm _ _ := rfl
  llms := h.llms
  rest := rfl

theorem entries_popScenario (h : Consistent s) (hended : Ended w s) :
    EntriesOnly i w s { s with wsToScenario := Function.update s.wsToScenario w none } where
  free := .inr hended
  isdir _ _ := rfl
  scenario _ hne := Function.update_of_ne hne ..
  llm _ _ := rfl
  llms := h.llms
  rest := rfl

theorem entries_popLlm (h : Consistent s) (hended : Ended w s) :
    EntriesOnly i w s { s with wsLlms := Function.update s.wsLlms w none } where
  free := .inr hended
  isdir _ _ := rfl
  scenario _ _ := rfl
  llm _ hne := Function.update_of_ne hne ..
  llms w' llm hget := by
    by_cases hw : w' = w
    · subst hw
      simp only [Function.update_self] at hget
      cases hget
    · simp only [Function.update_of_ne hw] at hget
      exact h.llms w' llm hget
  rest := rfl

theorem getElem?_append_of_some {xs ys : List Str} {ref : ℕ} (h : xs[ref]? = some w) :
    (xs ++ ys)[ref]? = some w := by
  obtain ⟨hlt, -⟩ := List.getElem?_eq_some_iff.mp h
  rw [List.getElem?_append_left hlt, h]

theorem consistent_newLlm (h : Consistent s) : Consistent { s with llms := s.llms ++ [w] } :=
  { h with
    llms := fun w' llm hget => getElem?_append_of_some (h.llms w' llm hget)
    built := fun t harness hget => by
      obtain ⟨htask, row, ht, hworkspace, hscenario, hllm⟩ := h.built t harness hget
      exact ⟨htask, row, ht, hworkspace, hscenario, getElem?_append_of_some hllm⟩ }

theorem leaves_newLlm : Leaves i s { s with llms := s.llms ++ [w] } :=
  { leaves_refl i s with llms := fun _ _ hget => getElem?_append_of_some hget }

/-- A new directory is the workspace of no task. -/
theorem consistent_mkdtemp (h : Consistent s) (hnew : s.maker w = none) :
    Consistent { s with
      isdir := Function.update s.isdir w true
      maker := Function.update s.maker w (some i) } := by
  have hother : ∀ t row, s.tasks t = some row → row.workspacePath ≠ w := by
    rintro t row ht rfl
    exact h.made t row ht hnew
  refine { h with live := fun t row ht hrunning => ?_, made := fun t row ht => ?_ }
  · obtain ⟨hdir, hscenario, hllm⟩ := h.live t row ht hrunning
    exact ⟨(Function.update_of_ne (hother t row ht) ..).trans hdir, hscenario, hllm⟩
  · simpa only [Function.update_of_ne (hother t row ht)] using h.made t row ht

theorem leaves_mkdtemp (hnew : s.maker w = none) :
    Leaves i s { s with
      isdir := Function.update s.isdir w true
      maker := Function.update s.maker w (some i) } := by
  have hother : ∀ w' j, s.maker w' = some j → w' ≠ w := by
    rintro w' j hmaker rfl
    rw [hnew] at hmaker
    cases hmaker
  refine { leaves_refl i s with maker := fun w' j hmaker => ?_, entries := fun w' j hmaker _ _ => ?_ }
  · simpa only [Function.update_of_ne (hother w' j hmaker)] using hmaker
  · exact ⟨Function.update_of_ne (hother w' j hmaker) .., rfl, rfl⟩

/-- The entries with which a task is created. -/
def Prepared (d : Str) (scenario : Option Str) (llm : Option MockLLM) : Prop :=
  scenario = some d ∧ ∃ llm' scenario', llm = some llm' ∧ getScenario d = some scenario' ∧
    llm'.script = scenario'.mockScript

section Insert
variable {row : TaskRow} (hnew : s.tasks t = none) (hreserved : Reserved i w (Prepared d) s)
  (hworkspace : row.workspacePath = w)
include hnew hreserved hworkspace

/-- A task that is created on a reserved workspace is live. -/
theorem consistent_insert (h : Consistent s) (hdescription : row.taskDescription = d) :
    Consistent { s with
      tasks := Function.update s.tasks t (some row)
      runner := Function.update s.runner t (some i) } := by
  obtain ⟨hmaker, hunused, hdir, hscenario, llm, scenario, hllm, hget, hscript⟩ := hreserved
  subst hworkspace hdescription
  have hold : ∀ {t' row'}, Function.update s.tasks t (some row) t' = some row' →
      (t' = t ∧ row' = row) ∨ (t' ≠ t ∧ s.tasks t' = some row') := by
    intro t' row' hrow
    by_cases ht : t' = t
    · subst ht
      rw [Function.update_self, Option.some.injEq] at hrow
      exact .inl ⟨rfl, hrow.symm⟩
    · rw [Function.update_of_ne ht] at hrow
      exact .inr ⟨ht, hrow⟩
  have hkeeps : ∀ {t' row'}, s.tasks t' = some row' →
      Function.update s.tasks t (some row) t' = some row' := by
    intro t' row' hrow
    have ht : t' ≠ t := by
      rintro rfl
      rw [hnew] at hrow
      cases hrow
    rwa [Function.update_of_ne ht]
  constructor
  · intro t' row' hrow hrunning
    obtain ⟨-, rfl⟩ | ⟨-, hrow⟩ := hold hrow
    · exact ⟨hdir, hscenario, llm, scenario, hllm, hget, hscript⟩
    · exact h.live t' row' hrow hrunning
  · intro t₁ t₂ row₁ row₂ hrow₁ hrow₂ heq
    obtain ⟨rfl, rfl⟩ | ⟨-, hold₁⟩ := hold hrow₁
    · obtain ⟨rfl, -⟩ | ⟨-, hold₂⟩ := hold hrow₂
      · rfl
      · exact absurd heq.symm (hunused t₂ row₂ hold₂)
    · obtain ⟨rfl, rfl⟩ | ⟨-, hold₂⟩ := hold hrow₂
      · exact absurd heq (hunused t₁ row₁ hold₁)
      · exact h.own t₁ t₂ row₁ row₂ hold₁ hold₂ heq
  · intro t' row' hrow
    obtain ⟨-, rfl⟩ | ⟨-, hrow⟩ := hold hrow
    · rw [hget]
      rfl
    · exact h.named t' row' hrow
  · exact h.llms
  · intro t' m hm
    obtain ⟨row', hrow, hm⟩ := h.recorded t' m hm
    exact ⟨row', hkeeps hrow, hm⟩
  · intro t' harness hharness
    obtain ⟨htask, row', hrow, hbuilt⟩ := h.built t' harness hharness
    exact ⟨htask, row', hkeeps hrow, hbuilt⟩
  · intro t' row' hrow
    obtain ⟨-, rfl⟩ | ⟨-, hrow⟩ := hold hrow
    · simp [hmaker]
    · exact h.made t' row' hrow
  · intro t' hrunner
    by_cases ht : t' = t
    · subst ht
      simp
    · simp only [Function.update_of_ne ht] at hrunner ⊢
      exact h.run t' hrunner

theorem leaves_insert (h : Consistent s) :
    Leaves i s { s with
      tasks := Function.update s.tasks t (some row)
      runner := Function.update s.runner t (some i) } := by
  have hold : ∀ t' row', s.tasks t' = some row' → t' ≠ t := by
    rintro t' row' hrow rfl
    rw [hnew] at hrow
    cases hrow
  refine { leaves_refl i s with
    rows := fun t' row' hrow => ?_
    created := fun t' row' hrow hnone => ?_
    runner := fun t' j hrunner _ => ?_ }
  · exact ⟨row', by simpa only [Function.update_of_ne (hold t' row' hrow)] using hrow, rfl, rfl,
      fun _ => rfl⟩
  · by_cases ht : t' = t
    · subst ht
      simp only [Function.update_self, Option.some.injEq] at hrow
      rw [← hrow, hworkspace]
      exact hreserved.1
    · simp only [Function.update_of_ne ht] at hrow
      rw [hnone] at hrow
      cases hrow
  · have ht : t' ≠ t := by
      rintro rfl
      exact h.run t' (by rw [hrunner]; exact Option.some_ne_none j) hnew
    simpa only [Function.update_of_ne ht] using hrunner

end Insert

theorem running_insert {row : TaskRow} (hworkspace : row.workspacePath = w)
    (hdescription : row.taskDescription = d) (hterminal : row.state.terminal = false) :
    Running i t w d { s with
      tasks := Function.update s.tasks t (some row)
      runner := Function.update s.runner t (some i) } :=
  ⟨Function.update_self .., row, Function.update_self .., hworkspace, hdescription, hterminal⟩

/-! ## The calls of a runner -/

/-- The runner of a task may hand it over to the thread it starts. -/
theorem consistent_startThread (h : Consistent s) (hrunning : Running i t w d s) :
    Consistent { s with runner := Function.update s.runner t (some n) } := by
  refine { h with run := fun t' hrunner => ?_ }
  by_cases ht : t' = t
  · subst ht
    obtain ⟨-, row, hrow, -⟩ := hrunning
    simp [hrow]
  · simp only [Function.update_of_ne ht] at hrunner
    exact h.run t' hrunner

theorem leaves_runner (hrunning : Running i t w d s) {t' : Str} {j : ℕ}
    (hrunner : s.runner t' = some j) (hne : j ≠ i) : t' ≠ t := by
  rintro rfl
  exact hne (Option.some.inj (hrunner.symm.trans hrunning.1))

theorem leaves_startThread (hrunning : Running i t w d s) :
    Leaves i s { s with runner := Function.update s.runner t (some n) } := by
  refine { leaves_refl i s with runner := fun t' j hrunner hne => ?_ }
  simpa only [Function.update_of_ne (leaves_runner hrunning hrunner hne)] using hrunner

theorem running_startThread (hrunning : Running i t w d s) :
    Running n t w d { s with runner := Function.update s.runner t (some n) } :=
  ⟨Function.update_self .., hrunning.2⟩

/-- The runner of a task builds a harness for its row. -/
theorem consistent_build (h : Consistent s) (hrunning : Running i t w d s) {llm : MockLLM}
    {scenario : DemoScenario} (hscenario : getScenario d = some scenario)
    (hscript : llm.script = scenario.mockScript) (hllm : s.llms[llm.ref]? = some w) :
    Consistent { s with
      harnesses := Function.update s.harnesses t (some ⟨t, w, some scenario, llm⟩) } := by
  refine { h with built := fun t' harness hharness => ?_ }
  by_cases ht : t' = t
  · subst ht
    obtain ⟨-, row, hrow, rfl, rfl, -⟩ := hrunning
    simp only [Function.update_self, Option.some.injEq] at hharness
    subst hharness
    exact ⟨rfl, row, hrow, rfl, ⟨scenario, hscenario, rfl, hscript⟩, hllm⟩
  · simp only [Function.update_of_ne ht] at hharness
    exact h.built t' harness hharness

theorem leaves_build (hrunning : Running i t w d s) {harness : DemoHarness} :
    Leaves i s { s with harnesses := Function.update s.harnesses t (some harness) } :=
  { leaves_refl i s with
    harnesses := fun _ _ hrunner hne =>
      Function.update_of_ne (leaves_runner hrunning hrunner hne) .. }

/-- The runner of a task writes a state that ends it. -/
theorem consistent_updateState (h : Consistent s) (hrunning : Running i t w d s)
    {state : TaskState} (hterminal : state.terminal = true) {reason : TerminationReason}
    {stepCount : ℕ} :
    Consistent { s with
      tasks := Function.update s.tasks t ((s.tasks t).map fun row =>
        row.behind ⟨.updateState state reason stepCount, ()⟩) } := by
  obtain ⟨-, row, hrow, -⟩ := hrunning
  rw [hrow]
  have hkeeps : ∀ {t' row'}, s.tasks t' = some row' → ∃ row'',
      Function.update s.tasks t (some (row.behind ⟨.updateState state reason stepCount, ()⟩)) t' =
        some row'' ∧ row''.workspacePath = row'.workspacePath ∧
          row''.taskDescription = row'.taskDescription := by
    intro t' row' hrow'
    by_cases ht : t' = t
    · subst ht
      obtain rfl := Option.some.inj (hrow.symm.trans hrow')
      exact ⟨_, Function.update_self .., rfl, rfl⟩
    · exact ⟨row', by rwa [Function.update_of_ne ht], rfl, rfl⟩
  have hold : ∀ {t' row'},
      Function.update s.tasks t (some (row.behind ⟨.updateState state reason stepCount, ()⟩)) t' =
        some row' → ∃ row'', s.tasks t' = some row'' ∧
          row''.workspacePath = row'.workspacePath ∧
            row''.taskDescription = row'.taskDescription ∧
              (row'.state.terminal = false → row'' = row') := by
    intro t' row' hrow'
    by_cases ht : t' = t
    · subst ht
      rw [Function.update_self, Option.some.injEq] at hrow'
      subst hrow'
      refine ⟨row, hrow, rfl, rfl, fun hrunning => ?_⟩
      have hended : state.terminal = false := hrunning
      rw [hterminal] at hended
      cases hended
    · rw [Function.update_of_ne ht] at hrow'
      exact ⟨row', hrow', rfl, rfl, fun _ => rfl⟩
  constructor
  · intro t' row' hrow' hrunning
    obtain ⟨row'', hrow'', -, -, hsame⟩ := hold hrow'
    obtain rfl := hsame hrunning
    exact h.live t' row'' hrow'' hrunning
  · intro t₁ t₂ row₁ row₂ hrow₁ hrow₂ heq
    obtain ⟨row₁', hrow₁', hw₁, -⟩ := hold hrow₁
    obtain ⟨row₂', hrow₂', hw₂, -⟩ := hold hrow₂
    exact h.own t₁ t₂ row₁' row₂' hrow₁' hrow₂' (by rw [hw₁, hw₂, heq])
  · intro t' row' hrow'
    obtain ⟨row'', hrow'', -, hd, -⟩ := hold hrow'
    exact hd ▸ h.named t' row'' hrow''
  · exact h.llms
  · intro t' m hm
    obtain ⟨row', hrow', rfl⟩ := h.recorded t' m hm
    obtain ⟨row'', hrow'', hw, hd⟩ := hkeeps hrow'
    exact ⟨row'', hrow'', by rw [hw, hd]⟩
  · intro t' harness hharness
    obtain ⟨htask, row', hrow', hworkspace, hscenario, hllm⟩ := h.built t' harness hharness
    obtain ⟨row'', hrow'', hw, hd⟩ := hkeeps hrow'
    exact ⟨htask, row'', hrow'', hw ▸ hworkspace, hd ▸ hscenario, hw ▸ hllm⟩
  · intro t' row' hrow'
    obtain ⟨row'', hrow'', hw, -⟩ := hold hrow'
    exact hw ▸ h.made t' row'' hrow''
  · intro t' hrunner
    obtain ⟨row', hrow'⟩ := Option.ne_none_iff_exists'.mp (h.run t' hrunner)
    obtain ⟨row'', hrow'', -⟩ := hkeeps hrow'
    exact Option.ne_none_iff_exists'.mpr ⟨row'', hrow''⟩

theorem leaves_updateState (hrunning : Running i t w d s) {state : TaskState}
    {reason : TerminationReason} {stepCount : ℕ} :
    Leaves i s { s with
      tasks := Function.update s.tasks t ((s.tasks t).map fun row =>
        row.behind ⟨.updateState state reason stepCount, ()⟩) } := by
  obtain ⟨hrunner, row, hrow, hw, hd, hstate⟩ := hrunning
  rw [hrow]
  refine { leaves_refl i s with
    rows := fun t' row' hrow' => ?_, created := fun t' row' hrow' hnone => ?_ }
  · by_cases ht : t' = t
    · subst ht
      obtain rfl := Option.some.inj (hrow.symm.trans hrow')
      refine ⟨_, Function.update_self .., rfl, rfl, ?_⟩
      rintro (hother | hterminal)
      · exact absurd hrunner hother
      · rw [hstate] at hterminal
        cases hterminal
    · exact ⟨row', by simpa only [Function.update_of_ne ht] using hrow', rfl, rfl, fun _ => rfl⟩
  · have ht : t' ≠ t := by
      rintro rfl
      rw [hrow] at hnone
      cases hnone
    simp only [Function.update_of_ne ht, hnone] at hrow'
    cases hrow'

/-- The runner of a task appends events of the task. -/
theorem leaves_append (hrunning : Running i t w d s) {e : StoredEvent} (htask : e.taskId = t) :
    Leaves i s { s with auditEvents := s.auditEvents ++ [e] } := by
  refine { leaves_refl i s with events := fun t' row' hrow' hterminal since => ?_ }
  have hne : ¬ (e.taskId = t' ∧ since < e.eventId) := by
    rintro ⟨rfl, -⟩
    obtain ⟨-, row, hrow, -, -, hstate⟩ := hrunning
    rw [← htask] at hrow
    obtain rfl := Option.some.inj (hrow.symm.trans hrow')
    rw [hstate] at hterminal
    cases hterminal
  rw [listSince, listSince, List.filter_append,
    List.filter_cons_of_neg (by simpa using hne), List.filter_nil, List.append_nil]

end AegisCode.Demo
