import AegisCode.Harness

/-!
# Compaction

What `build_context` returns. Its loop summarises the steps from the oldest on,
one at a time, and stops at the first context that fits the budget. A summary
has a fixed format, so the summary of a step with a short detail is longer than
the step itself.
-/
namespace AegisCode

/-! ## Contexts -/

/-- A step record in a context in which the first `k` steps are summarised. -/
def stepMessage (k i : ℕ) (s : StepRecord) : Message :=
  if i < k then ⟨.assistant, summarizeStep s⟩ else detailedStep i s

/-- The FEEDBACK message, if there is any feedback. -/
def feedbackTail (lastFeedback : Str) : List Message :=
  if lastFeedback = [] then [] else [⟨.user, "FEEDBACK:\n".toList ++ lastFeedback⟩]

/-- The MEMORY message, if there is any memory. -/
def memoryTail (memories : List MemoryRow) : List Message :=
  if memories = [] then []
  else [⟨.system, "MEMORY:\n".toList ++ Str.join "\n" (memories.map fun m =>
    "- ".toList ++ m.key ++ ": ".toList ++ m.value)⟩]

/-- The context with the first `k` steps summarised. -/
def contextAt (systemPrompt toolProtocol task : Str) (recentSteps : List StepRecord)
    (lastFeedback : Str) (memories : List MemoryRow) (k : ℕ) : List Message :=
  [⟨.system, systemPrompt ++ "\n".toList ++ toolProtocol⟩, ⟨.user, "TASK: ".toList ++ task⟩] ++
    (recentSteps.zipIdx.map fun p => stepMessage k p.2 p.1) ++
    (feedbackTail lastFeedback ++ memoryTail memories)

theorem contentLength_append (a b : List Message) :
    contentLength (a ++ b) = contentLength a + contentLength b := by
  simp [contentLength]

/-! ## The loop -/

section Loop
variable (head tail : List Message) (budget : ℤ)

/-- The messages with the first `k` steps summarised, as the loop has them. -/
def compacted (steps : List (StepRecord × Message)) (k : ℕ) : List Message :=
  head ++ ((steps.take k).map fun p => ⟨.assistant, summarizeStep p.1⟩) ++
    (steps.drop k).map Prod.snd ++ tail

theorem compacted_length (pre rest : List (StepRecord × Message)) :
    compacted head tail (pre ++ rest) pre.length =
      head ++ (pre.map fun p => ⟨.assistant, summarizeStep p.1⟩) ++ rest.map Prod.snd ++ tail := by
  rw [compacted, List.take_left, List.drop_left]

/-- The loop stops at the first context that fits, or behind the last step. -/
theorem compact_spec (pre rest : List (StepRecord × Message)) :
    ∃ k, pre.length ≤ k ∧ k ≤ (pre ++ rest).length ∧
      compact head tail budget (pre.map fun p => ⟨.assistant, summarizeStep p.1⟩) rest =
        compacted head tail (pre ++ rest) k ∧
      (∀ j, pre.length ≤ j → j < k → budget < contentLength (compacted head tail (pre ++ rest) j)) ∧
      ((contentLength (compacted head tail (pre ++ rest) k) : ℤ) ≤ budget ∨
        k = (pre ++ rest).length) := by
  induction rest generalizing pre with
  | nil =>
    refine ⟨pre.length, le_rfl, by simp, ?_, fun j hj hlt => by omega, .inr (by simp)⟩
    rw [compacted_length, compact, List.map_nil, List.append_nil]
  | cons p rest ih =>
    obtain ⟨record, detailed⟩ := p
    rw [compact]
    by_cases hfits : (contentLength (head ++ (pre.map fun p => ⟨.assistant, summarizeStep p.1⟩) ++
        (detailed :: rest.map Prod.snd) ++ tail) : ℤ) > budget
    · rw [if_pos hfits]
      have hsplit : pre ++ (record, detailed) :: rest = (pre ++ [(record, detailed)]) ++ rest := by
        simp
      obtain ⟨k, hle, hlen, heq, hover, hend⟩ := ih (pre ++ [(record, detailed)])
      rw [List.length_append, List.length_singleton] at hle
      rw [hsplit]
      refine ⟨k, by omega, hlen, ?_, ?_, hend⟩
      · rw [← heq, List.map_append]
        rfl
      · intro j hj hlt
        by_cases hfirst : j = pre.length
        · rw [hfirst, ← hsplit, compacted_length]
          exact hfits
        · refine hover j ?_ hlt
          rw [List.length_append, List.length_singleton]
          omega
    · rw [if_neg hfits]
      have hstop := compacted_length head tail pre ((record, detailed) :: rest)
      refine ⟨pre.length, le_rfl, by simp, hstop.symm, fun j hj hlt => by omega, .inl ?_⟩
      rw [hstop]
      exact not_lt.mp hfits

end Loop

/-! ## Assembly -/

section Assembly
variable (systemPrompt toolProtocol task : Str) (recentSteps : List StepRecord)
  (lastFeedback : Str) (memories : List MemoryRow) (budget : ℤ)

theorem memory_text_eq_nil :
    Str.join "\n" (memories.map fun m => "- ".toList ++ m.key ++ ": ".toList ++ m.value) = [] ↔
      memories = [] := by
  cases memories with
  | nil => simp [Str.join]
  | cons m ms => cases ms <;> simp [Str.join]

theorem map_stepMessage (steps : List StepRecord) (k : ℕ) :
    (steps.zipIdx.map fun p => stepMessage k p.2 p.1) =
      ((steps.zipIdx.map fun p => (p.1, detailedStep p.2 p.1)).take k).map
          (fun p => (⟨.assistant, summarizeStep p.1⟩ : Message)) ++
        ((steps.zipIdx.map fun p => (p.1, detailedStep p.2 p.1)).drop k).map Prod.snd := by
  apply List.ext_getElem
  · simp
    omega
  · intro i hi hi'
    by_cases hk : i < k
    · rw [List.getElem_append_left (by simp at hi ⊢; omega)]
      simp [stepMessage, hk]
    · rw [List.getElem_append_right (by simp; omega)]
      have hlen : k + (i - min k steps.length) = i := by
        simp at hi
        omega
      simp [stepMessage, hk, hlen]

/-- The loop runs over the contexts in turn. -/
theorem buildContext_spec :
    ∃ k ≤ recentSteps.length,
      buildContext systemPrompt toolProtocol task recentSteps lastFeedback memories budget =
        contextAt systemPrompt toolProtocol task recentSteps lastFeedback memories k ∧
      (∀ j < k, budget < contentLength
        (contextAt systemPrompt toolProtocol task recentSteps lastFeedback memories j)) ∧
      ((contentLength (contextAt systemPrompt toolProtocol task recentSteps lastFeedback memories
        k) : ℤ) ≤ budget ∨ k = recentSteps.length) := by
  let head : List Message := [⟨.system, systemPrompt ++ "\n".toList ++ toolProtocol⟩,
    ⟨.user, "TASK: ".toList ++ task⟩]
  let steps := recentSteps.zipIdx.map fun p => (p.1, detailedStep p.2 p.1)
  have hcontext : ∀ j, contextAt systemPrompt toolProtocol task recentSteps lastFeedback memories j =
      compacted head (feedbackTail lastFeedback ++ memoryTail memories) steps j := by
    intro j
    rw [contextAt, map_stepMessage, compacted]
    simp only [head, steps, List.append_assoc]
  have hbuild : buildContext systemPrompt toolProtocol task recentSteps lastFeedback memories budget =
      compact head (feedbackTail lastFeedback ++ memoryTail memories) budget [] steps := by
    simp only [buildContext, feedbackTail, memoryTail, List.isEmpty_iff,
      memory_text_eq_nil memories, head, steps]
  obtain ⟨k, _, hle, heq, hover, hend⟩ :=
    compact_spec head (feedbackTail lastFeedback ++ memoryTail memories) budget [] steps
  have hlen : steps.length = recentSteps.length := by simp [steps]
  rw [List.nil_append] at hle heq hover hend
  refine ⟨k, hlen ▸ hle, ?_, ?_, ?_⟩
  · rw [hbuild, hcontext, ← heq, List.map_nil]
  · intro j hj
    rw [hcontext]
    exact hover j (Nat.zero_le j) hj
  · rw [hcontext, ← hlen]
    exact hend

end Assembly

/-- `build_context` summarises the shortest prefix of the steps whose context fits
the budget, or all of them if none does, and keeps everything else as it is. -/
theorem context_assembled (systemPrompt toolProtocol task : Str) (recentSteps : List StepRecord)
    (lastFeedback : Str) (memories : List MemoryRow) (budget : ℤ) :
    let context := contextAt systemPrompt toolProtocol task recentSteps lastFeedback memories
    let built := buildContext systemPrompt toolProtocol task recentSteps lastFeedback memories budget
    (∃ k ≤ recentSteps.length, built = context k ∧ (∀ j < k, budget < contentLength (context j)) ∧
      ((contentLength (context k) : ℤ) ≤ budget ∨
        (k = recentSteps.length ∧ ∀ j ≤ k, budget < contentLength (context j)))) ∧
    ((contentLength (context 0) : ℤ) ≤ budget → built = context 0) ∧
    ((contentLength (context recentSteps.length) : ℤ) ≤ budget →
        (contentLength built : ℤ) ≤ budget) := by
  intro context built
  obtain ⟨k, hle, heq, hover, hend⟩ :=
    buildContext_spec systemPrompt toolProtocol task recentSteps lastFeedback memories budget
  refine ⟨⟨k, hle, heq, hover, ?_⟩, ?_, ?_⟩
  · by_cases hfits : (contentLength (context k) : ℤ) ≤ budget
    · exact .inl hfits
    · refine .inr ⟨hend.resolve_left hfits, fun j hj => ?_⟩
      obtain hlt | rfl := Nat.lt_or_eq_of_le hj
      · exact hover j hlt
      · exact not_le.mp hfits
  · intro hfull
    obtain rfl : k = 0 := by
      by_contra hpos
      have hzero := hover 0 (Nat.pos_of_ne_zero hpos)
      exact absurd hfull (not_le.mpr hzero)
    exact heq
  · intro hall
    have hbuilt : built = context k := heq
    rw [hbuilt]
    obtain hfits | rfl := hend
    · exact hfits
    · exact hall

/-! ## The length of a compacted context -/

/-- The fixed letters of a summary, and its fields. -/
theorem summarizeStep_length (s : StepRecord) : (summarizeStep s).length =
    32 + s.tool.length + s.governanceDecision.length + s.feedbackCategory.length := by
  have hfields : summarizeStep s = "[step tool=".toList ++ s.tool ++ " decision=".toList ++
    s.governanceDecision ++ " feedback=".toList ++ s.feedbackCategory ++ "]".toList := rfl
  simp [hfields]
  omega

theorem detailedStep_length (i : ℕ) (s : StepRecord) : (detailedStep i s).content.length =
    12 + (Nat.toDigits 10 i).length + s.tool.length + s.feedbackCategory.length +
      s.detail.length := by
  simp [detailedStep]
  omega

/-- A summary drops the number and the detail of a step, and adds the decision
and twenty letters. -/
theorem stepMessages_length (steps : List (StepRecord × ℕ)) :
    contentLength (steps.map fun p => ⟨.assistant, summarizeStep p.1⟩) +
        (steps.map fun p => (Nat.toDigits 10 p.2).length + p.1.detail.length).sum =
      contentLength (steps.map fun p => detailedStep p.2 p.1) +
        (steps.map fun p => p.1.governanceDecision.length + 20).sum := by
  induction steps with
  | nil => simp [contentLength]
  | cons p steps ih =>
    simp only [contentLength, List.map_cons, List.sum_cons] at ih ⊢
    have hsummary := summarizeStep_length p.1
    have hdetailed := detailedStep_length p.2 p.1
    omega

/-- What summarising every step adds to a context, and what it takes away. -/
theorem contextAt_length (systemPrompt toolProtocol task : Str) (recentSteps : List StepRecord)
    (lastFeedback : Str) (memories : List MemoryRow) :
    let context := contextAt systemPrompt toolProtocol task recentSteps lastFeedback memories
    contentLength (context recentSteps.length) +
        (recentSteps.zipIdx.map fun p => (Nat.toDigits 10 p.2).length + p.1.detail.length).sum =
      contentLength (context 0) +
        (recentSteps.map fun s => s.governanceDecision.length + 20).sum := by
  intro context
  have hall : (recentSteps.zipIdx.map fun p => stepMessage recentSteps.length p.2 p.1) =
      recentSteps.zipIdx.map fun p => ⟨.assistant, summarizeStep p.1⟩ := by
    apply List.map_congr_left
    intro p hp
    have hlt : p.2 < recentSteps.length := by
      have := (List.mem_zipIdx hp).2.1
      omega
    rw [stepMessage, if_pos hlt]
  have hnone : (recentSteps.zipIdx.map fun p => stepMessage 0 p.2 p.1) =
      recentSteps.zipIdx.map fun p => detailedStep p.2 p.1 := by
    apply List.map_congr_left
    intro p _
    rw [stepMessage, if_neg (Nat.not_lt_zero p.2)]
  have hdecisions : (recentSteps.map fun s => s.governanceDecision.length + 20).sum =
      (recentSteps.zipIdx.map fun p => p.1.governanceDecision.length + 20).sum := by
    conv_lhs => rw [← List.zipIdx_map_fst 0 recentSteps]
    rw [List.map_map]
    rfl
  have hlength := stepMessages_length recentSteps.zipIdx
  simp only [context, contextAt, contentLength_append, hall, hnone, hdecisions]
  omega

/-- `build_context` makes the context no longer if and only if one of the contexts
it tries fits the budget, or the details it drops are as long as what it adds. -/
theorem compaction_not_longer_iff (systemPrompt toolProtocol task : Str)
    (recentSteps : List StepRecord) (lastFeedback : Str) (memories : List MemoryRow) (budget : ℤ) :
    let context := contextAt systemPrompt toolProtocol task recentSteps lastFeedback memories
    let built := buildContext systemPrompt toolProtocol task recentSteps lastFeedback memories budget
    contentLength built ≤ contentLength (context 0) ↔
      (∃ k ≤ recentSteps.length, (contentLength (context k) : ℤ) ≤ budget) ∨
      (recentSteps.map fun s => s.governanceDecision.length + 20).sum ≤
        (recentSteps.zipIdx.map fun p => (Nat.toDigits 10 p.2).length + p.1.detail.length).sum := by
  intro context built
  obtain ⟨k, hle, heq, hover, hend⟩ :=
    buildContext_spec systemPrompt toolProtocol task recentSteps lastFeedback memories budget
  have hbuilt : built = context k := heq
  have hlength := contextAt_length systemPrompt toolProtocol task recentSteps lastFeedback memories
  rw [hbuilt]
  by_cases hfits : (contentLength (context k) : ℤ) ≤ budget
  · have hshort : contentLength (context k) ≤ contentLength (context 0) := by
      by_cases hk : k = 0
      · rw [hk]
      · have hfull : budget < contentLength (context 0) := hover 0 (Nat.pos_of_ne_zero hk)
        omega
    exact ⟨fun _ => .inl ⟨k, hle, hfits⟩, fun _ => hshort⟩
  · obtain rfl := hend.resolve_left hfits
    have hnone : ¬ ∃ j ≤ recentSteps.length, (contentLength (context j) : ℤ) ≤ budget := by
      rintro ⟨j, hj, hfit⟩
      obtain hlt | rfl := Nat.lt_or_eq_of_le hj
      · exact absurd hfit (not_le.mpr (hover j hlt))
      · exact hfits hfit
    rw [or_iff_right hnone]
    have hsum : contentLength (context recentSteps.length) + _ = contentLength (context 0) + _ :=
      hlength
    omega

/-- The step of a rejected approval has no detail to drop. -/
theorem rejected_step_grows :
    let action : Action := { tool := "run_command" }
    let verdict : GovernanceVerdict := ⟨.requireApproval, "default:command", "default"⟩
    let steps := appendStep [] action verdict (some "APPROVAL_REJECTED") [] {}
    contentLength (contextAt [] [] "tidy up" steps "APPROVAL_REJECTED: action was not approved" [] 0) <
      contentLength (buildContext [] [] "tidy up" steps
        "APPROVAL_REJECTED: action was not approved" [] 50) := by
  decide

end AegisCode
