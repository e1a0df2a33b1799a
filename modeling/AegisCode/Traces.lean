import AegisCode.Program

/-!
# Traces taken apart

The first steps of a trace, and the relations and simulations that steps carry over to
traces.
-/
namespace AegisCode.Program

variable {σ τ ℓ : Type} {step : σ → ℓ → σ → Prop} {s₀ s : σ} {l : ℓ} {ls ls' : List ℓ}

theorem trace_nil : Trace step s₀ [] s ↔ s = s₀ := by
  constructor
  · intro h
    generalize hls : ([] : List ℓ) = ls at h
    cases h with
    | nil => rfl
    | snoc => simp at hls
  · rintro rfl
    exact .nil

theorem trace_append :
    Trace step s₀ (ls ++ ls') s ↔ ∃ s₁, Trace step s₀ ls s₁ ∧ Trace step s₁ ls' s := by
  constructor
  · intro h
    induction ls' using List.reverseRecOn generalizing s with
    | nil => exact ⟨s, by simpa using h, .nil⟩
    | append_singleton ls' l ih =>
      rw [← List.append_assoc] at h
      generalize hall : ls ++ ls' ++ [l] = all at h
      cases h with
      | nil => simp at hall
      | snoc h hstep =>
        obtain ⟨rfl, rfl⟩ := List.append_inj' hall rfl |>.imp_right List.singleton_inj.mp
        obtain ⟨s₁, hfirst, hrest⟩ := ih h
        exact ⟨s₁, hfirst, .snoc hrest hstep⟩
  · rintro ⟨s₁, h, h'⟩
    exact h.append h'

theorem trace_singleton : Trace step s₀ [l] s ↔ step s₀ l s := by
  constructor
  · intro h
    generalize hls : [l] = ls at h
    cases h with
    | nil => simp at hls
    | @snoc ls s₁ _ l' h hstep =>
      obtain ⟨rfl, rfl⟩ : ls = [] ∧ l = l' := by
        cases ls with
        | nil => simpa using hls
        | cons x ls => simp at hls
      obtain rfl := trace_nil.mp h
      exact hstep
  · exact fun h => .snoc .nil h

theorem trace_cons :
    Trace step s₀ (l :: ls) s ↔ ∃ s₁, step s₀ l s₁ ∧ Trace step s₁ ls s := by
  rw [← List.singleton_append, trace_append]
  simp only [trace_singleton]

/-- What relates the states around every step relates the ends of the trace. -/
theorem Trace.rel {R : σ → σ → Prop} (hrefl : ∀ s, R s s)
    (htrans : ∀ {s s' s''}, R s s' → R s' s'' → R s s'')
    (hstep : ∀ s l s', l ∈ ls → step s l s' → R s s') (h : Trace step s₀ ls s) : R s₀ s := by
  induction h with
  | nil => exact hrefl _
  | snoc _ hlast ih =>
    exact htrans (ih fun s l s' hl => hstep s l s' (List.mem_append_left _ hl))
      (hstep _ _ _ (List.mem_append_right _ (List.mem_singleton_self _)) hlast)

/-- A function that follows the steps follows the trace: an abstract state is computed from
the labels, and an invariant of the concrete states may be used. -/
theorem Trace.foldl {I : σ → Prop} {v : σ → τ} {next : τ → ℓ → τ} (h₀ : I s₀)
    (hstep : ∀ s l s', I s → l ∈ ls → step s l s' → I s' ∧ v s' = next (v s) l)
    (h : Trace step s₀ ls s) : I s ∧ v s = ls.foldl next (v s₀) := by
  induction h with
  | nil => exact ⟨h₀, rfl⟩
  | snoc _ hlast ih =>
    obtain ⟨hI, hview⟩ := ih fun s l s' hI hl => hstep s l s' hI (List.mem_append_left _ hl)
    obtain ⟨hI', hview'⟩ := hstep _ _ _ hI
      (List.mem_append_right _ (List.mem_singleton_self _)) hlast
    rw [List.foldl_concat, ← hview]
    exact ⟨hI', hview'⟩

end AegisCode.Program
