import AegisCode.CommandRules

/-!
# Inline Python

The default rules deny the options that run Python text by how an argument
begins, while the interpreter reads a cluster of flags behind one dash.
-/
namespace AegisCode

/-! ## The options of the interpreter -/

/-- The flags that may be clustered. -/
def pythonFlags : Str := "BbdEhiIOPqRsSuvVx"

/-- The options that end a cluster and run what follows. -/
def inlineOptions : Str := "cm"

/-- The options that end a cluster and take a value, maybe the next argument. -/
def valueOptions : Str := "WX"

/-- An option that runs Python text stands in front of any script. -/
inductive InlinePython : List Str → Prop
  | inline {flags : Str} {x : Char} (text : Str) (args : List Str) (hflags : flags ⊆ pythonFlags)
      (hx : x ∈ inlineOptions) : InlinePython (('-' :: (flags ++ x :: text)) :: args)
  | option {arg : Str} {args : List Str} (hdash : Str.startsWith arg "-" = true)
      (hoption : arg ≠ "-".toList ∧ arg ≠ "--".toList) (h : InlinePython args) :
      InlinePython (arg :: args)
  | value {flags : Str} {x : Char} (value : Str) {args : List Str} (hflags : flags ⊆ pythonFlags)
      (hx : x ∈ valueOptions) (h : InlinePython args) :
      InlinePython (('-' :: (flags ++ [x])) :: value :: args)

/-- `python`, with a version or without. -/
def inPythonFamily (argv0 : Str) : Bool :=
  argv0 = "python".toList || (Str.startsWith argv0 "python" &&
    match argv0.drop 6 with
    | d :: version => d.isDigit && version.all fun c => c.isDigit || c = '.'
    | [] => false)

/-! ## What the default rules deny -/

theorem argMatches_inline {tok arg : Str} (htok : tok ∈ ["-c".toList, "-m".toList]) :
    argMatches tok arg = true ↔ Str.startsWith arg tok = true := by
  have hdash : ∀ tok ∈ ["-c".toList, "-m".toList], Str.startsWith tok "-" = true ∧
      Str.startsWith tok "--" = false ∧ tok.length = 2 ∧ Str.startsWith "--" tok = false := by
    decide
  obtain ⟨hshort, hlong, hlength, hother⟩ := hdash tok htok
  rw [argMatches_shortOption hshort hlong, Bool.or_eq_true, decide_eq_true_eq, Bool.and_eq_true]
  constructor
  · rintro (rfl | ⟨hstart, -⟩)
    · exact Str.startsWith_iff.mpr (List.prefix_refl _)
    · exact hstart
  · intro hstart
    refine .inr ⟨hstart, ?_⟩
    rw [Bool.not_eq_true', ← Bool.not_eq_true, Str.startsWith_iff]
    intro hdashes
    rw [Str.startsWith_iff] at hstart
    -- two prefixes of one length are the same text
    have heq : tok = "--".toList := by
      have hprefix := List.prefix_of_prefix_length_le hstart hdashes (by rw [hlength]; rfl)
      exact hprefix.eq_of_length hlength
    rw [heq] at hother
    exact absurd hother (by decide)

/-- The argument begins as an option that the default rules know. -/
def beginsInline (arg : Str) : Bool := Str.startsWith arg "-c" || Str.startsWith arg "-m"

theorem deny_rules_python {rule : CommandRule} (hrule : rule ∈ defaultCommandRules)
    (hargv0 : normArgv0 rule.argv0 = "python".toList) :
    rule.decision = .deny ∧ (rule.argsContain = ["-c".toList] ∨ rule.argsContain = ["-m".toList]) := by
  have hpython : (⟨"python", ["-c"], .deny⟩ : CommandRule) = rule ∨
      (⟨"python", ["-m"], .deny⟩ : CommandRule) = rule := by
    simp only [defaultCommandRules, List.mem_cons, List.not_mem_nil, or_false] at hrule
    rcases hrule with rfl | rfl | rfl | rfl | rfl | rfl | rfl
    · exact absurd hargv0 (by decide)
    · exact absurd hargv0 (by decide)
    · exact absurd hargv0 (by decide)
    · exact absurd hargv0 (by decide)
    · exact absurd hargv0 (by decide)
    · exact .inl rfl
    · exact .inr rfl
  obtain rfl | rfl := hpython
  · exact ⟨rfl, .inl rfl⟩
  · exact ⟨rfl, .inr rfl⟩

/-- The default rules deny a Python command exactly for an argument that begins as
one of the two options. -/
theorem judgeArgv_python_deny {argv0 : Str} (hnorm : normArgv0 argv0 = "python".toList)
    {allowlist : List Str} (hallow : argv0 ∈ allowlist) (args : List Str) :
    (judgeArgv argv0 args allowlist defaultCommandRules).decision = .deny ↔
      ∃ arg ∈ args, beginsInline arg = true := by
  have hstrictest : StrictestVerdict (fun rule => ruleMatches rule (normArgv0 argv0) args)
      defaultCommandRules (judgeArgv argv0 args allowlist defaultCommandRules) :=
    judgeArgv_strictest hallow defaultCommandRules
  have hmatches : ∀ {rule : CommandRule} {tok : Str}, rule.argsContain = [tok] →
      (ruleMatches rule (normArgv0 argv0) args = true ↔ normArgv0 rule.argv0 = normArgv0 argv0 ∧
        ∃ arg ∈ args, argMatches tok arg = true) := by
    intro rule tok htok
    rw [ruleMatches, htok, decide_eq_true_eq, List.all_cons, List.all_nil, Bool.and_true,
      List.any_eq_true]
  constructor
  · intro hdeny
    by_cases hmatch : ∃ rule ∈ defaultCommandRules, ruleMatches rule (normArgv0 argv0) args = true
    · obtain ⟨rule, hrule, hmatch⟩ := hmatch
      have hargv0 : normArgv0 rule.argv0 = "python".toList := by
        rw [ruleMatches, decide_eq_true_eq] at hmatch
        exact hmatch.1.trans hnorm
      rcases (deny_rules_python hrule hargv0).2 with htok | htok
      · obtain ⟨_, arg, harg, hmatch⟩ := (hmatches htok).mp hmatch
        have hstart := (argMatches_inline (by decide)).mp hmatch
        exact ⟨arg, harg, by rw [beginsInline, hstart, Bool.true_or]⟩
      · obtain ⟨_, arg, harg, hmatch⟩ := (hmatches htok).mp hmatch
        have hstart := (argMatches_inline (by decide)).mp hmatch
        exact ⟨arg, harg, by rw [beginsInline, hstart, Bool.or_true]⟩
    · have hnone := hstrictest.unmatched fun rule hrule =>
        Bool.eq_false_iff.mpr fun htrue => hmatch ⟨rule, hrule, htrue⟩
      rw [hnone.1] at hdeny
      exact absurd hdeny (by decide)
  · rintro ⟨arg, harg, hbegins⟩
    have hrule : ∃ rule ∈ defaultCommandRules,
        ruleMatches rule (normArgv0 argv0) args = true ∧ rule.decision = .deny := by
      rw [beginsInline, Bool.or_eq_true] at hbegins
      rcases hbegins with hstart | hstart
      · refine ⟨⟨"python", ["-c"], .deny⟩, by simp [defaultCommandRules], ?_, rfl⟩
        exact (hmatches rfl).mpr ⟨hnorm.symm, arg, harg, (argMatches_inline (by decide)).mpr hstart⟩
      · refine ⟨⟨"python", ["-m"], .deny⟩, by simp [defaultCommandRules], ?_, rfl⟩
        exact (hmatches rfl).mpr ⟨hnorm.symm, arg, harg, (argMatches_inline (by decide)).mpr hstart⟩
    obtain ⟨rule, hrule, hmatch, hdeny⟩ := hrule
    obtain ⟨_, winner, _, _, hdecision, _, hbest⟩ := hstrictest.winner ⟨rule, hrule, hmatch⟩
    obtain ⟨j, hj⟩ := List.mem_iff_getElem?.mp hrule
    have hsevere := (hbest j rule hj hmatch).1
    rw [hdeny] at hsevere
    rw [hdecision]
    cases hwinner : winner.decision <;> rw [hwinner] at hsevere <;>
      first | rfl | exact absurd hsevere (by decide)

theorem normArgv0_python {argv0 : Str} (h : inPythonFamily argv0 = true)
    (hallow : argv0 ∈ ({} : Governance).commandAllowlist) : normArgv0 argv0 = "python".toList := by
  have hall : ∀ argv0 ∈ ({} : Governance).commandAllowlist, inPythonFamily argv0 = true →
      normArgv0 argv0 = "python".toList := by decide
  exact hall argv0 hallow h

/-- A Python command that runs inline text is denied exactly where some argument
begins with the option itself. -/
theorem inlinePython_denied_iff {command argv0 : Str} {args : List Str}
    (hlex : Lexes command argv0 args) (hfamily : inPythonFamily argv0 = true)
    (hallow : argv0 ∈ ({} : Governance).commandAllowlist) :
    (InlinePython args → ∃ verdict, judgeCommand (.str command) ({} : Governance).commandAllowlist
        ({} : Governance).commandRules = .ok verdict ∧ verdict.decision = .deny) ↔
      (InlinePython args → ∃ arg ∈ args, beginsInline arg = true) := by
  rw [judgeCommand_lexes hlex]
  simp only [Except.ok.injEq, exists_eq_left']
  rw [judgeArgv_python_deny (normArgv0_python hfamily hallow) hallow]

theorem inlinePython_denied_iff_attached :
    (InlinePython ["-u".toList, "-cpass".toList] → ∃ verdict,
      judgeCommand (.str "python3 -u -cpass") ({} : Governance).commandAllowlist
        ({} : Governance).commandRules = .ok verdict ∧ verdict.decision = .deny) ↔
      (InlinePython ["-u".toList, "-cpass".toList] →
        ∃ arg ∈ ["-u".toList, "-cpass".toList], beginsInline arg = true) := by
  have hlex : Lexes "python3 -u -cpass" "python3" ["-u", "-cpass"] := by decide +kernel
  exact inlinePython_denied_iff hlex (by decide) (by decide)

/-- `-Bc` is no option that the rules know. -/
theorem clustered_inline_allowed :
    Lexes "python -Bc pass" "python" ["-Bc", "pass"] ∧ inPythonFamily "python" = true ∧
      "python".toList ∈ ({} : Governance).commandAllowlist ∧
      InlinePython ["-Bc", "pass"] ∧
      (judgeCommand (.str "python -Bc pass") ({} : Governance).commandAllowlist
        ({} : Governance).commandRules).map (·.decision) = .ok .allow := by
  refine ⟨by decide +kernel, by decide, by decide, ?_, by rfl⟩
  have hflags : "B".toList ⊆ pythonFlags := by decide
  exact .inline [] ["pass".toList] hflags (by decide)

end AegisCode
