import AegisCode.Policy
import Mathlib.Logic.Relation

/-!
# The verdict on a command

The rules are combined by the strictest match, so the verdict depends on which
rules match and not on where they stand, and it grows with the rules and with
the arguments that match them.
-/
namespace AegisCode

/-! ## The first of the greatest

The loop over the rules for any measure. -/

section FirstGreatest
variable {α : Type} (f : α → ℕ)

/-- The first item of the greatest measure. -/
def firstGreatest (xs : List α) : Option α :=
  xs.foldl (fun winner x =>
    match winner with
    | none => some x
    | some w => if f x > f w then some x else some w) none

variable {f}

/-- Everything in front of the winner is smaller, nothing behind it is greater. -/
structure Wins (f : α → ℕ) (xs : List α) (w : α) : Prop where
  split : ∃ a b, xs = a ++ w :: b ∧ (∀ x ∈ a, f x < f w) ∧ ∀ x ∈ b, f x ≤ f w

theorem firstGreatest_snoc (xs : List α) (x : α) : firstGreatest f (xs ++ [x]) =
    match firstGreatest f xs with
    | none => some x
    | some w => if f x > f w then some x else some w := by
  rw [firstGreatest, List.foldl_append]
  rfl

theorem firstGreatest_spec (xs : List α) :
    (firstGreatest f xs = none ∧ xs = []) ∨ ∃ w, firstGreatest f xs = some w ∧ Wins f xs w := by
  induction xs using List.reverseRecOn with
  | nil => exact .inl ⟨rfl, rfl⟩
  | append_singleton xs x ih =>
    rw [firstGreatest_snoc]
    rcases ih with ⟨hnone, rfl⟩ | ⟨w, hw, ⟨a, b, rfl, ha, hb⟩⟩
    · rw [hnone]
      exact .inr ⟨x, rfl, ⟨[], [], rfl, by simp, by simp⟩⟩
    · rw [hw]
      by_cases hx : f x > f w
      · refine .inr ⟨x, if_pos hx, ⟨a ++ w :: b, [], rfl, fun y hy => ?_, by simp⟩⟩
        obtain hy | hy := List.mem_append.mp hy
        · exact (ha y hy).trans hx
        · obtain rfl | hy := List.mem_cons.mp hy
          · exact hx
          · exact (hb y hy).trans_lt hx
      · refine .inr ⟨w, if_neg hx, ⟨a, b ++ [x], by simp, ha, fun y hy => ?_⟩⟩
        obtain hy | hy := List.mem_append.mp hy
        · exact hb y hy
        · obtain rfl := List.mem_singleton.mp hy
          exact not_lt.mp hx

theorem Wins.mem {xs : List α} {w : α} (h : Wins f xs w) : w ∈ xs := by
  obtain ⟨a, b, rfl, _, _⟩ := h.split
  simp

theorem Wins.le {xs : List α} {w x : α} (h : Wins f xs w) (hx : x ∈ xs) : f x ≤ f w := by
  obtain ⟨a, b, rfl, ha, hb⟩ := h.split
  obtain hx | hx := List.mem_append.mp hx
  · exact (ha x hx).le
  · obtain rfl | hx := List.mem_cons.mp hx
    · exact le_rfl
    · exact hb x hx

end FirstGreatest

theorem strictest_eq (matched : List (CommandRule × ℕ)) :
    strictest matched = firstGreatest (fun r => r.1.decision.severity) matched := by
  rw [strictest, firstGreatest]
  congr 1
  funext winner r
  cases winner <;> rfl

/-! ## The strictest match -/

theorem Decision.severity_injective : Function.Injective Decision.severity := by
  intro a b h
  cases a <;> cases b <;> first | rfl | exact absurd h (by decide)

/-- What a verdict on the matching rules must be: the strictest decision, named by
the first rule that takes it. -/
structure StrictestVerdict (matched : CommandRule → Bool) (rules : List CommandRule)
    (verdict : GovernanceVerdict) : Prop where
  unmatched : (∀ rule ∈ rules, matched rule = false) →
    verdict.decision = .allow ∧ verdict.ruleId = "CMD_DEFAULT_ALLOWED".toList
  winner : (∃ rule ∈ rules, matched rule = true) → ∃ i rule, rules[i]? = some rule ∧
    matched rule = true ∧ verdict.decision = rule.decision ∧
    verdict.ruleId = "CMD_RULE_".toList ++ Nat.toDigits 10 i ∧
    ∀ j rule', rules[j]? = some rule' → matched rule' = true →
      rule'.decision.severity ≤ rule.decision.severity ∧
        (j < i → rule'.decision.severity < rule.decision.severity)

theorem mem_matched (matched : CommandRule → Bool) {rules : List CommandRule}
    {rule : CommandRule} {i : ℕ} :
    (rule, i) ∈ rules.zipIdx.filter (fun r => matched r.1) ↔
      rules[i]? = some rule ∧ matched rule = true := by
  rw [List.mem_filter, List.mem_zipIdx_iff_getElem?]

theorem matched_pairwise (matched : CommandRule → Bool) (rules : List CommandRule) :
    (rules.zipIdx.filter fun r => matched r.1).Pairwise fun a b => a.2 < b.2 := by
  have hindex : (rules.zipIdx.map Prod.snd).Pairwise (· < ·) := by
    rw [List.zipIdx_map_snd]
    exact List.pairwise_lt_range'
  exact (List.pairwise_map.mp hindex).filter _

theorem judgeArgv_strictest {argv0 : Str} {args allowlist : List Str} (h : argv0 ∈ allowlist)
    (rules : List CommandRule) :
    StrictestVerdict (fun rule => ruleMatches rule (normArgv0 argv0) args) rules
      (judgeArgv argv0 args allowlist rules) := by
  rw [judgeArgv, if_neg (not_not.mpr h), strictest_eq]
  have hmatched : ∀ {rule : CommandRule} {i : ℕ},
      (rule, i) ∈ rules.zipIdx.filter (fun r => ruleMatches r.1 (normArgv0 argv0) args) ↔
        rules[i]? = some rule ∧ ruleMatches rule (normArgv0 argv0) args = true :=
    mem_matched fun rule => ruleMatches rule (normArgv0 argv0) args
  have hsorted := matched_pairwise (fun rule => ruleMatches rule (normArgv0 argv0) args) rules
  rcases firstGreatest_spec (f := fun r : CommandRule × ℕ => r.1.decision.severity)
      (rules.zipIdx.filter fun r => ruleMatches r.1 (normArgv0 argv0) args) with
    ⟨hnone, hnil⟩ | ⟨⟨rule, i⟩, hwin, hwins⟩
  · rw [hnone]
    refine ⟨fun _ => ⟨rfl, rfl⟩, ?_⟩
    rintro ⟨rule, hrule, hmatch⟩
    obtain ⟨i, hi⟩ := List.mem_iff_getElem?.mp hrule
    have hmem := hmatched.mpr ⟨hi, hmatch⟩
    rw [hnil] at hmem
    exact absurd hmem List.not_mem_nil
  · rw [hwin]
    obtain ⟨hi, hmatch⟩ := hmatched.mp hwins.mem
    refine ⟨fun hall => ?_, fun _ => ⟨i, rule, hi, hmatch, rfl, rfl, fun j rule' hj hmatch' => ?_⟩⟩
    · rw [hall rule (List.mem_of_getElem? hi)] at hmatch
      exact Bool.noConfusion hmatch
    · have hmem := hmatched.mpr ⟨hj, hmatch'⟩
      refine ⟨hwins.le hmem, fun hlt => ?_⟩
      obtain ⟨a, b, hsplit, ha, _⟩ := hwins.split
      rw [hsplit] at hmem hsorted
      -- the indices behind the winner are greater than its own
      obtain ⟨_, hb, _⟩ := List.pairwise_append.mp hsorted
      obtain hmem | hmem := List.mem_append.mp hmem
      · exact ha _ hmem
      · obtain heq | hmem := List.mem_cons.mp hmem
        · obtain ⟨_, rfl⟩ := Prod.mk.inj heq
          omega
        · have := (List.pairwise_cons.mp hb).1 _ hmem
          dsimp only at this
          omega

/-- Where every match on one side is as strict as some match on the other, so is
the verdict. -/
theorem StrictestVerdict.mono {matched matched' : CommandRule → Bool} {rules rules' : List CommandRule}
    {verdict verdict' : GovernanceVerdict} (h : StrictestVerdict matched rules verdict)
    (h' : StrictestVerdict matched' rules' verdict')
    (hsub : ∀ rule ∈ rules, matched rule = true → rule ∈ rules' ∧ matched' rule = true) :
    verdict.decision.severity ≤ verdict'.decision.severity := by
  by_cases hmatch : ∃ rule ∈ rules, matched rule = true
  · obtain ⟨i, rule, hi, hrule, hdecision, _⟩ := h.winner hmatch
    obtain ⟨hmem, hrule'⟩ := hsub rule (List.mem_of_getElem? hi) hrule
    obtain ⟨_, winner, _, _, hdecision', _, hbest⟩ := h'.winner ⟨rule, hmem, hrule'⟩
    obtain ⟨j, hj⟩ := List.mem_iff_getElem?.mp hmem
    rw [hdecision, hdecision']
    exact (hbest j rule hj hrule').1
  · have hnone : ∀ rule ∈ rules, matched rule = false := fun rule hrule =>
      Bool.eq_false_iff.mpr fun htrue => hmatch ⟨rule, hrule, htrue⟩
    rw [(h.unmatched hnone).1]
    exact Nat.zero_le _

theorem judgeCommand_str (command : Str) (allowlist : List Str) (rules : List CommandRule) :
    judgeCommand (.str command) allowlist rules =
      .ok (match (lexString command).ok, (lexString command).argv with
        | true, argv0 :: args => judgeArgv argv0 args allowlist rules
        | _, _ => ⟨.deny, "CMD_STRUCT", (lexString command).reason⟩) := by
  change (match (lexString command).ok, (lexString command).argv with
    | true, argv0 :: args => Except.ok (judgeArgv argv0 args allowlist rules)
    | _, _ => Except.ok ⟨.deny, "CMD_STRUCT", (lexString command).reason⟩) = _
  split <;> rfl

/-- `judge_command` never raises on a string; its verdict is the strictest of the
matching rules where the command lexes and its program is allowlisted, and a denial
for every other command. More rules are never less strict, and the same rules in
another order or number decide alike. -/
theorem judgeCommand_strictest (command : Str) (allowlist : List Str) (rules : List CommandRule) :
    ∃ verdict, judgeCommand (.str command) allowlist rules = .ok verdict ∧
      (∀ argv0 args, (lexString command).ok = true → (lexString command).argv = argv0 :: args →
        argv0 ∈ allowlist →
          StrictestVerdict (fun rule => ruleMatches rule (normArgv0 argv0) args) rules verdict) ∧
      ((¬ ∃ argv0 args, (lexString command).ok = true ∧ (lexString command).argv = argv0 :: args ∧
        argv0 ∈ allowlist) → verdict.decision = .deny) ∧
      (∀ rules', rules ⊆ rules' → ∃ verdict', judgeCommand (.str command) allowlist rules' =
        .ok verdict' ∧ verdict.decision.severity ≤ verdict'.decision.severity) ∧
      ∀ rules', (∀ rule, rule ∈ rules ↔ rule ∈ rules') → ∃ verdict',
        judgeCommand (.str command) allowlist rules' = .ok verdict' ∧
          verdict'.decision = verdict.decision := by
  simp only [judgeCommand_str, Except.ok.injEq, exists_eq_left']
  have hmono : ∀ rules₁ rules₂ : List CommandRule, rules₁ ⊆ rules₂ → ∀ argv0 args,
      (judgeArgv argv0 args allowlist rules₁).decision.severity ≤
        (judgeArgv argv0 args allowlist rules₂).decision.severity := by
    intro rules₁ rules₂ hsub argv0 args
    by_cases hallow : argv0 ∈ allowlist
    · exact (judgeArgv_strictest hallow rules₁).mono (judgeArgv_strictest hallow rules₂)
        fun rule hrule hmatch => ⟨hsub hrule, hmatch⟩
    · rw [judgeArgv, judgeArgv, if_pos hallow, if_pos hallow]
  split
  · rename_i argv0 args hok hargv
    refine ⟨?_, ?_, fun rules' hsub => hmono _ _ hsub _ _, fun rules' hsame => ?_⟩
    · intro argv0' args' _ hargv' hallow
      obtain ⟨rfl, rfl⟩ := List.cons.inj (hargv.symm.trans hargv')
      exact judgeArgv_strictest hallow rules
    · intro hnot
      have hdeny : argv0 ∉ allowlist := fun hallow => hnot ⟨argv0, args, hok, hargv, hallow⟩
      rw [judgeArgv, if_pos hdeny]
    · apply Decision.severity_injective
      apply le_antisymm
      · exact hmono _ _ (fun rule hrule => (hsame rule).mpr hrule) _ _
      · exact hmono _ _ (fun rule hrule => (hsame rule).mp hrule) _ _
  · rename_i hno
    refine ⟨fun argv0 args hok hargv _ => ?_, fun _ => rfl, fun _ _ => le_rfl, fun _ _ => rfl⟩
    exact absurd hargv (hno argv0 args hok)

/-! ## Respelled commands -/

/-- The name of a long option is what stands before the first `=`. -/
abbrev optionName (arg : Str) : Str := (Str.partition '=' arg).1

/-- One way to write the arguments of a command differently. -/
inductive Respell : List Str → List Str → Prop
  | permute {args args' : List Str} (h : args.Perm args') : Respell args args'
  | insert (before after : List Str) (arg : Str) : Respell (before ++ after) (before ++ arg :: after)
  | abbreviate (before after : List Str) {option option' : Str}
      (hlong : Str.startsWith option "--" = true)
      (hname : optionName option' <+: optionName option) (hlength : 3 ≤ (optionName option').length) :
      Respell (before ++ option :: after) (before ++ option' :: after)
  | assign (before after : List Str) {option : Str} (value : Str)
      (hlong : Str.startsWith option "--" = true) :
      Respell (before ++ option :: after) (before ++ (option ++ '=' :: value) :: after)
  | attach (before after : List Str) {c : Char} (option text : Str) (hshort : c ≠ '-') :
      Respell (before ++ ('-' :: c :: option) :: after)
        (before ++ ('-' :: c :: option ++ text) :: after)

theorem optionName_eq (arg : Str) : optionName arg = arg.takeWhile fun c => decide (c ≠ '=') := by
  rw [optionName, Str.partition, List.span_eq_takeWhile_dropWhile]
  split <;> simp_all

theorem optionName_assign (option value : Str) :
    optionName (option ++ '=' :: value) = optionName option := by
  rw [optionName_eq, optionName_eq, List.takeWhile_append]
  split
  · rename_i hall
    have hwhole := (List.takeWhile_prefix (p := fun c => decide (c ≠ '=')) (l := option)).eq_of_length
      hall
    rw [hwhole, List.takeWhile_cons_of_neg (by simp), List.append_nil]
  · rfl

theorem startsWith_optionName {arg p : Str} (h : Str.startsWith (optionName arg) p = true) :
    Str.startsWith arg p = true := by
  rw [Str.startsWith_iff] at h ⊢
  rw [optionName_eq] at h
  exact h.trans (List.takeWhile_prefix _)

theorem startsWith_dash {s : Str} (h : Str.startsWith s "--" = true) :
    Str.startsWith s "-" = true := by
  rw [Str.startsWith_iff] at h ⊢
  exact (List.prefix_append ['-'] ['-']).trans h

theorem argMatches_positional {tok : Str} (htok : Str.startsWith tok "-" = false) (arg : Str) :
    argMatches tok arg = decide (arg = tok) := by
  rw [argMatches, htok]
  rfl

theorem argMatches_longOption {tok : Str} (htok : Str.startsWith tok "--" = true) (arg : Str) :
    argMatches tok arg = (Str.startsWith (optionName arg) "--" &&
      (decide ((optionName arg).length > 2) && Str.startsWith tok (optionName arg))) := by
  rw [argMatches, startsWith_dash htok, htok]
  rfl

theorem argMatches_shortOption {tok : Str} (hdash : Str.startsWith tok "-" = true)
    (htok : Str.startsWith tok "--" = false) (arg : Str) :
    argMatches tok arg =
      (decide (arg = tok) || (Str.startsWith arg tok && !Str.startsWith arg "--")) := by
  rw [argMatches, hdash, htok]
  rfl

/-- A rule token that a long option matches is a long option as well. -/
theorem argMatches_long {tok option : Str} (hlong : Str.startsWith option "--" = true) :
    argMatches tok option = true ↔ Str.startsWith tok "--" = true ∧
      Str.startsWith (optionName option) "--" = true ∧ 2 < (optionName option).length ∧
        Str.startsWith tok (optionName option) = true := by
  by_cases htok : Str.startsWith tok "--" = true
  · rw [argMatches_longOption htok]
    simp only [Bool.and_eq_true, decide_eq_true_eq, htok, true_and, gt_iff_lt]
  · have hne : option ≠ tok := by
      rintro rfl
      exact htok hlong
    refine ⟨fun hmatch => ?_, fun h => absurd h.1 htok⟩
    by_cases hdash : Str.startsWith tok "-" = true
    · rw [argMatches_shortOption hdash (Bool.eq_false_iff.mpr htok), hlong, Bool.not_true,
        Bool.and_false, Bool.or_false, decide_eq_true_eq] at hmatch
      exact absurd hmatch hne
    · rw [argMatches_positional (Bool.eq_false_iff.mpr hdash), decide_eq_true_eq] at hmatch
      exact absurd hmatch hne

/-- A short option matches the rule tokens that are short options and begin it. -/
theorem argMatches_short {tok option : Str} {c : Char} (hshort : c ≠ '-') :
    argMatches tok ('-' :: c :: option) = true ↔ Str.startsWith tok "-" = true ∧
      Str.startsWith tok "--" = false ∧ Str.startsWith ('-' :: c :: option) tok = true := by
  have hnot : ∀ p : Str, p <+: '-' :: c :: option → Str.startsWith p "--" = false := by
    intro p hp
    rw [← Bool.not_eq_true, Str.startsWith_iff]
    intro hlong
    obtain ⟨t, ht⟩ := hlong.trans hp
    exact hshort (List.cons.inj (List.cons.inj ht).2).1.symm
  by_cases hdash : Str.startsWith tok "-" = true
  · by_cases htok : Str.startsWith tok "--" = true
    · have hname : Str.startsWith (optionName ('-' :: c :: option)) "--" = false := by
        apply hnot
        rw [optionName_eq]
        exact List.takeWhile_prefix _
      rw [argMatches_longOption htok, hname, htok]
      simp only [Bool.false_and, Bool.false_eq_true, false_and, and_false, Bool.true_eq_false]
    · have htok := Bool.eq_false_iff.mpr htok
      have hself : '-' :: c :: option = tok → Str.startsWith ('-' :: c :: option) tok = true := by
        rintro rfl
        exact Str.startsWith_iff.mpr (List.prefix_refl _)
      rw [argMatches_shortOption hdash htok, hnot _ (List.prefix_refl _), Bool.not_false,
        Bool.and_true, Bool.or_eq_true, decide_eq_true_eq]
      exact ⟨fun h => ⟨hdash, htok, h.elim hself id⟩, fun h => .inr h.2.2⟩
  · have hne : '-' :: c :: option ≠ tok := by
      rintro rfl
      exact hdash rfl
    rw [argMatches_positional (Bool.eq_false_iff.mpr hdash), decide_eq_true_eq]
    exact ⟨fun h => absurd h hne, fun h => absurd h.1 hdash⟩

/-- A respelled command matches every rule token that it matched. -/
theorem Respell.matches {args args' : List Str} (h : Respell args args') {tok : Str}
    (hmatch : args.any (argMatches tok) = true) : args'.any (argMatches tok) = true := by
  rw [List.any_eq_true] at hmatch ⊢
  have hreplace : ∀ {before after : List Str} {option option' : Str},
      (argMatches tok option = true → argMatches tok option' = true) →
      (∃ arg ∈ before ++ option :: after, argMatches tok arg = true) →
      ∃ arg ∈ before ++ option' :: after, argMatches tok arg = true := by
    rintro before after option option' hoption ⟨arg, harg, hmatch⟩
    obtain harg | harg := List.mem_append.mp harg
    · exact ⟨arg, by simp [harg], hmatch⟩
    · obtain rfl | harg := List.mem_cons.mp harg
      · exact ⟨option', by simp, hoption hmatch⟩
      · exact ⟨arg, by simp [harg], hmatch⟩
  cases h with
  | permute h =>
    obtain ⟨arg, harg, hmatch⟩ := hmatch
    exact ⟨arg, h.mem_iff.mp harg, hmatch⟩
  | insert before after new =>
    obtain ⟨arg, harg, hmatch⟩ := hmatch
    refine ⟨arg, ?_, hmatch⟩
    obtain harg | harg := List.mem_append.mp harg <;> simp [harg]
  | @abbreviate before after option option' hlong hname hlength =>
    refine hreplace (fun hoption => ?_) hmatch
    obtain ⟨htok, hdashes, _, hprefix⟩ := (argMatches_long hlong).mp hoption
    rw [Str.startsWith_iff] at hdashes hprefix
    have hdashes' : Str.startsWith (optionName option') "--" = true := by
      have htwo : "--".toList.length = 2 := rfl
      rw [Str.startsWith_iff]
      exact List.prefix_of_prefix_length_le hdashes hname (by omega)
    exact (argMatches_long (startsWith_optionName hdashes')).mpr
      ⟨htok, hdashes', hlength, Str.startsWith_iff.mpr (hname.trans hprefix)⟩
  | @assign before after option value hlong =>
    refine hreplace (fun hoption => ?_) hmatch
    have hlong' : Str.startsWith (option ++ '=' :: value) "--" = true := by
      rw [Str.startsWith_iff] at hlong ⊢
      exact hlong.trans (List.prefix_append _ _)
    rw [argMatches_long hlong']
    rw [argMatches_long hlong] at hoption
    rwa [optionName_assign]
  | attach before after option text hshort =>
    refine hreplace (fun hoption => ?_) hmatch
    obtain ⟨htok, hnot, hprefix⟩ := (argMatches_short hshort).mp hoption
    refine (argMatches_short hshort).mpr ⟨htok, hnot, ?_⟩
    rw [Str.startsWith_iff] at hprefix ⊢
    exact hprefix.trans (List.prefix_append _ _)

theorem respelled_matches {args args' : List Str} (h : Relation.ReflTransGen Respell args args')
    {tok : Str} (hmatch : args.any (argMatches tok) = true) :
    args'.any (argMatches tok) = true := by
  induction h with
  | refl => exact hmatch
  | tail _ hstep ih => exact hstep.matches ih

theorem ruleMatches_respelled {args args' : List Str}
    (h : Relation.ReflTransGen Respell args args') {rule : CommandRule} {norm : Str}
    (hmatch : ruleMatches rule norm args = true) : ruleMatches rule norm args' = true := by
  unfold ruleMatches at hmatch ⊢
  obtain ⟨hargv0, htokens⟩ := of_decide_eq_true hmatch
  refine decide_eq_true ⟨hargv0, ?_⟩
  rw [List.all_eq_true] at htokens ⊢
  exact fun tok htok => respelled_matches h (htokens tok htok)

/-- The lexer accepts the command as this program and these arguments. -/
def Lexes (command argv0 : Str) (args : List Str) : Prop :=
  (lexString command).ok = true ∧ (lexString command).argv = argv0 :: args

instance (command argv0 : Str) (args : List Str) : Decidable (Lexes command argv0 args) :=
  inferInstanceAs (Decidable (_ ∧ _))

theorem judgeCommand_lexes {command argv0 : Str} {args : List Str} (h : Lexes command argv0 args)
    (allowlist : List Str) (rules : List CommandRule) :
    judgeCommand (.str command) allowlist rules = .ok (judgeArgv argv0 args allowlist rules) := by
  rw [judgeCommand_str, h.1, h.2]

/-- A command that is respelled is judged at least as strictly. -/
theorem judgeCommand_respelled {command command' argv0 argv0' : Str} {args args' : List Str}
    {allowlist : List Str} (hcommand : Lexes command argv0 args)
    (hcommand' : Lexes command' argv0' args') (hallow : argv0 ∈ allowlist)
    (hallow' : argv0' ∈ allowlist) (hnorm : normArgv0 argv0 = normArgv0 argv0')
    (hargs : Relation.ReflTransGen Respell args args') (rules : List CommandRule) :
    ∃ verdict verdict', judgeCommand (.str command) allowlist rules = .ok verdict ∧
      judgeCommand (.str command') allowlist rules = .ok verdict' ∧
      verdict.decision.severity ≤ verdict'.decision.severity := by
  refine ⟨_, _, judgeCommand_lexes hcommand _ _, judgeCommand_lexes hcommand' _ _, ?_⟩
  refine (judgeArgv_strictest hallow rules).mono (judgeArgv_strictest hallow' rules) ?_
  intro rule hrule hmatch
  rw [hnorm] at hmatch
  exact ⟨hrule, ruleMatches_respelled hargs hmatch⟩

/-- `git reset --hard` spelled with an abbreviation, in another order and with more
arguments. -/
theorem judgeCommand_respelled_reset :
    ∃ verdict verdict', judgeCommand (.str "git reset --hard") ["git"] defaultCommandRules =
        .ok verdict ∧
      judgeCommand (.str "git -q --ha=now reset") ["git"] defaultCommandRules = .ok verdict' ∧
      verdict.decision.severity ≤ verdict'.decision.severity := by
  have hlex : Lexes "git reset --hard" "git" ["reset", "--hard"] := by decide +kernel
  have hlex' : Lexes "git -q --ha=now reset" "git" ["-q", "--ha=now", "reset"] := by decide +kernel
  refine judgeCommand_respelled hlex hlex' (by decide) (by decide) rfl ?_ _
  have habbreviate : Respell ["reset".toList, "--hard".toList] ["reset".toList, "--ha=now".toList] :=
    .abbreviate ["reset".toList] [] (by decide) (by decide) (by decide)
  have hpermute : Respell ["reset".toList, "--ha=now".toList] ["--ha=now".toList, "reset".toList] :=
    .permute (List.Perm.swap _ _ _)
  exact ((Relation.ReflTransGen.single habbreviate).tail hpermute).tail (.insert [] _ _)

end AegisCode
