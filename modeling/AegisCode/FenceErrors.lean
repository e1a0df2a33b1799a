import AegisCode.Dispatcher

/-!
# The exceptions of the fence

The fence has no guard around it, so what `check_path` and `lex_command` raise leaves the
dispatcher. It raises on a path that cannot be resolved and on a command that is no text.
-/
namespace AegisCode

open Program Posix

/-! ## Commands -/

/-- `lex_command` raises on the value: it is no string, and no collection with one of the
shell's tokens in it. -/
def Unlexable (command : Json) : Prop :=
  (∀ s, command ≠ .str s) ∧
    ∀ members, command.members? = some members → ∀ token ∈ metaTokens, .str token ∉ members

theorem lexCommand_raises_iff {command : Json} :
    (∃ e, lexCommand command = .error e) ↔ Unlexable command := by
  unfold lexCommand Unlexable
  split
  · simp
  · rename_i hstr
    split
    · rename_i hnone
      simpa [hnone] using hstr
    · rename_i members hsome
      have hnostr : ∀ s, command ≠ .str s := hstr
      split
      · -- a member is one of the tokens
        rename_i token hfind
        have hany := List.find?_some hfind
        obtain ⟨member, hmember, heq⟩ := List.any_eq_true.mp hany
        split at heq
        · rename_i name
          obtain rfl := of_decide_eq_true heq
          refine iff_of_false (fun ⟨_, habs⟩ => by cases habs) fun ⟨_, hno⟩ => ?_
          exact hno members hsome name (List.mem_of_find?_eq_some hfind) hmember
        · cases heq
      · rename_i hfind
        refine iff_of_true ⟨_, rfl⟩ ⟨hnostr, fun members' hmembers' token htoken hmem => ?_⟩
        obtain rfl := Option.some.inj (hsome.symm.trans hmembers')
        have hno := List.find?_eq_none.mp hfind token htoken
        exact hno (List.any_eq_true.mpr ⟨_, hmem, decide_eq_true rfl⟩)

theorem lexCommand_eq_ok {command : Json} {lex : LexResult} (hlex : lexCommand command = .ok lex) :
    (∃ s, command = .str s ∧ lex = lexString s) ∨ (lex.ok = false ∧ ∀ s, command ≠ .str s) := by
  unfold lexCommand at hlex
  split at hlex
  · exact .inl ⟨_, rfl, (Except.ok.inj hlex).symm⟩
  · rename_i hstr
    right
    split at hlex
    · cases hlex
    · split at hlex
      · obtain rfl := Except.ok.inj hlex
        exact ⟨rfl, hstr⟩
      · cases hlex

/-! ## Paths and tokens -/

theorem checkedPath_raises_iff {fs : FileSystem} {path : Json} {root : Str} {patterns : List Str} :
    (∃ e, checkedPath fs path root patterns = .error e) ↔ checkPathRaises fs path root = true := by
  unfold checkedPath
  split
  · next hraises => simp [hraises]
  · next hcalm => simpa using hcalm

theorem map_raises_iff {α β : Type} {f : α → β} {r : Except Exn α} :
    (∃ e, r.map f = .error e) ↔ ∃ e, r = .error e := by
  cases r <;> simp [Except.map]

section Tokens
variable {fs : FileSystem} {root : Str} {patterns : List Str} {consuming : Bool}

theorem fenceToken_raises_iff {token : Str} :
    (∃ e, fenceToken fs root patterns consuming token = .error e) ↔
      examined patterns (candidate token) = true ∧
        checkPathRaises fs (.str (candidate token)) root = true := by
  unfold fenceToken
  split
  · next hskipped => simp_all
  · next hexamined =>
    rw [map_raises_iff, checkedPath_raises_iff]
    simp_all

/-- The loop raises at the first token that it does not get past, if that one raises. -/
theorem fenceTokens_raises_iff {tokens : List Str} :
    (∃ e, fenceTokens fs root patterns consuming tokens = .error e) ↔
      ∃ pre token post, tokens = pre ++ token :: post ∧
        (∀ t ∈ pre, fenceToken fs root patterns consuming t = .ok none) ∧
        examined patterns (candidate token) = true ∧
          checkPathRaises fs (.str (candidate token)) root = true := by
  induction tokens with
  | nil => simp [fenceTokens]
  | cons token tokens ih =>
    have hfirst : (∃ e, fenceToken fs root patterns consuming token = .error e) ↔ _ :=
      fenceToken_raises_iff
    unfold fenceTokens
    cases htoken : fenceToken fs root patterns consuming token with
    | error e =>
      have hraises := hfirst.mp ⟨e, htoken⟩
      exact iff_of_true ⟨e, rfl⟩ ⟨[], token, tokens, rfl, by simp, hraises⟩
    | ok reason =>
      have hcalm : ¬ (examined patterns (candidate token) = true ∧
          checkPathRaises fs (.str (candidate token)) root = true) := by
        rw [← hfirst, htoken]
        rintro ⟨e, habs⟩
        cases habs
      cases reason with
      | some reason =>
        refine iff_of_false (fun ⟨e, habs⟩ => by cases habs) ?_
        rintro ⟨pre, token', post, heq, hpre, hraises⟩
        cases pre with
        | nil =>
          cases heq
          exact hcalm hraises
        | cons first pre =>
          cases heq
          have habs := hpre token (List.mem_cons_self ..)
          rw [htoken] at habs
          cases habs
      | none =>
        dsimp only
        rw [ih]
        constructor
        · rintro ⟨pre, token', post, rfl, hpre, hraises⟩
          exact ⟨token :: pre, token', post, rfl, List.forall_mem_cons.mpr ⟨htoken, hpre⟩, hraises⟩
        · rintro ⟨pre, token', post, heq, hpre, hraises⟩
          cases pre with
          | nil =>
            cases heq
            exact absurd hraises hcalm
          | cons first pre =>
            cases heq
            exact ⟨pre, token', post, rfl, (List.forall_mem_cons.mp hpre).2, hraises⟩

end Tokens

/-! ## Actions -/

/-- What makes the fence raise: a path that `check_path` cannot resolve, a command that
cannot be lexed, or such a path in a command, behind tokens that the fence lets pass. -/
inductive FenceRaises (d : Dispatcher) (fs : FileSystem) (action : Action) (ctx : TaskContext) :
    Prop where
  | path (path : Json) (htool : action.tool ∈ fileTools)
      (hpath : action.arguments.get? "path" = some path)
      (hraises : checkPathRaises fs path (d.root ctx) = true)
  | command (command : Json) (htool : action.tool = "run_command")
      (hcommand : action.arguments.get? "command" = some command)
      (htruthy : command.truthy = true) (hraises : Unlexable command)
  | token (command : Str) (pre : List Str) (token : Str) (post : List Str)
      (htool : action.tool = "run_command")
      (hcommand : action.arguments.get? "command" = some (.str command))
      (hlexed : (lexString command).ok = true)
      (htokens : (lexString command).argv.tail = pre ++ token :: post)
      (hpre : ∀ t ∈ pre, fenceToken fs (d.root ctx) d.pc.sensitivePatterns
        (fileConsuming ((lexString command).argv.headD [])) t = .ok none)
      (hexamined : examined d.pc.sensitivePatterns (candidate token) = true)
      (hraises : checkPathRaises fs (.str (candidate token)) (d.root ctx) = true)

section Fence
variable {d : Dispatcher} {fs : FileSystem} {action : Action} {ctx : TaskContext}

theorem fenceCommand_raises_iff {command : Json} {root : Str} {patterns : List Str} :
    (∃ e, fenceCommand fs command root patterns = .error e) ↔ Unlexable command ∨
      ∃ s, command = .str s ∧ (lexString s).ok = true ∧
        ∃ e, fenceTokens fs root patterns (fileConsuming ((lexString s).argv.headD []))
          (lexString s).argv.tail = .error e := by
  rw [← lexCommand_raises_iff]
  unfold fenceCommand
  cases hlex : lexCommand command with
  | error e => exact iff_of_true ⟨e, rfl⟩ (.inl ⟨e, rfl⟩)
  | ok lex =>
    have hlexed : ¬ ∃ e, (Except.ok lex : Except Exn LexResult) = .error e :=
      fun ⟨_, habs⟩ => by cases habs
    rw [or_iff_right hlexed]
    have hnone : ¬ ∃ e, (Except.ok none : Except Exn (Option Str)) = .error e :=
      fun ⟨_, habs⟩ => by cases habs
    show (∃ e, (if !lex.ok then Except.ok none else fenceTokens fs root patterns
      (fileConsuming (lex.argv.headD [])) lex.argv.tail) = .error e) ↔ _
    obtain ⟨s, rfl, rfl⟩ | ⟨hrefused, hnostr⟩ := lexCommand_eq_ok hlex
    · cases hok : (lexString s).ok with
      | true =>
        simp only [Bool.not_true, Bool.false_eq_true, if_false]
        exact ⟨fun h => ⟨s, rfl, hok, h⟩, fun ⟨_, heq, _, h⟩ => by cases heq; exact h⟩
      | false =>
        refine iff_of_false hnone ?_
        rintro ⟨_, heq, habs, _⟩
        cases heq
        rw [hok] at habs
        cases habs
    · rw [if_pos (by rw [hrefused]; rfl)]
      exact iff_of_false hnone fun ⟨s, heq, _⟩ => hnostr s heq

theorem pathFence_raises_iff : (∃ e, d.pathFenceReason fs action ctx = .error e) ↔
    action.tool ∈ fileTools ∧ ∃ path, action.arguments.get? "path" = some path ∧
      checkPathRaises fs path (d.root ctx) = true := by
  unfold Dispatcher.pathFenceReason
  generalize action.arguments.get? "path" = path
  split
  · next htool =>
    cases path with
    | some path => simp [map_raises_iff, checkedPath_raises_iff, htool]
    | none => simp
  · next htool => simp [htool]

theorem commandFence_raises_iff (htool : action.tool = "run_command") :
    (∃ e, d.runCommandFenceReason fs action ctx = .error e) ↔
      ∃ command, action.arguments.get? "command" = some command ∧ command.truthy = true ∧
        ∃ e, fenceCommand fs command (d.root ctx) d.pc.sensitivePatterns = .error e := by
  unfold Dispatcher.runCommandFenceReason
  rw [if_neg (not_not.mpr htool)]
  have hnone : ¬ ∃ e, (Except.ok none : Except Exn (Option Str)) = .error e :=
    fun ⟨_, habs⟩ => by cases habs
  generalize action.arguments.get? "command" = command
  cases command with
  | none => exact iff_of_false hnone fun ⟨_, habs, _⟩ => by cases habs
  | some command =>
    dsimp only [Option.getD_some]
    cases htruthy : command.truthy with
    | false =>
      refine iff_of_false hnone ?_
      rintro ⟨_, heq, habs, _⟩
      cases heq
      rw [htruthy] at habs
      cases habs
    | true => exact ⟨fun h => ⟨command, rfl, htruthy, h⟩, fun ⟨_, heq, _, h⟩ => by cases heq; exact h⟩

/-- The fence raises exactly on such actions. -/
theorem fence_raises_iff :
    (∃ e, d.fence fs action ctx = .error e) ↔ FenceRaises d fs action ctx := by
  have hfence : (∃ e, d.fence fs action ctx = .error e) ↔
      (∃ e, d.pathFenceReason fs action ctx = .error e) ∨
        d.pathFenceReason fs action ctx = .ok none ∧
          ∃ e, d.runCommandFenceReason fs action ctx = .error e := by
    unfold Dispatcher.fence
    rcases d.pathFenceReason fs action ctx with e | _ | reason
    · simp
    · rcases d.runCommandFenceReason fs action ctx with e | _ | reason <;> simp
    · simp
  rw [hfence]
  constructor
  · rintro (hpath | ⟨-, hcommand⟩)
    · obtain ⟨htool, path, hget, hraises⟩ := pathFence_raises_iff.mp hpath
      exact .path path htool hget hraises
    · by_cases htool : action.tool = "run_command"
      · obtain ⟨command, hget, htruthy, hraised⟩ := (commandFence_raises_iff htool).mp hcommand
        obtain hunlexable | ⟨s, rfl, hok, hloop⟩ := fenceCommand_raises_iff.mp hraised
        · exact .command command htool hget htruthy hunlexable
        · obtain ⟨pre, token, post, htokens, hpre, hexamined, hraises⟩ :=
            fenceTokens_raises_iff.mp hloop
          exact .token s pre token post htool hget hok htokens hpre hexamined hraises
      · obtain ⟨e, hcommand⟩ := hcommand
        rw [Dispatcher.runCommandFenceReason, if_pos htool] at hcommand
        cases hcommand
  · have hpassed : action.tool = "run_command" → d.pathFenceReason fs action ctx = .ok none := by
      intro htool
      unfold Dispatcher.pathFenceReason
      rw [htool, if_neg (by decide)]
    rintro (⟨path, htool, hget, hraises⟩ | ⟨command, htool, hget, htruthy, hunlexable⟩ |
      ⟨s, pre, token, post, htool, hget, hok, htokens, hpre, hexamined, hraises⟩)
    · exact .inl (pathFence_raises_iff.mpr ⟨htool, path, hget, hraises⟩)
    · refine .inr ⟨hpassed htool, (commandFence_raises_iff htool).mpr ⟨command, hget, htruthy, ?_⟩⟩
      exact fenceCommand_raises_iff.mpr (.inl hunlexable)
    · have htruthy : (Json.str s).truthy = true := by
        cases s with
        | nil => cases hok
        | cons c s => rfl
      refine .inr ⟨hpassed htool, (commandFence_raises_iff htool).mpr ⟨.str s, hget, htruthy, ?_⟩⟩
      exact fenceCommand_raises_iff.mpr (.inr ⟨s, rfl, hok,
        fenceTokens_raises_iff.mpr ⟨pre, token, post, htokens, hpre, hexamined, hraises⟩⟩)

end Fence

end AegisCode
