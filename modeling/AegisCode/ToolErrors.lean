import AegisCode.ToolPrograms

/-!
# What the tools settle

A call of a tool is settled when it comes to a result, and to a success only if the
work was done. Each tool settles the calls whose arguments it can read, and whose
failures are the ones that it catches.
-/
namespace AegisCode

open Program Prog Posix

/-! ## What a call comes to -/

/-- The call did not do what it was made for. A walk did not when it could not list the
directory that it starts from. -/
def Failed : OsEv → Prop
  | ⟨.makedirs _, .error _⟩ => True
  | ⟨.write _ _, .error _⟩ => True
  | ⟨.read _, .error _⟩ => True
  | ⟨.listdir _, .error _⟩ => True
  | ⟨.walk _, .error _⟩ => True
  | ⟨.walk top, .ok walked⟩ => top ∈ walked.unlisted
  | ⟨.subprocess _ _, .error _⟩ => True
  | ⟨.subprocess _ _, .ok p⟩ => p.returncode ≠ 0
  | _ => False

/-- What the call raises, the tool catches. -/
def Caught : OsEv → Prop
  | ⟨.makedirs _, .error e⟩ => e.kind = .osError
  | ⟨.write _ _, .error e⟩ => e.kind = .osError
  | ⟨.read _, .error e⟩ => e.kind = .osError
  | ⟨.listdir _, .error e⟩ => e.kind = .osError
  | ⟨.walk _, .error _⟩ => False
  | ⟨.subprocess _ _, .error (.raised _)⟩ => False
  | _ => True

/-- A walk listed the directory that it starts from. -/
def Listed : OsEv → Prop
  | ⟨.walk top, .ok walked⟩ => top ∉ walked.unlisted
  | _ => True

def IsRead (e : OsEv) : Prop := ∃ file, e.call = .read file

/-- No line of what was read can be searched. -/
def Lineless : OsEv → Prop
  | ⟨.read _, .ok data⟩ => ToolSet.textLines data = []
  | _ => True

/-- The tool did its work: its calls succeeded. The search passes over the files that
it cannot read. -/
def Worked (tool : ToolSet.Tool) (tr : List OsEv) : Prop :=
  ∀ e ∈ tr, Failed e → tool = .searchText ∧ IsRead e

/-- What is asked of a tool: a result, and no success unless it did its work. -/
def Settles (tool : ToolSet.Tool) (tr : List OsEv) (out : Except Exn ToolResult) : Prop :=
  ∃ result, out = .ok result ∧ (result.status = .success → Worked tool tr)

/-- The arguments are there, and of the types that the tool takes them for. -/
def Fits (t : ToolSet) (ctx : TaskContext) (arguments : Dict) (tr : List OsEv) :
    ToolSet.Tool → Prop
  | .writeFile => ∃ path content, arguments.get? "path" = some path ∧
      arguments.get? "content" = some (.str content) ∧
      ((encodeUtf8 content).length ≤ ctx.writeMaxBytes → ∃ p, path = .str p)
  | .readFile => ∃ p, arguments.get? "path" = some (.str p)
  | .listFiles => ∀ path, arguments.get? "path" = some path → ∃ p, path = .str p
  | .searchText => ∃ query, arguments.get? "query" = some query ∧
      ((∃ q, query = .str q) ∨ ∀ e ∈ tr, Lineless e)
  | .finish => True
  | .runCommand => ∃ command argv, arguments.get? "command" = some (.str command) ∧
      shlexSplit command = .ok argv
  | .runTests => ∃ argv, shlexSplit t.testCommand = .ok argv

/-- The tool can settle the call: the arguments fit, its calls raise nothing that it
does not catch, and a search can list the workspace. -/
structure Able (t : ToolSet) (ctx : TaskContext) (arguments : Dict) (tool : ToolSet.Tool)
    (tr : List OsEv) : Prop where
  fits : Fits t ctx arguments tr tool
  caught : ∀ e ∈ tr, Caught e
  listed : tool = .searchText → ∀ e ∈ tr, Listed e

section Settling
variable {tool : ToolSet.Tool} {tr : List OsEv}

@[simp] theorem settles_ok {result : ToolResult} :
    Settles tool tr (.ok result) ↔ (result.status = .success → Worked tool tr) := by
  simp [Settles]

@[simp] theorem settles_error {e : Exn} : ¬ Settles tool tr (.error e) := by
  rintro ⟨result, habs, _⟩
  cases habs

@[simp] theorem worked_nil : Worked tool [] := by
  intro e he
  exact absurd he List.not_mem_nil

theorem worked_cons {e : OsEv} :
    Worked tool (e :: tr) ↔ (Failed e → tool = .searchText ∧ IsRead e) ∧ Worked tool tr :=
  List.forall_mem_cons

end Settling

namespace ToolSet

section Runs
variable {t : ToolSet} {ctx : TaskContext} {arguments : Dict} {tr : List OsEv}

/-! ## What the tools come to -/

theorem writeText_settles_iff {path content : Str} {out : Except Exn ToolResult}
    (hrun : Runs (writeText ctx path content).run tr out) :
    Settles .writeFile tr out ↔ ∀ e ∈ tr, Caught e := by
  obtain ⟨made, tr, rfl, hmade⟩ := runs_lift_perform_bind.mp hrun
  obtain ⟨_, rfl, hwrite⟩ | ⟨e, rfl, hkind, hdone⟩ | ⟨e, rfl, hkind, rfl, rfl⟩ :=
    runs_exceptOsError hmade
  · obtain ⟨written, tr, rfl, hwritten⟩ := runs_lift_perform_bind.mp hwrite
    obtain ⟨_, rfl, hdone⟩ | ⟨e, rfl, hkind, hdone⟩ | ⟨e, rfl, hkind, rfl, rfl⟩ :=
      runs_exceptOsError hwritten
    · obtain ⟨rfl, rfl⟩ := runs_return.mp hdone
      simp [worked_cons, Failed, Caught]
    · obtain ⟨rfl, rfl⟩ := runs_return.mp hdone
      simp [toolError, Caught, hkind]
    · simp [Caught, hkind]
  · obtain ⟨rfl, rfl⟩ := runs_return.mp hdone
    simp [toolError, Caught, hkind]
  · simp [Caught, hkind]

theorem writeFile_settles_iff {out : Except Exn ToolResult}
    (hrun : Runs (writeFile ctx arguments).run tr out) :
    Settles .writeFile tr out ↔ Fits t ctx arguments tr .writeFile ∧ ∀ e ∈ tr, Caught e := by
  unfold writeFile at hrun
  unfold Fits
  generalize arguments.get? "path" = path at hrun ⊢
  generalize arguments.get? "content" = content at hrun ⊢
  split at hrun
  · obtain ⟨rfl, rfl⟩ := runs_throw.mp hrun
    simp
  · obtain ⟨rfl, rfl⟩ := runs_throw.mp hrun
    simp
  · rename_i path content
    by_cases hlong : (encodeUtf8 content).length > ctx.writeMaxBytes
    · rw [if_pos hlong] at hrun
      obtain ⟨rfl, rfl⟩ := runs_return.mp hrun
      simp [toolError, not_le.mpr hlong]
    · rw [if_neg hlong] at hrun
      split at hrun
      · rw [writeText_settles_iff hrun]
        simp
      · rename_i hnostr
        obtain ⟨rfl, rfl⟩ := runs_throw.mp hrun
        simpa [not_lt.mp hlong] using hnostr
  · rename_i hnostr
    obtain ⟨rfl, rfl⟩ := runs_throw.mp hrun
    simp only [settles_error, false_iff, not_and]
    rintro ⟨_, content, _, hcontent, _⟩
    exact absurd (Option.some.inj hcontent) (hnostr content)

theorem readFile_settles_iff {out : Except Exn ToolResult}
    (hrun : Runs (readFile ctx arguments).run tr out) :
    Settles .readFile tr out ↔ Fits t ctx arguments tr .readFile ∧ ∀ e ∈ tr, Caught e := by
  unfold readFile at hrun
  unfold Fits
  generalize arguments.get? "path" = path at hrun ⊢
  split at hrun
  · obtain ⟨rfl, rfl⟩ := runs_throw.mp hrun
    simp
  · obtain ⟨read, tr, rfl, hread⟩ := runs_lift_perform_bind.mp hrun
    obtain ⟨raw, rfl, hdone⟩ | ⟨e, rfl, hkind, hdone⟩ | ⟨e, rfl, hkind, rfl, rfl⟩ :=
      runs_exceptOsError hread
    · obtain ⟨rfl, rfl⟩ := runs_return.mp hdone
      simp [worked_cons, Failed, Caught]
    · obtain ⟨rfl, rfl⟩ := runs_return.mp hdone
      simp [toolError, Caught, hkind]
    · simp [Caught, hkind]
  · rename_i hnostr
    obtain ⟨rfl, rfl⟩ := runs_throw.mp hrun
    simpa using hnostr

theorem listFiles_settles_iff {out : Except Exn ToolResult}
    (hrun : Runs (listFiles ctx arguments).run tr out) :
    Settles .listFiles tr out ↔ Fits t ctx arguments tr .listFiles ∧ ∀ e ∈ tr, Caught e := by
  have hfit : Fits t ctx arguments tr .listFiles ↔
      ∃ p, (arguments.get? "path").getD (.str ".") = .str p := by
    unfold Fits
    cases arguments.get? "path" with
    | none => simp
    | some v => simp
  rw [hfit]
  unfold listFiles at hrun
  generalize (arguments.get? "path").getD (.str ".") = path at hrun ⊢
  split at hrun
  · obtain ⟨listed, tr, rfl, hlisted⟩ := runs_lift_perform_bind.mp hrun
    obtain ⟨names, rfl, hdone⟩ | ⟨e, rfl, hkind, hdone⟩ | ⟨e, rfl, hkind, rfl, rfl⟩ :=
      runs_exceptOsError hlisted
    · obtain ⟨rfl, rfl⟩ := runs_return.mp hdone
      simp [worked_cons, Failed, Caught]
    · obtain ⟨rfl, rfl⟩ := runs_return.mp hdone
      simp [toolError, Caught, hkind]
    · simp [Caught, hkind]
  · rename_i hnostr
    obtain ⟨rfl, rfl⟩ := runs_throw.mp hrun
    simpa using hnostr

/-! ### search_text -/

theorem fileHits_ok_iff (t : ToolSet) (base fp : Str) (query : Json) (data : List UInt8) :
    (∃ hits, t.fileHits base fp query data = .ok hits) ↔
      (∃ q, query = .str q) ∨ textLines data = [] := by
  unfold fileHits
  split
  · simp
  · rename_i hnostr
    by_cases hlines : textLines data = []
    · simp [hlines]
    · simp only [hlines, or_false]
      constructor
      · rintro ⟨_, habs⟩
        cases habs
      · rintro ⟨q, rfl⟩
        exact absurd rfl (hnostr q)

/-- The search only reads. It comes to an end when what the reads raise is caught, and
a query that is no string meets no line. -/
theorem searchFiles_cases {base : Str} {query : Json} {fps : List Str}
    {out : Except Exn (List Str)} (hrun : Runs (t.searchFiles base query fps).run tr out) :
    (∀ e ∈ tr, IsRead e) ∧ ((∃ hits, out = .ok hits) ↔
      (∀ e ∈ tr, Caught e) ∧ ((∃ q, query = .str q) ∨ ∀ e ∈ tr, Lineless e)) := by
  induction fps generalizing tr out with
  | nil =>
    obtain ⟨rfl, rfl⟩ := runs_return.mp hrun
    simp
  | cons fp fps ih =>
    obtain ⟨read, tr, rfl, hread⟩ := runs_lift_perform_bind.mp hrun
    have hisread : ∀ r, IsRead ⟨.read fp, r⟩ := fun r => ⟨fp, rfl⟩
    obtain ⟨data, rfl, hscan⟩ | ⟨e, rfl, hkind, hrest⟩ | ⟨e, rfl, hkind, rfl, rfl⟩ :=
      runs_exceptOsError hread
    · have hhits := fileHits_ok_iff t base fp query data
      obtain ⟨e, herr, rfl, rfl⟩ | ⟨hits, hok, hrest⟩ := runs_value_bind.mp hscan
      · have hno : ¬ ((∃ q, query = .str q) ∨ textLines data = []) := by
          rw [← hhits, herr]
          rintro ⟨_, habs⟩
          cases habs
        refine ⟨List.forall_mem_singleton.mpr (hisread _), ?_⟩
        simpa [Lineless, Caught] using hno
      · have hyes := hhits.mp ⟨hits, hok⟩
        obtain ⟨r, hrec, rfl⟩ := runs_map.mp hrest
        obtain ⟨hreads, hiff⟩ := ih hrec
        refine ⟨List.forall_mem_cons.mpr ⟨hisread _, hreads⟩, ?_⟩
        have hmap : (∃ h, r.map (hits ++ ·) = .ok h) ↔ ∃ h, r = .ok h := by
          cases r with
          | ok h => simp [Except.map]
          | error e => simp [Except.map]
        rw [hmap, hiff]
        simp only [List.forall_mem_cons, Caught, Lineless, true_and]
        refine and_congr_right fun _ => ?_
        obtain hstr | hlines := hyes
        · simp [hstr]
        · simp [hlines]
    · obtain ⟨hreads, hiff⟩ := ih hrest
      refine ⟨List.forall_mem_cons.mpr ⟨hisread _, hreads⟩, ?_⟩
      rw [hiff]
      simp [Caught, Lineless, hkind]
    · refine ⟨List.forall_mem_singleton.mpr (hisread _), ?_⟩
      simp [Caught, hkind]

theorem searchText_settles_iff {out : Except Exn ToolResult}
    (hrun : Runs (t.searchText ctx arguments).run tr out) :
    Settles .searchText tr out ↔ Fits t ctx arguments tr .searchText ∧
      (∀ e ∈ tr, Caught e) ∧ ∀ e ∈ tr, Listed e := by
  unfold searchText at hrun
  unfold Fits
  generalize arguments.get? "query" = query at hrun ⊢
  cases query with
  | none =>
    obtain ⟨rfl, rfl⟩ := runs_throw.mp hrun
    simp
  | some query =>
    obtain ⟨e, hwalk, rfl⟩ | ⟨_, walked, tr, rfl, hwalk, hrest⟩ := runs_except_bind.mp hrun
    · obtain rfl := runs_perform.mp hwalk
      simp [Caught]
    · obtain rfl := runs_perform.mp hwalk
      obtain ⟨r, hsearch, rfl⟩ := runs_map.mp hrest
      obtain ⟨hreads, hiff⟩ := searchFiles_cases hsearch
      have hlisted : ∀ e ∈ tr, Listed e := by
        rintro ⟨_, r⟩ he
        obtain ⟨file, rfl⟩ := hreads _ he
        trivial
      have hworked : Worked .searchText (⟨.walk (ctx.resolve "."), .ok walked⟩ :: tr) ↔
          Listed ⟨.walk (ctx.resolve "."), .ok walked⟩ := by
        have hpassed : Worked .searchText tr := fun e he _ => ⟨rfl, hreads e he⟩
        rw [worked_cons, and_iff_left hpassed]
        simp [Failed, Listed, IsRead]
      have hok : Settles .searchText (⟨.walk (ctx.resolve "."), .ok walked⟩ :: tr)
          (r.map searchResult) ↔
          (∃ hits, r = .ok hits) ∧ Listed ⟨.walk (ctx.resolve "."), .ok walked⟩ := by
        rw [← hworked]
        cases r with
        | ok hits => simp [Except.map]
        | error e => simp [Except.map]
      rw [List.singleton_append, hok, hiff]
      simp only [List.forall_mem_cons, Option.some.injEq, exists_eq_left',
        Caught, Lineless, true_and]
      tauto

/-! ### Processes -/

/-- A process completes, runs out of time, or raises. -/
theorem runs_process {argv : List Str} {cwd : Str} {f : Option Completed → Tooling ToolResult}
    {out : Except Exn ToolResult} (hrun : Runs (runProcess argv cwd >>= f).run tr out) :
    (∃ p t, tr = ⟨.subprocess argv cwd, .ok p⟩ :: t ∧ Runs (f (some p)).run t out) ∨
      (∃ t, tr = ⟨.subprocess argv cwd, .error .timeoutExpired⟩ :: t ∧
        Runs (f none).run t out) ∨
      ∃ e, tr = [⟨.subprocess argv cwd, .error (.raised e)⟩] ∧ out = .error e := by
  unfold runProcess at hrun
  rw [LawfulMonad.bind_assoc] at hrun
  obtain ⟨answer, tr, rfl, hrest⟩ := runs_lift_perform_bind.mp hrun
  cases answer with
  | ok p => exact .inl ⟨p, tr, rfl, hrest⟩
  | error e =>
    cases e with
    | timeoutExpired => exact .inr (.inl ⟨tr, rfl, hrest⟩)
    | raised e =>
      obtain ⟨rfl, rfl⟩ := runs_ret.mp hrest
      exact .inr (.inr ⟨e, rfl, rfl⟩)

theorem runCommand_settles_iff {out : Except Exn ToolResult}
    (hrun : Runs (t.runCommand ctx arguments).run tr out) :
    Settles .runCommand tr out ↔ Fits t ctx arguments tr .runCommand ∧ ∀ e ∈ tr, Caught e := by
  unfold runCommand at hrun
  unfold Fits
  generalize arguments.get? "command" = command at hrun ⊢
  cases command with
  | none =>
    obtain ⟨rfl, rfl⟩ := runs_throw.mp hrun
    simp
  | some command =>
    have hsplit : (∃ argv, splitArgument command = .ok argv) ↔
        ∃ s argv, some command = some (.str s) ∧ shlexSplit s = .ok argv := by
      unfold splitArgument
      cases command <;> simp
    rw [← hsplit]
    obtain ⟨e, hraised, rfl, rfl⟩ | ⟨argv, hargv, hrest⟩ := runs_value_bind.mp hrun
    · simp [hraised]
    · obtain ⟨p, tr, rfl, hdone⟩ | ⟨tr, rfl, hdone⟩ | ⟨e, rfl, rfl⟩ := runs_process hrest
      · obtain ⟨rfl, rfl⟩ := runs_return.mp hdone
        simp [hargv, worked_cons, Failed, Caught]
      · obtain ⟨rfl, rfl⟩ := runs_return.mp hdone
        simp [hargv, Caught, timedOut]
      · simp [Caught]

theorem runTests_settles_iff (arguments : Dict) {out : Except Exn ToolResult}
    (hrun : Runs (t.runTests ctx).run tr out) :
    Settles .runTests tr out ↔ Fits t ctx arguments tr .runTests ∧ ∀ e ∈ tr, Caught e := by
  unfold Fits
  obtain ⟨e, hraised, rfl, rfl⟩ | ⟨argv, hargv, hrest⟩ := runs_value_bind.mp hrun
  · simp [hraised]
  · obtain ⟨p, tr, rfl, hdone⟩ | ⟨tr, rfl, hdone⟩ | ⟨e, rfl, rfl⟩ := runs_process hrest
    · obtain ⟨rfl, rfl⟩ := runs_return.mp hdone
      simp [hargv, worked_cons, Failed, Caught]
    · obtain ⟨rfl, rfl⟩ := runs_return.mp hdone
      simp [hargv, Caught, timedOut]
    · simp [Caught]

/-- A tool settles exactly the calls that it is able to. -/
theorem run_settles_iff {tool : Tool} {out : Except Exn ToolResult}
    (hrun : Runs (t.run ctx arguments tool).run tr out) :
    Settles tool tr out ↔ Able t ctx arguments tool tr := by
  have hable : Able t ctx arguments tool tr ↔ Fits t ctx arguments tr tool ∧
      (∀ e ∈ tr, Caught e) ∧ (tool = .searchText → ∀ e ∈ tr, Listed e) :=
    ⟨fun h => ⟨h.fits, h.caught, h.listed⟩, fun h => ⟨h.1, h.2.1, h.2.2⟩⟩
  rw [hable]
  cases tool with
  | writeFile => simpa using writeFile_settles_iff (t := t) hrun
  | readFile => simpa using readFile_settles_iff (t := t) hrun
  | listFiles => simpa using listFiles_settles_iff (t := t) hrun
  | searchText => simpa using searchText_settles_iff hrun
  | finish =>
    obtain ⟨rfl, rfl⟩ := runs_return.mp hrun
    simp [Fits]
  | runCommand => simpa using runCommand_settles_iff hrun
  | runTests => simpa using runTests_settles_iff arguments hrun

end Runs

end ToolSet

end AegisCode
