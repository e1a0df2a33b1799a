import AegisCode.Dispatcher
import AegisCode.FileTools
import AegisCode.Traces

/-!
# The tools as programs

The `run` methods of the seven tools, with every call of the operating system and of
`subprocess` left open: it may be answered, or raise. What a tool catches is an
`OSError` of a call on a path, or the `TimeoutExpired` of a process.
-/
namespace AegisCode

open Program Prog Posix

/-! ## The calls -/

structure Completed where
  returncode : ℤ
  stdout : Str
  stderr : Str

/-- What `subprocess.run` raises: the one exception that is caught, or another. -/
inductive ProcessError where
  | timeoutExpired
  | raised (exc : Exn)

/-- What `os.walk` comes by: the files, and the directories whose `OSError` it passed
over. -/
structure Walked where
  files : List Str
  unlisted : List Str

inductive OsCall where
  | makedirs (name : Str)
  | write (file text : Str)
  | read (file : Str)
  | listdir (path : Str)
  | walk (top : Str)
  | subprocess (argv : List Str) (cwd : Str)

@[reducible] def OsResp : OsCall → Type
  | .makedirs _ => Except Exn Unit
  | .write _ _ => Except Exn Unit
  | .read _ => Except Exn (List UInt8)
  | .listdir _ => Except Exn (List Str)
  | .walk _ => Except Exn Walked
  | .subprocess _ _ => Except ProcessError Completed

/-- A call of a tool with its answer. -/
abbrev OsEv := Event OsCall OsResp

abbrev Tooling := ExceptT Exn (Prog OsCall OsResp)

/-- `except OSError as e` behind a call, with the text of the exception. -/
def exceptOsError {α : Type} : Except Exn α → Tooling (Except Str α)
  | .ok a => return .ok a
  | .error e => if e.kind = .osError then return .error e.text else throw e

/-! ## The tools -/

/-- What the tools are built with; `os.path.relpath` asks for the working directory. -/
structure ToolSet where
  testCommand : Str
  outputMaxBytes : ℤ
  relpath : Str → Str → Str

/-- The slice `s[:n]`. -/
def sliceTo (n : ℤ) (s : Str) : Str :=
  if 0 ≤ n then s.take n.toNat else s.take (s.length - (-n).toNat)

namespace ToolSet
variable (t : ToolSet) (ctx : TaskContext) (arguments : Dict)

def wrote (path : Str) : ToolResult where
  tool := "write_file"
  status := .success
  summary := "wrote ".toList ++ path
  artifacts := [("changed_files", .arr [.str path])]

/-- The end of `WriteFileTool.run`, once its arguments are checked. -/
def writeText (path content : Str) : Tooling ToolResult := do
  let abspath := ctx.resolve path
  match ← exceptOsError (← ExceptT.lift (perform (OsCall.makedirs (parentDir ctx path)))) with
  | .error e => return toolError "write_file" (cannot (fun _ => e) "write" path abspath)
  | .ok _ =>
    match ← exceptOsError (← ExceptT.lift (perform (OsCall.write abspath content))) with
    | .error e => return toolError "write_file" (cannot (fun _ => e) "write" path abspath)
    | .ok _ => return wrote path

/-- `WriteFileTool.run`. -/
def writeFile : Tooling ToolResult :=
  match arguments.get? "path", arguments.get? "content" with
  | none, _ => throw (missingArgument "path")
  | some _, none => throw (missingArgument "content")
  | some path, some (.str content) =>
    if (encodeUtf8 content).length > ctx.writeMaxBytes then
      return toolError "write_file" "content exceeds write_max_bytes"
    else match path with
      | .str path => writeText ctx path content
      | v => throw (noPath v)
  | some _, some v => throw ⟨.attributeError,
      "'".toList ++ v.typeName ++ "' object has no attribute 'encode'".toList⟩

def readResult (raw : List UInt8) : ToolResult :=
  if isBinary raw then { tool := "read_file", status := .success, summary := "binary skipped" }
  else
    { tool := "read_file", status := .success
      summary := "read ".toList ++ Nat.toDigits 10 (splitlines (decodeUtf8 raw)).length ++
        " lines".toList
      detailForLlm := decodeUtf8 raw }

/-- `ReadFileTool.run`. -/
def readFile : Tooling ToolResult :=
  match arguments.get? "path" with
  | none => throw (missingArgument "path")
  | some (.str path) => do
    match ← exceptOsError (← ExceptT.lift (perform (OsCall.read (ctx.resolve path)))) with
    | .error e => return toolError "read_file" (cannot (fun _ => e) "read" path (ctx.resolve path))
    | .ok raw => return readResult raw
  | some v => throw (noPath v)

/-- `ListFilesTool.run`. -/
def listFiles : Tooling ToolResult :=
  match (arguments.get? "path").getD (.str ".") with
  | .str path => do
    match ← exceptOsError (← ExceptT.lift (perform (OsCall.listdir (ctx.resolve path)))) with
    | .error e => return toolError "list_files" (cannot (fun _ => e) "list" path (ctx.resolve path))
    | .ok names => return {
        tool := "list_files", status := .success
        summary := Nat.toDigits 10 names.length ++ " entries".toList
        detailForLlm := Str.join "\n" (names.insertionSort (· ≤ ·)) }
  | v => throw (noPath v)

/-- The lines of a file that is not binary. -/
def textLines (data : List UInt8) : List Str :=
  if isBinary data then [] else splitlines (decodeUtf8 data)

/-- The matches in one file; only text can be searched for. -/
def fileHits (base fp : Str) (query : Json) (data : List UInt8) : Except Exn (List Str) :=
  match query with
  | .str q => .ok <| ((textLines data).zipIdx 1).filterMap fun line =>
      if Str.contains q line.1 then
        some (t.relpath fp base ++ ":".toList ++ Nat.toDigits 10 line.2 ++ ": ".toList ++
          strip line.1)
      else none
  | v =>
    if textLines data = [] then .ok []
    else .error ⟨.typeError,
      "'in <string>' requires string as left operand, not ".toList ++ v.typeName⟩

/-- The loop over the files; one that cannot be read is passed over. -/
def searchFiles (base : Str) (query : Json) : List Str → Tooling (List Str)
  | [] => return []
  | fp :: fps => do
    match ← exceptOsError (← ExceptT.lift (perform (OsCall.read fp))) with
    | .error _ => searchFiles base query fps
    | .ok data =>
      let hits ← ExceptT.mk (.ret (t.fileHits base fp query data))
      return hits ++ (← searchFiles base query fps)

def searchResult (hits : List Str) : ToolResult where
  tool := "search_text"
  status := .success
  summary := Nat.toDigits 10 hits.length ++ " matches".toList
  detailForLlm := Str.join "\n" hits

@[simp] theorem status_searchResult (hits : List Str) :
    (searchResult hits).status = .success := rfl

/-- `SearchTextTool.run`. -/
def searchText : Tooling ToolResult :=
  match arguments.get? "query" with
  | none => throw (missingArgument "query")
  | some query => do
    let base := ctx.resolve "."
    let walked ← ExceptT.mk (perform (OsCall.walk base))
    return searchResult (← t.searchFiles base query walked.files)

/-- `shlex.split` of an argument. -/
def splitArgument : Json → Except Exn (List Str)
  | .str command => shlexSplit command
  | .null => .error ⟨.valueError, "s argument must not be None"⟩
  | v => .error ⟨.attributeError,
      "'".toList ++ v.typeName ++ "' object has no attribute 'read'".toList⟩

/-- `subprocess.run` in a `try: ... except subprocess.TimeoutExpired`, where `none` is
the timeout. -/
def runProcess (argv : List Str) (cwd : Str) : Tooling (Option Completed) := do
  match ← ExceptT.lift (perform (OsCall.subprocess argv cwd)) with
  | .error .timeoutExpired => return none
  | .error (.raised exc) => throw exc
  | .ok p => return some p

def timedOut (tool summary : Str) : ToolResult where
  tool := tool
  status := .failure
  category := some .timeout
  summary := summary

def commandResult (p : Completed) : ToolResult where
  tool := "run_command"
  status := if p.returncode = 0 then .success else .failure
  category := if p.returncode = 0 then none else some .toolError
  summary := "exit ".toList ++ Json.decimal p.returncode
  detailForLlm := sliceTo t.outputMaxBytes (p.stdout ++ p.stderr)
  exitCode := some p.returncode
  truncated := (p.stdout ++ p.stderr).length > t.outputMaxBytes

@[simp] theorem status_commandResult (p : Completed) :
    (t.commandResult p).status = .success ↔ p.returncode = 0 := by
  dsimp only [commandResult]
  split_ifs with hexit
  · simp [hexit]
  · simp [hexit]

/-- `RunCommandTool.run`. -/
def runCommand : Tooling ToolResult :=
  match arguments.get? "command" with
  | none => throw (missingArgument "command")
  | some command => do
    let argv ← ExceptT.mk (.ret (splitArgument command))
    match ← runProcess argv ctx.workspaceRoot with
    | none => return timedOut "run_command" "command timed out"
    | some p => return t.commandResult p

def testsResult (p : Completed) : ToolResult where
  tool := "run_tests"
  status := if p.returncode = 0 then .success else .failure
  summary := "tests exit ".toList ++ Json.decimal p.returncode
  detailForLlm := sliceTo t.outputMaxBytes (p.stdout ++ p.stderr)
  exitCode := some p.returncode

@[simp] theorem status_testsResult (p : Completed) :
    (t.testsResult p).status = .success ↔ p.returncode = 0 := by
  dsimp only [testsResult]
  split_ifs with hexit
  · simp [hexit]
  · simp [hexit]

/-- `RunTestsTool.run`. -/
def runTests : Tooling ToolResult := do
  let argv ← ExceptT.mk (.ret (shlexSplit t.testCommand))
  match ← runProcess argv ctx.workspaceRoot with
  | none => return timedOut "run_tests" "tests timed out"
  | some p => return t.testsResult p

/-- `FinishTool.run`. -/
def finish : Tooling ToolResult := return {
  tool := "finish", status := .success, summary := "agent requested finish"
  artifacts := [("finish", .bool true)] }

/-- The tools of the repository. -/
inductive Tool where
  | writeFile
  | readFile
  | listFiles
  | searchText
  | finish
  | runCommand
  | runTests
  deriving DecidableEq

def Tool.name : Tool → Str
  | .writeFile => "write_file"
  | .readFile => "read_file"
  | .listFiles => "list_files"
  | .searchText => "search_text"
  | .finish => "finish"
  | .runCommand => "run_command"
  | .runTests => "run_tests"

/-- `tool.run(arguments, ctx)`. -/
def run : Tool → Tooling ToolResult
  | .writeFile => writeFile ctx arguments
  | .readFile => readFile ctx arguments
  | .listFiles => listFiles ctx arguments
  | .searchText => t.searchText ctx arguments
  | .finish => finish
  | .runCommand => t.runCommand ctx arguments
  | .runTests => t.runTests ctx

/-! ## Runs of the tools -/

section Runs
variable {t : ToolSet} {ctx : TaskContext} {arguments : Dict} {tr : List OsEv}

/-- A computation without calls comes first. -/
theorem runs_value_bind {α β : Type} {r : Except Exn α} {f : α → Tooling β}
    {out : Except Exn β} :
    Runs (ExceptT.mk (.ret r) >>= f).run tr out ↔
      (∃ e, r = .error e ∧ tr = [] ∧ out = .error e) ∨
        ∃ a, r = .ok a ∧ Runs (f a).run tr out := by
  cases r with
  | error e =>
    constructor
    · intro h
      obtain ⟨rfl, rfl⟩ := runs_ret.mp h
      exact .inl ⟨e, rfl, rfl, rfl⟩
    · rintro (⟨e', heq, rfl, rfl⟩ | ⟨a, habs, _⟩)
      · obtain rfl := Except.error.inj heq
        exact .ret _
      · cases habs
  | ok a =>
    constructor
    · intro h
      exact .inr ⟨a, rfl, h⟩
    · rintro (⟨e', habs, _⟩ | ⟨a', heq, h⟩)
      · cases habs
      · obtain rfl := Except.ok.inj heq
        exact h

/-- Behind the guard: the value, the text of a caught exception, or an exception. -/
theorem runs_exceptOsError {α β : Type} {r : Except Exn α} {f : Except Str α → Tooling β}
    {out : Except Exn β} (hrun : Runs (exceptOsError r >>= f).run tr out) :
    (∃ a, r = .ok a ∧ Runs (f (.ok a)).run tr out) ∨
      (∃ e, r = .error e ∧ e.kind = .osError ∧ Runs (f (.error e.text)).run tr out) ∨
      ∃ e, r = .error e ∧ e.kind ≠ .osError ∧ tr = [] ∧ out = .error e := by
  cases r with
  | ok a => exact .inl ⟨a, rfl, hrun⟩
  | error e =>
    right
    by_cases hkind : e.kind = .osError
    · have hcaught : exceptOsError (.error e) = (return .error e.text : Tooling (Except Str α)) :=
        if_pos hkind
      rw [hcaught] at hrun
      exact .inl ⟨e, rfl, hkind, hrun⟩
    · have hraised : exceptOsError (.error e) = (throw e : Tooling (Except Str α)) := if_neg hkind
      rw [hraised] at hrun
      obtain ⟨rfl, rfl⟩ := runs_ret.mp hrun
      exact .inr ⟨e, rfl, hkind, rfl, rfl⟩

/-! ## On a filesystem -/

section OnFilesystem
variable {strerror : Str → Str} {fs : FileSystem}

/-- The calls of the read-only tools, answered by a filesystem. -/
def Answers (strerror : Str → Str) (fs : FileSystem) : OsEv → Prop
  | ⟨.read file, r⟩ => r = match fs.readBytes file with
      | none => .error ⟨.osError, strerror file⟩
      | some (_, data) => .ok data
  | ⟨.listdir path, r⟩ => r = match fs.listdir path with
      | none => .error ⟨.osError, strerror path⟩
      | some names => .ok names
  | ⟨.walk top, r⟩ => ∃ unlisted,
      r = .ok ⟨FileSystem.walkFiles (fs.entries.length + 1) fs top, unlisted⟩
  | _ => False

/-- The calls of `write_file`, which change the filesystem; `error` is the text of an
`OSError`. -/
def Changes (error : Str) (fs : FileSystem) : OsEv → FileSystem → Prop
  | ⟨.makedirs name, r⟩, fs' =>
    fs' = (FileSystem.makedirs (name.length + 1) fs name).1 ∧
      r = (FileSystem.makedirs (name.length + 1) fs name).2.mapError fun _ => ⟨.osError, error⟩
  | ⟨.write file text, r⟩, fs' =>
    match fs.writeFile file (encodeUtf8 text) with
    | none => fs' = fs ∧ r = .error ⟨.osError, error⟩
    | some (_, written) => fs' = written ∧ r = .ok ()
  | _, _ => False

theorem writeText_eq_writeText {error path content : Str} {fs' : FileSystem}
    {out : Except Exn ToolResult} (hfs : Trace (Changes error) fs tr fs')
    (hrun : Runs (writeText ctx path content).run tr out) :
    let r := AegisCode.writeText (fun _ => error) fs ctx path content
    out = r.result ∧ fs' = r.fs := by
  obtain ⟨made, tr, rfl, hmade⟩ := runs_lift_perform_bind.mp hrun
  obtain ⟨fs₁, ⟨hfs₁, hans⟩, hwriting⟩ := trace_cons.mp hfs
  unfold AegisCode.writeText
  dsimp only
  generalize FileSystem.makedirs _ fs (parentDir ctx path) = r at hfs₁ hans ⊢
  obtain ⟨_, r⟩ := r
  subst hfs₁
  cases r with
  | error e =>
    subst hans
    obtain ⟨rfl, rfl⟩ := runs_return.mp hmade
    exact ⟨rfl, trace_nil.mp hwriting⟩
  | ok _ =>
    subst hans
    obtain ⟨written, tr, rfl, hwritten⟩ := runs_lift_perform_bind.mp hmade
    obtain ⟨fs₂, hans, hend⟩ := trace_cons.mp hwriting
    dsimp only [Changes] at hans ⊢
    cases hwrite : fs₁.writeFile (ctx.resolve path) (encodeUtf8 content) with
    | none =>
      rw [hwrite] at hans
      obtain ⟨rfl, rfl⟩ := hans
      obtain ⟨rfl, rfl⟩ := runs_return.mp hwritten
      exact ⟨rfl, trace_nil.mp hend⟩
    | some r =>
      rw [hwrite] at hans
      obtain ⟨rfl, rfl⟩ := hans
      obtain ⟨rfl, rfl⟩ := runs_return.mp hwritten
      exact ⟨rfl, trace_nil.mp hend⟩

/-- On a filesystem `write_file` does what it does to the filesystem. -/
theorem writeFile_eq_writeFileTool {error : Str} {fs' : FileSystem} {out : Except Exn ToolResult}
    (hfs : Trace (Changes error) fs tr fs') (hrun : Runs (writeFile ctx arguments).run tr out) :
    let r := writeFileTool (fun _ => error) fs ctx arguments
    out = r.result ∧ fs' = r.fs := by
  have hthrown : ∀ {e : Exn}, Runs (throw e : Tooling ToolResult).run tr out →
      out = .error e ∧ fs' = fs := by
    intro e h
    obtain ⟨rfl, rfl⟩ := runs_throw.mp h
    exact ⟨rfl, trace_nil.mp hfs⟩
  unfold writeFile at hrun
  unfold writeFileTool
  generalize arguments.get? "path" = path at hrun ⊢
  generalize arguments.get? "content" = content at hrun ⊢
  split at hrun
  · exact hthrown hrun
  · exact hthrown hrun
  · rename_i path content
    by_cases hlong : (encodeUtf8 content).length > ctx.writeMaxBytes
    · rw [if_pos hlong] at hrun
      obtain ⟨rfl, rfl⟩ := runs_return.mp hrun
      dsimp only
      rw [if_pos hlong]
      exact ⟨rfl, trace_nil.mp hfs⟩
    · rw [if_neg hlong] at hrun
      dsimp only
      rw [if_neg hlong]
      cases path with
      | str path => exact writeText_eq_writeText hfs hrun
      | _ => exact hthrown hrun
  · rename_i v hnostr
    cases v with
    | str content => exact absurd rfl (hnostr content)
    | _ => exact hthrown hrun

theorem readFile_eq_readFileTool {out : Except Exn ToolResult}
    (hfs : ∀ e ∈ tr, Answers strerror fs e) (hrun : Runs (readFile ctx arguments).run tr out) :
    out = (readFileTool strerror fs ctx arguments).result := by
  unfold readFile at hrun
  unfold readFileTool
  generalize arguments.get? "path" = path at hrun ⊢
  cases path with
  | none => exact (runs_throw.mp hrun).2
  | some path =>
    cases path with
    | str path =>
      obtain ⟨read, tr, rfl, hread⟩ := runs_lift_perform_bind.mp hrun
      have hans := hfs _ (List.mem_cons_self ..)
      dsimp only [Answers] at hans ⊢
      cases hbytes : fs.readBytes (ctx.resolve path) with
      | none =>
        rw [hbytes] at hans
        subst hans
        exact (runs_return.mp hread).2
      | some found =>
        rw [hbytes] at hans
        subst hans
        exact (runs_return.mp hread).2
    | _ => exact (runs_throw.mp hrun).2

theorem listFiles_eq_listFilesTool {out : Except Exn ToolResult}
    (hfs : ∀ e ∈ tr, Answers strerror fs e) (hrun : Runs (listFiles ctx arguments).run tr out) :
    out = (listFilesTool strerror fs ctx arguments).result := by
  unfold listFiles at hrun
  unfold listFilesTool
  generalize (arguments.get? "path").getD (.str ".") = path at hrun ⊢
  cases path with
  | str path =>
    obtain ⟨listed, tr, rfl, hlisted⟩ := runs_lift_perform_bind.mp hrun
    have hans := hfs _ (List.mem_cons_self ..)
    dsimp only [Answers] at hans ⊢
    cases hnames : fs.listdir (ctx.resolve path) with
    | none =>
      rw [hnames] at hans
      subst hans
      exact (runs_return.mp hlisted).2
    | some names =>
      rw [hnames] at hans
      subst hans
      exact (runs_return.mp hlisted).2
  | _ => exact (runs_throw.mp hrun).2

theorem searchFiles_eq {base : Str} {query : Json} {fps : List Str}
    {out : Except Exn (List Str)} (hrel : t.relpath = AegisCode.relpath fs)
    (hfs : ∀ e ∈ tr, Answers strerror fs e)
    (hrun : Runs (t.searchFiles base query fps).run tr out) :
    out = (AegisCode.searchFiles fs base query fps).2 := by
  have hhits : ∀ fp data, t.fileHits base fp query data =
      AegisCode.fileHits fs base fp query data := by
    intro fp data
    unfold fileHits AegisCode.fileHits
    rw [hrel]
    rfl
  induction fps generalizing tr out with
  | nil => exact (runs_return.mp hrun).2
  | cons fp fps ih =>
    obtain ⟨read, tr, rfl, hread⟩ := runs_lift_perform_bind.mp hrun
    obtain ⟨hans, htail⟩ := List.forall_mem_cons.mp hfs
    dsimp only [Answers] at hans
    unfold AegisCode.searchFiles
    obtain ⟨data, rfl, hscan⟩ | ⟨e, rfl, _, hrest⟩ | ⟨e, rfl, hkind, _⟩ :=
      runs_exceptOsError hread
    · cases hbytes : fs.readBytes fp with
      | none =>
        rw [hbytes] at hans
        cases hans
      | some found =>
        rw [hbytes] at hans
        obtain rfl := Except.ok.inj hans
        dsimp only
        rw [← hhits]
        obtain ⟨e, herr, rfl, rfl⟩ | ⟨hits, hok, hrest⟩ := runs_value_bind.mp hscan
        · rw [herr]
        · obtain ⟨r, hrec, rfl⟩ := runs_map.mp hrest
          rw [hok, ih htail hrec]
    · cases hbytes : fs.readBytes fp with
      | none => exact ih htail hrest
      | some found =>
        rw [hbytes] at hans
        cases hans
    · cases hbytes : fs.readBytes fp with
      | none =>
        rw [hbytes] at hans
        obtain rfl := Except.error.inj hans
        exact absurd rfl hkind
      | some found =>
        rw [hbytes] at hans
        cases hans

theorem searchText_eq_searchTextTool {out : Except Exn ToolResult}
    (hrel : t.relpath = AegisCode.relpath fs) (hfs : ∀ e ∈ tr, Answers strerror fs e)
    (hrun : Runs (t.searchText ctx arguments).run tr out) :
    out = (searchTextTool fs ctx arguments).result := by
  unfold searchText at hrun
  unfold searchTextTool
  generalize arguments.get? "query" = query at hrun ⊢
  cases query with
  | none => exact (runs_throw.mp hrun).2
  | some query =>
    obtain ⟨e, hwalk, rfl⟩ | ⟨_, walked, tr, rfl, hwalk, hrest⟩ := runs_except_bind.mp hrun
    · obtain rfl := runs_perform.mp hwalk
      obtain ⟨unlisted, habs⟩ := hfs _ (List.mem_cons_self ..)
      cases habs
    · obtain rfl := runs_perform.mp hwalk
      obtain ⟨⟨unlisted, hwalked⟩, htail⟩ := List.forall_mem_cons.mp hfs
      obtain rfl := Except.ok.inj hwalked
      obtain ⟨r, hsearch, rfl⟩ := runs_map.mp hrest
      rw [searchFiles_eq hrel htail hsearch]
      rfl

end OnFilesystem

end Runs

end ToolSet

end AegisCode
