import AegisCode.Utf8
import AegisCode.WorkspaceRuns

/-!
# The workspace as a store

For the agent the workspace is a store of texts: `write_file` puts one where its path leads,
`read_file` gets the last one put there. On the filesystem of a whole run the tools are
such a store, for every file that the others leave alone and no error of the operating
system has cut.
-/
namespace AegisCode

/-! ## A place and what is put there -/

section Places
variable {ε α : Type} {put cut : ε → Option (List α)} {start held : Option (List α)} {es : List ε}
  {e : ε} {xs : List α}

/-- What a place may hold after some events: what the last of them put there, what it held
if there was none, or behind both a beginning of what could not be put in full. -/
def HeldAfter (put cut : ε → Option (List α)) (start : Option (List α)) (es : List ε)
    (held : Option (List α)) : Prop :=
  held = (es.filterMap put).getLast?.or start ∨
    ∃ before e after xs n, es = before ++ e :: after ∧ cut e = some xs ∧
      after.filterMap put = [] ∧ held = some (xs.take n)

theorem HeldAfter.nil : HeldAfter put cut start [] start := .inl rfl

theorem HeldAfter.stored (hput : put e = some xs) :
    HeldAfter put cut start (es ++ [e]) (some xs) := by
  refine .inl ?_
  simp [List.filterMap_append, hput]

theorem HeldAfter.keep (h : HeldAfter put cut start es held) (hput : put e = none) :
    HeldAfter put cut start (es ++ [e]) held := by
  obtain hlast | ⟨before, e', after, xs, n, rfl, hcut, hafter, hheld⟩ := h
  · refine .inl ?_
    simp [List.filterMap_append, hput, hlast]
  · refine .inr ⟨before, e', after ++ [e], xs, n, by simp, hcut, ?_, hheld⟩
    simp [List.filterMap_append, hput, hafter]

theorem HeldAfter.beginning (hcut : cut e = some xs) (n : ℕ) :
    HeldAfter put cut start (es ++ [e]) (some (xs.take n)) :=
  .inr ⟨es, e, [], xs, n, rfl, hcut, rfl, rfl⟩

/-- Without any of them the place holds what it held. -/
theorem HeldAfter.eq_start (h : HeldAfter put cut start es held)
    (hput : ∀ e ∈ es, put e = none) (hcut : ∀ e ∈ es, cut e = none) : held = start := by
  obtain hlast | ⟨before, e, after, xs, n, rfl, hxs, _, _⟩ := h
  · rw [hlast, List.filterMap_eq_nil_iff.mpr hput]
    rfl
  · rw [hcut e (by simp)] at hxs
    cases hxs

end Places

open Program Posix

namespace Posix.FileSystem
variable {fs fs' : FileSystem} {P : Path → Prop} {p : Path} {bytes : List UInt8}

/-- The bytes of a file. -/
def file (fs : FileSystem) (p : Path) : Option (List UInt8) :=
  match fs.node p with
  | some (.file bytes) => some bytes
  | _ => none

theorem file_eq_some : fs.file p = some bytes ↔ fs.node p = some (.file bytes) := by
  unfold file
  split <;> simp_all

theorem Spares.file (h : Spares P fs fs') (hp : P p) : fs'.file p = fs.file p := by
  refine Option.ext fun bytes => ?_
  rw [file_eq_some, file_eq_some]
  exact h.node_file hp

theorem readBytes_eq_some {s : Str} :
    fs.readBytes s = some (p, bytes) ↔ fs.locate s = some p ∧ fs.file p = some bytes := by
  unfold readBytes file
  rw [Option.bind_eq_some_iff]
  constructor
  · rintro ⟨q, hloc, hq⟩
    split at hq
    · obtain ⟨rfl, rfl⟩ := Prod.mk.inj (Option.some.inj hq)
      simp_all
    · cases hq
  · rintro ⟨hloc, hfile⟩
    refine ⟨p, hloc, ?_⟩
    split at hfile <;> simp_all

end Posix.FileSystem

/-! ## What the tools say they did -/

/-- The path and the text of a successful `write_file`. -/
def wroteFile : Dispatcher.Ev → Option (Str × Str)
  | ⟨.run name arguments, .ok (result, _)⟩ =>
    if name = "write_file" ∧ result.status = .success then
      match arguments.get? "path", arguments.get? "content" with
      | some (.str path), some (.str content) => some (path, content)
      | _, _ => none
    else none
  | _ => none

/-- The path and the text of a `write_file` that did not succeed. -/
def failedWrite : Dispatcher.Ev → Option (Str × Str)
  | ⟨.run name arguments, .ok (result, _)⟩ =>
    if name = "write_file" ∧ result.status ≠ .success then
      match arguments.get? "path", arguments.get? "content" with
      | some (.str path), some (.str content) => some (path, content)
      | _, _ => none
    else none
  | _ => none

/-- The location that a path of the agent resolves to. -/
def located (fs : FileSystem) (ctx : TaskContext) (path : Str) : Path :=
  fs.resolve (ctx.resolve path)

/-- The bytes that an event puts at a location. -/
def putAt (fs : FileSystem) (ctx : TaskContext) (p : Path) (e : Dispatcher.Ev) :
    Option (List UInt8) :=
  (wroteFile e).bind fun w =>
    if located fs ctx w.1 = p then some (encodeUtf8 w.2) else none

/-- The bytes of which an event may have left a beginning at a location. -/
def cutAt (fs : FileSystem) (ctx : TaskContext) (p : Path) (e : Dispatcher.Ev) :
    Option (List UInt8) :=
  (failedWrite e).bind fun w =>
    if located fs ctx w.1 = p ∧ (encodeUtf8 w.2).length ≤ ctx.writeMaxBytes then
      some (encodeUtf8 w.2)
    else none

/-- What `read_file` answers where a text is stored. -/
def readAnswer (content : Str) : ToolResult :=
  if '\x00' ∈ content then
    { tool := "read_file", status := .success, summary := "binary skipped" }
  else
    { tool := "read_file", status := .success
      summary := "read ".toList ++ Nat.toDigits 10 (splitlines content).length ++ " lines".toList
      detailForLlm := content }

section Tools
variable {strerror : Str → Str} {fs fs₀ : FileSystem} {ctx : TaskContext} {arguments : Dict}
  {p : Path}

theorem wroteFile_eq_none_of_ne {name : Str} {answer : Except Exn (ToolResult × Dict)}
    (h : name ≠ "write_file") : wroteFile ⟨.run name arguments, answer⟩ = none := by
  unfold wroteFile
  split
  · rename_i heq
    cases heq
    exact if_neg fun hname => h hname.1
  · rfl

theorem failedWrite_run {result : ToolResult} {path content : Str}
    (hfailed : result.status ≠ .success) (hpath : arguments.get? "path" = some (.str path))
    (hcontent : arguments.get? "content" = some (.str content)) :
    failedWrite ⟨.run "write_file" arguments, .ok (result, arguments)⟩ = some (path, content) := by
  refine (if_pos ⟨rfl, hfailed⟩).trans ?_
  rw [hpath, hcontent]

/-- The event of a `write_file` says what it changed: one file, where its path leads, or
none at all. -/
theorem writeFileTool_cases (strerror : Str → Str) (fs : FileSystem) (ctx : TaskContext)
    (arguments : Dict) :
    let r := writeFileTool strerror fs ctx arguments
    let e : Dispatcher.Ev :=
      ⟨.run "write_file" arguments, r.result.map fun result => (result, arguments)⟩
    (wroteFile e = none ∧ FileSystem.Spares (fun _ => True) fs r.fs) ∨
      ∃ path content p, wroteFile e = some (path, content) ∧
        fs.resolution (ctx.resolve path) = (p, true) ∧
        r.fs.locate (ctx.resolve path) = some p ∧
        r.fs.file p = some (encodeUtf8 content) ∧ FileSystem.Spares (· ≠ p) fs r.fs := by
  intro r e
  obtain ⟨hdone, -⟩ := writeFileTool_done strerror fs ctx arguments
  cases hdone with
  | failed _ hspares hresult =>
    refine .inl ⟨?_, hspares⟩
    change wroteFile ⟨.run "write_file" arguments, r.result.map _⟩ = none
    cases hr : r.result with
    | error e => rfl
    | ok result => exact if_neg fun h => hresult result hr h.2
  | @wrote path content p result hpath hcontent _ _ hres _ hloc hnode hspares hresult hsuccess =>
    refine .inr ⟨path, content, p, ?_, hres, hloc, FileSystem.file_eq_some.mpr hnode, hspares⟩
    change wroteFile ⟨.run "write_file" arguments, r.result.map _⟩ = _
    rw [show r.result = .ok result from hresult]
    refine (if_pos ⟨rfl, hsuccess⟩).trans ?_
    rw [hpath, hcontent]

/-- A file is what `write_file` says it wrote there, and otherwise what it was. -/
theorem file_writeFileTool (hlinks : FileSystem.SameLinks fs₀ fs) :
    (writeFileTool strerror fs ctx arguments).fs.file p =
      (putAt fs₀ ctx p ⟨.run "write_file" arguments,
        (writeFileTool strerror fs ctx arguments).result.map fun result => (result, arguments)⟩).or
        (fs.file p) := by
  unfold putAt
  obtain ⟨hnone, hspares⟩ | ⟨path, content, q, hwrote, hres, -, hfile, hspares⟩ :=
    writeFileTool_cases strerror fs ctx arguments
  · rw [hnone, hspares.file trivial]
    rfl
  · have hlocated : located fs₀ ctx path = q := by
      rw [located, ← hlinks.resolve, FileSystem.resolve_eq hres]
    rw [hwrote, Option.bind_some, hlocated]
    by_cases hq : q = p
    · rw [if_pos hq, ← hq, Option.some_or, hfile]
    · rw [if_neg hq, Option.none_or]
      exact hspares.file (Ne.symm hq)

end Tools

/-! ## The store of a run -/

section Runs
variable {strerror : Str → Str} {ctx : TaskContext} {Other : FileSystem → FileSystem → Prop}
  {fs fs' fs₀ : FileSystem} {frames : List Step} {e : Dispatcher.Ev} {p : Path}

/-- A call of the dispatcher, after changes by the others. -/
def CallOnDisk (strerror : Str → Str) (ctx : TaskContext)
    (Other : FileSystem → FileSystem → Prop) (fs : FileSystem) (e : Dispatcher.Ev)
    (fs' : FileSystem) : Prop :=
  ∃ fs₁, Relation.ReflTransGen Other fs fs₁ ∧ OnDisk strerror ctx Other fs₁ e fs'

/-- The calls of all steps, in one trace. -/
theorem trace_calls (h : Trace (StepOnDisk strerror ctx Other) fs frames fs') :
    ∃ fs₁, Trace (CallOnDisk strerror ctx Other) fs (frames.flatMap Frame.inner) fs₁ ∧
      Relation.ReflTransGen Other fs₁ fs' := by
  have hinner : ∀ {s₀ s s' : FileSystem} {inner : List Dispatcher.Ev},
      Relation.ReflTransGen Other s₀ s → Trace (OnDisk strerror ctx Other) s inner s' →
      ∃ s₁, Trace (CallOnDisk strerror ctx Other) s₀ inner s₁ ∧
        Relation.ReflTransGen Other s₁ s' := by
    intro s₀ s s' inner hs htr
    induction htr with
    | nil => exact ⟨s₀, .nil, hs⟩
    | snoc _ hstep ih =>
      obtain ⟨s₁, htr₁, hs₁⟩ := ih
      exact ⟨_, .snoc htr₁ ⟨_, hs₁, hstep⟩, .refl⟩
  induction h with
  | nil => exact ⟨fs, .nil, .refl⟩
  | snoc _ hstep ih =>
    obtain ⟨fs₁, htr, hothers⟩ := ih
    obtain ⟨fs₂, hother, hcalls⟩ := hstep
    obtain ⟨fs₃, htr', hothers'⟩ := hinner (hothers.tail hother) hcalls
    rw [List.flatMap_append, List.flatMap_singleton]
    exact ⟨fs₃, htr.append htr', hothers'⟩

/-- What every change by the others keeps, all of them keep. -/
theorem rel_others {R : FileSystem → FileSystem → Prop} (hrefl : ∀ fs, R fs fs)
    (htrans : ∀ {fs fs' fs''}, R fs fs' → R fs' fs'' → R fs fs'')
    (hother : ∀ fs fs', Other fs fs' → R fs fs') (h : Relation.ReflTransGen Other fs fs') :
    R fs fs' := by
  induction h with
  | refl => exact hrefl _
  | tail _ hlast ih => exact htrans ih (hother _ _ hlast)

/-- The others leave the symlinks and a file as they are. -/
def LeaveAlone (Other : FileSystem → FileSystem → Prop) (p : Path) : Prop :=
  ∀ fs fs', Other fs fs' → FileSystem.SameLinks fs fs' ∧ fs'.file p = fs.file p

theorem LeaveAlone.others (hother : LeaveAlone Other p)
    (h : Relation.ReflTransGen Other fs fs') :
    FileSystem.SameLinks fs fs' ∧ fs'.file p = fs.file p :=
  rel_others (R := fun fs fs' => FileSystem.SameLinks fs fs' ∧ fs'.file p = fs.file p)
    (fun fs => ⟨.refl fs, rfl⟩) (fun h h' => ⟨h.1.trans h'.1, h'.2.trans h.2⟩) hother h

/-- A call changes nothing, or is a process, or a `write_file` in full or stopped. -/
theorem onDisk_cases (h : OnDisk strerror ctx Other fs e fs') :
    (wroteFile e = none ∧ (fs' = fs ∨ Other fs fs')) ∨
      (∃ arguments, fs' = (writeFileTool strerror fs ctx arguments).fs ∧
        e = ⟨.run "write_file" arguments, (writeFileTool strerror fs ctx arguments).result.map
          fun result => (result, arguments)⟩) ∨
      ∃ path content, wroteFile e = none ∧ failedWrite e = some (path, content) ∧
        (encodeUtf8 content).length ≤ ctx.writeMaxBytes ∧ Stopped fs ctx path content fs' := by
  cases h with
  | look => exact .inl ⟨rfl, .inl rfl⟩
  | @tool name tool arguments r hname hr =>
    have hname' := ToolSet.name_of_toolNamed hname
    by_cases hkind : tool = .writeFile
    · subst hkind
      subst hname'
      obtain rfl := Option.some.inj hr
      exact .inr (.inl ⟨arguments, rfl, rfl⟩)
    · refine .inl ⟨wroteFile_eq_none_of_ne ?_, .inl (fs_fileTool hr hkind)⟩
      rintro rfl
      exact hkind (Option.some.inj hname).symm
  | @stopped _ name path content arguments reason hname hpath hcontent hsize hstopped =>
    obtain rfl := ToolSet.name_of_toolNamed hname
    exact .inr (.inr ⟨path, content, by simp [wroteFile, toolError],
      failedWrite_run (by simp [toolError]) hpath hcontent, hsize, hstopped⟩)
  | @process _ name tool arguments answer hname hr hchange =>
    refine .inl ⟨wroteFile_eq_none_of_ne ?_, .inr hchange⟩
    rintro rfl
    obtain rfl := Option.some.inj hname
    cases hr

/-- A stopped `write_file` leaves a file as it is, or with a beginning of the content. -/
theorem file_stopped {path content : Str} (hlinks : FileSystem.SameLinks fs₀ fs)
    (h : Stopped fs ctx path content fs') :
    fs'.file p = fs.file p ∨ (located fs₀ ctx path = p ∧
      ∃ n, fs'.file p = some ((encodeUtf8 content).take n)) := by
  cases h with
  | making n =>
    exact .inl (((FileSystem.dirRule_spares fun _ => True).makedirs _ _ _).file trivial)
  | @writing q _ n hbytes =>
    obtain ⟨hres, -, -, hnode, hspares, -⟩ := writeBytes_done hbytes
    have hlocated : located fs₀ ctx path = q := by
      rw [located, ← hlinks.resolve, FileSystem.resolve_eq hres]
    by_cases hq : q = p
    · subst hq
      exact .inr ⟨hlocated, n, FileSystem.file_eq_some.mpr hnode⟩
    · exact .inl (hspares.file (Ne.symm hq))

theorem file_onDisk {es : List Dispatcher.Ev} {start : Option (List UInt8)}
    (hother : LeaveAlone Other p) (hlinks : FileSystem.SameLinks fs₀ fs)
    (hheld : HeldAfter (putAt fs₀ ctx p) (cutAt fs₀ ctx p) start es (fs.file p))
    (h : OnDisk strerror ctx Other fs e fs') :
    FileSystem.SameLinks fs fs' ∧
      HeldAfter (putAt fs₀ ctx p) (cutAt fs₀ ctx p) start (es ++ [e]) (fs'.file p) := by
  obtain ⟨hnone, hchange⟩ | ⟨arguments, rfl, rfl⟩ |
    ⟨path, content, hnone, hfailed, hsize, hstopped⟩ := onDisk_cases h
  · have hput : putAt fs₀ ctx p e = none := by rw [putAt, hnone]; rfl
    obtain rfl | hchange := hchange
    · exact ⟨.refl _, hheld.keep hput⟩
    · obtain ⟨hsame, hfile⟩ := hother _ _ hchange
      rw [hfile]
      exact ⟨hsame, hheld.keep hput⟩
  · refine ⟨(writeFileTool_done strerror fs ctx arguments).2.links, ?_⟩
    rw [file_writeFileTool hlinks]
    cases hput : putAt fs₀ ctx p _ with
    | some bytes => exact .stored hput
    | none => exact hheld.keep hput
  · have hput : putAt fs₀ ctx p e = none := by rw [putAt, hnone]; rfl
    refine ⟨hstopped.extends.links, ?_⟩
    obtain hsame | ⟨hlocated, n, hcut⟩ := file_stopped (p := p) hlinks hstopped
    · rw [hsame]
      exact hheld.keep hput
    · rw [hcut]
      refine .beginning ?_ n
      rw [cutAt, hfailed]
      exact if_pos ⟨hlocated, hsize⟩

/-- The calls of a trace, and a file that the others leave alone. -/
theorem file_calls {es : List Dispatcher.Ev} (hother : LeaveAlone Other p)
    (hlinks : FileSystem.SameLinks fs₀ fs)
    (h : Trace (CallOnDisk strerror ctx Other) fs es fs') :
    FileSystem.SameLinks fs₀ fs' ∧
      HeldAfter (putAt fs₀ ctx p) (cutAt fs₀ ctx p) (fs.file p) es (fs'.file p) := by
  induction h with
  | nil => exact ⟨hlinks, .nil⟩
  | snoc _ hstep ih =>
    obtain ⟨hsame, hheld⟩ := ih
    obtain ⟨fs₁, hothers, hcall⟩ := hstep
    obtain ⟨hsame₁, hfile₁⟩ := hother.others hothers
    rw [← hfile₁] at hheld
    obtain ⟨hsame₂, hheld₂⟩ := file_onDisk hother (hsame.trans hsame₁) hheld hcall
    exact ⟨(hsame.trans hsame₁).trans hsame₂, hheld₂⟩

/-- After a run, every file that the others leave alone holds what the last successful
`write_file` put there, or what it held before if there was none; or a beginning of what a
later `write_file` was to put there and failed. -/
theorem run_files (strerror : Str → Str) (ctx : TaskContext)
    (Other : FileSystem → FileSystem → Prop) (fs fs' : FileSystem) (frames : List Step)
    (hdisk : Trace (StepOnDisk strerror ctx Other) fs frames fs') (p : Path)
    (hother : LeaveAlone Other p) :
    HeldAfter (putAt fs ctx p) (cutAt fs ctx p) (fs.file p) (frames.flatMap Frame.inner)
      (fs'.file p) := by
  obtain ⟨fs₁, hcalls, hothers⟩ := trace_calls hdisk
  rw [(hother.others hothers).2]
  exact (file_calls hother (.refl fs) hcalls).2

/-! ## Reading back what was written -/

/-- The others leave a file as it is, and no path leads elsewhere because of them. -/
def LeadOn (Other : FileSystem → FileSystem → Prop) (p : Path) : Prop :=
  ∀ fs fs', Other fs fs' → FileSystem.Extends fs fs' ∧ fs'.file p = fs.file p

theorem LeadOn.leaveAlone (hother : LeadOn Other p) : LeaveAlone Other p :=
  fun fs fs' h => ⟨(hother fs fs' h).1.links, (hother fs fs' h).2⟩

theorem LeadOn.others (hother : LeadOn Other p) (h : Relation.ReflTransGen Other fs fs') :
    FileSystem.Extends fs fs' :=
  rel_others .refl .trans (fun _ _ h => (hother _ _ h).1) h

theorem extends_onDisk (hother : LeadOn Other p) (h : OnDisk strerror ctx Other fs e fs') :
    FileSystem.Extends fs fs' := by
  obtain ⟨-, rfl | hchange⟩ | ⟨arguments, rfl, -⟩ | ⟨path, content, -, -, -, hstopped⟩ :=
    onDisk_cases h
  · exact .refl _
  · exact (hother _ _ hchange).1
  · exact (writeFileTool_done strerror fs ctx arguments).2
  · exact hstopped.extends

theorem extends_calls {es : List Dispatcher.Ev} (hother : LeadOn Other p)
    (h : Trace (CallOnDisk strerror ctx Other) fs es fs') : FileSystem.Extends fs fs' := by
  refine h.rel .refl .trans fun s e s' _ hstep => ?_
  obtain ⟨s₁, hothers, hcall⟩ := hstep
  exact (hother.others hothers).trans (extends_onDisk hother hcall)

/-- Behind a write that succeeded the kernel finds the file at its path. -/
theorem locate_of_wroteFile {path content : Str} (hlinks : FileSystem.SameLinks fs₀ fs)
    (h : OnDisk strerror ctx Other fs e fs') (hwrote : wroteFile e = some (path, content)) :
    fs'.locate (ctx.resolve path) = some (located fs₀ ctx path) ∧
      fs'.file (located fs₀ ctx path) = some (encodeUtf8 content) := by
  obtain ⟨hnone, -⟩ | ⟨arguments, rfl, rfl⟩ | ⟨_, _, hnone, -⟩ := onDisk_cases h
  · rw [hnone] at hwrote
    cases hwrote
  · obtain ⟨hnone, -⟩ | ⟨path', content', q, hwrote', hres, hloc, hfile, -⟩ :=
      writeFileTool_cases strerror fs ctx arguments
    · rw [hnone] at hwrote
      cases hwrote
    · rw [hwrote'] at hwrote
      cases hwrote
      rw [located, ← hlinks.resolve, FileSystem.resolve_eq hres]
      exact ⟨hloc, hfile⟩
  · rw [hnone] at hwrote
    cases hwrote

/-- `read_file` answers what is stored where its path leads. -/
theorem readFileTool_of_file {arguments : Dict} {path content : Str}
    (hpath : arguments.get? "path" = some (.str path))
    (hloc : fs.locate (ctx.resolve path) = some p)
    (hfile : fs.file p = some (encodeUtf8 content)) :
    (readFileTool strerror fs ctx arguments).result = .ok (readAnswer content) := by
  have hread : fs.readBytes (ctx.resolve path) = some (p, encodeUtf8 content) :=
    FileSystem.readBytes_eq_some.mpr ⟨hloc, hfile⟩
  unfold readFileTool readAnswer
  rw [hpath]
  dsimp only
  rw [hread]
  dsimp only
  rw [decodeUtf8_encodeUtf8]
  by_cases hnull : '\x00' ∈ content
  · rw [if_pos hnull, if_pos (isBinary_encodeUtf8.mpr hnull)]
  · rw [if_neg hnull, if_neg (isBinary_encodeUtf8.not.mpr hnull)]

/-- A `read_file` that succeeds found its file. -/
theorem locate_of_readFileTool {arguments : Dict} {path : Str} {result : ToolResult}
    (hpath : arguments.get? "path" = some (.str path))
    (h : (readFileTool strerror fs ctx arguments).result = .ok result)
    (hsuccess : result.status = .success) :
    ∃ p, fs.locate (ctx.resolve path) = some p := by
  cases hread : fs.readBytes (ctx.resolve path) with
  | none =>
    unfold readFileTool at h
    rw [hpath] at h
    dsimp only at h
    rw [hread] at h
    obtain rfl := Except.ok.inj h
    cases hsuccess
  | some r => exact ⟨r.1, (FileSystem.readBytes_eq_some.mp hread).1⟩

theorem result_of_readCall {arguments : Dict} {answer : Except Exn (ToolResult × Dict)}
    (h : OnDisk strerror ctx Other fs ⟨.run "read_file" arguments, answer⟩ fs') :
    answer = (readFileTool strerror fs ctx arguments).result.map
      fun result => (result, arguments) := by
  generalize hev : (⟨.run "read_file" arguments, answer⟩ : Dispatcher.Ev) = e at h
  cases h with
  | look => cases hev
  | @tool name tool arguments r hname hr =>
    cases hev
    obtain rfl := Option.some.inj hname
    obtain rfl := Option.some.inj hr
    rfl
  | @stopped _ name path content arguments reason hname _ _ _ _ =>
    cases hev
    cases Option.some.inj hname
  | @process _ name tool arguments answer hname hr _ =>
    cases hev
    obtain rfl := Option.some.inj hname
    cases hr

/-- In every run, between a successful write and the next call of `write_file` for the same
file, a `read_file` of the written path answers the text that was written. So does a
`read_file` of any other path that resolves to the file, unless it fails. The others leave
the file, the symlinks and the directories alone. -/
theorem run_reads_back (strerror : Str → Str) (ctx : TaskContext)
    (Other : FileSystem → FileSystem → Prop) (fs fs' : FileSystem) (frames : List Step)
    (hdisk : Trace (StepOnDisk strerror ctx Other) fs frames fs')
    (before between after : List Dispatcher.Ev) (write : Dispatcher.Ev)
    (path path' content : Str) (arguments : Dict) (answer : Except Exn (ToolResult × Dict))
    (hevents : frames.flatMap Frame.inner =
      before ++ write :: (between ++ ⟨.run "read_file" arguments, answer⟩ :: after))
    (hwrote : wroteFile write = some (path, content))
    (hpath : arguments.get? "path" = some (.str path'))
    (hsame : located fs ctx path' = located fs ctx path)
    (hbetween : ∀ e ∈ between, ∀ w, wroteFile e = some w ∨ failedWrite e = some w →
      located fs ctx w.1 ≠ located fs ctx path)
    (hother : LeadOn Other (located fs ctx path)) :
    (path' = path → answer = .ok (readAnswer content, arguments)) ∧
      ∀ result rest, answer = .ok (result, rest) → result.status = .success →
        result = readAnswer content := by
  obtain ⟨fsEnd, hcalls, -⟩ := trace_calls hdisk
  rw [hevents] at hcalls
  obtain ⟨fs₁, hbefore, hcalls⟩ := trace_append.mp hcalls
  obtain ⟨fs₂, ⟨fs₁', hothers₁, hwriting⟩, hcalls⟩ := trace_cons.mp hcalls
  obtain ⟨fs₃, hquiet, hcalls⟩ := trace_append.mp hcalls
  obtain ⟨fs₄, ⟨fs₃', hothers₃, hreading⟩, -⟩ := trace_cons.mp hcalls
  -- the write put the text where its path leads
  have hlinks₁ : FileSystem.SameLinks fs fs₁' :=
    ((extends_calls hother hbefore).trans (hother.others hothers₁)).links
  obtain ⟨hloc₂, hfile₂⟩ := locate_of_wroteFile hlinks₁ hwriting hwrote
  have hlinks₂ : FileSystem.SameLinks fs fs₂ :=
    hlinks₁.trans (extends_onDisk hother hwriting).links
  -- and there it is when it is read
  have hextends : FileSystem.Extends fs₂ fs₃' :=
    (extends_calls hother hquiet).trans (hother.others hothers₃)
  have hfile₃ : fs₃'.file (located fs ctx path) = some (encodeUtf8 content) := by
    have hheld := (file_calls hother.leaveAlone hlinks₂ hquiet).2
    rw [(hother.leaveAlone.others hothers₃).2, hheld.eq_start ?_ ?_]
    · exact hfile₂
    · intro e he
      unfold putAt
      cases hw : wroteFile e with
      | none => rfl
      | some w => exact if_neg (hbetween e he w (.inl hw))
    · intro e he
      unfold cutAt
      cases hw : failedWrite e with
      | none => rfl
      | some w => exact if_neg fun h => hbetween e he w (.inr hw) h.1
  rw [result_of_readCall hreading]
  constructor
  · rintro rfl
    rw [readFileTool_of_file hpath (hextends.locate hloc₂) hfile₃]
    rfl
  · intro result rest hanswer hsuccess
    cases hr : (readFileTool strerror fs₃' ctx arguments).result with
    | error e =>
      rw [hr] at hanswer
      cases hanswer
    | ok result' =>
      rw [hr] at hanswer
      obtain rfl : result' = result := (Prod.mk.inj (Except.ok.inj hanswer)).1
      obtain ⟨q, hq⟩ := locate_of_readFileTool hpath hr hsuccess
      have hq' : q = located fs ctx path := by
        rw [← hsame, located, ← (hlinks₂.trans hextends.links).resolve,
          FileSystem.resolve_eq (FileSystem.resolution_of_locate hq)]
      subst hq'
      rw [readFileTool_of_file hpath hq hfile₃] at hr
      exact (Except.ok.inj hr).symm

end Runs

/-! ## The approved write, read back -/

theorem run_files_writing :
    HeldAfter (putAt gateWorkspace gateContext ["ws", "a"])
      (cutAt gateWorkspace gateContext ["ws", "a"]) (gateWorkspace.file ["ws", "a"])
      (writingRun.flatMap Frame.inner) (writtenWorkspace.file ["ws", "a"]) :=
  run_files id gateContext (fun fs fs' => fs' = fs) gateWorkspace writtenWorkspace writingRun
    writingRun_onDisk ["ws", "a"] (by rintro fs fs' rfl; exact ⟨.refl _, rfl⟩)

def rereadAction : Action := { tool := "read_file", arguments := [("path", .str "a")] }

def readVerdict : GovernanceVerdict :=
  ⟨.allow, "TIER_READONLY", "readonly tool 'read_file' → ALLOW"⟩

def rereadAnswer : Except Exn (ToolResult × Dict) :=
  (readFileTool id writtenWorkspace gateContext rereadAction.arguments).result.map
    fun result => (result, rereadAction.arguments)

/-- The write, and a read of what was written. -/
def readBackRun : List Step :=
  writingRun ++ [⟨⟨.dispatch rereadAction, .ok (readVerdict, some (readAnswer "x"), rereadAction)⟩,
    [⟨.filesystem, writtenWorkspace⟩, ⟨.run "read_file" rereadAction.arguments, rereadAnswer⟩]⟩]

theorem readBackRun_onDisk : Trace (StepOnDisk id gateContext fun fs fs' => fs' = fs)
    gateWorkspace readBackRun writtenWorkspace := by
  have hnamed : ToolSet.toolNamed "read_file" = some .readFile := rfl
  exact writingRun_onDisk.append
    (.cons ⟨_, rfl, .cons (.look _) (.cons (.tool hnamed rfl) .nil)⟩ .nil)

theorem run_reads_back_written :
    rereadAnswer = .ok (readAnswer "x", rereadAction.arguments) := by
  let write : Dispatcher.Ev :=
    ⟨.run "write_file" writeAction.arguments, .ok (writeResult, writeAction.arguments)⟩
  have hquiet : ∀ e ∈ [(⟨.filesystem, writtenWorkspace⟩ : Dispatcher.Ev)],
      ∀ w, wroteFile e = some w ∨ failedWrite e = some w →
        located gateWorkspace gateContext w.1 ≠ located gateWorkspace gateContext "a" := by
    intro e he w hw
    rw [List.mem_singleton.mp he] at hw
    obtain ⟨⟨⟩⟩ | ⟨⟨⟩⟩ := hw
  exact (run_reads_back id gateContext (fun fs fs' => fs' = fs) gateWorkspace writtenWorkspace
    readBackRun readBackRun_onDisk
    [⟨.filesystem, gateWorkspace⟩, ⟨.filesystem, gateWorkspace⟩]
    [⟨.filesystem, writtenWorkspace⟩] [] write "a" "a" "x" rereadAction.arguments rereadAnswer
    rfl rfl rfl rfl hquiet (by rintro fs fs' rfl; exact ⟨.refl _, rfl⟩)).1 rfl

end AegisCode
