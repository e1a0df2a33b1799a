import AegisCode.SensitiveFiles

/-!
# Searching the workspace

What `search_text` answers with: the lines of the files below the workspace that hold the
query, each once, under the path of its file from the workspace on.
-/
namespace AegisCode

open Posix

namespace Posix.FileSystem

/-! ## The names of the walk -/

/-- The files of the walk below the directory `w`, by their names from there. -/
def walkNames : ℕ → FileSystem → Path → List Path
  | 0, _, _ => []
  | n + 1, fs, w =>
    ((fs.children w).filter fun name => !fs.isdir (render (w ++ [name]))).map (fun name => [name]) ++
      ((fs.children w).filter fun name => fs.node (w ++ [name]) = some .dir).flatMap
        fun name => (walkNames n fs (w ++ [name])).map (name :: ·)

/-- The path that the walk builds of names. -/
def joinNames (top : Str) (rel : Path) : Str := rel.foldl join top

variable {fs : FileSystem} {n : ℕ} {top : Str} {w rel : Path} {name : Str}

theorem DirAt.isdir_entry (ht : DirAt fs top w) (h : ProperName name) :
    fs.isdir (join top name) = fs.isdir (render (w ++ [name])) := by
  rw [← join_render (proper_of_node ht.dir) h]
  simp only [isdir, stat, ht.locate_entry h, (dirAt_render ht.dir).locate_entry h]

theorem proper_of_mem_children (h : name ∈ fs.children w) : ProperName name := by
  obtain ⟨m, hnode⟩ := mem_children.mp h
  exact proper_of_node hnode name (by simp)

/-- The walk is that of the names, whatever path its directory goes by. -/
theorem walkFiles_eq (ht : DirAt fs top w) :
    walkFiles n fs top = (walkNames n fs w).map (joinNames top) := by
  induction n generalizing top w with
  | zero => rfl
  | succ n ih =>
    rw [walkFiles, ht.listdir_eq, walkNames, List.map_append, List.map_map, List.map_flatMap]
    dsimp only
    congr 1
    · refine congrArg (List.map (join top)) (List.filter_congr fun name hname => ?_)
      rw [ht.isdir_entry (proper_of_mem_children hname)]
    · have hdirs : ∀ name ∈ fs.children w,
          (fs.isdir (join top name) && !fs.islink (join top name)) =
            decide (fs.node (w ++ [name]) = some .dir) := by
        intro name hname
        rw [Bool.eq_iff_iff, ht.descends_iff (proper_of_mem_children hname), decide_eq_true_iff]
      rw [List.filter_congr hdirs]
      refine List.flatMap_congr fun name hname => ?_
      obtain ⟨hchild, hdir⟩ := List.mem_filter.mp hname
      rw [ih (ht.entry (proper_of_mem_children hchild) (by simpa using hdir)), List.map_map]
      rfl

theorem mem_walkNames (hw : fs.node w = some .dir) : rel ∈ walkNames n fs w ↔
    rel ≠ [] ∧ rel.length ≤ n ∧ (∃ m, fs.node (w ++ rel) = some m) ∧
      fs.isdir (render (w ++ rel)) = false := by
  induction n generalizing w rel with
  | zero =>
    constructor
    · exact fun h => absurd h List.not_mem_nil
    · rintro ⟨hne, hlen, -⟩
      exact absurd (List.length_eq_zero_iff.mp (Nat.le_zero.mp hlen)) hne
  | succ n ih =>
    rw [walkNames, List.mem_append, List.mem_map, List.mem_flatMap]
    constructor
    · rintro (⟨name, hname, rfl⟩ | ⟨name, hname, hrel⟩)
      · obtain ⟨hchild, hdir⟩ := List.mem_filter.mp hname
        exact ⟨by simp, by simp, mem_children.mp hchild, by simpa using hdir⟩
      · obtain ⟨rest, hrest, rfl⟩ := List.mem_map.mp hrel
        obtain ⟨hchild, hdir⟩ := List.mem_filter.mp hname
        obtain ⟨hne, hlen, hnode, hfile⟩ := (ih (by simpa using hdir)).mp hrest
        rw [List.append_assoc, List.singleton_append] at hnode hfile
        exact ⟨by simp, by simpa using hlen, hnode, hfile⟩
    · rintro ⟨hne, hlen, ⟨m, hnode⟩, hfile⟩
      cases rel with
      | nil => exact absurd rfl hne
      | cons name rest =>
        by_cases hrest : rest = []
        · subst hrest
          exact .inl ⟨name, List.mem_filter.mpr ⟨mem_children.mpr ⟨m, hnode⟩, by simpa using hfile⟩,
            rfl⟩
        · have hassoc : w ++ name :: rest = w ++ [name] ++ rest := by simp
          have hdir : fs.node (w ++ [name]) = some .dir := by
            refine node_dir_of_prefix hnode (hassoc ▸ List.prefix_append _ _) fun heq => ?_
            rw [hassoc] at heq
            exact hrest (List.self_eq_append_right.mp heq)
          rw [hassoc] at hnode hfile
          refine .inr ⟨name, ?_, List.mem_map_of_mem
            ((ih hdir).mpr ⟨hrest, by simpa using hlen, ⟨m, hnode⟩, hfile⟩)⟩
          exact List.mem_filter.mpr ⟨mem_children.mpr ⟨_, hdir⟩, by simpa using hdir⟩

theorem nodup_children : (fs.children w).Nodup := by
  have hpaths : fs.children w = (fs.entries.map Prod.fst).filterMap
      fun q => if q.dropLast = w then q.getLast? else none := by
    rw [List.filterMap_map]
    rfl
  rw [hpaths]
  refine fs.nodup.filterMap fun q q' name hq hq' => ?_
  have hpath : ∀ q : Path, name ∈ (if q.dropLast = w then q.getLast? else none) →
      q = w ++ [name] := by
    intro q hq
    split_ifs at hq with hdrop
    · obtain ⟨init, rfl⟩ := List.getLast?_eq_some_iff.mp hq
      rw [List.dropLast_concat] at hdrop
      rw [hdrop]
    · cases hq
  rw [hpath q hq, hpath q' hq']

theorem nodup_walkNames (hw : fs.node w = some .dir) : (walkNames n fs w).Nodup := by
  induction n generalizing w with
  | zero => exact List.nodup_nil
  | succ n ih =>
    rw [walkNames]
    have hdir : ∀ {name}, name ∈ (fs.children w).filter
        (fun name => fs.node (w ++ [name]) = some .dir) → fs.node (w ++ [name]) = some .dir :=
      fun hname => by simpa using (List.mem_filter.mp hname).2
    have hdeeper : (((fs.children w).filter fun name => fs.node (w ++ [name]) = some .dir).flatMap
        fun name => (walkNames n fs (w ++ [name])).map (name :: ·)).Nodup := by
      refine List.nodup_flatMap.mpr ⟨fun name hname => (ih (hdir hname)).map (List.cons_injective), ?_⟩
      refine (nodup_children.filter _).imp fun hne rel hrel hrel' => hne ?_
      obtain ⟨rest, -, rfl⟩ := List.mem_map.mp hrel
      obtain ⟨rest', -, heq⟩ := List.mem_map.mp hrel'
      exact (List.cons.inj heq).1.symm
    refine List.nodup_append.mpr
      ⟨(nodup_children.filter _).map fun a b h => by simpa using h, hdeeper, ?_⟩
    rintro rel hrel rel' hrel' rfl
    obtain ⟨name, -, rfl⟩ := List.mem_map.mp hrel
    obtain ⟨name', hname', hrest⟩ := List.mem_flatMap.mp hrel'
    obtain ⟨rest, hmem, heq⟩ := List.mem_map.mp hrest
    exact ((mem_walkNames (hdir hname')).mp hmem).1 (List.cons.inj heq).2

/-- Names below a directory lead where the path of their entry does. -/
theorem readBytes_joinNames {m : Node} (ht : DirAt fs top w) (hne : rel ≠ [])
    (hnode : fs.node (w ++ rel) = some m) :
    fs.readBytes (joinNames top rel) = fs.readBytes (render (w ++ rel)) := by
  induction rel generalizing top w with
  | nil => exact absurd rfl hne
  | cons name rest ih =>
    have hproper : ProperName name := proper_of_node hnode name (by simp)
    by_cases hrest : rest = []
    · subst hrest
      exact ht.readBytes_entry hproper
    · have hassoc : w ++ name :: rest = w ++ [name] ++ rest := by simp
      have hdir : fs.node (w ++ [name]) = some .dir := by
        refine node_dir_of_prefix hnode (hassoc ▸ List.prefix_append _ _) fun heq => ?_
        rw [hassoc] at heq
        exact hrest (List.self_eq_append_right.mp heq)
      rw [hassoc] at hnode ⊢
      exact ih (ht.entry hproper hdir) hrest hnode

/-! ## Paths from the workspace on -/

theorem names_joinNames (hrel : Proper rel) : names (joinNames top rel) = names top ++ rel := by
  induction rel generalizing top with
  | nil => exact (List.append_nil _).symm
  | cons name rest ih =>
    have hname := hrel name (List.mem_cons_self ..)
    rw [joinNames, List.foldl_cons, ← joinNames, ih fun x hx => hrel x (List.mem_cons_of_mem _ hx),
      names_join (isabs_of_properName hname), names_of_not_mem hname.2.2.2, if_neg hname.1,
      List.append_assoc, List.singleton_append]

theorem isabs_joinNames (hrel : Proper rel) : isabs (joinNames top rel) = isabs top := by
  induction rel generalizing top with
  | nil => rfl
  | cons name rest ih =>
    have hname := hrel name (List.mem_cons_self ..)
    rw [joinNames, List.foldl_cons, ← joinNames, ih fun x hx => hrel x (List.mem_cons_of_mem _ hx),
      isabs_join (isabs_of_properName hname)]

/-- A walk that reads no symlink is complete. -/
theorem walk_lexical (ns : List Str) (path : Path) :
    (walk (fun _ => none) (fun p _ => (p, true)) path ns).2 = true := by
  induction ns generalizing path with
  | nil => rfl
  | cons name ns ih =>
    have hstep : (walkName (fun _ => none) (fun p _ => (p, true)) path name).2 = true := by
      unfold walkName
      split_ifs <;> rfl
    rw [walk_cons (Prod.ext rfl hstep)]
    exact ih _

theorem absNames_joinNames (hrel : Proper rel) :
    absNames fs (joinNames top rel) = absNames fs top ++ rel := by
  have hwalk : ∀ ns, normalize (ns ++ rel) = normalize ns ++ rel := by
    intro ns
    have hok : walk (fun _ => none) (fun p _ => (p, true)) [] ns = (normalize ns, true) :=
      Prod.ext rfl (walk_lexical ns [])
    rw [normalize, walk_append hok, walk_of_linkFree hrel fun _ _ => rfl]
  rw [absNames, names_joinNames hrel, base, isabs_joinNames hrel, ← base, ← List.append_assoc,
    hwalk, absNames]

theorem commonPrefix_append (p q : Path) : commonPrefix p (p ++ q) = p := by
  induction p with
  | nil => cases q <;> rfl
  | cons a p ih => rw [List.cons_append, commonPrefix, if_pos rfl, ih]

/-- The path of a file from the directory on is made of its names. -/
theorem relpath_joinNames (hrel : Proper rel) (hne : rel ≠ []) :
    relpath fs (joinNames top rel) top = Str.join "/" rel := by
  unfold relpath
  simp only [absNames_joinNames hrel, commonPrefix_append]
  rw [ Nat.sub_self, List.replicate_zero, List.nil_append, List.drop_left,
    if_neg hne]

end Posix.FileSystem

/-! ## The matches -/

/-- A line that holds the query: its file by the names from the workspace on, its number, and
its text. -/
structure Hit where
  file : Path
  line : ℕ
  text : Str

/-- The line of the answer. -/
def Hit.listed (hit : Hit) : Str :=
  Str.join "/" hit.file ++ ":".toList ++ Nat.toDigits 10 hit.line ++ ": ".toList ++ strip hit.text

/-- What there is to find below `root`: an entry that can be read as a file, itself or where
its symlink leads, and that is text. -/
def Matches (fs : FileSystem) (root query : Str) (hit : Hit) : Prop :=
  ∃ w m p data, FileSystem.DirAt fs root w ∧ hit.file ≠ [] ∧
    fs.node (w ++ hit.file) = some m ∧
    fs.readBytes (render (w ++ hit.file)) = some (p, data) ∧ isBinary data = false ∧
    1 ≤ hit.line ∧ (splitlines (decodeUtf8 data))[hit.line - 1]? = some hit.text ∧
    Str.contains query hit.text = true

/-- The hits in the lines of a file. -/
def lineHits (query : Str) (file : Path) (data : List UInt8) : List Hit :=
  ((if isBinary data then [] else splitlines (decodeUtf8 data)).zipIdx 1).filterMap fun line =>
    if Str.contains query line.1 then some ⟨file, line.2, line.1⟩ else none

/-- The hits in the file of an entry below the directory `w`. -/
def entryHits (fs : FileSystem) (w : Path) (query : Str) (file : Path) : List Hit :=
  match fs.readBytes (render (w ++ file)) with
  | none => []
  | some (_, data) => lineHits query file data

section Hits
variable {fs : FileSystem} {w : Path} {query root : Str} {file : Path} {data : List UInt8}
  {hit : Hit}

theorem mem_lineHits : hit ∈ lineHits query file data ↔ hit.file = file ∧
    isBinary data = false ∧ 1 ≤ hit.line ∧
    (splitlines (decodeUtf8 data))[hit.line - 1]? = some hit.text ∧
    Str.contains query hit.text = true := by
  obtain ⟨file', line, text⟩ := hit
  rw [lineHits, List.mem_filterMap]
  constructor
  · rintro ⟨⟨text', line'⟩, hmem, heq⟩
    split_ifs at heq with hcontains
    cases heq
    by_cases hbinary : isBinary data = true
    · rw [if_pos hbinary] at hmem
      cases hmem
    · rw [if_neg hbinary, List.mk_mem_zipIdx_iff_le_and_getElem?_sub] at hmem
      exact ⟨rfl, by simpa using hbinary, hmem.1, hmem.2, hcontains⟩
  · rintro ⟨rfl, hbinary, hline, hget, hcontains⟩
    refine ⟨(text, line), ?_, if_pos hcontains⟩
    rw [if_neg (by simp [hbinary]), List.mk_mem_zipIdx_iff_le_and_getElem?_sub]
    exact ⟨hline, hget⟩

theorem lineHits_sorted : (lineHits query file data).Pairwise fun a b => a.line < b.line := by
  rw [lineHits, List.pairwise_filterMap]
  have hnumbers : ∀ lines : List Str, (lines.zipIdx 1).Pairwise fun a b => a.2 < b.2 := by
    intro lines
    rw [← List.pairwise_map (f := Prod.snd) (R := (· < ·)), List.zipIdx_map_snd]
    exact List.pairwise_lt_range'
  refine (hnumbers _).imp fun hlt a ha b hb => ?_
  split_ifs at ha hb
  cases ha
  cases hb
  exact hlt

/-- The lines that the loop adds for a file. -/
theorem fileHits_joinNames (hfile : Proper file) (hne : file ≠ []) :
    fileHits fs root (FileSystem.joinNames root file) (.str query) data =
      .ok ((lineHits query file data).map Hit.listed) := by
  simp only [fileHits, FileSystem.relpath_joinNames hfile hne, lineHits, List.map_filterMap]
  congr 2
  funext line
  split_ifs <;> rfl

theorem searchFiles_eq (ht : FileSystem.DirAt fs root w) {files : List Path}
    (hfiles : ∀ file ∈ files, file ≠ [] ∧ ∃ m, fs.node (w ++ file) = some m) :
    (searchFiles fs root (.str query) (files.map (FileSystem.joinNames root))).2 =
      .ok ((files.flatMap (entryHits fs w query)).map Hit.listed) := by
  induction files with
  | nil => rfl
  | cons file files ih =>
    obtain ⟨⟨hne, m, hnode⟩, hrest⟩ := List.forall_mem_cons.mp hfiles
    have hproper : Proper file := fun x hx =>
      FileSystem.proper_of_node hnode x (List.mem_append_right _ hx)
    rw [List.map_cons, searchFiles, FileSystem.readBytes_joinNames ht hne hnode,
      List.flatMap_cons, entryHits]
    cases hread : fs.readBytes (render (w ++ file)) with
    | none => exact ih hrest
    | some found =>
      obtain ⟨p, data⟩ := found
      dsimp only
      rw [fileHits_joinNames hproper hne]
      dsimp only
      rw [ih hrest, List.map_append]
      rfl

/-- The hits below a directory, in the order of the walk. -/
def treeHits (fs : FileSystem) (w : Path) (query : Str) : List Hit :=
  (FileSystem.walkNames (fs.entries.length + 1) fs w).flatMap (entryHits fs w query)

theorem isdir_of_readBytes {s : Str} {p : Path} (h : fs.readBytes s = some (p, data)) :
    fs.isdir s = false := by
  obtain ⟨q, hloc, hfile⟩ := Option.bind_eq_some_iff.mp h
  have hnode : fs.node q ≠ some .dir := by
    intro hdir
    rw [hdir] at hfile
    cases hfile
  simp [FileSystem.isdir, FileSystem.stat, hloc, hnode]

theorem mem_entryHits : hit ∈ entryHits fs w query file ↔
    ∃ p data, fs.readBytes (render (w ++ file)) = some (p, data) ∧
      hit ∈ lineHits query file data := by
  rw [entryHits]
  cases fs.readBytes (render (w ++ file)) with
  | none => simp
  | some found =>
    obtain ⟨p, data⟩ := found
    simp

theorem mem_treeHits (ht : FileSystem.DirAt fs root w) :
    hit ∈ treeHits fs w query ↔ Matches fs root query hit := by
  rw [treeHits, List.mem_flatMap]
  constructor
  · rintro ⟨file, hfile, hhit⟩
    obtain ⟨hne, -, ⟨m, hnode⟩, -⟩ := (FileSystem.mem_walkNames ht.dir).mp hfile
    obtain ⟨p, data, hread, hline⟩ := mem_entryHits.mp hhit
    obtain ⟨rfl, hrest⟩ := mem_lineHits.mp hline
    exact ⟨w, m, p, data, ht, hne, hnode, hread, hrest⟩
  · rintro ⟨w', m, p, data, ht', hne, hnode, hread, hrest⟩
    obtain rfl : w = w' := Option.some.inj
      ((FileSystem.dirAt_iff.mp ht).1.symm.trans (FileSystem.dirAt_iff.mp ht').1)
    have hlen := FileSystem.length_le_of_node hnode
    rw [List.length_append] at hlen
    exact ⟨hit.file, (FileSystem.mem_walkNames ht.dir).mpr
      ⟨hne, by omega, ⟨m, hnode⟩, isdir_of_readBytes hread⟩,
      mem_entryHits.mpr ⟨p, data, hread, mem_lineHits.mpr ⟨rfl, hrest⟩⟩⟩

/-- Each file is searched once, line by line. -/
theorem treeHits_sorted (hw : fs.node w = some .dir) :
    (treeHits fs w query).Pairwise fun a b => a.file = b.file → a.line < b.line := by
  have hfile : ∀ {file : Path} {hit : Hit}, hit ∈ entryHits fs w query file → hit.file = file := by
    intro file hit hhit
    obtain ⟨p, data, -, hline⟩ := mem_entryHits.mp hhit
    exact (mem_lineHits.mp hline).1
  refine List.pairwise_flatMap.mpr ⟨fun file _ => ?_, ?_⟩
  · rw [entryHits]
    split
    · exact .nil
    · refine lineHits_sorted.imp ?_
      intro a b hlt _
      exact hlt
  · refine (FileSystem.nodup_walkNames hw).imp fun hne a ha b hb heq => absurd ?_ hne
    rw [← hfile ha, ← hfile hb, heq]

end Hits

/-- `search_text` answers, for every filesystem, with exactly the lines of text files below
the workspace that hold the query: a file that is a symlink counts under its own path, a
directory that is one is not entered. Each line comes once, the lines of a file in their
order, and a workspace that is no directory has none. -/
theorem search_text_exact (fs : FileSystem) (ctx : TaskContext) (arguments : Dict) (query : Str)
    (hquery : arguments.get? "query" = some (.str query)) :
    ∃ hits : List Hit, (∀ hit, hit ∈ hits ↔ Matches fs (ctx.resolve ".") query hit) ∧
      (hits.Pairwise fun a b => a.file = b.file → a.line < b.line) ∧
      (searchTextTool fs ctx arguments).result = .ok
        { tool := "search_text", status := .success
          summary := Nat.toDigits 10 hits.length ++ " matches".toList
          detailForLlm := Str.join "\n" (hits.map Hit.listed) } := by
  unfold searchTextTool workspaceFiles
  rw [hquery]
  by_cases hdir : ∃ w, FileSystem.DirAt fs (ctx.resolve ".") w
  · obtain ⟨w, ht⟩ := hdir
    refine ⟨treeHits fs w query, fun hit => mem_treeHits ht, treeHits_sorted ht.dir, ?_⟩
    have hfiles : ∀ file ∈ FileSystem.walkNames (fs.entries.length + 1) fs w,
        file ≠ [] ∧ ∃ m, fs.node (w ++ file) = some m := by
      intro file hfile
      obtain ⟨hne, -, hnode, -⟩ := (FileSystem.mem_walkNames ht.dir).mp hfile
      exact ⟨hne, hnode⟩
    dsimp only
    rw [FileSystem.walkFiles_eq ht, searchFiles_eq ht hfiles, ← treeHits, Except.map,
      List.length_map]
  · refine ⟨[], fun hit => ⟨fun h => absurd h List.not_mem_nil, fun h => ?_⟩, .nil, ?_⟩
    · obtain ⟨w, -, -, -, ht, -⟩ := h
      exact absurd ⟨w, ht⟩ hdir
    · have hlist : fs.listdir (ctx.resolve ".") = none := by
        cases hlist : fs.listdir (ctx.resolve ".") with
        | none => rfl
        | some ns =>
          obtain ⟨w, hloc⟩ := FileSystem.dir_of_listdir hlist
          exact absurd ⟨w, FileSystem.dirAt_iff.mpr hloc⟩ hdir
      dsimp only
      rw [FileSystem.walkFiles, hlist]
      rfl

/-! ## A file of two lines -/

def notesWorkspace : FileSystem where
  entries := [(["ws"], .dir), (["ws", "notes"], .file [97, 10, 98, 97])]
  cwd := []
  proper := by decide
  nodup := by decide
  closed := by decide
  cwd_dir := by decide

theorem search_text_exact_notes :
    (searchTextTool notesWorkspace gateContext [("query", .str "b")]).result = .ok
        { tool := "search_text", status := .success, summary := "1 matches"
          detailForLlm := "notes:2: ba" } ∧
      ∃ hits : List Hit, (∀ hit, hit ∈ hits ↔
        Matches notesWorkspace (gateContext.resolve ".") "b" hit) := by
  obtain ⟨hits, hmem, -, -⟩ :=
    search_text_exact notesWorkspace gateContext [("query", .str "b")] "b" rfl
  exact ⟨rfl, hits, hmem⟩

end AegisCode
