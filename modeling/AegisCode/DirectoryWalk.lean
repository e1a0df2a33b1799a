import AegisCode.FileOps

/-!
# Directory walks

`os.walk` without following symlinks. Below the directory it starts in, the walk
yields what can be read through the entries of the tree, whatever the strings
are that it builds on the way.
-/
namespace AegisCode.Posix.FileSystem

/-- `os.walk` from the top down, at most `n` directories deep: the files. A
symlink to a directory is no file, and is not followed. -/
def walkFiles : ℕ → FileSystem → Str → List Str
  | 0, _, _ => []
  | n + 1, fs, top =>
    match fs.listdir top with
    | none => []
    | some ns =>
      (ns.filter fun name => !fs.isdir (join top name)).map (join top) ++
        (ns.filter fun name => fs.isdir (join top name) && !fs.islink (join top name)).flatMap
          fun name => walkFiles n fs (join top name)

variable {fs : FileSystem}

/-! ## Traversals -/

/-- Every level of `traverseLinks` is a traversal. -/
theorem traverseLinks_traverse (fs : FileSystem) (n : ℕ) (active : List Path) :
    ∃ enter, fs.traverseLinks n active = traverse fs.node enter := by
  cases n with
  | zero => exact ⟨_, rfl⟩
  | succ n => exact ⟨_, rfl⟩

theorem traverseLinks_append (n : ℕ) (active : List Path) (path : Path) (ns ms : List Str) :
    fs.traverseLinks n active path (ns ++ ms) =
      (fs.traverseLinks n active path ns).bind fun q => fs.traverseLinks n active q ms := by
  obtain ⟨enter, henter⟩ := traverseLinks_traverse fs n active
  rw [henter]
  unfold traverse
  rw [List.foldlM_append]
  rfl

theorem traverseLinks_singleton {n : ℕ} {active : List Path} {w : Path} {name : Str}
    (hdir : fs.node w = some .dir) (hname : ProperName name)
    (hlink : fs.readlink (w ++ [name]) = none) :
    fs.traverseLinks n active w [name] = some (w ++ [name]) := by
  obtain ⟨enter, henter⟩ := traverseLinks_traverse fs n active
  rw [henter]
  unfold traverse
  unfold readlink at hlink
  rw [List.foldlM_cons, enterName, if_neg (not_not.mpr hdir), if_neg hname.2.1,
    if_neg hname.2.2.1, hlink]
  rfl

/-- A directory is reached by its own names. -/
theorem traverseLinks_dir {n : ℕ} {active : List Path} {q : Path} (h : fs.node q = some .dir) :
    fs.traverseLinks n active [] q = some q := by
  induction q using List.reverseRecOn with
  | nil =>
    obtain ⟨enter, henter⟩ := traverseLinks_traverse fs n active
    rw [henter]
    rfl
  | append_singleton q name ih =>
    have hparent := node_dropLast h
    rw [List.dropLast_concat] at hparent
    have hname := proper_of_node h name (by simp)
    rw [traverseLinks_append, ih hparent, Option.bind_some]
    exact traverseLinks_singleton hparent hname (readlink_of_dir h)

/-- The path is that of a directory, which the kernel finds at `w`. -/
structure DirAt (fs : FileSystem) (top : Str) (w : Path) : Prop where
  ne_nil : top ≠ []
  reached : fs.traverseLinks fs.linkCount [] (fs.base top) (names top) = some w
  dir : fs.node w = some .dir

theorem traverseLinks_dot {n : ℕ} {active : List Path} {w q : Path} :
    fs.traverseLinks n active w [".".toList] = some q ↔ fs.node w = some .dir ∧ w = q := by
  obtain ⟨enter, henter⟩ := traverseLinks_traverse fs n active
  rw [henter]
  unfold traverse
  rw [List.foldlM_cons, enterName]
  by_cases hdir : fs.node w = some .dir
  · simp [hdir]
  · simp [hdir]

theorem dirAt_iff {top : Str} {w : Path} :
    DirAt fs top w ↔ fs.locate top = some w ∧ fs.node w = some .dir := by
  constructor
  · rintro ⟨hne, hreach, hdir⟩
    refine ⟨?_, hdir⟩
    unfold locate components
    rw [if_neg hne, traverseLinks_append, hreach, Option.bind_some]
    by_cases hend : endsDir top = true
    · rw [if_pos hend]
      exact traverseLinks_dot.mpr ⟨hdir, rfl⟩
    · rw [if_neg hend]
      obtain ⟨enter, henter⟩ := traverseLinks_traverse fs fs.linkCount []
      rw [henter]
      rfl
  · rintro ⟨hloc, hdir⟩
    unfold locate components at hloc
    by_cases hne : top = []
    · rw [if_pos hne] at hloc
      cases hloc
    · rw [if_neg hne] at hloc
      by_cases hend : endsDir top = true
      · rw [if_pos hend, traverseLinks_append] at hloc
        obtain ⟨q, hreach, hdot⟩ := Option.bind_eq_some_iff.mp hloc
        obtain ⟨_, rfl⟩ := traverseLinks_dot.mp hdot
        exact ⟨hne, hreach, hdir⟩
      · rw [if_neg hend, List.append_nil] at hloc
        exact ⟨hne, hloc, hdir⟩

theorem dirAt_render {w : Path} (h : fs.node w = some .dir) : DirAt fs (render w) w where
  ne_nil := by
    intro hnil
    have habs := isabs_render w
    rw [hnil] at habs
    cases habs
  reached := by
    rw [base, isabs_render, if_pos rfl, names_render (proper_of_node h)]
    exact traverseLinks_dir h
  dir := h

/-! ## Entries of a directory -/

section Entries
variable {top : Str} {w : Path} {name : Str}

theorem isabs_of_properName (h : ProperName name) : isabs name = false := by
  obtain ⟨hne, _, _, hsep⟩ := h
  cases name with
  | nil => exact absurd rfl hne
  | cons c t =>
    have hc : '/' ≠ c := fun heq => hsep (heq ▸ List.mem_cons_self ..)
    simp [isabs, Str.startsWith, List.isPrefixOf, hc]

theorem endsDir_append {a b : Str} (hb : b ≠ []) : endsDir (a ++ b) = endsDir b := by
  unfold endsDir
  rw [List.getLast?_append_of_ne_nil _ hb]

theorem endsDir_join {a b : Str} (hb : b ≠ []) (habs : isabs b = false) :
    endsDir (join a b) = endsDir b := by
  unfold join
  rw [if_neg (by simp [habs])]
  split_ifs
  · exact endsDir_append hb
  · rw [List.append_cons]
    exact endsDir_append hb

theorem join_ne_nil {a b : Str} (hb : b ≠ []) (habs : isabs b = false) : join a b ≠ [] := by
  unfold join
  rw [if_neg (by simp [habs])]
  split_ifs <;> simp [hb]

/-- The components of a path in a directory. -/
theorem components_join {a b : Str} (hb : b ≠ []) (habs : isabs b = false) :
    components (join a b) = names a ++ components b := by
  unfold components
  rw [names_join habs, endsDir_join hb habs, List.append_assoc]

/-- A path in a directory is looked up from there. -/
theorem DirAt.locate_join (ht : DirAt fs top w) {b : Str} (hb : b ≠ []) (habs : isabs b = false) :
    fs.locate (join top b) = fs.traverseLinks fs.linkCount [] w (components b) := by
  unfold locate
  rw [if_neg (join_ne_nil hb habs), components_join hb habs, traverseLinks_append, base,
    isabs_join habs, ← base, ht.reached, Option.bind_some]

theorem names_ne_nil {b : Str} (hb : b ≠ []) (habs : isabs b = false) : names b ≠ [] := by
  obtain ⟨c, t, rfl⟩ := List.exists_cons_of_ne_nil hb
  have hc : c ≠ '/' := by
    rintro rfl
    simp [isabs, Str.startsWith, List.isPrefixOf] at habs
  obtain ⟨x, xs, hx⟩ := List.exists_cons_of_ne_nil (List.splitOn_ne_nil '/' t)
  unfold names split
  rw [List.splitOn_cons_eq_if_modifyHead, if_neg (by simpa using hc), hx]
  simp

/-- Where a path in a directory is found, the directory is there. -/
theorem dirAt_of_locate_join {a b : Str} {p : Path} (ha : a ≠ []) (hb : b ≠ [])
    (habs : isabs b = false) (h : fs.locate (join a b) = some p) : ∃ w, DirAt fs a w := by
  unfold locate at h
  rw [if_neg (join_ne_nil hb habs), components_join hb habs, traverseLinks_append, base,
    isabs_join habs, ← base] at h
  obtain ⟨w, hreach, hrest⟩ := Option.bind_eq_some_iff.mp h
  refine ⟨w, ha, hreach, ?_⟩
  obtain ⟨name, ns, hns⟩ := List.exists_cons_of_ne_nil (names_ne_nil hb habs)
  obtain ⟨enter, henter⟩ := traverseLinks_traverse fs fs.linkCount []
  rw [henter, components, hns] at hrest
  unfold traverse at hrest
  rw [List.cons_append, List.foldlM_cons] at hrest
  by_contra hdir
  rw [enterName, if_pos hdir] at hrest
  cases hrest

theorem components_of_properName (h : ProperName name) : components name = [name] := by
  have hend : endsDir name = false := by
    unfold endsDir
    by_contra hno
    have hlast : name.getLast? = some '/' := by simpa using hno
    exact h.2.2.2 (List.mem_of_getLast? hlast)
  unfold components
  rw [hend, if_neg Bool.false_ne_true, List.append_nil, names_of_not_mem h.2.2.2, if_neg h.1]

/-- An entry is looked up alike, under whichever path its directory goes by. -/
theorem DirAt.locate_entry (ht : DirAt fs top w) (h : ProperName name) :
    fs.locate (join top name) = fs.traverseLinks fs.linkCount [] w [name] := by
  rw [ht.locate_join h.1 (isabs_of_properName h), components_of_properName h]

theorem DirAt.lstat_entry (ht : DirAt fs top w) (h : ProperName name) :
    fs.lstat (join top name) = fs.node (w ++ [name]) := by
  have habs := isabs_of_properName h
  unfold lstat
  rw [components_join h.1 habs, components_of_properName h]
  simp only [List.getLast?_concat, List.dropLast_concat]
  rw [if_neg (not_or.mpr ⟨h.2.1, h.2.2.1⟩), base, isabs_join habs, ← base, ht.reached,
    Option.bind_some]

theorem DirAt.entry (ht : DirAt fs top w) (h : ProperName name)
    (hdir : fs.node (w ++ [name]) = some .dir) : DirAt fs (join top name) (w ++ [name]) := by
  refine dirAt_iff.mpr ⟨?_, hdir⟩
  rw [ht.locate_entry h]
  exact traverseLinks_singleton ht.dir h (readlink_of_dir hdir)

theorem node_of_mem {q : Path} {m : Node} (h : (q, m) ∈ fs.entries) : fs.node q = some m := by
  have hne : q ≠ [] := (fs.proper _ h).1
  cases hlook : fs.entries.lookup q with
  | none =>
    rw [List.lookup_eq_none_iff] at hlook
    simpa using hlook _ h
  | some m' =>
    have hnode : fs.node q = some m' := by rw [node, lookupNode, if_neg hne, hlook]
    have heq := List.inj_on_of_nodup_map fs.nodup h (mem_of_node hne hnode) rfl
    rw [hnode, (Prod.mk.inj heq).2]

theorem mem_children {dir : Path} :
    name ∈ fs.children dir ↔ ∃ m, fs.node (dir ++ [name]) = some m := by
  unfold children
  rw [List.mem_filterMap]
  constructor
  · rintro ⟨⟨q, m⟩, he, hq⟩
    split_ifs at hq with hdrop
    refine ⟨m, node_of_mem ?_⟩
    obtain ⟨init, rfl⟩ := List.getLast?_eq_some_iff.mp hq
    simp only [List.dropLast_concat] at hdrop
    rwa [← hdrop]
  · rintro ⟨m, hnode⟩
    exact ⟨_, mem_of_node (by simp) hnode, by simp⟩

theorem dir_of_listdir {top : Str} {ns : List Str} (h : fs.listdir top = some ns) :
    ∃ w, fs.locate top = some w ∧ fs.node w = some .dir := by
  obtain ⟨w, hloc, hlist⟩ := Option.bind_eq_some_iff.mp h
  by_cases hdir : fs.node w = some .dir
  · exact ⟨w, hloc, hdir⟩
  · rw [if_neg hdir] at hlist
    cases hlist

theorem DirAt.listdir_eq (ht : DirAt fs top w) : fs.listdir top = some (fs.children w) := by
  obtain ⟨hloc, hdir⟩ := dirAt_iff.mp ht
  rw [listdir, hloc, Option.bind_some, if_pos hdir]

/-- What reading an entry yields depends on its location only. -/
theorem DirAt.readBytes_entry (ht : DirAt fs top w) (h : ProperName name) :
    fs.readBytes (join top name) = fs.readBytes (render (w ++ [name])) := by
  have hrender : render (w ++ [name]) ≠ [] := by
    intro hnil
    have habs := isabs_render (w ++ [name])
    rw [hnil] at habs
    cases habs
  have hproper : Proper (w ++ [name]) := by
    intro x hx
    obtain hx | hx := List.mem_append.mp hx
    · exact proper_of_node ht.dir x hx
    · rwa [List.mem_singleton.mp hx]
  have hend : endsDir (render (w ++ [name])) = false := by
    have hlast : render (w ++ [name]) = (w.flatMap fun n => '/' :: n) ++ ['/'] ++ name := by
      unfold render
      simp
    rw [hlast, endsDir_append h.1]
    by_contra hno
    have hsep : name.getLast? = some '/' := by simpa [endsDir] using hno
    exact h.2.2.2 (List.mem_of_getLast? hsep)
  have hloc : fs.locate (render (w ++ [name])) = fs.traverseLinks fs.linkCount [] w [name] := by
    unfold locate components
    rw [if_neg hrender, base, isabs_render, if_pos rfl, names_render hproper, hend,
      if_neg Bool.false_ne_true, List.append_nil, traverseLinks_append,
      traverseLinks_dir ht.dir, Option.bind_some]
  rw [readBytes, readBytes, ht.locate_entry h, hloc]

/-- The walk descends into the entries that are directories themselves. -/
theorem DirAt.descends_iff (ht : DirAt fs top w) (h : ProperName name) :
    (fs.isdir (join top name) && !fs.islink (join top name)) = true ↔
      fs.node (w ++ [name]) = some .dir := by
  unfold isdir islink stat
  rw [ht.lstat_entry h, ht.locate_entry h]
  have hlocate : fs.readlink (w ++ [name]) = none →
      (fs.traverseLinks fs.linkCount [] w [name]).bind fs.node = fs.node (w ++ [name]) := by
    intro hlink
    rw [traverseLinks_singleton ht.dir h hlink, Option.bind_some]
  unfold readlink at hlocate
  match hnode : fs.node (w ++ [name]) with
  | none => simp [hlocate, hnode]
  | some .dir => simp [hlocate, hnode, Node.target]
  | some (.file content) => simp [hlocate, hnode, Node.target]
  | some (.link target) => simp

/-- A directory under a directory is below it. -/
theorem node_dir_of_prefix {q r : Path} {m : Node} (h : fs.node q = some m) (hr : r <+: q)
    (hne : r ≠ q) : fs.node r = some .dir := by
  induction q using List.reverseRecOn generalizing m with
  | nil => exact absurd (List.prefix_nil.mp hr) hne
  | append_singleton q name ih =>
    have hdir := node_dropLast h
    rw [List.dropLast_concat] at hdir
    have hrq := prefix_dropLast hr hne
    rw [List.dropLast_concat] at hrq
    by_cases heq : r = q
    · rw [heq]
      exact hdir
    · exact ih hdir hrq heq

/-- What can be read through the walk is what can be read through the entries
below the directory that are no directories themselves. -/
theorem readable_walkFiles {n : ℕ} (ht : DirAt fs top w) {p : Path} {data : List UInt8} :
    (∃ fp ∈ walkFiles n fs top, fs.readBytes fp = some (p, data)) ↔
      ∃ q m, w <+: q ∧ fs.node q = some m ∧ m ≠ .dir ∧ q.length ≤ w.length + n ∧
        fs.readBytes (render q) = some (p, data) := by
  induction n generalizing top w with
  | zero =>
    constructor
    · rintro ⟨fp, hfp, _⟩
      exact absurd hfp List.not_mem_nil
    · rintro ⟨q, m, hwq, hnode, hdir, hlen, _⟩
      obtain rfl : w = q := hwq.eq_of_length (le_antisymm hwq.length_le (by omega))
      rw [ht.dir] at hnode
      exact absurd (Option.some.inj hnode).symm hdir
  | succ n ih =>
    rw [walkFiles, ht.listdir_eq]
    dsimp only
    constructor
    · rintro ⟨fp, hfp, hread⟩
      obtain hfp | hfp := List.mem_append.mp hfp
      · obtain ⟨name, hname, rfl⟩ := List.mem_map.mp hfp
        obtain ⟨hchild, hnodir⟩ := List.mem_filter.mp hname
        obtain ⟨m, hnode⟩ := mem_children.mp hchild
        have hproper := proper_of_node hnode name (by simp)
        refine ⟨w ++ [name], m, List.prefix_append _ _, hnode, ?_, by simp, ?_⟩
        · rintro rfl
          have hdesc := (ht.descends_iff hproper).mpr hnode
          simp only [Bool.and_eq_true] at hdesc
          rw [hdesc.1] at hnodir
          cases hnodir
        · rw [← ht.readBytes_entry hproper]
          exact hread
      · obtain ⟨name, hname, hfp⟩ := List.mem_flatMap.mp hfp
        obtain ⟨hchild, hdesc⟩ := List.mem_filter.mp hname
        obtain ⟨m, hnode⟩ := mem_children.mp hchild
        have hproper := proper_of_node hnode name (by simp)
        have hdir := (ht.descends_iff hproper).mp hdesc
        obtain ⟨q, m, hwq, hq, hm, hlen, hread⟩ :=
          (ih (ht.entry hproper hdir)).mp ⟨fp, hfp, hread⟩
        refine ⟨q, m, (List.prefix_append _ _).trans hwq, hq, hm, ?_, hread⟩
        rw [List.length_append, List.length_singleton] at hlen
        omega
    · rintro ⟨q, m, ⟨rest, rfl⟩, hnode, hm, hlen, hread⟩
      cases rest with
      | nil =>
        rw [List.append_nil, ht.dir] at hnode
        exact absurd (Option.some.inj hnode).symm hm
      | cons name rest =>
        have hproper := proper_of_node hnode name (by simp)
        by_cases hrest : rest = []
        · subst hrest
          refine ⟨join top name, List.mem_append_left _ (List.mem_map_of_mem ?_), ?_⟩
          · refine List.mem_filter.mpr ⟨mem_children.mpr ⟨m, hnode⟩, ?_⟩
            by_contra hdir
            have hstat : fs.stat (join top name) = some .dir := by simpa [isdir] using hdir
            rw [← ht.readBytes_entry hproper] at hread
            unfold readBytes at hread
            unfold stat at hstat
            obtain ⟨r, hloc, hr⟩ := Option.bind_eq_some_iff.mp hstat
            simp [hloc, hr] at hread
          · rw [ht.readBytes_entry hproper]
            exact hread
        · have hassoc : w ++ name :: rest = w ++ [name] ++ rest := by simp
          have hdir : fs.node (w ++ [name]) = some .dir := by
            refine node_dir_of_prefix hnode (hassoc ▸ List.prefix_append _ _) ?_
            intro heq
            rw [hassoc] at heq
            exact hrest (List.self_eq_append_right.mp heq)
          obtain ⟨fp, hfp, hread⟩ := (ih (ht.entry hproper hdir)).mpr
            ⟨w ++ name :: rest, m, hassoc ▸ List.prefix_append _ _, hnode, hm,
              by simp at hlen ⊢; omega, hread⟩
          refine ⟨fp, List.mem_append_right _ (List.mem_flatMap.mpr ⟨name, ?_, hfp⟩), hread⟩
          exact List.mem_filter.mpr
            ⟨mem_children.mpr ⟨_, hdir⟩, (ht.descends_iff hproper).mpr hdir⟩

end Entries

/-- A path of entries is no longer than there are entries. -/
theorem length_le_of_node {q : Path} {m : Node} (h : fs.node q = some m) :
    q.length ≤ fs.entries.length := by
  have hnodup : ((List.range q.length).map fun i => q.take (i + 1)).Nodup := by
    refine List.Nodup.map_on ?_ List.nodup_range
    intro i hi j hj heq
    have hlen := congrArg List.length heq
    rw [List.mem_range] at hi hj
    rw [List.length_take, List.length_take] at hlen
    omega
  have hsub : ((List.range q.length).map fun i => q.take (i + 1)) ⊆ fs.entries.map Prod.fst := by
    intro r hr
    obtain ⟨i, hi, rfl⟩ := List.mem_map.mp hr
    rw [List.mem_range] at hi
    have hne : q.take (i + 1) ≠ [] := by
      intro hnil
      have hlen := congrArg List.length hnil
      rw [List.length_take, List.length_nil] at hlen
      omega
    by_cases heq : q.take (i + 1) = q
    · rw [heq] at hne ⊢
      exact List.mem_map_of_mem (mem_of_node hne h)
    · have hdir := node_dir_of_prefix h (List.take_prefix _ _) heq
      exact List.mem_map_of_mem (mem_of_node hne hdir)
  have hle := (List.subperm_of_subset hnodup hsub).length_le
  simpa using hle

end AegisCode.Posix.FileSystem
