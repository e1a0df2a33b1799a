import AegisCode.Posix

/-!
# Filesystems

A filesystem is a finite tree of directories, files and symlinks. Two walks
resolve a path in it. The walk of the kernel needs every name it passes to be
there; `realpath` goes on lexically behind a missing name, and gives up, without
raising, at a symlink that is met while it is being resolved.
-/
namespace AegisCode.Posix

inductive Node where
  | dir
  | file (content : List UInt8)
  | link (target : Str)
  deriving DecidableEq

def Node.target : Node → Option Str
  | .link target => some target
  | _ => none

def lookupNode (entries : List (Path × Node)) (p : Path) : Option Node :=
  if p = [] then some .dir else entries.lookup p

/-- What lies where below the root, and the working directory. -/
structure FileSystem where
  entries : List (Path × Node)
  cwd : Path
  proper : ∀ e ∈ entries, e.1 ≠ [] ∧ Proper e.1
  nodup : (entries.map Prod.fst).Nodup
  closed : ∀ e ∈ entries, lookupNode entries e.1.dropLast = some .dir
  cwd_dir : lookupNode entries cwd = some .dir

/-! ## Walking -/

section Walk
variable (readlink : Path → Option Str) (follow : Path → Str → Path × Bool)

/-- Where one name leads to, and whether a symlink there was resolved. -/
def walkName (path : Path) (name : Str) : Path × Bool :=
  if name = "." then (path, true)
  else if name = ".." then (path.dropLast, true)
  else match readlink (path ++ [name]) with
    | none => (path ++ [name], true)
    | some target => follow (path ++ [name]) target

/-- Where names lead to; behind a symlink that was not resolved they are kept. -/
def walk : Path → List Str → Path × Bool
  | path, [] => (path, true)
  | path, name :: rest =>
    match walkName readlink follow path name with
    | (p, true) => walk p rest
    | (p, false) => (p ++ rest, false)

variable (node : Path → Option Node) (enter : Path → Str → Option Path)

/-- One name of the kernel's walk: only a directory can be left, and the entry
that the name denotes may be missing. -/
def enterName (path : Path) (name : Str) : Option Path :=
  if node path ≠ some .dir then none
  else if name = "." then some path
  else if name = ".." then some path.dropLast
  else match (node (path ++ [name])).bind Node.target with
    | some target => enter (path ++ [name]) target
    | none => some (path ++ [name])

/-- The walk of the kernel. -/
def traverse (path : Path) (ns : List Str) : Option Path := ns.foldlM (enterName node enter) path

end Walk

/-- The names of a path, with a last `.` where a trailing separator asks for a
directory. -/
def components (s : Str) : List Str := names s ++ if endsDir s then [".".toList] else []

/-- The path with `.` and `..` removed as they are written. -/
def normalize (ns : List Str) : Path := (walk (fun _ => none) (fun p _ => (p, true)) [] ns).1

namespace FileSystem
variable (fs : FileSystem)

def node (p : Path) : Option Node := lookupNode fs.entries p

def readlink (p : Path) : Option Str := (fs.node p).bind Node.target

/-- Where the resolution of a path begins. -/
def base (s : Str) : Path := if isabs s then [] else fs.cwd

/-- Where the resolution of the target of a symlink begins. -/
def linkBase (p : Path) (target : Str) : Path := if isabs target then [] else p.dropLast

def linkCount : ℕ := fs.entries.countP fun e => e.2.target.isSome

/-- Resolution of names while the symlinks `active` are being resolved. Every
level holds another symlink, so that as many levels as symlinks are enough. -/
def joinRealpath : ℕ → List Path → Path → List Str → Path × Bool
  | 0, _ => walk fs.readlink fun p _ => (p, false)
  | n + 1, active => walk fs.readlink fun p target =>
      if p ∈ active then (p, false)
      else joinRealpath n (p :: active) (linkBase p target) (names target)

def traverseLinks : ℕ → List Path → Path → List Str → Option Path
  | 0, _ => traverse fs.node fun _ _ => none
  | n + 1, active => traverse fs.node fun p target =>
      if p ∈ active then none
      else traverseLinks n (p :: active) (linkBase p target) (components target)

/-- `_joinrealpath` of a whole path. -/
def resolution (s : Str) : Path × Bool :=
  fs.joinRealpath fs.linkCount [] (fs.base s) (names s)

/-- The location of `os.path.realpath`. -/
def resolve (s : Str) : Path :=
  let r := fs.resolution s
  if r.2 then r.1 else normalize r.1

/-- `os.path.realpath`. -/
def realpath (s : Str) : Str := render (fs.resolve s)

/-- The location at which the kernel looks for a path. -/
def locate (s : Str) : Option Path :=
  if s = [] then none
  else fs.traverseLinks fs.linkCount [] (fs.base s) (components s)

def stat (s : Str) : Option Node := (fs.locate s).bind fs.node

/-- `os.path.exists`. -/
def pathExists (s : Str) : Bool := (fs.stat s).isSome

/-- `stat` without following a symlink that the last name denotes. -/
def lstat (s : Str) : Option Node :=
  match (components s).getLast? with
  | none => fs.stat s
  | some name =>
    if name = "." ∨ name = ".." then fs.stat s
    else (fs.traverseLinks fs.linkCount [] (fs.base s) (components s).dropLast).bind
      fun p => fs.node (p ++ [name])

/-- `os.path.islink`. -/
def islink (s : Str) : Bool :=
  match fs.lstat s with
  | some (.link _) => true
  | _ => false

/-- Every symlink leads to an end: none is met while it is being resolved. -/
def NoSymlinkCycles : Prop := ∀ p, (fs.readlink p).isSome → (fs.resolution (render p)).2 = true

end FileSystem

/-! ## Laws of the walk -/

section Laws
variable {readlink : Path → Option Str} {follow : Path → Str → Path × Bool}

theorem walk_cons {path p : Path} {name : Str} {rest : List Str}
    (h : walkName readlink follow path name = (p, true)) :
    walk readlink follow path (name :: rest) = walk readlink follow p rest := by
  rw [walk, h]

theorem walk_singleton (path : Path) (name : Str) :
    walk readlink follow path [name] = walkName readlink follow path name := by
  rw [walk]
  generalize walkName readlink follow path name = r
  obtain ⟨p, b⟩ := r
  cases b <;> simp [walk]

/-- A walk that resolved everything resolved its first name. -/
theorem walk_cons_eq {path q : Path} {name : Str} {rest : List Str}
    (h : walk readlink follow path (name :: rest) = (q, true)) :
    ∃ p, walkName readlink follow path name = (p, true) ∧
      walk readlink follow p rest = (q, true) := by
  rw [walk] at h
  match hstep : walkName readlink follow path name with
  | (p, true) =>
    rw [hstep] at h
    exact ⟨p, rfl, h⟩
  | (p, false) =>
    rw [hstep] at h
    cases h

/-- A walk goes on from where the walk over the first names ended. -/
theorem walk_append {path q : Path} {ns ms : List Str}
    (h : walk readlink follow path ns = (q, true)) :
    walk readlink follow path (ns ++ ms) = walk readlink follow q ms := by
  induction ns generalizing path with
  | nil =>
    obtain rfl : path = q := congrArg Prod.fst h
    rfl
  | cons name ns ih =>
    obtain ⟨p, hstep, hrest⟩ := walk_cons_eq h
    rw [List.cons_append, walk_cons hstep, ih hrest]

/-- No prefix of the location, itself included, is a symlink. -/
def LinkFree (readlink : Path → Option Str) (q : Path) : Prop :=
  ∀ p, p <+: q → readlink p = none

theorem LinkFree.of_prefix {p q : Path} (hpq : p <+: q) (hq : LinkFree readlink q) :
    LinkFree readlink p := fun r hr => hq r (hr.trans hpq)

theorem LinkFree.concat {p : Path} {name : Str} (hp : LinkFree readlink p)
    (hname : readlink (p ++ [name]) = none) : LinkFree readlink (p ++ [name]) := by
  intro r hr
  obtain rfl | hr := List.prefix_concat_iff.mp hr
  · exact hname
  · exact hp r hr

/-- A location without symlinks is reached name by name. -/
theorem walk_of_linkFree {path ns : Path} (hns : Proper ns)
    (hfree : LinkFree readlink (path ++ ns)) :
    walk readlink follow path ns = (path ++ ns, true) := by
  induction ns generalizing path with
  | nil => simp [walk]
  | cons name ns ih =>
    have hname := hns name (List.mem_cons_self ..)
    have hassoc : path ++ name :: ns = path ++ [name] ++ ns := by simp
    rw [hassoc] at hfree ⊢
    have hlink : readlink (path ++ [name]) = none := hfree _ (List.prefix_append _ _)
    have hstep : walkName readlink follow path name = (path ++ [name], true) := by
      rw [walkName, if_neg hname.2.1, if_neg hname.2.2.1, hlink]
    rw [walk_cons hstep]
    exact ih (fun x hx => hns x (List.mem_cons_of_mem _ hx)) hfree

/-- The locations of resolved paths: proper names, no symlink. -/
structure Resolved (readlink : Path → Option Str) (q : Path) : Prop where
  proper : Proper q
  linkFree : LinkFree readlink q

theorem Resolved.dropLast {p : Path} (hp : Resolved readlink p) : Resolved readlink p.dropLast :=
  ⟨fun x hx => hp.proper x (List.dropLast_subset _ hx), hp.linkFree.of_prefix (List.dropLast_prefix _)⟩

/-- A name that is kept by a walk over the names of a path string. -/
def Plain (ns : List Str) : Prop := ∀ name ∈ ns, name ≠ [] ∧ '/' ∉ name

/-- Walks end in resolved locations when the symlinks on their way do. -/
theorem walk_resolved {path q : Path} {ns : List Str}
    (hfollow : ∀ p target r, readlink p = some target → Resolved readlink p.dropLast →
      follow p target = (r, true) → Resolved readlink r)
    (hpath : Resolved readlink path) (hns : Plain ns)
    (h : walk readlink follow path ns = (q, true)) : Resolved readlink q := by
  induction ns generalizing path with
  | nil =>
    obtain rfl : path = q := congrArg Prod.fst h
    exact hpath
  | cons name ns ih =>
    obtain ⟨p, hstep, hrest⟩ := walk_cons_eq h
    refine ih ?_ (fun x hx => hns x (List.mem_cons_of_mem _ hx)) hrest
    unfold walkName at hstep
    by_cases hdot : name = "."
    · rw [if_pos hdot] at hstep
      obtain rfl : path = p := congrArg Prod.fst hstep
      exact hpath
    · rw [if_neg hdot] at hstep
      by_cases hup : name = ".."
      · rw [if_pos hup] at hstep
        obtain rfl : path.dropLast = p := congrArg Prod.fst hstep
        exact hpath.dropLast
      · rw [if_neg hup] at hstep
        cases hlink : readlink (path ++ [name]) with
        | none =>
          rw [hlink] at hstep
          obtain rfl : path ++ [name] = p := congrArg Prod.fst hstep
          obtain ⟨hne, hsep⟩ := hns name (List.mem_cons_self ..)
          refine ⟨?_, hpath.linkFree.concat hlink⟩
          intro x hx
          obtain hx | hx := List.mem_append.mp hx
          · exact hpath.proper x hx
          · obtain rfl := List.mem_singleton.mp hx
            exact ⟨hne, hdot, hup, hsep⟩
        | some target =>
          rw [hlink] at hstep
          exact hfollow _ _ _ hlink (by simpa using hpath) hstep

theorem Plain.append {ns ms : List Str} (hns : Plain ns) (hms : Plain ms) : Plain (ns ++ ms) := by
  intro name h
  obtain h | h := List.mem_append.mp h
  · exact hns name h
  · exact hms name h

/-- The names of a walk's end come from the path, the names and the symlinks. -/
theorem walk_plain {path : Path} {ns : List Str}
    (hfollow : ∀ p target, Plain p → Plain (follow p target).1)
    (hpath : Plain path) (hns : Plain ns) : Plain (walk readlink follow path ns).1 := by
  induction ns generalizing path with
  | nil => exact hpath
  | cons name ns ih =>
    have hname : Plain [name] := fun x hx => hns x (by simp [List.mem_singleton.mp hx])
    have hrest : Plain ns := fun x hx => hns x (List.mem_cons_of_mem _ hx)
    have hstep : Plain (walkName readlink follow path name).1 := by
      unfold walkName
      split_ifs
      · exact hpath
      · exact fun x hx => hpath x (List.dropLast_subset _ hx)
      · cases readlink (path ++ [name]) with
        | none => exact hpath.append hname
        | some target => exact hfollow _ _ (hpath.append hname)
    rw [walk]
    match hw : walkName readlink follow path name with
    | (p, true) =>
      rw [hw] at hstep
      exact ih hstep hrest
    | (p, false) =>
      rw [hw] at hstep
      exact hstep.append hrest

/-- A last `.` changes nothing for a walk that resolves everything. -/
theorem walk_concat_dot {path q : Path} {ns : List Str}
    (h : walk readlink follow path (ns ++ [".".toList]) = (q, true)) :
    walk readlink follow path ns = (q, true) := by
  induction ns generalizing path with
  | nil => simpa [walk, walkName] using h
  | cons name ns ih =>
    obtain ⟨p, hstep, hrest⟩ := walk_cons_eq h
    rw [walk_cons hstep]
    exact ih hrest

end Laws

theorem plain_names (s : Str) : Plain (names s) := fun _ h => mem_names h

theorem Proper.plain {p : Path} (hp : Proper p) : Plain p :=
  fun name h => ⟨(hp name h).1, (hp name h).2.2.2⟩

theorem isabs_join {a b : Str} (hb : isabs b = false) : isabs (join a b) = isabs a := by
  unfold join
  rw [if_neg (by simp [hb])]
  cases a with
  | nil => rw [if_pos (.inl rfl), List.nil_append, hb]; rfl
  | cons c a =>
    by_cases hdir : c :: a = [] ∨ endsDir (c :: a) = true
    · rw [if_pos hdir]
      simp [isabs, Str.startsWith, List.isPrefixOf]
    · rw [if_neg hdir]
      simp [isabs, Str.startsWith, List.isPrefixOf]

theorem prefix_dropLast {r p : Path} (hr : r <+: p) (hne : r ≠ p) : r <+: p.dropLast := by
  obtain ⟨t, rfl⟩ := hr
  obtain rfl | ⟨t, name, rfl⟩ := List.eq_nil_or_concat' t
  · exact absurd (List.append_nil r).symm hne
  · rw [← List.append_assoc, List.dropLast_concat]
    exact List.prefix_append _ _

namespace FileSystem
variable {fs : FileSystem}

/-! ## Resolved locations -/

theorem node_nil : fs.node [] = some .dir := rfl

theorem readlink_of_dir {p : Path} (h : fs.node p = some .dir) : fs.readlink p = none := by
  rw [readlink, h]
  rfl

theorem mem_of_node {p : Path} {n : Node} (hne : p ≠ []) (h : fs.node p = some n) :
    (p, n) ∈ fs.entries := by
  unfold node lookupNode at h
  rw [if_neg hne] at h
  obtain ⟨l₁, l₂, heq, _⟩ := List.lookup_eq_some_iff.mp h
  simp [heq]

/-- What exists lies in a directory. -/
theorem node_dropLast {p : Path} {n : Node} (h : fs.node p = some n) :
    fs.node p.dropLast = some .dir := by
  by_cases hne : p = []
  · rw [hne]
    exact node_nil
  · exact fs.closed _ (mem_of_node hne h)

theorem proper_of_node {p : Path} {n : Node} (h : fs.node p = some n) : Proper p := by
  by_cases hne : p = []
  · rw [hne]
    exact fun _ hx => absurd hx List.not_mem_nil
  · exact (fs.proper _ (mem_of_node hne h)).2

/-- The locations above something that exists are directories. -/
theorem linkFree_dropLast {p : Path} {n : Node} (h : fs.node p = some n) :
    LinkFree fs.readlink p.dropLast := by
  induction p using List.reverseRecOn generalizing n with
  | nil =>
    intro r hr
    obtain rfl : r = [] := by simpa using hr
    exact readlink_of_dir node_nil
  | append_singleton p name ih =>
    have hdir := node_dropLast h
    rw [List.dropLast_concat] at hdir ⊢
    intro r hr
    by_cases hrp : r = p
    · rw [hrp]
      exact readlink_of_dir hdir
    · exact ih hdir r (prefix_dropLast hr hrp)

theorem resolved_nil : Resolved fs.readlink [] where
  proper := fun _ hx => absurd hx List.not_mem_nil
  linkFree := by
    intro r hr
    obtain rfl : r = [] := by simpa using hr
    exact readlink_of_dir node_nil

/-- A directory is a resolved location. -/
theorem resolved_of_dir {p : Path} (h : fs.node p = some .dir) : Resolved fs.readlink p := by
  refine ⟨proper_of_node h, ?_⟩
  intro r hr
  by_cases hrp : r = p
  · rw [hrp]
    exact readlink_of_dir h
  · exact linkFree_dropLast h r (prefix_dropLast hr hrp)

theorem resolved_base (s : Str) : Resolved fs.readlink (fs.base s) := by
  unfold base
  split_ifs
  · exact resolved_nil
  · exact resolved_of_dir fs.cwd_dir

/-! ## realpath -/

theorem joinRealpath_resolved {n : ℕ} {active : List Path} {path q : Path} {ns : List Str}
    (hpath : Resolved fs.readlink path) (hns : Plain ns)
    (h : fs.joinRealpath n active path ns = (q, true)) : Resolved fs.readlink q := by
  induction n generalizing active path q ns with
  | zero => exact walk_resolved (fun p target r _ _ hf => by cases hf) hpath hns h
  | succ n ih =>
    refine walk_resolved ?_ hpath hns h
    intro p target r _ hp hf
    by_cases hactive : p ∈ active
    · rw [if_pos hactive] at hf
      cases hf
    · rw [if_neg hactive] at hf
      refine ih ?_ (plain_names target) hf
      unfold linkBase
      split_ifs
      · exact resolved_nil
      · exact hp

theorem joinRealpath_plain {n : ℕ} {active : List Path} {path : Path} {ns : List Str}
    (hpath : Plain path) (hns : Plain ns) : Plain (fs.joinRealpath n active path ns).1 := by
  induction n generalizing active path ns with
  | zero => exact walk_plain (fun p _ hp => hp) hpath hns
  | succ n ih =>
    refine walk_plain ?_ hpath hns
    intro p target hp
    split_ifs
    · exact hp
    · refine ih ?_ (plain_names target)
      unfold linkBase
      split_ifs
      · exact fun x hx => absurd hx List.not_mem_nil
      · exact fun x hx => hp x (List.dropLast_subset _ hx)

/-- Every level of `joinRealpath` is a walk. -/
theorem joinRealpath_walk (fs : FileSystem) (n : ℕ) (active : List Path) :
    ∃ follow, fs.joinRealpath n active = walk fs.readlink follow := by
  cases n with
  | zero => exact ⟨_, rfl⟩
  | succ n => exact ⟨_, rfl⟩

theorem joinRealpath_append {n : ℕ} {active : List Path} {path q : Path} {ns ms : List Str}
    (h : fs.joinRealpath n active path ns = (q, true)) :
    fs.joinRealpath n active path (ns ++ ms) = fs.joinRealpath n active q ms := by
  obtain ⟨follow, hwalk⟩ := joinRealpath_walk fs n active
  rw [hwalk] at h ⊢
  exact walk_append h

theorem resolution_resolved {s : Str} {q : Path} (h : fs.resolution s = (q, true)) :
    Resolved fs.readlink q :=
  joinRealpath_resolved (resolved_base s) (plain_names s) h

/-- A resolved location resolves to itself. -/
theorem resolution_render {q : Path} (hq : Resolved fs.readlink q) :
    fs.resolution (render q) = (q, true) := by
  obtain ⟨follow, hwalk⟩ := joinRealpath_walk fs fs.linkCount []
  unfold resolution base
  rw [isabs_render, if_pos rfl, names_render hq.proper, hwalk, walk_of_linkFree hq.proper hq.linkFree]
  rfl

theorem proper_normalize {ns : List Str} (hns : Plain ns) : Proper (normalize ns) := by
  have hok : ∀ (ns : List Str) (path : Path),
      (walk (fun _ => none) (fun p _ => (p, true)) path ns).2 = true := by
    intro ns
    induction ns with
    | nil => exact fun path => rfl
    | cons name ns ih =>
      intro path
      have hstep : (walkName (fun _ => none) (fun p _ => (p, true)) path name).2 = true := by
        unfold walkName
        split_ifs <;> rfl
      rw [walk_cons (Prod.ext rfl hstep)]
      exact ih _
  have hroot : Resolved (fun _ => none) [] :=
    ⟨fun _ hx => absurd hx List.not_mem_nil, fun _ _ => rfl⟩
  have hend := walk_resolved (fun _ _ _ hnone => by cases hnone) hroot hns
    (Prod.ext rfl (hok ns []))
  exact hend.proper

/-- Whatever the filesystem, `realpath` yields the string of a location. -/
theorem proper_resolve (fs : FileSystem) (s : Str) : Proper (fs.resolve s) := by
  unfold resolve
  by_cases hok : (fs.resolution s).2 = true
  · rw [if_pos hok]
    exact (resolution_resolved (Prod.ext rfl hok)).proper
  · rw [if_neg hok]
    exact proper_normalize (joinRealpath_plain (resolved_base s).proper.plain (plain_names s))

theorem resolve_eq {s : Str} {q : Path} (h : fs.resolution s = (q, true)) : fs.resolve s = q := by
  rw [resolve, h]
  rfl

/-- A path behind a resolved directory is resolved from there. -/
theorem resolution_join {a b : Str} {q : Path} (hb : isabs b = false)
    (ha : fs.resolution a = (q, true)) :
    fs.resolution (join a b) = fs.joinRealpath fs.linkCount [] q (names b) := by
  have hbase : fs.base (join a b) = fs.base a := by rw [base, base, isabs_join hb]
  unfold resolution at ha ⊢
  rw [names_join hb, hbase, joinRealpath_append ha]

/-- Resolving the directory part first changes nothing. -/
theorem resolution_join_realpath {a b : Str} (hb : isabs b = false)
    (ha : (fs.resolution a).2 = true) :
    fs.resolution (join (fs.realpath a) b) = fs.resolution (join a b) := by
  have ha : fs.resolution a = ((fs.resolution a).1, true) := Prod.ext rfl ha
  have hreal : fs.resolution (fs.realpath a) = ((fs.resolution a).1, true) := by
    rw [realpath, resolve_eq ha]
    exact resolution_render (resolution_resolved ha)
  rw [resolution_join hb ha, resolution_join hb hreal]

theorem isabs_basename (s : Str) : isabs (basename s) = false := by
  have hsep := not_mem_basename s
  cases h : basename s with
  | nil => rfl
  | cons c t =>
    rw [h] at hsep
    have hc : '/' ≠ c := fun heq => hsep (heq ▸ List.mem_cons_self ..)
    simp [isabs, Str.startsWith, List.isPrefixOf, hc]

theorem isabs_dirname {s : Str} (hs : isabs s = true) : isabs (dirname s) = true := by
  obtain ⟨t, rfl⟩ : ∃ t, s = '/' :: t := by
    obtain ⟨t, ht⟩ := Str.startsWith_iff.mp hs
    exact ⟨t, ht.symm⟩
  have hstart : ∀ {p : Str}, p <+: '/' :: t → p ≠ [] → isabs p = true := by
    intro p hp hne
    cases p with
    | nil => exact absurd rfl hne
    | cons c p =>
      obtain ⟨rest, hrest⟩ := hp
      rw [List.cons_append] at hrest
      obtain rfl : c = '/' := (List.cons.inj hrest).1
      rfl
  have hhead : head ('/' :: t) ≠ [] := by
    intro hnil
    have hall := List.rdropWhile_eq_nil_iff.mp hnil '/' (List.mem_cons_self ..)
    simp at hall
  have hprefix : head ('/' :: t) <+: '/' :: t := List.rdropWhile_prefix _ _
  unfold dirname
  by_cases hsep : ∀ c ∈ head ('/' :: t), c = '/'
  · rw [if_pos hsep]
    exact hstart hprefix hhead
  · rw [if_neg hsep]
    refine hstart ((List.rdropWhile_prefix _ _).trans hprefix) ?_
    intro hnil
    exact hsep fun c hc => by simpa using List.rdropWhile_eq_nil_iff.mp hnil c hc

theorem resolution_split {s : Str} {q : Path} (hs : isabs s = true)
    (hdir : fs.resolution (dirname s) = (q, true)) :
    fs.resolution s = fs.joinRealpath fs.linkCount [] q (names (basename s)) := by
  unfold resolution base at hdir ⊢
  rw [if_pos (isabs_dirname hs)] at hdir
  rw [if_pos hs, names_eq s, joinRealpath_append hdir]

/-- The last name of an absolute path, behind the resolved directory part. -/
def behindParent (fs : FileSystem) (s : Str) : Str := join (fs.realpath (dirname s)) (basename s)

theorem resolution_behindParent {s : Str} (hs : isabs s = true)
    (hdir : (fs.resolution (dirname s)).2 = true) :
    fs.resolution (fs.behindParent s) = fs.resolution s := by
  have hdir : fs.resolution (dirname s) = ((fs.resolution (dirname s)).1, true) := Prod.ext rfl hdir
  rw [resolution_split hs hdir, behindParent,
    resolution_join_realpath (isabs_basename s) (congrArg Prod.snd hdir),
    resolution_join (isabs_basename s) hdir]

/-! ## Without cycles -/

/-- The walk to a symlink ends with what following it yields. -/
theorem walk_link {follow : Path → Str → Path × Bool} {p : Path} {target : Str}
    (h : fs.readlink p = some target) : walk fs.readlink follow [] p = follow p target := by
  obtain ⟨n, hnode⟩ : ∃ n, fs.node p = some n := by
    cases hn : fs.node p with
    | none => simp [readlink, hn] at h
    | some n => exact ⟨n, rfl⟩
  obtain rfl | ⟨dir, name, rfl⟩ := List.eq_nil_or_concat' p
  · cases h
  · have hproper := proper_of_node hnode
    have hname := hproper name (by simp)
    have hdir : Proper dir := fun x hx => hproper x (List.mem_append_left _ hx)
    have hfree : LinkFree fs.readlink dir := by simpa using linkFree_dropLast hnode
    rw [walk_append (walk_of_linkFree hdir hfree), List.nil_append, walk_singleton, walkName,
      if_neg hname.2.1, if_neg hname.2.2.1, h]

/-- Where no symlink is part of a cycle, every path is resolved completely. -/
theorem resolution_ok (hcycles : fs.NoSymlinkCycles) (s : Str) : (fs.resolution s).2 = true := by
  obtain ⟨follow, hwalk⟩ := joinRealpath_walk fs fs.linkCount []
  have hfollow : ∀ p target, fs.readlink p = some target → (follow p target).2 = true := by
    intro p target h
    have hproper : Proper p := by
      cases hn : fs.node p with
      | none => simp [readlink, hn] at h
      | some n => exact proper_of_node hn
    have hlink := hcycles p (by simp [h])
    unfold resolution base at hlink
    rw [isabs_render, if_pos rfl, names_render hproper, hwalk, walk_link h] at hlink
    exact hlink
  have hall : ∀ (ns : List Str) (path : Path), (walk fs.readlink follow path ns).2 = true := by
    intro ns
    induction ns with
    | nil => exact fun path => rfl
    | cons name ns ih =>
      intro path
      have hstep : (walkName fs.readlink follow path name).2 = true := by
        unfold walkName
        split_ifs
        · rfl
        · rfl
        · cases hlink : fs.readlink (path ++ [name]) with
          | none => rfl
          | some target => exact hfollow _ _ hlink
      rw [walk_cons (Prod.ext rfl hstep)]
      exact ih _
  unfold resolution
  rw [hwalk]
  exact hall _ _

theorem noSymlinkCycles_iff :
    fs.NoSymlinkCycles ↔
      ∀ e ∈ fs.entries, (fs.readlink e.1).isSome → (fs.resolution (render e.1)).2 = true := by
  constructor
  · exact fun h e _ => h e.1
  · intro h p hlink
    cases hnode : fs.node p with
    | none => simp [readlink, hnode] at hlink
    | some n =>
      have hne : p ≠ [] := by
        rintro rfl
        rw [readlink_of_dir node_nil] at hlink
        cases hlink
      exact h _ (mem_of_node hne hnode) hlink

instance (fs : FileSystem) : Decidable fs.NoSymlinkCycles :=
  decidable_of_iff _ noSymlinkCycles_iff.symm

/-! ## The kernel agrees -/

/-- Where the kernel's step succeeds, the step of `realpath` goes the same way. -/
theorem walkName_of_enterName {follow : Path → Str → Path × Bool} {enter : Path → Str → Option Path}
    {path p : Path} {name : Str}
    (hfollow : ∀ l target r, enter l target = some r → follow l target = (r, true))
    (h : enterName fs.node enter path name = some p) :
    walkName fs.readlink follow path name = (p, true) := by
  unfold enterName at h
  unfold walkName
  split_ifs at h ⊢ with hdir hdot hup
  · obtain rfl := Option.some.inj h
    rfl
  · obtain rfl := Option.some.inj h
    rfl
  · unfold readlink
    cases hlink : (fs.node (path ++ [name])).bind Node.target with
    | some target =>
      rw [hlink] at h
      exact hfollow _ _ _ h
    | none =>
      rw [hlink] at h
      obtain rfl := Option.some.inj h
      rfl

theorem walk_of_traverse {follow : Path → Str → Path × Bool} {enter : Path → Str → Option Path}
    {path q : Path} {ns : List Str}
    (hfollow : ∀ l target r, enter l target = some r → follow l target = (r, true))
    (h : traverse fs.node enter path ns = some q) : walk fs.readlink follow path ns = (q, true) := by
  induction ns generalizing path with
  | nil =>
    obtain rfl : path = q := by simpa [traverse] using h
    rfl
  | cons name ns ih =>
    unfold traverse at h ih
    rw [List.foldlM_cons] at h
    obtain ⟨p, hstep, hrest⟩ := Option.bind_eq_some_iff.mp h
    rw [walk_cons (walkName_of_enterName hfollow hstep)]
    exact ih hrest

theorem joinRealpath_components {n : ℕ} {active : List Path} {path q : Path} {s : Str}
    (h : fs.joinRealpath n active path (components s) = (q, true)) :
    fs.joinRealpath n active path (names s) = (q, true) := by
  unfold components at h
  by_cases hend : endsDir s = true
  · obtain ⟨follow, hwalk⟩ := joinRealpath_walk fs n active
    rw [if_pos hend, hwalk] at h
    rw [hwalk]
    exact walk_concat_dot h
  · rwa [if_neg hend, List.append_nil] at h

theorem joinRealpath_of_traverseLinks {n : ℕ} {active : List Path} {path q : Path} {ns : List Str}
    (h : fs.traverseLinks n active path ns = some q) :
    fs.joinRealpath n active path ns = (q, true) := by
  induction n generalizing active path q ns with
  | zero => exact walk_of_traverse (fun l target r he => by cases he) h
  | succ n ih =>
    refine walk_of_traverse ?_ h
    intro l target r he
    by_cases hactive : l ∈ active
    · rw [if_pos hactive] at he
      cases he
    · rw [if_neg hactive] at he ⊢
      exact joinRealpath_components (ih he)

/-- Where the kernel finds a path, `realpath` says the same. -/
theorem resolution_of_locate {s : Str} {q : Path} (h : fs.locate s = some q) :
    fs.resolution s = (q, true) := by
  unfold locate at h
  split_ifs at h
  exact joinRealpath_components (joinRealpath_of_traverseLinks h)

end FileSystem

end AegisCode.Posix
