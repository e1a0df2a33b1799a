import AegisCode.AuditChain
import AegisCode.Ranking
import AegisCode.Scanner

/-!
# The memory store

`MemoryStore.write` and `MemoryStore.retrieve` over the rows of the table
`memories`, in the order in which they were inserted. Rows last used at the same
time are ranked in this order.
-/
namespace AegisCode

open AuditChain (fitsInteger)
open Redactor

/-! ## `LIKE` -/

/-- A text as SQL functions read it: up to the first NUL. -/
def cString (s : Str) : Str := s.takeWhile (· ≠ '\x00')

/-- `s LIKE pattern`, without an escape character. -/
def likeMatch : Str → Str → Bool
  | [], s => s.isEmpty
  | c :: pattern, s =>
    if c = '%' then s.tails.any fun t => likeMatch pattern t
    else match s with
      | [] => false
      | d :: t => (c = '_' || c.toLower = d.toLower) && likeMatch pattern t

def like (pattern s : Str) : Bool := likeMatch (cString pattern) (cString s)

/-- The longest pattern `LIKE` takes has this many bytes. -/
def likeLimit : ℕ := 50000

/-! ## Rows -/

structure StoredMemory where
  memoryId : Str
  projectId : Str
  type : Str
  key : Str
  value : Str
  tagsJson : Str
  source : Str
  confirmed : Bool
  createdAt : Str
  lastUsedAt : Str
  useCount : ℕ
  deriving DecidableEq

/-- The columns that `retrieve` selects. -/
structure SelectedMemory where
  memoryId : Str
  projectId : Str
  type : Str
  key : Str
  value : Str
  tagsJson : Str
  source : Str
  confirmed : Bool
  useCount : ℕ
  deriving DecidableEq

def StoredMemory.selected (m : StoredMemory) : SelectedMemory :=
  ⟨m.memoryId, m.projectId, m.type, m.key, m.value, m.tagsJson, m.source, m.confirmed, m.useCount⟩

/-- The table `memories`; `memory_id` is its primary key. -/
structure MemoryTable where
  rows : List StoredMemory
  distinct : (rows.map StoredMemory.memoryId).Nodup

def MemoryTable.empty : MemoryTable := ⟨[], List.nodup_nil⟩

/-! ## Writing -/

/-- The arguments of `write`, with the id and the time it draws. -/
structure MemoryWrite where
  memoryId : Str
  now : Str
  projectId : Str
  type : Str
  key : Str
  value : Str
  tags : Option (List Str)
  source : Str
  confirmed : Option Bool := none

/-- `json.dumps(tags)`. -/
def tagsText : Option (List Str) → Str
  | none => Json.dumps .null
  | some tags => Json.dumps (.arr (tags.map .str))

def MemoryWrite.row (w : MemoryWrite) : StoredMemory where
  memoryId := w.memoryId
  projectId := w.projectId
  type := w.type
  key := w.key
  value := w.value
  tagsJson := tagsText w.tags
  source := w.source
  confirmed := if w.source = "agent" then false else w.confirmed.getD true
  createdAt := w.now
  lastUsedAt := w.now
  useCount := 0

namespace MemoryTable

theorem distinct_insert {rows : List StoredMemory} {m : StoredMemory}
    (h : (rows.map StoredMemory.memoryId).Nodup)
    (hm : m.memoryId ∉ rows.map StoredMemory.memoryId) :
    ((rows ++ [m]).map StoredMemory.memoryId).Nodup := by
  rw [List.map_append, List.map_singleton]
  exact List.nodup_append.mpr ⟨h, List.nodup_singleton _, by
    rintro _ hid _ hlast rfl
    rw [List.mem_singleton.mp hlast] at hid
    exact hm hid⟩

/-- Whether `scan_text` finds anything in what is to be written. -/
def refused (w : MemoryWrite) : Bool :=
  !(scanText w.value "<text>").isEmpty || !(scanText w.key "<text>").isEmpty ||
    !(scanText (Str.join " " (w.tags.getD [])) "<text>").isEmpty

/-- `MemoryStore.write`. -/
def write (table : MemoryTable) (w : MemoryWrite) : Except Exn (Option Str) × MemoryTable :=
  if refused w then (.ok none, table)
  else if h : w.memoryId ∈ table.rows.map StoredMemory.memoryId then
    (.error ⟨.other, "UNIQUE constraint failed: memories.memory_id"⟩, table)
  else (.ok (some w.memoryId), ⟨table.rows ++ [w.row], distinct_insert table.distinct h⟩)

theorem refused_eq_false {w : MemoryWrite} : refused w = false ↔
    ∀ u, IsCredential u → OnOneLine u →
      ¬ (u <:+: w.value ∨ u <:+: w.key ∨ u <:+: Str.join " " (w.tags.getD [])) := by
  simp only [refused, Bool.or_eq_false_iff, Bool.not_eq_false', List.isEmpty_iff,
    scanText_eq_nil_iff]
  constructor
  · rintro ⟨⟨hvalue, hkey⟩, htags⟩ u hu hone (hin | hin | hin)
    · exact hvalue u hu hone hin
    · exact hkey u hu hone hin
    · exact htags u hu hone hin
  · intro h
    exact ⟨⟨fun u hu hone hin => h u hu hone (.inl hin),
      fun u hu hone hin => h u hu hone (.inr (.inl hin))⟩,
      fun u hu hone hin => h u hu hone (.inr (.inr hin))⟩

/-- A write returns no id and stores nothing just when it is refused. -/
theorem write_eq_none_iff {table : MemoryTable} {w : MemoryWrite} :
    table.write w = (.ok none, table) ↔ refused w = true := by
  constructor
  · intro h
    by_contra hrefused
    rw [write, if_neg hrefused] at h
    by_cases hid : w.memoryId ∈ table.rows.map StoredMemory.memoryId
    · rw [dif_pos hid] at h
      cases (Prod.mk.inj h).1
    · rw [dif_neg hid] at h
      cases (Prod.mk.inj h).1
  · intro h
    rw [write, if_pos h]

end MemoryTable

/-- The scanner agrees with the redactor on a text, and a write of what the redactor
would change is refused, if and only if there is no credential or one on one line. -/
theorem scanner_agrees_iff (text path : Str) (table : MemoryTable) (w : MemoryWrite) :
    ((scanText text path = [] ↔ redact text none = text) ↔
      (Clean text ∨ ∃ u, IsCredential u ∧ OnOneLine u ∧ u <:+: text)) ∧
    (((redact w.value none ≠ w.value ∨ redact w.key none ≠ w.key ∨
        ∃ tag ∈ w.tags.getD [], redact tag none ≠ tag) → table.write w = (.ok none, table)) ↔
      ((Clean w.value ∧ Clean w.key ∧ ∀ tag ∈ w.tags.getD [], Clean tag) ∨
        ∃ u, IsCredential u ∧ OnOneLine u ∧
          (u <:+: w.value ∨ u <:+: w.key ∨ u <:+: Str.join " " (w.tags.getD [])))) := by
  constructor
  · rw [scanText_eq_nil_iff, redact_eq_iff]
    by_cases hclean : Clean text
    · have hscan : ∀ u, IsCredential u → OnOneLine u → ¬ u <:+: text := fun u hu _ =>
        clean_iff.mp hclean u hu
      simp only [hclean, true_or, iff_true]
      exact hscan
    · simp only [hclean, iff_false, false_or]
      push Not
      rfl
  · have hchanged : (redact w.value none ≠ w.value ∨ redact w.key none ≠ w.key ∨
        ∃ tag ∈ w.tags.getD [], redact tag none ≠ tag) ↔
        ¬ (Clean w.value ∧ Clean w.key ∧ ∀ tag ∈ w.tags.getD [], Clean tag) := by
      simp only [ne_eq, redact_eq_iff]
      push Not
      tauto
    have hrefused : (∃ u, IsCredential u ∧ OnOneLine u ∧
        (u <:+: w.value ∨ u <:+: w.key ∨ u <:+: Str.join " " (w.tags.getD []))) ↔
        MemoryTable.refused w = true := by
      rw [← Bool.not_eq_false, MemoryTable.refused_eq_false]
      push Not
      rfl
    rw [hchanged, MemoryTable.write_eq_none_iff, hrefused]
    tauto

/-- A secret on the line behind its keyword is redacted and not found by the scanner. -/
theorem scanner_misses_broken_line :
    scanText "KEY =\nabcdefghijklmnop" "<text>" = [] ∧
      redact "KEY =\nabcdefghijklmnop" none ≠ "KEY =\nabcdefghijklmnop".toList := by
  decide

/-! ## Retrieval -/

/-- `LIMIT topK`; a negative limit is none. -/
def limit {α : Type} (topK : ℤ) (rows : List α) : List α :=
  if topK < 0 then rows else rows.take topK.toNat

/-- `%query%`. -/
def keywordPattern (query : Str) : Str := '%' :: (query ++ ['%'])

/-- `key LIKE ? OR value LIKE ? OR tags_json LIKE ?`. -/
def keywordHit (query : Str) (m : StoredMemory) : Bool :=
  like (keywordPattern query) m.key || like (keywordPattern query) m.value ||
    like (keywordPattern query) m.tagsJson

/-- `project_id=?` and, where a type is asked for, `type=?`. -/
def inScope (projectId : Str) (type : Option Str) (m : StoredMemory) : Bool :=
  m.projectId = projectId && type.all (m.type = ·)

/-- `ORDER BY last_used_at DESC`. -/
def ranked (rows : List StoredMemory) : List StoredMemory :=
  rows.insertionSort fun a b => b.lastUsedAt ≤ a.lastUsedAt

/-- `use_count=use_count+1, last_used_at=?`. -/
def StoredMemory.use (now : Str) (m : StoredMemory) : StoredMemory :=
  { m with useCount := m.useCount + 1, lastUsedAt := now }

namespace MemoryTable

/-- The update of the row with the id of `m`. -/
def use (now : Str) (table : MemoryTable) (m : StoredMemory) : MemoryTable where
  rows := table.rows.map fun r => if r.memoryId = m.memoryId then r.use now else r
  distinct := by
    rw [List.map_map]
    have hids : (StoredMemory.memoryId ∘ fun r : StoredMemory =>
        if r.memoryId = m.memoryId then r.use now else r) = StoredMemory.memoryId := by
      ext r
      by_cases h : r.memoryId = m.memoryId <;> simp [h, StoredMemory.use]
    rw [hids]
    exact table.distinct

/-- `MemoryStore.retrieve` at the time `now`. The limit is bound as an integer of 64
bits, and no row is looked at where it is zero. -/
def retrieve (table : MemoryTable) (projectId : Str) (query : Option Str) (topK : ℤ)
    (type : Option Str) (now : Str) : Except Exn (List SelectedMemory) × MemoryTable :=
  let keyword := query.filter (· ≠ [])
  if fitsInteger topK = false then
    (.error ⟨.other, "Python int too large to convert to SQLite INTEGER"⟩, table)
  else if topK ≠ 0 ∧ keyword.any (fun q => likeLimit < (encodeUtf8 (keywordPattern q)).length) ∧
      table.rows.any (·.projectId = projectId) then
    (.error ⟨.other, "LIKE or GLOB pattern too complex"⟩, table)
  else
    let rows := limit topK (ranked (table.rows.filter fun m =>
      inScope projectId type m && keyword.all (keywordHit · m)))
    (.ok (rows.map StoredMemory.selected), rows.foldl (use now) table)

theorem inj_on_rows (table : MemoryTable) {m r : StoredMemory} (hm : m ∈ table.rows)
    (hr : r ∈ table.rows) (h : m.memoryId = r.memoryId) : m = r :=
  List.inj_on_of_nodup_map table.distinct hm hr h

theorem nodup_rows (table : MemoryTable) : table.rows.Nodup := List.Nodup.of_map _ table.distinct

/-- The updates of rows with different ids do not meet. -/
theorem foldl_use (now : Str) {rows : List StoredMemory}
    (h : (rows.map StoredMemory.memoryId).Nodup) (table : MemoryTable) :
    (rows.foldl (use now) table).rows = table.rows.map fun r =>
      if r.memoryId ∈ rows.map StoredMemory.memoryId then r.use now else r := by
  induction rows generalizing table with
  | nil => simp
  | cons m rows ih =>
    rw [List.map_cons, List.nodup_cons] at h
    rw [List.foldl_cons, ih h.2, use, List.map_map]
    apply List.map_congr_left
    intro r _
    by_cases hm : r.memoryId = m.memoryId
    · have hused : (r.use now).memoryId ∉ rows.map StoredMemory.memoryId := by
        rw [StoredMemory.use, hm]
        exact h.1
      have hin : r.memoryId ∈ (m :: rows).map StoredMemory.memoryId := by
        rw [hm]
        exact List.mem_cons_self
      rw [Function.comp_apply, if_pos hm, if_neg hused, if_pos hin]
    · simp [hm]

end MemoryTable

/-! ## The ranking -/

instance transLastUsed : IsTrans StoredMemory fun a b => b.lastUsedAt ≤ a.lastUsedAt :=
  ⟨fun _ _ _ hab hbc => le_trans hbc hab⟩

instance totalLastUsed : Std.Total fun a b : StoredMemory => b.lastUsedAt ≤ a.lastUsedAt :=
  ⟨fun a b => le_total b.lastUsedAt a.lastUsedAt⟩

theorem mem_ranked {rows : List StoredMemory} {m : StoredMemory} : m ∈ ranked rows ↔ m ∈ rows :=
  List.mem_insertionSort _

theorem filter_ranked (p : StoredMemory → Bool) (rows : List StoredMemory) :
    ranked (rows.filter p) = (ranked rows).filter p :=
  (Ranking.filter_insertionSort _ p rows).symm

theorem nodup_ranked {rows : List StoredMemory} (h : rows.Nodup) : (ranked rows).Nodup :=
  (List.perm_insertionSort _ rows).nodup_iff.mpr h

theorem limit_eq_take {α : Type} (topK : ℤ) {rows : List α} {n : ℕ} (h : rows.length ≤ n) :
    limit topK rows = rows.take (if topK < 0 then n else topK.toNat) := by
  rw [limit]
  by_cases hneg : topK < 0
  · rw [if_pos hneg, if_pos hneg, List.take_of_length_le h]
  · rw [if_neg hneg, if_neg hneg]

theorem limit_sublist {α : Type} (topK : ℤ) (rows : List α) : (limit topK rows).Sublist rows := by
  rw [limit_eq_take topK le_rfl]
  exact List.take_sublist _ rows

/-- `s` contains the query as it stands, up to the case of ASCII letters. -/
def ContainsQuery (query s : Str) : Prop := query.map Char.toLower <:+: s.map Char.toLower

/-- Letters that stand for themselves in a pattern. -/
def IsPlainQuery (query : Str) : Prop := ∀ c ∈ query, c ≠ '%' ∧ c ≠ '_' ∧ c ≠ '\x00'

theorem likeMatch_prefix {query : Str} (hquery : IsPlainQuery query) (s : Str) :
    likeMatch (query ++ ['%']) s = true ↔ query.map Char.toLower <+: s.map Char.toLower := by
  induction query generalizing s with
  | nil => simp [likeMatch]
  | cons c query ih =>
    have hc := hquery c List.mem_cons_self
    have hrest : IsPlainQuery query := fun d hd => hquery d (List.mem_cons_of_mem c hd)
    cases s with
    | nil => simp [likeMatch, hc]
    | cons d s => simp [likeMatch, hc, ih hrest, List.cons_prefix_cons]

/-- Without wildcards, `LIKE` with a query between two `%` is a literal search. -/
theorem like_keywordPattern {query : Str} (hquery : IsPlainQuery query) (s : Str) :
    like (keywordPattern query) s = true ↔ ContainsQuery query (cString s) := by
  have hpattern : cString (keywordPattern query) = keywordPattern query := by
    refine List.takeWhile_eq_self_iff.mpr fun c hc => ?_
    obtain rfl | hc := List.mem_cons.mp hc
    · decide
    · obtain hc | hc := List.mem_append.mp hc
      · simpa using (hquery c hc).2.2
      · rw [List.mem_singleton.mp hc]
        decide
  have hstep : ∀ t, likeMatch (keywordPattern query) t =
      t.tails.any fun u => likeMatch (query ++ ['%']) u := by
    intro t
    cases t <;> simp [keywordPattern, likeMatch]
  rw [like, hpattern, hstep, List.any_eq_true]
  simp only [List.mem_tails, likeMatch_prefix hquery, ContainsQuery]
  constructor
  · rintro ⟨t, hsuf, hpre⟩
    exact hpre.isInfix.trans (hsuf.map Char.toLower).isInfix
  · intro hin
    obtain ⟨u, hpre, hsuf⟩ := List.infix_iff_prefix_suffix.mp hin
    obtain ⟨a, ha⟩ := hsuf
    obtain ⟨a', t, hs, -, rfl⟩ := List.map_eq_append_iff.mp ha.symm
    exact ⟨t, ⟨a', hs.symm⟩, hpre⟩

/-- A row that no letter of the query stands in. -/
def plainNote : MemoryWrite where
  memoryId := "m1"
  now := "2026-01-01T00:00:00+00:00"
  projectId := "p1"
  type := "PROJECT_CONVENTION"
  key := "style"
  value := "use tabs"
  tags := some []
  source := "user"

end AegisCode
