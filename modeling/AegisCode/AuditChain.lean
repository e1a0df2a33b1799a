import AegisCode.HashChain
import AegisCode.Program
import AegisCode.Redactor

/-!
# The audit log

`append` and `verify_chain` of the audit log, over the rows of one shared
table. A column reads as `none` where the row holds NULL. The two places that
build the hashed body are one definition here, `body`, because they build the
same dictionary from the same six values; `append` calls it with its live
arguments and `verifyChain` with the stored columns.
-/
namespace AegisCode.AuditChain

open Program

def genesis : Str := List.replicate 64 '0'

/-- The columns of a row that enter its hash, apart from the task. -/
structure Columns where
  stepIndex : Option ℤ
  timestamp : Option Str
  eventType : Option Str
  payloadJson : Option Str

/-- A row of one task as `verify_chain` selects it. -/
structure EventRow extends Columns where
  prevHash : Option Str
  hash : Option Str

def ofInt : Option ℤ → Json
  | none => .null
  | some n => .int n

def ofText : Option Str → Json
  | none => .null
  | some s => .str s

/-- The canonical JSON body that is hashed behind the previous hash. -/
def body (taskId : Str) (e : Columns) : Str :=
  Json.dumps (Json.canon (.obj [("task_id", .str taskId), ("step_index", ofInt e.stepIndex),
    ("event_type", ofText e.eventType), ("timestamp", ofText e.timestamp),
    ("payload_json", ofText e.payloadJson)]))

section Chain
variable (H : Digest) (taskId : Str)

/-- The hash of a row behind `prev`; there is none behind a NULL. -/
def rowHash (prev : Option Str) (e : Columns) : Option Str :=
  prev.map fun p => H.hexdigest (p ++ body taskId e)

/-- The loop of `verify_chain`: `prev` is the running hash, `walked` the rows so far. -/
def verifyFrom (expectedCount : Option ℤ) : Option Str → ℕ → List EventRow → Bool × Option ℤ
  | _, walked, [] =>
      match expectedCount with
      | some n => if (walked : ℤ) ≠ n then (false, some walked) else (true, none)
      | none => (true, none)
  | prev, walked, row :: rows =>
      let h := rowHash H taskId prev row.toColumns
      if row.prevHash ≠ prev ∨ row.hash ≠ h then (false, row.stepIndex)
      else verifyFrom expectedCount row.hash (walked + 1) rows

/-- `verify_chain` on the rows of the task, in the order of their ids. -/
def verifyChain (rows : List EventRow) (expectedCount : Option ℤ) : Bool × Option ℤ :=
  verifyFrom H taskId expectedCount (some genesis) 0 rows

end Chain

/-! ## Rows as chained records -/

open HashChain (Record Intact tip linked)

def toRecord (row : EventRow) : Record (Option Str) Columns :=
  ⟨row.prevHash, row.toColumns, row.hash⟩

theorem toRecord_injective : Function.Injective toRecord := by
  rintro ⟨c, p, h⟩ ⟨c', p', h'⟩ heq
  simpa [toRecord, and_comm, and_left_comm] using heq

section Chain
variable {H : Digest} {taskId : Str}

/-- The loop reports success on intact rows of the expected number only. -/
theorem verifyFrom_eq_true_iff {n : Option ℤ} {prev : Option Str} {walked : ℕ}
    {rows : List EventRow} :
    verifyFrom H taskId n prev walked rows = (true, none) ↔
      Intact (rowHash H taskId) prev (rows.map toRecord) ∧
        ∀ k ∈ n, k = (walked + rows.length : ℕ) := by
  induction rows generalizing prev walked with
  | nil =>
    cases n with
    | none => simp [verifyFrom, Intact]
    | some k =>
      by_cases hk : (walked : ℤ) = k
      · simp [verifyFrom, Intact, hk]
      · simp [verifyFrom, Intact, hk, Ne.symm hk]
  | cons row rows ih =>
    by_cases hrow : row.prevHash = prev ∧ row.hash = rowHash H taskId prev row.toColumns
    · obtain ⟨hprev, hhash⟩ := hrow
      have hlen : walked + 1 + rows.length = walked + (row :: rows).length := by
        simp only [List.length_cons]; omega
      rw [verifyFrom, if_neg (by simp [hprev, ← hhash]), ih, hlen]
      simp only [List.map_cons, Intact]
      simp [toRecord, hprev, ← hhash]
    · have hbad : row.prevHash ≠ prev ∨ row.hash ≠ rowHash H taskId prev row.toColumns := by
        by_contra hgood
        push Not at hgood
        exact hrow hgood
      rw [verifyFrom, if_pos hbad]
      simp only [List.map_cons, Intact]
      constructor
      · intro h
        simp at h
      · rintro ⟨⟨hprev, hhash, _⟩, _⟩
        exact absurd ⟨hprev, hhash⟩ hrow

/-- A successful loop has no row to report. -/
theorem verifyFrom_fst (n : Option ℤ) (prev : Option Str) (walked : ℕ) (rows : List EventRow)
    (h : (verifyFrom H taskId n prev walked rows).1 = true) :
    verifyFrom H taskId n prev walked rows = (true, none) := by
  induction rows generalizing prev walked with
  | nil =>
    cases n with
    | none => rfl
    | some k =>
      simp only [verifyFrom] at h ⊢
      split_ifs at h ⊢
      rfl
  | cons row rows ih =>
    simp only [verifyFrom] at h ⊢
    split_ifs at h ⊢
    exact ih _ _ h

theorem verifyChain_eq_true_iff {n : Option ℤ} {rows : List EventRow} :
    verifyChain H taskId rows n = (true, none) ↔
      Intact (rowHash H taskId) (some genesis) (rows.map toRecord) ∧
        ∀ k ∈ n, k = (rows.length : ℕ) := by
  rw [verifyChain, verifyFrom_eq_true_iff, Nat.zero_add]

theorem canon_ofInt (n : Option ℤ) : Json.canon (ofInt n) = ofInt n := by cases n <;> rfl

theorem canon_ofText (s : Option Str) : Json.canon (ofText s) = ofText s := by cases s <;> rfl

/-- The body with its keys in the order in which they are printed. -/
theorem body_eq (taskId : Str) (e : Columns) :
    body taskId e = Json.dumps (.obj [("event_type".toList, ofText e.eventType),
      ("payload_json".toList, ofText e.payloadJson), ("step_index".toList, ofInt e.stepIndex),
      ("task_id".toList, .str taskId), ("timestamp".toList, ofText e.timestamp)]) := by
  simp only [body, Json.canon, Json.canonMembers, canon_ofInt, canon_ofText]
  rfl

theorem ofInt_inj {m n : Option ℤ} (h : ofInt m = ofInt n) : m = n := by
  cases m <;> cases n <;> simp_all [ofInt]

theorem ofText_inj {s t : Option Str} (h : ofText s = ofText t) : s = t := by
  cases s <;> cases t <;> simp_all [ofText]

/-- The body determines the columns it was built from. -/
theorem body_injective (taskId : Str) : Function.Injective (body taskId) := by
  intro e e' h
  rw [body_eq, body_eq] at h
  have hobj := Json.dumps_injective h
  simp only [Json.obj.injEq, List.cons.injEq, Prod.mk.injEq, true_and, and_true] at hobj
  obtain ⟨htype, hpayload, hstep, htime⟩ := hobj
  obtain ⟨i, t, y, p⟩ := e
  obtain ⟨i', t', y', p'⟩ := e'
  rw [Columns.mk.injEq]
  exact ⟨ofInt_inj hstep, ofText_inj htime, ofText_inj htype, ofText_inj hpayload⟩

/-! ## The last hash binds the history -/

/-- The texts hashed while the rows are checked. -/
def hashed (taskId : Str) (rows : List EventRow) : List Str :=
  (linked (some genesis) (rows.map toRecord)).filterMap fun p =>
    p.1.map fun prev => prev ++ body taskId p.2

def lastHash (rows : List EventRow) : Option (Option Str) := rows.getLast?.map EventRow.hash

/-- In an intact log every row is hashed behind a digest-sized text. -/
theorem linked_some {prev : Str} {rs : List (Record (Option Str) Columns)} (hprev : prev.length = 64)
    (h : Intact (rowHash H taskId) (some prev) rs) :
    ∀ q ∈ linked (some prev) rs, ∃ x : Str, q.1 = some x ∧ x.length = 64 := by
  induction rs generalizing prev with
  | nil => simp [linked]
  | cons r rs ih =>
    obtain ⟨_, hhash, hrest⟩ := h
    simp only [rowHash, Option.map_some] at hhash
    rw [hhash] at hrest
    intro q hq
    rcases List.mem_cons.mp hq with rfl | hq
    · exact ⟨prev, rfl, hprev⟩
    · rw [hhash] at hq
      exact ih (H.length_hexdigest _) hrest q hq

theorem tip_rows (rows : List EventRow) :
    tip (some genesis) (rows.map toRecord) = (lastHash rows).getD (some genesis) := by
  rcases List.eq_nil_or_concat' rows with rfl | ⟨rows, r, rfl⟩
  · rfl
  · simp [lastHash, toRecord]

theorem rows_eq_of_intact {rows rows' : List EventRow}
    (hcoll : H.CollisionFree {t | t ∈ hashed taskId rows ∨ t ∈ hashed taskId rows'})
    (hgen : ∀ t, t ∈ hashed taskId rows ∨ t ∈ hashed taskId rows' → H.hexdigest t ≠ genesis)
    (h : Intact (rowHash H taskId) (some genesis) (rows.map toRecord))
    (h' : Intact (rowHash H taskId) (some genesis) (rows'.map toRecord))
    (hlast : lastHash rows = lastHash rows') : rows = rows' := by
  have hlen : genesis.length = 64 := by decide
  -- the pairs behind which a hash is computed, with the text that is hashed there
  have hpairs : ∀ q : Option Str × Columns, q ∈ linked (some genesis) (rows.map toRecord) ∨
      q ∈ linked (some genesis) (rows'.map toRecord) → ∃ x : Str, q.1 = some x ∧ x.length = 64 ∧
        (x ++ body taskId q.2 ∈ hashed taskId rows ∨ x ++ body taskId q.2 ∈ hashed taskId rows') := by
    rintro q (hq | hq)
    · obtain ⟨x, hx, hx64⟩ := linked_some hlen h q hq
      exact ⟨x, hx, hx64, .inl (List.mem_filterMap.mpr ⟨q, hq, by simp [hx]⟩)⟩
    · obtain ⟨x, hx, hx64⟩ := linked_some hlen h' q hq
      exact ⟨x, hx, hx64, .inr (List.mem_filterMap.mpr ⟨q, hq, by simp [hx]⟩)⟩
  have hinj : Set.InjOn (fun q : Option Str × Columns => rowHash H taskId q.1 q.2)
      {q | q ∈ linked (some genesis) (rows.map toRecord) ∨
        q ∈ linked (some genesis) (rows'.map toRecord)} := by
    rintro ⟨k, e⟩ hq ⟨k', e'⟩ hq' heq
    obtain ⟨x, rfl, hx64, hx⟩ := hpairs (k, e) hq
    obtain ⟨x', rfl, hx64', hx'⟩ := hpairs (k', e') hq'
    have htext := hcoll hx hx' (by simpa [rowHash] using heq)
    obtain ⟨rfl, hbody⟩ := Digest.append_inj hx64 hx64' htext
    exact Prod.ext rfl (body_injective taskId hbody)
  have hfresh : ∀ q : Option Str × Columns, q ∈ linked (some genesis) (rows.map toRecord) ∨
      q ∈ linked (some genesis) (rows'.map toRecord) →
        rowHash H taskId q.1 q.2 ≠ some genesis := by
    intro q hq heq
    obtain ⟨x, hx, _, hmem⟩ := hpairs q hq
    rw [rowHash, hx, Option.map_some, Option.some.injEq] at heq
    exact hgen _ hmem heq
  have hrecords := HashChain.intact_tip_inj hinj hfresh h h' (by rw [tip_rows, tip_rows, hlast])
  exact toRecord_injective.list_map hrecords

/-- Two valid tables of a task whose last rows store the same hash are equal, so
whatever is changed in a valid table while its last hash stays is noticed. -/
theorem verifyChain_binds (H : Digest) (taskId : Str) (rows rows' : List EventRow)
    (hcoll : H.CollisionFree {t | t ∈ hashed taskId rows ∨ t ∈ hashed taskId rows'})
    (hgen : ∀ t, t ∈ hashed taskId rows ∨ t ∈ hashed taskId rows' → H.hexdigest t ≠ genesis)
    (hvalid : verifyChain H taskId rows none = (true, none))
    (hlast : lastHash rows = lastHash rows') :
    (verifyChain H taskId rows' none = (true, none) → rows = rows') ∧
      (rows ≠ rows' → (verifyChain H taskId rows' none).1 = false) := by
  have hintact := (verifyChain_eq_true_iff.mp hvalid).1
  have heq (h' : verifyChain H taskId rows' none = (true, none)) : rows = rows' :=
    rows_eq_of_intact hcoll hgen hintact (verifyChain_eq_true_iff.mp h').1 hlast
  refine ⟨heq, fun hne => ?_⟩
  by_contra htrue
  have hfst : (verifyChain H taskId rows' none).1 = true := by simpa using htrue
  exact hne (heq (verifyFrom_fst _ _ _ _ hfst))

/-- The columns of a log of one row, as `append` writes it. -/
def sampleColumns : Columns where
  stepIndex := some 0
  timestamp := some "2026-01-01T00:00:00+00:00"
  eventType := some "EventType.TERMINATION"
  payloadJson := some "\x7b\"reason\": \"COMPLETED\"\x7d"

/-- SHA-256 as far as the sample log needs it. -/
def sampleDigest : Digest :=
  .single (genesis ++ body "t1" sampleColumns)
    "15e7beb5813e080dc5ba19bae312d0ab90e03ee4c552ced3b9a0ed6a33249181" (by decide)

/-! A log of two rows, and the same log with its first row rewritten. -/

def proposedColumns : Columns where
  stepIndex := some 0
  timestamp := some "2026-01-01T00:00:00+00:00"
  eventType := some "EventType.ACTION_PROPOSED"
  payloadJson := some
    "\x7b\"error\": \"no JSON object found\", \"raw\": \"[REDACTED]\"\x7d"

def editedColumns : Columns :=
  { proposedColumns with
    payloadJson := some "\x7b\"error\": \"no JSON object found\", \"raw\": \"finish\"\x7d" }

def endedColumns : Columns where
  stepIndex := some 0
  timestamp := some "2026-01-01T00:00:05+00:00"
  eventType := some "EventType.TERMINATION"
  payloadJson := some "\x7b\"reason\": \"COMPLETED\"\x7d"

def proposedHash : Str := "9b9bbdb198698b80fdce937c6599fad9f12bbbbd9a339af24d0059b48e3dd406"

def editedHash : Str := "7f14d911b60a2274ca5f5e4d0d163b54fdf43ff9a25d75d68e7bedd6760ec7fd"

def endedHash : Str := "ae3b33e109bc1a8b25d79c724ecb4e0c3e58750f19221c5ef72d117652a90653"

/-- SHA-256 on the texts of the two logs and of the sample log of another task. -/
def logDigests : List (Str × Str) :=
  [(genesis ++ body "t1" proposedColumns, proposedHash),
    (proposedHash ++ body "t1" endedColumns, endedHash),
    (genesis ++ body "t1" editedColumns, editedHash),
    (editedHash ++ body "t1" endedColumns,
      "c218db59867d3b771bc60b27a36c6fb4ab7fe603cc626caed7c51119f7eb898c"),
    (genesis ++ body "t2" sampleColumns,
      "0d5909f77a56c16119f8aab09be5904fae723d8ca0762a05dbbd60f853d6c6de")]

def logDigest : Digest := .known logDigests (by decide +kernel)

def loggedRows : List EventRow :=
  [⟨proposedColumns, some genesis, some proposedHash⟩,
    ⟨endedColumns, some proposedHash, some endedHash⟩]

/-- The hash of the rewritten row is computed anew, and the last one is kept. -/
def editedRows : List EventRow :=
  [⟨editedColumns, some genesis, some editedHash⟩,
    ⟨endedColumns, some editedHash, some endedHash⟩]

theorem hashed_logDigests {t : Str} (ht : t ∈ hashed "t1" loggedRows ∨ t ∈ hashed "t1" editedRows) :
    t ∈ logDigests.map Prod.fst := by
  have hlogged : hashed "t1" loggedRows =
    [genesis ++ body "t1" proposedColumns, proposedHash ++ body "t1" endedColumns] := rfl
  have hedited : hashed "t1" editedRows =
    [genesis ++ body "t1" editedColumns, editedHash ++ body "t1" endedColumns] := rfl
  rw [hlogged, hedited] at ht
  simp only [List.mem_cons, List.not_mem_nil, or_false] at ht
  obtain (rfl | rfl) | rfl | rfl := ht
  all_goals simp [logDigests]

theorem genesis_not_known : genesis ∉ logDigests.map Prod.snd := by
  decide +kernel

theorem verifyChain_logged : verifyChain logDigest "t1" loggedRows none = (true, none) := by
  decide +kernel

theorem verifyChain_binds_edited :
    lastHash loggedRows = lastHash editedRows ∧
      (verifyChain logDigest "t1" editedRows none).1 = false := by
  have hcoll : logDigest.CollisionFree
      {t | t ∈ hashed "t1" loggedRows ∨ t ∈ hashed "t1" editedRows} :=
    (Digest.known_collisionFree (by decide +kernel)).mono fun _ => hashed_logDigests
  have hgen : ∀ t, t ∈ hashed "t1" loggedRows ∨ t ∈ hashed "t1" editedRows →
      logDigest.hexdigest t ≠ genesis := by
    intro t ht hgenesis
    have hmem : (t, logDigest.hexdigest t) ∈ logDigests := Digest.known_mem (hashed_logDigests ht)
    have hvalue : logDigest.hexdigest t ∈ logDigests.map Prod.snd := List.mem_map_of_mem hmem
    rw [hgenesis] at hvalue
    exact genesis_not_known hvalue
  have hne : loggedRows ≠ editedRows := by
    intro heq
    have hpayloads := congrArg (List.map fun row => row.payloadJson) heq
    revert hpayloads
    decide +kernel
  have hlast : lastHash loggedRows = lastHash editedRows := by
    simp [lastHash, loggedRows, editedRows]
  exact ⟨hlast, (verifyChain_binds logDigest "t1" loggedRows editedRows hcoll hgen
    verifyChain_logged hlast).2 hne⟩

end Chain

/-! ## Appending

`append` reads the previous hash of its task and inserts the row in two steps;
between them rows of other tasks may land in the table. -/

/-- An append between its two steps: the hash it read and the row's columns. -/
structure Pending where
  prev : Str
  stepIndex : ℤ
  eventType : Str
  timestamp : Str
  payloadJson : Str

/-- The table, in the order of the row ids, and the append each task is in. -/
structure Writers where
  table : List (Str × EventRow)
  pending : Str → Option Pending

def Writers.initial : Writers := ⟨[], fun _ => none⟩

/-- The steps of the writers: `append` reads the previous hash, then its INSERT
is executed, or refused because the step index does not fit the column. -/
inductive WriterStep where
  | read (taskId : Str) (stepIndex : ℤ) (eventType timestamp : Str) (payload : Json)
  | insert (taskId : Str)
  | refuse (taskId : Str)

def rowsOf (taskId : Str) (table : List (Str × EventRow)) : List EventRow :=
  table.filterMap fun r => if r.1 = taskId then some r.2 else none

/-- `_prev_hash`: the hash of the task's latest row, or the genesis hash. -/
def prevHash (table : List (Str × EventRow)) (taskId : Str) : Option Str :=
  (lastHash (rowsOf taskId table)).getD (some genesis)

/-- SQLite integers have 64 bits; binding a larger one raises. -/
def fitsInteger (n : ℤ) : Bool := -2 ^ 63 ≤ n ∧ n < 2 ^ 63

def Pending.columns (a : Pending) : Columns where
  stepIndex := some a.stepIndex
  timestamp := some a.timestamp
  eventType := some a.eventType
  payloadJson := some a.payloadJson

section Append
variable (H : Digest) (redact : Str → Str)

/-- The row `append` inserts behind the hash it has read. -/
def appendRow (taskId : Str) (a : Pending) : EventRow where
  toColumns := a.columns
  prevHash := some a.prev
  hash := some (H.hexdigest (a.prev ++ body taskId a.columns))

/-- One step of one writer. A task has at most one append under way. -/
def writerStep (s : Writers) : WriterStep → Option Writers
  | .read taskId stepIndex eventType timestamp payload =>
      match s.pending taskId, prevHash s.table taskId with
      | none, some prev =>
          some { s with
            pending := Function.update s.pending taskId (some ⟨prev, stepIndex, eventType, timestamp,
              redact (Json.dumps (Json.canon payload))⟩) }
      | _, _ => none
  | .insert taskId =>
      match s.pending taskId with
      | some a =>
          if fitsInteger a.stepIndex then
            some ⟨s.table ++ [(taskId, appendRow H taskId a)],
              Function.update s.pending taskId none⟩
          else none
      | none => none
  | .refuse taskId =>
      match s.pending taskId with
      | some a =>
          if fitsInteger a.stepIndex then none
          else some { s with pending := Function.update s.pending taskId none }
      | none => none

end Append

/-- The number of appends the task has made. -/
def appends (taskId : Str) (steps : List WriterStep) : ℕ :=
  steps.countP fun
    | .insert t => t = taskId
    | _ => false

section Append
variable {H : Digest} {redact : Str → Str}

/-- What holds of every task at every moment: its rows are intact, a pending
append holds their last hash, and there is one row for every append made. -/
def LogInvariant (H : Digest) (steps : List WriterStep) (s : Writers) : Prop :=
  ∀ taskId, Intact (rowHash H taskId) (some genesis) ((rowsOf taskId s.table).map toRecord) ∧
    (∀ a ∈ s.pending taskId, prevHash s.table taskId = some a.prev) ∧
    (rowsOf taskId s.table).length = appends taskId steps

theorem rowsOf_append (taskId t : Str) (table : List (Str × EventRow)) (row : EventRow) :
    rowsOf taskId (table ++ [(t, row)]) =
      rowsOf taskId table ++ if t = taskId then [row] else [] := by
  by_cases h : t = taskId <;> simp [rowsOf, h]

theorem appends_append (taskId : Str) (steps : List WriterStep) (l : WriterStep) :
    appends taskId (steps ++ [l]) = appends taskId steps + appends taskId [l] := by
  simp [appends]

theorem logInvariant_read {steps : List WriterStep} {s s' : Writers} {taskId : Str} {n : ℤ}
    {e t : Str} {payload : Json} (h : LogInvariant H steps s)
    (hstep : writerStep H redact s (.read taskId n e t payload) = some s') :
    LogInvariant H (steps ++ [.read taskId n e t payload]) s' := by
  simp only [writerStep] at hstep
  split at hstep
  · rename_i prev _ hprev
    obtain rfl := (Option.some.inj hstep).symm
    intro u
    obtain ⟨hintact, hpending, hcount⟩ := h u
    refine ⟨hintact, ?_, by rw [appends_append, hcount]; rfl⟩
    by_cases hu : u = taskId
    · subst hu
      simpa using hprev
    · simpa [Function.update_of_ne hu] using hpending
  · simp at hstep

theorem logInvariant_refuse {steps : List WriterStep} {s s' : Writers} {taskId : Str}
    (h : LogInvariant H steps s) (hstep : writerStep H redact s (.refuse taskId) = some s') :
    LogInvariant H (steps ++ [.refuse taskId]) s' := by
  simp only [writerStep] at hstep
  split at hstep
  · split_ifs at hstep
    obtain rfl := (Option.some.inj hstep).symm
    intro u
    obtain ⟨hintact, hpending, hcount⟩ := h u
    refine ⟨hintact, ?_, by rw [appends_append, hcount]; rfl⟩
    by_cases hu : u = taskId
    · subst hu; simp
    · simpa [Function.update_of_ne hu] using hpending
  · simp at hstep

/-- The inserting step: the row lands behind the hash the task's rows end with,
because no other writer of the task came between. -/
theorem logInvariant_insert {steps : List WriterStep} {s s' : Writers} {taskId : Str}
    (h : LogInvariant H steps s) (hstep : writerStep H redact s (.insert taskId) = some s') :
    LogInvariant H (steps ++ [.insert taskId]) s' := by
  simp only [writerStep] at hstep
  split at hstep
  · rename_i a ha
    split_ifs at hstep
    obtain rfl := (Option.some.inj hstep).symm
    intro u
    obtain ⟨hintact, hpending, hcount⟩ := h u
    by_cases hu : u = taskId
    · subst hu
      have hprev : tip (some genesis) ((rowsOf u s.table).map toRecord) = some a.prev := by
        rw [tip_rows]
        exact hpending a ha
      refine ⟨?_, by simp, ?_⟩
      · simp only [rowsOf_append, if_true, List.map_append, List.map_cons, List.map_nil]
        rw [HashChain.intact_append_singleton, hprev]
        exact ⟨hintact, rfl, rfl⟩
      · simp [rowsOf_append, hcount, appends]
    · have hrows : rowsOf u (s.table ++ [(taskId, appendRow H taskId a)]) = rowsOf u s.table := by
        simp [rowsOf_append, Ne.symm hu]
      refine ⟨by rwa [hrows], ?_, ?_⟩
      · simpa [prevHash, hrows, Function.update_of_ne hu] using hpending
      · simp [hrows, hcount, appends, Ne.symm hu]
  · simp at hstep

theorem logInvariant_execute {steps : List WriterStep} {s : Writers}
    (h : execute (writerStep H redact) .initial steps = some s) : LogInvariant H steps s := by
  refine execute_invariant ?_ (fun ls s l s' hinv hl => ?_) h
  · intro taskId
    simp [Writers.initial, rowsOf, Intact, appends]
  · cases l with
    | read taskId n e t payload => exact logInvariant_read hinv hl
    | insert taskId => exact logInvariant_insert hinv hl
    | refuse taskId => exact logInvariant_refuse hinv hl

/-- However the appends of the tasks interleave, the log of every task verifies,
and its expected count is the number of appends made for it. -/
theorem appended_log_verifies (H : Digest) (redact : Str → Str) (steps : List WriterStep)
    (s : Writers) (hrun : execute (writerStep H redact) .initial steps = some s) (taskId : Str) :
    verifyChain H taskId (rowsOf taskId s.table) none = (true, none) ∧
      ∀ n : ℤ, verifyChain H taskId (rowsOf taskId s.table) (some n) = (true, none) ↔
        n = appends taskId steps := by
  obtain ⟨hintact, _, hcount⟩ := logInvariant_execute hrun taskId
  refine ⟨verifyChain_eq_true_iff.mpr ⟨hintact, by simp⟩, fun n => ?_⟩
  rw [verifyChain_eq_true_iff, hcount]
  constructor
  · rintro ⟨_, hn⟩
    exact hn n rfl
  · rintro rfl
    exact ⟨hintact, by simp⟩

/-- Two appends for the task `t1`, and one for `t2` that overlaps both. -/
def overlappingAppends : List WriterStep :=
  [.read "t1" 0 "EventType.ACTION_PROPOSED" "2026-01-01T00:00:00+00:00"
      (.obj [("raw", .str "token=abcdefghijklmnop"), ("error", .str "no JSON object found")]),
    .read "t2" 0 "EventType.TERMINATION" "2026-01-01T00:00:00+00:00"
      (.obj [("reason", .str "COMPLETED")]),
    .insert "t1",
    .read "t1" 0 "EventType.TERMINATION" "2026-01-01T00:00:05+00:00"
      (.obj [("reason", .str "COMPLETED")]),
    .insert "t2", .insert "t1"]

theorem appended_log_verifies_overlapping :
    ∃ s, execute (writerStep logDigest (Redactor.redact · none)) .initial overlappingAppends =
        some s ∧
      verifyChain logDigest "t1" (rowsOf "t1" s.table) (some 2) = (true, none) ∧
      verifyChain logDigest "t2" (rowsOf "t2" s.table) (some 1) = (true, none) := by
  have hruns : (execute (writerStep logDigest (Redactor.redact · none)) .initial
      overlappingAppends).isSome = true := by
    decide +kernel
  obtain ⟨s, hs⟩ := Option.isSome_iff_exists.mp hruns
  have hverifies := appended_log_verifies logDigest (Redactor.redact · none) overlappingAppends s hs
  exact ⟨s, hs, ((hverifies "t1").2 2).mpr (by decide), ((hverifies "t2").2 1).mpr (by decide)⟩

end Append
end AegisCode.AuditChain
