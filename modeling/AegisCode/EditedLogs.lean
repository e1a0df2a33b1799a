import AegisCode.AuditedRuns

/-!
# Edited logs

`get_audit` over a table that was edited behind the back of the program: rows of a task
changed, deleted, repeated or put into another order, by someone who computes no hash. The
chain verifies as long as the rows are the first ones that were written, and otherwise the
answer names the first row at which they depart from these.
-/
namespace AegisCode

open Program HarnessCore AuditChain
open HashChain (Intact linked tip)

/-- The first element at which a list departs from another one. -/
theorem exists_departure {α : Type} {xs ys : List α} (h : ¬ xs <+: ys) :
    ∃ pre x post, xs = pre ++ x :: post ∧ pre <+: ys ∧ ¬ pre ++ [x] <+: ys := by
  induction xs using List.reverseRecOn with
  | nil => exact absurd List.nil_prefix h
  | append_singleton xs x ih =>
    by_cases hxs : xs <+: ys
    · exact ⟨xs, x, [], rfl, hxs, h⟩
    · obtain ⟨pre, y, post, rfl, hpre, hdeparts⟩ := ih hxs
      exact ⟨pre, y, post ++ [x], by simp, hpre, hdeparts⟩

/-! ## Verifying a part of a log -/

namespace AuditChain
variable {H : Digest} {taskId : Str} {rows pre : List EventRow}

/-- Behind intact rows the loop goes on with the hash of the last one. -/
theorem verifyFrom_append {n : Option ℤ} {prev : Option Str} {walked : ℕ}
    (h : Intact (rowHash H taskId) prev (pre.map toRecord)) :
    verifyFrom H taskId n prev walked (pre ++ rows) =
      verifyFrom H taskId n (tip prev (pre.map toRecord)) (walked + pre.length) rows := by
  induction pre generalizing prev walked with
  | nil => rfl
  | cons row pre ih =>
    obtain ⟨hprev, hhash, hrest⟩ := h
    have hbehind : Intact (rowHash H taskId) row.hash (pre.map toRecord) := hrest
    have hgood : ¬ (row.prevHash ≠ prev ∨ row.hash ≠ rowHash H taskId prev row.toColumns) :=
      not_or.mpr ⟨not_not.mpr hprev, not_not.mpr hhash⟩
    rw [List.cons_append, verifyFrom, if_neg hgood, ih hbehind, List.length_cons,
      Nat.add_assoc, Nat.add_comm 1]
    rfl

theorem intact_beginning (hpre : pre <+: rows)
    (h : Intact (rowHash H taskId) (some genesis) (rows.map toRecord)) :
    Intact (rowHash H taskId) (some genesis) (pre.map toRecord) := by
  obtain ⟨post, rfl⟩ := hpre
  rw [List.map_append] at h
  exact (HashChain.intact_append.mp h).1

theorem hashed_beginning (hpre : pre <+: rows) {t : Str} (ht : t ∈ hashed taskId pre) :
    t ∈ hashed taskId rows := by
  obtain ⟨post, rfl⟩ := hpre
  rw [hashed, List.map_append, HashChain.linked_append, List.filterMap_append]
  exact List.mem_append_left _ ht

/-- A row that bears a hash of the log and stands behind a beginning of it is found out,
unless it is the next row of the log. -/
theorem verifyChain_departs (n : Option ℤ) {row : EventRow} {post : List EventRow}
    (hcoll : H.CollisionFree {t | t ∈ hashed taskId rows ∨ t ∈ hashed taskId (pre ++ row :: post)})
    (hgen : ∀ t, t ∈ hashed taskId rows ∨ t ∈ hashed taskId (pre ++ row :: post) →
      H.hexdigest t ≠ genesis)
    (h : Intact (rowHash H taskId) (some genesis) (rows.map toRecord)) (hpre : pre <+: rows)
    (hdeparts : ¬ pre ++ [row] <+: rows) (hstored : ∃ r ∈ rows, row.hash = r.hash) :
    verifyChain H taskId (pre ++ row :: post) n = (false, row.stepIndex) := by
  have hintact := intact_beginning hpre h
  rw [verifyChain, verifyFrom_append hintact, verifyFrom, if_pos]
  by_contra hgood
  obtain ⟨hprev, hhash⟩ := not_or.mp hgood
  -- the row of the log with the same hash ends a beginning of the log
  obtain ⟨r, hr, heq⟩ := hstored
  obtain ⟨a, b, rfl⟩ := List.append_of_mem hr
  have hupto : a ++ [r] <+: a ++ r :: b := ⟨b, by simp⟩
  have hrow : pre ++ [row] <+: pre ++ row :: post := ⟨post, by simp⟩
  have hextended : Intact (rowHash H taskId) (some genesis) ((pre ++ [row]).map toRecord) := by
    rw [List.map_append, List.map_singleton, HashChain.intact_append_singleton]
    exact ⟨hintact, not_not.mp hprev, not_not.mp hhash⟩
  have hsame : a ++ [r] = pre ++ [row] := by
    refine rows_eq_of_intact (hcoll.mono ?_) (fun t ht => hgen t ?_) (intact_beginning hupto h)
      hextended ?_
    · exact fun t ht => ht.imp (hashed_beginning hupto) (hashed_beginning hrow)
    · exact ht.imp (hashed_beginning hupto) (hashed_beginning hrow)
    · simp [lastHash, heq]
  exact hdeparts (hsame ▸ hupto)

/-- A beginning of the log verifies with its own number of rows. -/
theorem verifyChain_beginning (hpre : pre <+: rows)
    (h : Intact (rowHash H taskId) (some genesis) (rows.map toRecord)) (n : Option ℤ) :
    verifyChain H taskId pre n = (true, none) ↔ ∀ k ∈ n, k = (pre.length : ℕ) := by
  rw [verifyChain_eq_true_iff]
  exact and_iff_right (intact_beginning hpre h)

end AuditChain

/-! ## The answer about a task -/

/-- The rows of a task that `verify_chain` walks. -/
def walkedRows (auditEvents : List StoredEvent) (taskId : Str) : List EventRow :=
  ((auditEvents.filter fun e => e.taskId = taskId).insertionSort
    fun a b => a.eventId ≤ b.eventId).map StoredEvent.toEventRow

/-- `get_audit`: whether the chain of the task is valid, and the events. -/
def getAudit (H : Digest) (auditEvents : List StoredEvent) (taskId : Str) :
    Bool × List StoredEvent :=
  ((verifyChain H taskId (walkedRows auditEvents taskId) none).1, listSince auditEvents taskId 0)

/-- Where ids are positive the events of the answer are the rows that were walked. -/
theorem walkedRows_eq {auditEvents : List StoredEvent} (hids : ∀ e ∈ auditEvents, 0 < e.eventId)
    (H : Digest) (taskId : Str) :
    walkedRows auditEvents taskId =
      (getAudit H auditEvents taskId).2.map StoredEvent.toEventRow := by
  have hsame : (auditEvents.filter fun e => decide (e.taskId = taskId ∧ 0 < e.eventId)) =
      auditEvents.filter fun e => e.taskId = taskId := by
    refine List.filter_congr fun e he => ?_
    simp [hids e he]
  rw [getAudit, listSince, hsame, walkedRows]

theorem mem_getAudit {H : Digest} {auditEvents : List StoredEvent} {taskId : Str}
    {e : StoredEvent} (he : e ∈ (getAudit H auditEvents taskId).2) :
    e ∈ auditEvents ∧ e.taskId = taskId := by
  rw [getAudit, listSince, List.mem_insertionSort, List.mem_filter, decide_eq_true_iff] at he
  exact ⟨he.1, he.2.1⟩

/-- Threads write the table, however they interleave, and then its rows are edited without
computing a hash: each row of the task bears one that was written for the task. The answer
about the task says that the chain is valid exactly if its events are the first ones that
were written, with the number of them exactly if they are all; and otherwise it names the
step of the first event that is not the one written at its place. -/
theorem edits_localised {ι : Type} [DecidableEq ι] (H : Digest) (runners : ι → Runner)
    (ls : List (AuditedLabel ι)) (s : AuditedState ι) (h : AuditedRun H runners ls s)
    (taskId : Str) (edited : List StoredEvent) (hids : ∀ e ∈ edited, 0 < e.eventId)
    (hhashes : ∀ e ∈ edited, e.taskId = taskId →
      ∃ row ∈ rowsOf taskId s.writers.table, e.hash = row.hash)
    (hcoll : H.CollisionFree {t | t ∈ hashed taskId (rowsOf taskId s.writers.table) ∨
      t ∈ hashed taskId (walkedRows edited taskId)})
    (hgen : ∀ t, t ∈ hashed taskId (rowsOf taskId s.writers.table) ∨
      t ∈ hashed taskId (walkedRows edited taskId) → H.hexdigest t ≠ genesis) :
    let written := rowsOf taskId s.writers.table
    let events := (getAudit H edited taskId).2.map StoredEvent.toEventRow
    ((getAudit H edited taskId).1 = true ↔ events <+: written) ∧
      (verifyChain H taskId events (some written.length) = (true, none) ↔ events = written) ∧
      ∀ pre row post, events = pre ++ row :: post → pre <+: written → ¬ pre ++ [row] <+: written →
        ∀ n, verifyChain H taskId events n = (false, row.stepIndex) := by
  intro written events
  obtain ⟨steps, hsteps⟩ := h.execute
  obtain ⟨hintact, -, -⟩ := logInvariant_execute hsteps taskId
  have hwalked : walkedRows edited taskId = events := walkedRows_eq hids H taskId
  rw [hwalked] at hcoll hgen
  have hstored : ∀ row ∈ events, ∃ r ∈ written, row.hash = r.hash := by
    intro row hrow
    obtain ⟨e, he, rfl⟩ := List.mem_map.mp hrow
    exact hhashes e (mem_getAudit he).1 (mem_getAudit he).2
  have hnamed : ∀ pre row post, events = pre ++ row :: post → pre <+: written →
      ¬ pre ++ [row] <+: written → ∀ n, verifyChain H taskId events n = (false, row.stepIndex) := by
    intro pre row post heq hpre hdeparts n
    have hrow := hstored row (by rw [heq]; simp)
    rw [heq] at hcoll hgen ⊢
    exact verifyChain_departs n hcoll hgen hintact hpre hdeparts hrow
  -- whatever number is expected, rows that verify are a beginning of the log
  have hbeginning : ∀ n, (verifyChain H taskId events n).1 = true → events <+: written := by
    intro n htrue
    by_contra hnot
    obtain ⟨pre, row, post, heq, hpre, hdeparts⟩ := exists_departure hnot
    rw [hnamed pre row post heq hpre hdeparts n] at htrue
    cases htrue
  refine ⟨?_, ?_, hnamed⟩
  · rw [getAudit, hwalked]
    refine ⟨hbeginning none, fun hpre => ?_⟩
    rw [(verifyChain_beginning hpre hintact none).mpr (by simp)]
  · constructor
    · intro hvalid
      have hpre := hbeginning _ (by rw [hvalid])
      have hlength := (verifyChain_beginning hpre hintact _).mp hvalid _ rfl
      exact hpre.eq_of_length (by omega)
    · intro heq
      rw [heq]
      refine (verifyChain_beginning (List.prefix_refl _) hintact _).mpr ?_
      rintro _ ⟨⟩
      rfl

/-! ## An edited event -/

/-- The append of a task that may take no step. -/
def lastAppend : Pending where
  prev := genesis
  stepIndex := 0
  eventType := EventType.termination.str
  timestamp := "2026-01-01T00:00:00+00:00"
  payloadJson := Redactor.redact (Json.dumps (Json.canon (.obj (terminationPayload .maxSteps)))) none

/-- A hash function that tells the text of the row from every other one. -/
def lastDigest : Digest :=
  .single (genesis ++ body "t1" lastAppend.columns) (List.replicate 64 'a') List.length_replicate

/-- The row of the append, with another step. -/
def editedEvent : StoredEvent where
  toEventRow := { appendRow lastDigest "t1" lastAppend with stepIndex := some 7 }
  eventId := 1
  taskId := "t1"

theorem lastAppend_run : ∃ program pending, AuditedRun lastDigest (fun _ : Unit => idleRunner false)
    [.call () ⟨.monotonic, (0 : ℤ)⟩, .call () ⟨.monotonic, (0 : ℤ)⟩,
      .read () "2026-01-01T00:00:00+00:00",
      .insert () ((idleRunner false).harness.stopped {} .maxSteps)]
    ⟨program, [("t1", appendRow lastDigest "t1" lastAppend)], pending⟩ :=
  ⟨_, _, .cons (.call _ rfl rfl) (.cons (.call _ rfl rfl) (.cons (.read _ _ rfl rfl)
    (.cons (.insert_of_pending rfl rfl fitsInteger_zero) .nil)))⟩

theorem body_editedEvent : body "t1" editedEvent.toColumns ≠ body "t1" lastAppend.columns := by
  intro heq
  have hstep : (some 7 : Option ℤ) = some 0 := congrArg Columns.stepIndex (body_injective "t1" heq)
  exact absurd hstep (by decide)

theorem rowsOf_lastAppend : rowsOf "t1" [("t1".toList, appendRow lastDigest "t1" lastAppend)] =
    [appendRow lastDigest "t1" lastAppend] := rfl

theorem mem_hashed_last {t : Str}
    (h : t ∈ hashed "t1" [appendRow lastDigest "t1" lastAppend] ∨
      t ∈ hashed "t1" (walkedRows [editedEvent] "t1")) :
    t = genesis ++ body "t1" lastAppend.columns ∨ t = genesis ++ body "t1" editedEvent.toColumns :=
  h.imp List.mem_singleton.mp List.mem_singleton.mp

theorem lastDigest_written :
    lastDigest.hexdigest (genesis ++ body "t1" lastAppend.columns) = List.replicate 64 'a' :=
  Digest.single_self _ _ _

theorem lastDigest_edited :
    lastDigest.hexdigest (genesis ++ body "t1" editedEvent.toColumns) = List.replicate 64 'f' :=
  Digest.single_of_ne _ fun heq => body_editedEvent (List.append_cancel_left heq)

theorem lastDigest_collisionFree :
    lastDigest.CollisionFree {t | t ∈ hashed "t1" [appendRow lastDigest "t1" lastAppend] ∨
      t ∈ hashed "t1" (walkedRows [editedEvent] "t1")} := by
  have hne : List.replicate 64 'a' ≠ List.replicate 64 'f' := by decide
  intro t ht t' ht' heq
  rcases mem_hashed_last ht with rfl | rfl <;> rcases mem_hashed_last ht' with rfl | rfl
  · rfl
  · rw [lastDigest_written, lastDigest_edited] at heq
    exact absurd heq hne
  · rw [lastDigest_written, lastDigest_edited] at heq
    exact absurd heq.symm hne
  · rfl

theorem edits_localised_step :
    (getAudit lastDigest [editedEvent] "t1").1 = false ∧
      verifyChain lastDigest "t1" [editedEvent.toEventRow] none = (false, some 7) := by
  obtain ⟨program, pending, hrun⟩ := lastAppend_run
  have hstored : ∀ e ∈ [editedEvent], e.taskId = "t1".toList →
      ∃ row ∈ [appendRow lastDigest "t1" lastAppend], e.hash = row.hash := by
    intro e he _
    obtain rfl := List.mem_singleton.mp he
    exact ⟨_, List.mem_singleton_self _, rfl⟩
  have hgen : ∀ t, t ∈ hashed "t1" [appendRow lastDigest "t1" lastAppend] ∨
      t ∈ hashed "t1" (walkedRows [editedEvent] "t1") → lastDigest.hexdigest t ≠ genesis := by
    intro t ht
    rcases mem_hashed_last ht with rfl | rfl
    · rw [lastDigest_written]
      decide
    · rw [lastDigest_edited]
      decide
  rw [← rowsOf_lastAppend] at hstored hgen
  obtain ⟨hvalid, -, hnamed⟩ := edits_localised lastDigest _ _ _ hrun "t1" [editedEvent]
    (List.forall_mem_singleton.mpr Int.one_pos) hstored
    (by rw [rowsOf_lastAppend]; exact lastDigest_collisionFree) hgen
  have hdeparts : ¬ [editedEvent.toEventRow] <+: [appendRow lastDigest "t1" lastAppend] := by
    intro hpre
    have heq := List.singleton_inj.mp (hpre.eq_of_length rfl)
    have hstep : (some 7 : Option ℤ) = some 0 := congrArg (fun row : EventRow => row.stepIndex) heq
    exact absurd hstep (by decide)
  constructor
  · exact Bool.eq_false_iff.mpr fun htrue => hdeparts (hvalid.mp htrue)
  · exact hnamed [] editedEvent.toEventRow [] rfl List.nil_prefix hdeparts none

end AegisCode
