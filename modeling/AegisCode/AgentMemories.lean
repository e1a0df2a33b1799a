import AegisCode.Harness
import AegisCode.MemoryStore

/-!
# Memories written by the agent

`_retrieve_memories` drops the rows of the agent behind the limit. They are never
shown, but they take places in the window, and a row without a place is not
marked as used either. Two tables that differ in such rows only are run side by
side.
-/
namespace AegisCode

open AuditChain (fitsInteger)

/-! ## Turns -/

def StoredMemory.isGovernanceUsable (m : StoredMemory) : Bool := m.source ≠ "agent"

def SelectedMemory.isGovernanceUsable (m : SelectedMemory) : Bool := m.source ≠ "agent"

/-- One call of `_retrieve_memories`: its arguments and its time. -/
structure MemoryTurn where
  projectId : Option Str
  topK : ℤ
  now : Str

namespace MemoryTable

/-- `_retrieve_memories` on a store. -/
def retrieveMemories (table : MemoryTable) (turn : MemoryTurn) :
    Except Exn (List SelectedMemory) × MemoryTable :=
  match turn.projectId with
  | none => (.ok [], table)
  | some projectId =>
      let found := table.retrieve projectId none turn.topK none turn.now
      (found.1.map fun rows => rows.filter SelectedMemory.isGovernanceUsable, found.2)

/-- What the turns return, one after another. -/
def runTurns : MemoryTable → List MemoryTurn → List (Except Exn (List SelectedMemory))
  | _, [] => []
  | table, turn :: turns =>
      (table.retrieveMemories turn).1 :: runTurns (table.retrieveMemories turn).2 turns

/-- The two tables have the same rows but for those of the agent. -/
def SameButAgents (table table' : MemoryTable) : Prop :=
  table.rows.filter StoredMemory.isGovernanceUsable =
    table'.rows.filter StoredMemory.isGovernanceUsable

/-- The rows of a project in the order of last use. -/
def projectRows (table : MemoryTable) (projectId : Str) : List StoredMemory :=
  ranked (table.rows.filter (inScope projectId none))

/-- How many rows have no place in the window because rows of the agent stand there.
There is no window where the limit cannot be bound. -/
def displaced (table : MemoryTable) (turn : MemoryTurn) : ℕ :=
  match turn.projectId with
  | none => 0
  | some projectId =>
      if fitsInteger turn.topK then
        (limit turn.topK ((table.projectRows projectId).filter
            StoredMemory.isGovernanceUsable)).length -
          (limit turn.topK (table.projectRows projectId)).countP StoredMemory.isGovernanceUsable
      else 0

/-- At every turn the rows of the agent displace as many rows in one table as in the other. -/
def DisplacedAlike : MemoryTable → MemoryTable → List MemoryTurn → Prop
  | _, _, [] => True
  | table, table', turn :: turns => table.displaced turn = table'.displaced turn ∧
      DisplacedAlike (table.retrieveMemories turn).2 (table'.retrieveMemories turn).2 turns

/-! ## One turn -/

/-- The rows that a turn returns, before the columns are selected. -/
def shown (table : MemoryTable) (projectId : Str) (topK : ℤ) : List StoredMemory :=
  (limit topK (table.projectRows projectId)).filter StoredMemory.isGovernanceUsable

theorem filter_selected (rows : List StoredMemory) :
    (rows.map StoredMemory.selected).filter SelectedMemory.isGovernanceUsable =
      (rows.filter StoredMemory.isGovernanceUsable).map StoredMemory.selected := by
  rw [List.filter_map]
  rfl

theorem retrieveMemories_some (table : MemoryTable) (projectId : Str) {topK : ℤ} (now : Str)
    (hfits : fitsInteger topK = true) :
    table.retrieveMemories ⟨some projectId, topK, now⟩ =
      (.ok ((table.shown projectId topK).map StoredMemory.selected),
        (limit topK (table.projectRows projectId)).foldl (use now) table) := by
  have hrows : (table.rows.filter fun m => inScope projectId none m &&
      (Option.filter (· ≠ []) none).all (keywordHit · m)) =
      table.rows.filter (inScope projectId none) := by
    simp
  rw [retrieveMemories]
  dsimp only
  rw [retrieve, if_neg (by simp [hfits]), if_neg (by simp), hrows]
  dsimp only [Except.map]
  rw [filter_selected]
  rfl

/-- Every table raises alike at a limit that cannot be bound. -/
theorem retrieveMemories_unbound (table : MemoryTable) (projectId : Str) {topK : ℤ} (now : Str)
    (hfits : fitsInteger topK = false) :
    table.retrieveMemories ⟨some projectId, topK, now⟩ =
      (.error ⟨.other, "Python int too large to convert to SQLite INTEGER"⟩, table) := by
  rw [retrieveMemories]
  dsimp only
  rw [retrieve, if_pos hfits]
  rfl

/-- The rows shown are the first of the rows that are not the agent's, as many as
have a place in the window. -/
theorem shown_eq_take (table : MemoryTable) (projectId : Str) (topK : ℤ) :
    table.shown projectId topK = ((table.projectRows projectId).filter
      StoredMemory.isGovernanceUsable).take
        ((limit topK (table.projectRows projectId)).countP StoredMemory.isGovernanceUsable) := by
  rw [shown, limit_eq_take topK le_rfl]
  exact Ranking.filter_take _ _ _

theorem mem_projectRows {table : MemoryTable} {projectId : Str} {m : StoredMemory}
    (h : m ∈ table.projectRows projectId) : m ∈ table.rows :=
  List.mem_of_mem_filter (mem_ranked.mp h)

theorem mem_window {table : MemoryTable} {projectId : Str} {topK : ℤ} {m : StoredMemory}
    (h : m ∈ limit topK (table.projectRows projectId)) : m ∈ table.rows :=
  mem_projectRows ((limit_sublist topK _).subset h)

/-- The ranking of the rows that are not the agent's does not depend on the others. -/
theorem SameButAgents.projectRows {table table' : MemoryTable} (h : SameButAgents table table')
    (projectId : Str) : (table.projectRows projectId).filter StoredMemory.isGovernanceUsable =
      (table'.projectRows projectId).filter StoredMemory.isGovernanceUsable := by
  have hcomm : ∀ rows : List StoredMemory,
      (rows.filter (inScope projectId none)).filter StoredMemory.isGovernanceUsable =
        (rows.filter StoredMemory.isGovernanceUsable).filter (inScope projectId none) := by
    intro rows
    rw [List.filter_filter, List.filter_filter]
    exact List.filter_congr fun m _ => Bool.and_comm _ _
  rw [MemoryTable.projectRows, MemoryTable.projectRows, ← filter_ranked, ← filter_ranked, hcomm,
    hcomm, h]

theorem length_shown (table : MemoryTable) (projectId : Str) (topK : ℤ) :
    (table.shown projectId topK).length =
      (limit topK (table.projectRows projectId)).countP StoredMemory.isGovernanceUsable :=
  List.countP_eq_length_filter.symm

/-- No more rows are shown than have a place when there are no others. -/
theorem length_shown_le (table : MemoryTable) (projectId : Str) (topK : ℤ) :
    (table.shown projectId topK).length ≤ (limit topK ((table.projectRows projectId).filter
      StoredMemory.isGovernanceUsable)).length := by
  have hall : (table.shown projectId topK).length ≤
      ((table.projectRows projectId).filter StoredMemory.isGovernanceUsable).length :=
    ((limit_sublist topK _).filter _).length_le
  have hplaces : (table.shown projectId topK).length ≤
      (limit topK (table.projectRows projectId)).length := List.length_filter_le _ _
  by_cases hneg : topK < 0
  · rw [limit, if_pos hneg]
    exact hall
  · rw [limit, if_neg hneg, List.length_take] at hplaces ⊢
    omega

theorem shown_eq_iff {table table' : MemoryTable} (h : SameButAgents table table')
    (projectId : Str) (topK : ℤ) : table.shown projectId topK = table'.shown projectId topK ↔
      (table.shown projectId topK).length = (table'.shown projectId topK).length := by
  refine ⟨fun heq => by rw [heq], fun heq => ?_⟩
  rw [length_shown, length_shown] at heq
  rw [shown_eq_take, shown_eq_take, heq, h.projectRows]

/-- A turn returns the same for both tables if and only if as many rows are displaced. -/
theorem retrieveMemories_eq_iff {table table' : MemoryTable} (h : SameButAgents table table')
    (turn : MemoryTurn) : (table.retrieveMemories turn).1 = (table'.retrieveMemories turn).1 ↔
      table.displaced turn = table'.displaced turn := by
  obtain ⟨projectId, topK, now⟩ := turn
  cases projectId with
  | none => simp [retrieveMemories, displaced]
  | some projectId =>
    cases hfits : fitsInteger topK with
    | false =>
      rw [retrieveMemories_unbound table projectId now hfits,
        retrieveMemories_unbound table' projectId now hfits]
      simp [displaced, hfits]
    | true =>
      have hreturned : (table.shown projectId topK).map StoredMemory.selected =
          (table'.shown projectId topK).map StoredMemory.selected ↔
          (table.shown projectId topK).length = (table'.shown projectId topK).length := by
        constructor
        · intro heq
          simpa using congrArg List.length heq
        · intro heq
          rw [(shown_eq_iff h projectId topK).mpr heq]
      have hle := length_shown_le table projectId topK
      have hle' := length_shown_le table' projectId topK
      rw [retrieveMemories_some table projectId now hfits,
        retrieveMemories_some table' projectId now hfits]
      simp only [displaced, hfits, if_true, Except.ok.injEq, hreturned, ← length_shown]
      rw [h.projectRows projectId] at hle ⊢
      omega

/-- The rows that are not the agent's, after a turn. -/
theorem filter_retrieveMemories (table : MemoryTable) (projectId : Str) {topK : ℤ} (now : Str)
    (hfits : fitsInteger topK = true) :
    (table.retrieveMemories ⟨some projectId, topK, now⟩).2.rows.filter
        StoredMemory.isGovernanceUsable =
      (table.rows.filter StoredMemory.isGovernanceUsable).map fun m =>
        if m ∈ table.shown projectId topK then m.use now else m := by
  have hids : ((limit topK (table.projectRows projectId)).map StoredMemory.memoryId).Nodup := by
    have hrows : (limit topK (table.projectRows projectId)).Nodup :=
      (limit_sublist topK _).nodup (nodup_ranked (table.nodup_rows.filter _))
    exact hrows.map_on fun m hm r hr hid => table.inj_on_rows (mem_window hm) (mem_window hr) hid
  rw [retrieveMemories_some table projectId now hfits, foldl_use now hids, List.filter_map]
  have hsource : (StoredMemory.isGovernanceUsable ∘ fun m : StoredMemory =>
      if m.memoryId ∈ (limit topK (table.projectRows projectId)).map StoredMemory.memoryId
      then m.use now else m) = StoredMemory.isGovernanceUsable := by
    ext m
    by_cases hm : m.memoryId ∈ (limit topK (table.projectRows projectId)).map StoredMemory.memoryId
    · rw [Function.comp_apply, if_pos hm]
      rfl
    · rw [Function.comp_apply, if_neg hm]
  rw [hsource]
  apply List.map_congr_left
  intro m hm
  obtain ⟨hin, husable⟩ := List.mem_filter.mp hm
  have hshown : m.memoryId ∈ (limit topK (table.projectRows projectId)).map StoredMemory.memoryId ↔
      m ∈ table.shown projectId topK := by
    constructor
    · intro hid
      obtain ⟨r, hr, hrid⟩ := List.mem_map.mp hid
      obtain rfl := table.inj_on_rows (mem_window hr) hin hrid
      exact List.mem_filter.mpr ⟨hr, husable⟩
    · intro hmem
      exact List.mem_map_of_mem (List.mem_of_mem_filter hmem)
  simp only [hshown]

/-- Turns that return the same leave the tables the same but for the agent's rows. -/
theorem SameButAgents.step {table table' : MemoryTable} (h : SameButAgents table table')
    {turn : MemoryTurn} (hd : table.displaced turn = table'.displaced turn) :
    SameButAgents (table.retrieveMemories turn).2 (table'.retrieveMemories turn).2 := by
  have hreturned := (retrieveMemories_eq_iff h turn).mpr hd
  obtain ⟨projectId, topK, now⟩ := turn
  cases projectId with
  | none => exact h
  | some projectId =>
    cases hfits : fitsInteger topK with
    | false =>
      rw [retrieveMemories_unbound table projectId now hfits,
        retrieveMemories_unbound table' projectId now hfits]
      exact h
    | true =>
      rw [retrieveMemories_some table projectId now hfits,
        retrieveMemories_some table' projectId now hfits] at hreturned
      have hlength : (table.shown projectId topK).length =
          (table'.shown projectId topK).length := by
        simpa using congrArg List.length (Except.ok.inj hreturned)
      rw [SameButAgents, filter_retrieveMemories table projectId now hfits,
        filter_retrieveMemories table' projectId now hfits, h,
        (shown_eq_iff h projectId topK).mpr hlength]

end MemoryTable

/-! ## Every turn -/

/-- Over all turns the memories are the same for both tables if and only if the rows
of the agent displace as many others in one as in the other, at every turn. -/
theorem agent_memories_iff (table table' : MemoryTable) (turns : List MemoryTurn)
    (h : table.SameButAgents table') :
    table.runTurns turns = table'.runTurns turns ↔ table.DisplacedAlike table' turns := by
  induction turns generalizing table table' with
  | nil => simp [MemoryTable.runTurns, MemoryTable.DisplacedAlike]
  | cons turn turns ih =>
    rw [MemoryTable.runTurns, MemoryTable.runTurns, MemoryTable.DisplacedAlike, List.cons.injEq,
      MemoryTable.retrieveMemories_eq_iff h turn]
    apply and_congr_right
    intro hd
    exact ih _ _ (h.step hd)

/-- A guess of the agent, later than the note of the user. -/
def guess : MemoryWrite where
  memoryId := "m2"
  now := "2026-01-02T00:00:00+00:00"
  projectId := "p1"
  type := "DECISION"
  key := "guess"
  value := "use spaces"
  tags := some []
  source := "agent"

def noted : MemoryTable := (MemoryTable.empty.write plainNote).2

def guessed : MemoryTable := (noted.write guess).2

/-- The only turn of a run, with a window of `topK` places. -/
def oneTurn (topK : ℤ) : List MemoryTurn := [⟨some "p1", topK, "2026-01-03T00:00:00+00:00"⟩]

theorem noted_guessed : noted.SameButAgents guessed := by
  unfold MemoryTable.SameButAgents
  decide

theorem agent_memories_iff_guessed : noted.runTurns (oneTurn 8) = guessed.runTurns (oneTurn 8) ↔
    noted.DisplacedAlike guessed (oneTurn 8) :=
  agent_memories_iff noted guessed (oneTurn 8) noted_guessed

/-- With one place in the window, the guess hides the note of the user. -/
theorem guess_displaces_note : noted.SameButAgents guessed ∧
    noted.runTurns (oneTurn 1) ≠ guessed.runTurns (oneTurn 1) := by
  refine ⟨noted_guessed, fun h => ?_⟩
  have hturn := (MemoryTable.retrieveMemories_eq_iff noted_guessed _).mp (List.cons.inj h).1
  revert hturn
  decide

end AegisCode
