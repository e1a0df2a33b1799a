import AegisCode.EventsEndpoint

/-!
# The event panel

The page asks for the events above its watermark and adds the reply to its list. The
replies of several polls may be on their way at one time, and the task may change under
them. The list is right as long as every reply that is added still continues it.
-/
namespace AegisCode.EventPanel

open Program

/-! ## The page -/

/-- What a poll waits for; `reply` is there once the server has read its table. -/
inductive Poll where
  | events (task : Str) (since : ℤ) (reply : Option (List StoredEvent))
  | approvals (task : Str)
  | task (task : Str)

/-- The variables of the page, and last the table of the server. An entry of the lists
is what it is rendered from. -/
structure Page where
  taskId : Option Str := none
  lastEventId : ℤ := 0
  pollTimer : Bool := false
  startBtnDisabled : Bool := false
  eventsList : List StoredEvent := []
  approvalsList : List Str := []
  polls : List Poll := []
  decisions : ℕ := 0
  auditEvents : List StoredEvent

namespace Page

/-- `poll()`: nothing without a task, else the first request goes out. -/
def poll (s : Page) : Page :=
  match s.taskId with
  | none | some [] => s
  | some taskId => { s with polls := s.polls ++ [.events taskId s.lastEventId none] }

def stopPolling (s : Page) : Page := { s with pollTimer := false }

def startPolling (s : Page) : Page := { s.stopPolling.poll with pollTimer := true }

/-- The body of the loop over the events of a reply. -/
def renderEvent (s : Page) (ev : StoredEvent) : Page :=
  { s with
    eventsList := s.eventsList ++ [ev]
    lastEventId := if ev.eventId > s.lastEventId then ev.eventId else s.lastEventId }

/-- The task in the path of a request that goes out now. -/
def pathTask (s : Page) : Str := s.taskId.getD "null"

/-- The page before the first start, with the table as it is then. -/
def opened (auditEvents : List StoredEvent) : Page where
  auditEvents := auditEvents

end Page

/-- What happens: a row is stored, the user acts, a timer fires, a reply arrives. -/
inductive Occurrence where
  | append (e : StoredEvent)
  | submit
  | started (taskId : Str)
  | startFailed
  | timer
  | decide (approvalId : Str)
  | decided
  | serve (task : Str) (since : ℤ)
  | events (task : Str) (since : ℤ) (reply : List StoredEvent)
  | approvals (pending : List Str)
  | task (terminal : Bool)
  | failed

/-- One step of the page or of the server. A continuation behind an `await` runs in one
step, and takes the poll it belongs to from any place in the list. -/
inductive Moves : Page → Occurrence → Page → Prop where
  /-- Ids increase over the whole table, and the first one is positive. -/
  | append {s : Page} {e : StoredEvent} (hpos : 0 < e.eventId)
      (hnew : ∀ e' ∈ s.auditEvents, e'.eventId < e.eventId) :
      Moves s (.append e) { s with auditEvents := s.auditEvents ++ [e] }
  | submit {s : Page} (henabled : s.startBtnDisabled = false) :
      Moves s .submit
        { s with startBtnDisabled := true, eventsList := [], approvalsList := [], lastEventId := 0 }
  /-- A task has an id of its own. -/
  | started {s : Page} {taskId : Str} (hstart : s.startBtnDisabled = true)
      (hnew : s.taskId ≠ some taskId) :
      Moves s (.started taskId)
        { s with taskId := some taskId, startBtnDisabled := false }.startPolling
  | startFailed {s : Page} (hstart : s.startBtnDisabled = true) :
      Moves s .startFailed { s with startBtnDisabled := false }
  | timer {s : Page} (hset : s.pollTimer = true) : Moves s .timer s.poll
  | decide {s : Page} {approvalId : Str} (hshown : approvalId ∈ s.approvalsList) :
      Moves s (.decide approvalId) { s with decisions := s.decisions + 1 }
  | decided {s : Page} {n : ℕ} (hsent : s.decisions = n + 1) :
      Moves s .decided { s with decisions := n }.poll
  | serve {s : Page} {pre post : List Poll} {task : Str} {since : ℤ}
      (hpoll : s.polls = pre ++ .events task since none :: post) :
      Moves s (.serve task since)
        { s with polls := pre ++ .events task since (listSince s.auditEvents task since) :: post }
  | events {s : Page} {pre post : List Poll} {task : Str} {since : ℤ} {reply : List StoredEvent}
      (hpoll : s.polls = pre ++ .events task since (some reply) :: post) :
      Moves s (.events task since reply)
        { reply.foldl Page.renderEvent s with polls := pre ++ .approvals s.pathTask :: post }
  | approvals {s : Page} {pre post : List Poll} {task : Str} (pending : List Str)
      (hpoll : s.polls = pre ++ .approvals task :: post) :
      Moves s (.approvals pending)
        { s with approvalsList := pending, polls := pre ++ .task s.pathTask :: post }
  | task {s : Page} {pre post : List Poll} {task : Str} (terminal : Bool)
      (hpoll : s.polls = pre ++ .task task :: post) :
      Moves s (.task terminal)
        { s with polls := pre ++ post, pollTimer := s.pollTimer && !terminal }
  | failed {s : Page} {pre post : List Poll} {p : Poll} (hpoll : s.polls = pre ++ p :: post) :
      Moves s .failed { s with polls := pre ++ post }

/-- A step with the page it is taken on. -/
def Visits (s : Page) (v : Page × Occurrence) (s' : Page) : Prop := v.1 = s ∧ Moves s v.2 s'

/-! ## What the list should show -/

/-- Each event of the task up to the watermark is in the list, once, and nothing else is. -/
structure ShowsOnce (s : Page) (taskId : Str) : Prop where
  once : (s.eventsList.map (·.eventId)).Nodup
  own : ∀ e ∈ s.eventsList, e.taskId = taskId
  complete : ∀ e ∈ s.auditEvents, e.taskId = taskId → e.eventId ≤ s.lastEventId →
    e ∈ s.eventsList

/-- The list is right for the current task, if there is one. -/
def Right (s : Page) : Prop := ∀ taskId, s.taskId = some taskId → ShowsOnce s taskId

/-- A reply with events is of the current task, lies above the watermark, and leaves no
event out between the watermark and its own start. A start finds the list empty. -/
def Continues (s : Page) : Occurrence → Prop
  | .events task since reply => reply ≠ [] → s.taskId = some task ∧
      (∀ e ∈ reply, s.lastEventId < e.eventId) ∧
      ∀ e ∈ s.auditEvents, e.taskId = task → e.eventId ≤ since → e.eventId ≤ s.lastEventId
  | .started _ => s.eventsList = []
  | _ => True

/-! ## The table and the replies -/

/-- The rows of the table have increasing ids. -/
structure Numbered (auditEvents : List StoredEvent) : Prop where
  increasing : auditEvents.Pairwise fun a b => a.eventId < b.eventId
  positive : ∀ e ∈ auditEvents, 0 < e.eventId

/-- A reply has the events of the task above `since` as the table was at some time: a
row it does not have is younger than all it has. -/
structure Snapshot (auditEvents : List StoredEvent) (task : Str) (since : ℤ)
    (reply : List StoredEvent) : Prop where
  increasing : reply.Pairwise fun a b => a.eventId < b.eventId
  sound : ∀ e ∈ reply, e ∈ auditEvents ∧ e.taskId = task ∧ since < e.eventId
  full : ∀ e ∈ auditEvents, e.taskId = task → since < e.eventId →
    e ∈ reply ∨ ∀ e' ∈ reply, e'.eventId < e.eventId

variable {log reply : List StoredEvent} {e : StoredEvent} {task : Str} {since : ℤ}

theorem Numbered.append (h : Numbered log) (hpos : 0 < e.eventId)
    (hnew : ∀ e' ∈ log, e'.eventId < e.eventId) : Numbered (log ++ [e]) where
  increasing := List.pairwise_append.mpr ⟨h.increasing, List.pairwise_singleton _ _,
    fun a ha _ hb => List.mem_singleton.mp hb ▸ hnew a ha⟩
  positive := List.forall_mem_append.mpr ⟨h.positive, List.forall_mem_singleton.mpr hpos⟩

theorem Numbered.listSince_snapshot (h : Numbered log) :
    Snapshot log task since (listSince log task since) := by
  have hmem : ∀ e, e ∈ listSince log task since ↔ e ∈ log ∧ e.taskId = task ∧ since < e.eventId := by
    intro e
    simp [listSince]
  have hfilter := h.increasing.filter fun e => e.taskId = task ∧ since < e.eventId
  refine ⟨?_, fun e he => (hmem e).mp he,
    fun e he htask hsince => .inl ((hmem e).mpr ⟨he, htask, hsince⟩)⟩
  rw [listSince, List.Pairwise.insertionSort_eq (hfilter.imp le_of_lt)]
  exact hfilter

/-- A row stored after the reply was read leaves it a snapshot. -/
theorem Snapshot.append (h : Snapshot log task since reply)
    (hnew : ∀ e' ∈ log, e'.eventId < e.eventId) : Snapshot (log ++ [e]) task since reply where
  increasing := h.increasing
  sound e' he' := (h.sound e' he').imp_left (List.mem_append_left [e])
  full e' he' htask hsince := by
    obtain hold | hlast := List.mem_append.mp he'
    · exact h.full e' hold htask hsince
    · obtain rfl := List.mem_singleton.mp hlast
      exact .inr fun e'' he'' => hnew e'' (h.sound e'' he'').1

/-! ## The invariant of the page -/

/-- The table is numbered, the replies are snapshots of it, and the watermark is the
last id the list has reached. -/
structure Consistent (s : Page) : Prop where
  numbered : Numbered s.auditEvents
  replies : ∀ task since reply, .events task since (some reply) ∈ s.polls →
    Snapshot s.auditEvents task since reply
  below : ∀ e ∈ s.eventsList, e.eventId ≤ s.lastEventId
  reached : s.lastEventId = 0 ∨ ∃ e ∈ s.auditEvents, e.eventId = s.lastEventId
  cleared : s.eventsList = [] → s.lastEventId = 0
  idle : s.taskId = none → s.polls = [] ∧ s.eventsList = []

variable {s s' : Page} {o : Occurrence}

theorem consistent_opened (h : Numbered log) : Consistent (Page.opened log) where
  numbered := h
  replies _ _ _ hmem := absurd hmem List.not_mem_nil
  below _ hmem := absurd hmem List.not_mem_nil
  reached := .inl rfl
  cleared _ := rfl
  idle _ := ⟨rfl, rfl⟩

/-- Polls may come and go, as long as no reply is made up. -/
theorem Consistent.withPolls (h : Consistent s) {polls : List Poll}
    (hreplies : ∀ task since reply, .events task since (some reply) ∈ polls →
      Snapshot s.auditEvents task since reply)
    (hidle : s.taskId = none → polls = []) : Consistent { s with polls := polls } :=
  { h with
    replies := hreplies
    idle := fun hnone => ⟨hidle hnone, (h.idle hnone).2⟩ }

theorem Consistent.poll (h : Consistent s) : Consistent s.poll := by
  unfold Page.poll
  split
  · exact h
  · exact h
  · refine h.withPolls (fun task since reply hmem => ?_) (fun hnone => by simp_all)
    obtain hold | hlast := List.mem_append.mp hmem
    · exact h.replies _ _ _ hold
    · simp at hlast

/-- A poll is replaced by one without a reply, or by a snapshot. -/
theorem Consistent.replacePoll (h : Consistent s) {pre post : List Poll} {p q : Poll}
    (hpoll : s.polls = pre ++ p :: post)
    (hq : ∀ task since reply, q = .events task since (some reply) →
      Snapshot s.auditEvents task since reply) :
    Consistent { s with polls := pre ++ q :: post } := by
  refine h.withPolls (fun task since reply hmem => ?_) (fun hnone => ?_)
  · simp only [List.mem_append, List.mem_cons] at hmem
    obtain hpre | hself | hpost := hmem
    · exact h.replies _ _ _ (by simp [hpoll, hpre])
    · exact hq task since reply hself.symm
    · exact h.replies _ _ _ (by simp [hpoll, hpost])
  · simp [(h.idle hnone).1] at hpoll

theorem Consistent.removePoll (h : Consistent s) {pre post : List Poll} {p : Poll}
    (hpoll : s.polls = pre ++ p :: post) : Consistent { s with polls := pre ++ post } := by
  refine h.withPolls (fun task since reply hmem => ?_) (fun hnone => ?_)
  · refine h.replies _ _ _ ?_
    simp only [hpoll, List.mem_append, List.mem_cons] at hmem ⊢
    exact hmem.imp_right .inr
  · simp [(h.idle hnone).1] at hpoll

/-! ## Rendering a reply -/

/-- The watermark behind the events of a reply. -/
def watermark (w : ℤ) (reply : List StoredEvent) : ℤ :=
  reply.foldl (fun w e => if e.eventId > w then e.eventId else w) w

theorem foldl_renderEvent (s : Page) (reply : List StoredEvent) :
    reply.foldl Page.renderEvent s =
      { s with eventsList := s.eventsList ++ reply, lastEventId := watermark s.lastEventId reply } := by
  induction reply generalizing s with
  | nil => simp [watermark]
  | cons e reply ih => simp [ih, Page.renderEvent, watermark]

theorem le_watermark (w : ℤ) (reply : List StoredEvent) : w ≤ watermark w reply := by
  induction reply generalizing w with
  | nil => exact le_rfl
  | cons e reply ih =>
      refine le_trans ?_ (ih _)
      show w ≤ if e.eventId > w then e.eventId else w
      split <;> omega

theorem eventId_le_watermark {w : ℤ} (h : e ∈ reply) : e.eventId ≤ watermark w reply := by
  induction reply generalizing w with
  | nil => cases h
  | cons a reply ih =>
      obtain rfl | htail := List.mem_cons.mp h
      · refine le_trans ?_ (le_watermark _ reply)
        show e.eventId ≤ if e.eventId > w then e.eventId else w
        split <;> omega
      · exact ih htail

theorem watermark_cases (w : ℤ) (reply : List StoredEvent) :
    watermark w reply = w ∨ ∃ e ∈ reply, e.eventId = watermark w reply := by
  induction reply generalizing w with
  | nil => exact .inl rfl
  | cons a reply ih =>
      show watermark (if a.eventId > w then a.eventId else w) reply = w ∨
        ∃ e ∈ a :: reply, e.eventId = watermark (if a.eventId > w then a.eventId else w) reply
      obtain hkept | ⟨e, he, hid⟩ := ih (if a.eventId > w then a.eventId else w)
      · rw [hkept]
        split
        · exact .inr ⟨a, List.mem_cons_self, rfl⟩
        · exact .inl rfl
      · exact .inr ⟨e, List.mem_cons_of_mem a he, hid⟩

/-- The reply of a poll that is under way can be rendered. -/
theorem Consistent.render (h : Consistent s) (hreply : Snapshot s.auditEvents task since reply)
    (htask : s.taskId ≠ none) : Consistent (reply.foldl Page.renderEvent s) := by
  rw [foldl_renderEvent]
  refine { h with below := ?_, reached := ?_, cleared := ?_, idle := fun hnone => absurd hnone htask }
  · intro e he
    obtain hold | hnew := List.mem_append.mp he
    · exact le_trans (h.below e hold) (le_watermark _ _)
    · exact eventId_le_watermark hnew
  · obtain hkept | ⟨e, he, hid⟩ := watermark_cases s.lastEventId reply
    · show watermark s.lastEventId reply = 0 ∨ _
      rw [hkept]
      exact h.reached
    · exact .inr ⟨e, (hreply.sound e he).1, hid⟩
  · intro hnil
    obtain ⟨hold, rfl⟩ := List.append_eq_nil_iff.mp hnil
    exact h.cleared hold

/-- Every step keeps the page consistent. -/
theorem Consistent.step (h : Consistent s) (hmoves : Moves s o s') : Consistent s' := by
  cases hmoves with
  | append hpos hnew =>
      refine { h with numbered := h.numbered.append hpos hnew, replies := ?_, reached := ?_ }
      · exact fun task since reply hmem => (h.replies task since reply hmem).append hnew
      · exact h.reached.imp_right fun ⟨e, he, hid⟩ => ⟨e, List.mem_append_left _ he, hid⟩
  | submit _ =>
      exact { h with
        below := fun _ hmem => absurd hmem List.not_mem_nil
        reached := .inl rfl
        cleared := fun _ => rfl
        idle := fun hnone => ⟨(h.idle hnone).1, rfl⟩ }
  | @started taskId _ _ =>
      have htask : Consistent
          { s with taskId := some taskId, startBtnDisabled := false, pollTimer := false } :=
        { h with idle := fun hnone => by cases hnone }
      exact { htask.poll with }
  | startFailed _ => exact { h with }
  | timer _ => exact h.poll
  | decide _ => exact { h with }
  | decided _ => exact Consistent.poll { h with }
  | serve hpoll =>
      refine h.replacePoll hpoll fun task since reply heq => ?_
      cases heq
      exact h.numbered.listSince_snapshot
  | @events pre post task since reply hpoll =>
      have htask : s.taskId ≠ none := fun hnone => by simp [(h.idle hnone).1] at hpoll
      have hreply := h.replies task since reply (by simp [hpoll])
      have hrendered := h.render hreply htask
      rw [foldl_renderEvent] at hrendered ⊢
      exact hrendered.replacePoll hpoll fun _ _ _ heq => by cases heq
  | approvals _ hpoll =>
      have hnext := h.replacePoll (q := .task s.pathTask) hpoll fun _ _ _ heq => by cases heq
      exact { hnext with }
  | task _ hpoll => exact { h.removePoll hpoll with }
  | failed hpoll => exact h.removePoll hpoll

/-! ## When the list stays right -/

@[simp] theorem taskId_poll (s : Page) : s.poll.taskId = s.taskId := by
  unfold Page.poll
  split <;> rfl

@[simp] theorem eventsList_poll (s : Page) : s.poll.eventsList = s.eventsList := by
  unfold Page.poll
  split <;> rfl

@[simp] theorem lastEventId_poll (s : Page) : s.poll.lastEventId = s.lastEventId := by
  unfold Page.poll
  split <;> rfl

@[simp] theorem auditEvents_poll (s : Page) : s.poll.auditEvents = s.auditEvents := by
  unfold Page.poll
  split <;> rfl

/-- What the list shows depends on these four alone. -/
theorem right_congr (htask : s'.taskId = s.taskId) (hlist : s'.eventsList = s.eventsList)
    (hmark : s'.lastEventId = s.lastEventId) (htable : s'.auditEvents = s.auditEvents) :
    Right s' ↔ Right s := by
  have hshows : ∀ taskId, ShowsOnce s' taskId ↔ ShowsOnce s taskId := by
    intro taskId
    constructor
    · rintro ⟨honce, hown, hcomplete⟩
      rw [hlist] at honce hown hcomplete
      rw [hmark, htable] at hcomplete
      exact ⟨honce, hown, hcomplete⟩
    · rintro ⟨honce, hown, hcomplete⟩
      rw [← hlist] at honce hown hcomplete
      rw [← hmark, ← htable] at hcomplete
      exact ⟨honce, hown, hcomplete⟩
  simp only [Right, htask, hshows]

theorem right_poll_iff : Right s.poll ↔ Right s :=
  right_congr (taskId_poll s) (eventsList_poll s) (lastEventId_poll s) (auditEvents_poll s)

/-- A cleared list is right: no event is at or below the watermark. -/
theorem Consistent.showsOnce_nil (h : Consistent s) (hnil : s.eventsList = []) (taskId : Str) :
    ShowsOnce s taskId where
  once := by simp [hnil]
  own := by simp [hnil]
  complete e he _ hle := by
    have hpos := h.numbered.positive e he
    rw [h.cleared hnil] at hle
    omega

theorem right_append_iff (h : Consistent s) (hpos : 0 < e.eventId)
    (hnew : ∀ e' ∈ s.auditEvents, e'.eventId < e.eventId) :
    Right { s with auditEvents := s.auditEvents ++ [e] } ↔ Right s := by
  have habove : s.lastEventId < e.eventId := by
    obtain hzero | ⟨e', he', hid⟩ := h.reached
    · omega
    · have := hnew e' he'
      omega
  refine forall₂_congr fun taskId _ => ⟨fun ⟨honce, hown, hcomplete⟩ => ⟨honce, hown, ?_⟩,
    fun ⟨honce, hown, hcomplete⟩ => ⟨honce, hown, fun e' he' htask hle => ?_⟩⟩
  · exact fun e' he' => hcomplete e' (List.mem_append_left _ he')
  · obtain hold | hlast := List.mem_append.mp he'
    · exact hcomplete e' hold htask hle
    · obtain rfl := List.mem_singleton.mp hlast
      exact absurd hle (not_le.mpr habove)

/-- A start leaves the list right if nothing was rendered since it was cleared. -/
theorem right_started_iff (h : Consistent s) (hright : Right s) {taskId : Str}
    (hnew : s.taskId ≠ some taskId) :
    Right { s with taskId := some taskId, startBtnDisabled := false }.startPolling ↔
      s.eventsList = [] := by
  have hpoll : Right { s with taskId := some taskId, startBtnDisabled := false }.startPolling ↔
      ShowsOnce { s with taskId := some taskId } taskId := by
    have hsame : Right { s with taskId := some taskId, startBtnDisabled := false }.startPolling ↔
        Right { s with taskId := some taskId } :=
      right_congr (taskId_poll _) (eventsList_poll _) (lastEventId_poll _) (auditEvents_poll _)
    rw [hsame]
    exact ⟨fun hall => hall taskId rfl, fun hone taskId' heq => Option.some.inj heq ▸ hone⟩
  rw [hpoll]
  constructor
  · rintro ⟨-, hown, -⟩
    by_contra hne
    obtain ⟨e, he⟩ := List.exists_mem_of_ne_nil _ hne
    have htask : s.taskId ≠ none := fun hnone => hne (h.idle hnone).2
    obtain ⟨old, hold⟩ := Option.ne_none_iff_exists'.mp htask
    have hmine := (hright old hold).own e he
    have hyours := hown e he
    exact hnew (by rw [hold, ← hmine, hyours])
  · intro hnil
    have hconsistent : Consistent { s with taskId := some taskId } :=
      { h with idle := fun hnone => by cases hnone }
    exact hconsistent.showsOnce_nil hnil taskId

/-- A reply leaves the list right if it continues it. -/
theorem right_render_iff (h : Consistent s) (hright : Right s)
    (hreply : Snapshot s.auditEvents task since reply) (hasked : s.taskId ≠ none) :
    Right (reply.foldl Page.renderEvent s) ↔ Continues s (.events task since reply) := by
  obtain ⟨current, hcurrent⟩ := Option.ne_none_iff_exists'.mp hasked
  obtain ⟨honce, hown, hcomplete⟩ := hright current hcurrent
  have hone : Right (reply.foldl Page.renderEvent s) ↔
      ShowsOnce (reply.foldl Page.renderEvent s) current := by
    rw [foldl_renderEvent]
    refine ⟨fun hall => hall current hcurrent, fun hone taskId heq => ?_⟩
    obtain rfl := Option.some.inj (hcurrent.symm.trans heq)
    exact hone
  rw [hone, foldl_renderEvent]
  constructor
  · rintro ⟨honce', hown', hcomplete'⟩ hne
    obtain ⟨e₀, he₀⟩ := List.exists_mem_of_ne_nil _ hne
    have htask : task = current :=
      (hreply.sound e₀ he₀).2.1.symm.trans (hown' e₀ (List.mem_append_right _ he₀))
    refine ⟨htask ▸ hcurrent, fun e he => ?_, fun e he hmine hle => ?_⟩
    · by_contra hle
      obtain ⟨hlog, hmine, -⟩ := hreply.sound e he
      have hshown := hcomplete e hlog (hmine.trans htask) (not_lt.mp hle)
      rw [List.map_append, List.nodup_append] at honce'
      exact honce'.2.2 _ (List.mem_map_of_mem hshown) _ (List.mem_map_of_mem he) rfl
    · have hbelow : e.eventId ≤ watermark s.lastEventId reply :=
        le_trans (le_trans hle (hreply.sound e₀ he₀).2.2.le) (eventId_le_watermark he₀)
      obtain hold | hnew := List.mem_append.mp (hcomplete' e he (hmine.trans htask) hbelow)
      · exact h.below e hold
      · have := (hreply.sound e hnew).2.2
        omega
  · intro hcontinues
    by_cases hnil : reply = []
    · subst hnil
      simpa [watermark] using (⟨honce, hown, hcomplete⟩ : ShowsOnce s current)
    obtain ⟨hsame, habove, hnone⟩ := hcontinues hnil
    obtain rfl : task = current := Option.some.inj (hsame.symm.trans hcurrent)
    refine ⟨?_, fun e he => ?_, fun e he hmine hle => ?_⟩
    · rw [List.map_append, List.nodup_append]
      refine ⟨honce, (List.pairwise_map.mpr (hreply.increasing.imp ne_of_lt)), ?_⟩
      rintro _ hold _ hnew rfl
      obtain ⟨e, he, hid⟩ := List.mem_map.mp hold
      obtain ⟨e', he', hid'⟩ := List.mem_map.mp hnew
      have := h.below e he
      have := habove e' he'
      omega
    · obtain hold | hnew := List.mem_append.mp he
      · exact hown e hold
      · exact (hreply.sound e hnew).2.1
    · -- an event up to the new watermark is above `since` and was there to be read
      by_cases hold : e.eventId ≤ s.lastEventId
      · exact List.mem_append_left _ (hcomplete e he hmine hold)
      have hsince : since < e.eventId := by
        by_contra hle
        exact hold (hnone e he hmine (not_lt.mp hle))
      obtain hread | hyounger := hreply.full e he hmine hsince
      · exact List.mem_append_right _ hread
      · obtain hkept | ⟨e', he', hid⟩ := watermark_cases s.lastEventId reply
        · exact absurd (hkept ▸ hle) hold
        · have := hyounger e' he'
          have hle' : e.eventId ≤ watermark s.lastEventId reply := hle
          omega

/-- From a right list, a step leads to a right list if and only if it continues it. -/
theorem right_step_iff (h : Consistent s) (hright : Right s) (hmoves : Moves s o s') :
    Right s' ↔ Continues s o := by
  have hsame : ∀ {p : Page}, p.taskId = s.taskId → p.eventsList = s.eventsList →
      p.lastEventId = s.lastEventId → p.auditEvents = s.auditEvents → Right p :=
    fun htask hlist hmark htable => (right_congr htask hlist hmark htable).mpr hright
  cases hmoves with
  | append hpos hnew => exact iff_of_true ((right_append_iff h hpos hnew).mpr hright) trivial
  | submit henabled =>
      have hnext := h.step (.submit henabled)
      exact iff_of_true (fun taskId _ => hnext.showsOnce_nil rfl taskId) trivial
  | started _ hnew => exact right_started_iff h hright hnew
  | startFailed _ => exact iff_of_true (hsame rfl rfl rfl rfl) trivial
  | timer _ => exact iff_of_true (right_poll_iff.mpr hright) trivial
  | decide _ => exact iff_of_true (hsame rfl rfl rfl rfl) trivial
  | decided _ => exact iff_of_true (right_poll_iff.mpr (hsame rfl rfl rfl rfl)) trivial
  | serve _ => exact iff_of_true (hsame rfl rfl rfl rfl) trivial
  | @events pre post task since reply hpoll =>
      have hasked : s.taskId ≠ none := fun hnone => by simp [(h.idle hnone).1] at hpoll
      have hreply := h.replies task since reply (by simp [hpoll])
      have hrendered := right_render_iff h hright hreply hasked
      rw [← hrendered]
      exact right_congr rfl rfl rfl rfl
  | approvals _ _ => exact iff_of_true (hsame rfl rfl rfl rfl) trivial
  | task _ _ => exact iff_of_true (hsame rfl rfl rfl rfl) trivial
  | failed _ => exact iff_of_true (hsame rfl rfl rfl rfl) trivial

theorem consistent_run (h : Numbered log) {visits : List (Page × Occurrence)}
    (hrun : Trace Visits (Page.opened log) visits s) : Consistent s := by
  induction hrun with
  | nil => exact consistent_opened h
  | snoc _ hstep ih =>
      obtain ⟨rfl, hmoves⟩ := hstep
      exact ih.step hmoves

/-- The list is right throughout a run if and only if every step of it continues the list. -/
theorem events_shown_once_iff (h : Numbered log) {visits : List (Page × Occurrence)}
    (hrun : Trace Visits (Page.opened log) visits s) :
    ((∀ v ∈ visits, Right v.1) ∧ Right s) ↔ ∀ v ∈ visits, Continues v.1 v.2 := by
  induction hrun with
  | nil => simp [Right, Page.opened]
  | @snoc visits s s' v hrun hstep ih =>
      obtain ⟨rfl, hmoves⟩ := hstep
      have hconsistent := consistent_run h hrun
      simp only [List.forall_mem_append, List.forall_mem_singleton, ← ih]
      constructor
      · rintro ⟨⟨hbefore, hright⟩, hnext⟩
        exact ⟨⟨hbefore, hright⟩, (right_step_iff hconsistent hright hmoves).mp hnext⟩
      · rintro ⟨⟨hbefore, hright⟩, hcontinues⟩
        exact ⟨⟨hbefore, hright⟩, (right_step_iff hconsistent hright hmoves).mpr hcontinues⟩

/-! ## Two polls with one watermark -/

def storedRow : StoredEvent := firstEvent "\x7b\x7d"

theorem numbered_nil : Numbered [] := ⟨.nil, fun _ h => absurd h List.not_mem_nil⟩

theorem visit {s₀ : Page} {visits : List (Page × Occurrence)} (hrun : Trace Visits s₀ visits s)
    (hmoves : Moves s o s') : Trace Visits s₀ (visits ++ [(s, o)]) s' :=
  hrun.snoc ⟨rfl, hmoves⟩

/-- The timer fires while the first request is under way, so both replies have the row. -/
theorem overlapping_polls : ∃ visits s, Trace Visits (Page.opened []) visits s ∧
    s.taskId = some "t1".toList ∧ s.eventsList = [storedRow, storedRow] := by
  have hsubmit := visit .nil (@Moves.submit (Page.opened []) rfl)
  have hstarted := visit hsubmit (@Moves.started _ "t1".toList rfl fun h => by cases h)
  have happend := visit hstarted (@Moves.append _ storedRow (by decide) fun _ h => by cases h)
  have htimer := visit happend (.timer rfl)
  have hserve := visit htimer (@Moves.serve _ [] _ "t1".toList 0 rfl)
  have hserve' := visit hserve (@Moves.serve _ [_] _ "t1".toList 0 rfl)
  have hevents := visit hserve' (@Moves.events _ [] _ "t1".toList 0 _ rfl)
  have hevents' := visit hevents (@Moves.events _ [_] _ "t1".toList 0 _ rfl)
  exact ⟨_, _, hevents', rfl, rfl⟩

theorem events_shown_once_iff_overlapping : ∃ visits s,
    Trace Visits (Page.opened []) visits s ∧ s.eventsList = [storedRow, storedRow] ∧
      (((∀ v ∈ visits, Right v.1) ∧ Right s) ↔ ∀ v ∈ visits, Continues v.1 v.2) := by
  obtain ⟨visits, s, hrun, -, hlist⟩ := overlapping_polls
  exact ⟨visits, s, hrun, hlist, events_shown_once_iff numbered_nil hrun⟩

/-- The row of the current task is in the list twice. -/
theorem overlapping_polls_show_twice : ∃ visits s,
    Trace Visits (Page.opened []) visits s ∧ ¬ Right s := by
  obtain ⟨visits, s, hrun, htask, hlist⟩ := overlapping_polls
  refine ⟨visits, s, hrun, fun hright => ?_⟩
  have honce := (hright _ htask).once
  rw [hlist] at honce
  exact absurd honce (by decide)

end AegisCode.EventPanel
