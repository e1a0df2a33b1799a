import AegisCode.RootStripping
import AegisCode.StructuredPayloads

/-!
# The events endpoint

GET `/tasks/{id}/events` redacts the text of the whole list of events and reads it
again. A payload is a text in this text, so its letters have two codes there. A root
that both spell as it stands is taken out of every string; any other one is not found.
-/
namespace AegisCode

open Redactor
open AuditChain (EventRow ofInt ofText fitsInteger)
open Json (Decoder Proper Readable loads dumps canon strings mapStrings decoded printWith escape)

/-! ## The endpoint -/

/-- A row of `audit_events`. -/
structure StoredEvent extends EventRow where
  eventId : ℤ
  taskId : Str

/-- The row as `list_since` returns it. -/
def StoredEvent.toDict (e : StoredEvent) : Dict :=
  [("event_id".toList, .int e.eventId), ("task_id".toList, .str e.taskId),
    ("step_index".toList, ofInt e.stepIndex), ("timestamp".toList, ofText e.timestamp),
    ("event_type".toList, ofText e.eventType), ("payload_json".toList, ofText e.payloadJson),
    ("prev_hash".toList, ofText e.prevHash), ("hash".toList, ofText e.hash)]

/-- `list_since` of the repository. -/
def listSince (auditEvents : List StoredEvent) (taskId : Str) (since : ℤ) : List StoredEvent :=
  (auditEvents.filter fun e => e.taskId = taskId ∧ since < e.eventId).insertionSort
    fun a b => a.eventId ≤ b.eventId

/-- What the endpoint raises: an answer 404, or the error of the decoder. -/
inductive EventsError where
  | notFound (detail : Str)
  | decode

def eventsJson (events : List StoredEvent) : Json := .arr (events.map fun e => .obj e.toDict)

/-- GET `/tasks/{id}/events`; `tasks` has the workspace path of each row of the tasks. -/
def getEvents (D : Decoder) (tasks : Str → Option (Option Str)) (auditEvents : List StoredEvent)
    (taskId : Str) (since : ℤ) : Except EventsError Json :=
  match tasks taskId with
  | none => .error (.notFound ("Task not found: ".toList ++ taskId))
  | some workspacePath =>
      let events := listSince auditEvents taskId since
      let redactedText := redact (dumps (eventsJson events)) workspacePath
      match loads D redactedText with
      | none => .error .decode
      | some v => .ok v

/-- A row that `append` has inserted, of a payload that is a dictionary. -/
structure Appended (D : Decoder) (e : StoredEvent) : Prop where
  eventId : fitsInteger e.eventId = true
  stepIndex : ∃ n, e.stepIndex = some n ∧ fitsInteger n = true
  payload : ∃ payload : Dict, Proper D (.obj payload) ∧
    e.payloadJson = some (redact (dumps (canon (.obj payload))) none)

/-- `append` inserts such rows. -/
theorem append_appended {H : Digest} {D : Decoder} {s s' t t' : AuditChain.Writers}
    {taskId eventType timestamp : Str} {n eventId : ℤ} {payload : Dict}
    (hpayload : Proper D (.obj payload)) (hid : fitsInteger eventId = true)
    (hread : AuditChain.writerStep H (redact · none) s
      (.read taskId n eventType timestamp (.obj payload)) = some s')
    (hpending : t.pending taskId = s'.pending taskId)
    (hinsert : AuditChain.writerStep H (redact · none) t (.insert taskId) = some t') :
    ∃ row, t'.table = t.table ++ [(taskId, row)] ∧ Appended D ⟨row, eventId, taskId⟩ := by
  obtain ⟨row, htable, ⟨hstep, hfits⟩, hstored⟩ := AuditChain.append_stores hread hpending hinsert
  exact ⟨row, htable, hid, ⟨n, hstep, hfits⟩, payload, hpayload, hstored⟩

/-- The answer `out` lists the events, and shows `path` nowhere, the payloads included. -/
structure Lists (D : Decoder) (path : Str) (events : List StoredEvent) (out : List Json) : Prop where
  events : List.Forall₂ (fun e j => ∃ d : Dict, j = .obj d ∧
    d.get? "event_id" = some (.int e.eventId) ∧ d.get? "step_index" = some (ofInt e.stepIndex))
      events out
  shown : ∀ j ∈ out, ∀ s ∈ strings j, ¬ path <:+: s
  payloads : ∀ d : Dict, .obj d ∈ out → ∀ text, d.get? "payload_json" = some (.str text) →
    ∀ p, loads D text = some p → ∀ s ∈ strings p, ¬ path <:+: s

/-! ## The strings of a row -/

namespace StoredEvent

def names : List Str := ["event_id".toList, "task_id".toList, "step_index".toList,
  "timestamp".toList, "event_type".toList, "payload_json".toList, "prev_hash".toList, "hash".toList]

/-- The strings in the columns. -/
def columnTexts (e : StoredEvent) : List Str :=
  e.taskId :: (e.timestamp.toList ++ e.eventType.toList ++ e.payloadJson.toList ++
    e.prevHash.toList ++ e.hash.toList)

def withTexts (g : Str → Str) (e : StoredEvent) : StoredEvent where
  eventId := e.eventId
  taskId := g e.taskId
  stepIndex := e.stepIndex
  timestamp := e.timestamp.map g
  eventType := e.eventType.map g
  payloadJson := e.payloadJson.map g
  prevHash := e.prevHash.map g
  hash := e.hash.map g

theorem strings_ofText (o : Option Str) : strings (ofText o) = o.toList := by
  cases o <;> rfl

theorem strings_ofInt (o : Option ℤ) : strings (ofInt o) = [] := by
  cases o <;> rfl

theorem mapStrings_ofText (g : Str → Str) (o : Option Str) :
    mapStrings g (ofText o) = ofText (o.map g) := by
  cases o <;> rfl

theorem mapStrings_ofInt (g : Str → Str) (o : Option ℤ) : mapStrings g (ofInt o) = ofInt o := by
  cases o <;> rfl

theorem map_fst_toDict (e : StoredEvent) : e.toDict.map Prod.fst = names := rfl

theorem mem_strings_toDict {s : Str} {e : StoredEvent} :
    s ∈ strings (.obj e.toDict) ↔ s ∈ names ∨ s ∈ e.columnTexts := by
  have hkeys : (∃ m ∈ e.toDict, s = m.1) ↔ s ∈ names := by
    rw [← map_fst_toDict e, List.mem_map]
    simp only [eq_comm]
  have hvalues : (∃ m ∈ e.toDict, s ∈ strings m.2) ↔ s ∈ e.columnTexts := by
    simp [toDict, columnTexts, strings, strings_ofText, strings_ofInt]
  rw [strings, Json.mem_stringsMembers, ← hkeys, ← hvalues]
  simp only [and_or_left, exists_or]

theorem payloadJson_mem {e : StoredEvent} {text : Str} (h : e.payloadJson = some text) :
    text ∈ e.columnTexts := by
  simp [columnTexts, h]

theorem columnTexts_withTexts (g : Str → Str) (e : StoredEvent) :
    (e.withTexts g).columnTexts = e.columnTexts.map g := by
  simp [columnTexts, withTexts, Option.toList_map]

/-- Replacing the strings of a row keeps its names, if these are kept. -/
theorem mapStrings_toDict {g : Str → Str} (hg : ∀ k ∈ names, g k = k) (e : StoredEvent) :
    mapStrings g (.obj e.toDict) = .obj (e.withTexts g).toDict := by
  simp only [names, List.forall_mem_cons, List.not_mem_nil, false_implies, implies_true,
    and_true] at hg
  simp only [toDict, withTexts, mapStrings, Json.mapMembers, mapStrings_ofText, mapStrings_ofInt, hg]

theorem names_nodup : names.Nodup := by decide

theorem decoded_toDict (e : StoredEvent) : decoded (.obj e.toDict) = .obj e.toDict := by
  have htext : ∀ o, decoded (ofText o) = ofText o := fun o => by cases o <;> rfl
  have hint : ∀ o, decoded (ofInt o) = ofInt o := fun o => by cases o <;> rfl
  have hmembers : Json.decodedMembers e.toDict = e.toDict := by
    simp only [toDict, Json.decodedMembers, htext, hint, decoded]
  rw [decoded, hmembers, Json.dictOf_eq (by rw [map_fst_toDict]; exact names_nodup)]

theorem get_payloadJson (e : StoredEvent) :
    e.toDict.get? "payload_json" = some (ofText e.payloadJson) := rfl

theorem get_ids (e : StoredEvent) : e.toDict.get? "event_id" = some (.int e.eventId) ∧
    e.toDict.get? "step_index" = some (ofInt e.stepIndex) := ⟨rfl, rfl⟩

theorem fits_digits {n : ℤ} (h : fitsInteger n = true) :
    (Nat.toDigits 10 n.natAbs).length ≤ Json.maxStrDigits := by
  have hbounds : -2 ^ 63 ≤ n ∧ n < 2 ^ 63 := by simpa [fitsInteger] using h
  have hlen : (Nat.toDigits 10 n.natAbs).length ≤ 19 :=
    (Nat.length_toDigits_le_iff (by decide) (by decide)).mpr (by omega)
  exact hlen.trans (by decide)

theorem readable_toDict {D : Decoder} {e : StoredEvent} (h : Appended D e) :
    Readable D (.obj e.toDict) := by
  have htext : ∀ o, Readable D (ofText o) := fun o => by cases o <;> trivial
  obtain ⟨n, hn, hfits⟩ := h.stepIndex
  have hstep : Readable D (ofInt e.stepIndex) := by
    rw [hn]
    exact fits_digits hfits
  exact ⟨fits_digits h.eventId, trivial, hstep, htext _, htext _, htext _, htext _, htext _, trivial⟩

end StoredEvent

/-! ## The answer -/

section Answer
variable {D : Decoder} {events : List StoredEvent}

theorem readable_events (h : ∀ e ∈ events, Appended D e) : Readable D (eventsJson events) := by
  have helems : ∀ es : List StoredEvent, (∀ e ∈ es, Appended D e) →
      Json.ReadableElems D (es.map fun e => .obj e.toDict) := by
    intro es hes
    induction es with
    | nil => trivial
    | cons e es ih =>
      rw [List.forall_mem_cons] at hes
      exact ⟨StoredEvent.readable_toDict hes.1, ih hes.2⟩
  exact helems events h

theorem mapStrings_events {g : Str → Str} (hg : ∀ k ∈ StoredEvent.names, g k = k) :
    mapStrings g (eventsJson events) = eventsJson (events.map (·.withTexts g)) := by
  have helems : ∀ es : List StoredEvent, Json.mapElems g (es.map fun e => .obj e.toDict) =
      (es.map (·.withTexts g)).map fun e => .obj e.toDict := by
    intro es
    induction es with
    | nil => rfl
    | cons e es ih =>
      rw [List.map_cons, Json.mapElems, ih, StoredEvent.mapStrings_toDict hg, List.map_cons,
        List.map_cons]
  rw [eventsJson, mapStrings, helems, eventsJson]

theorem decoded_events : decoded (eventsJson events) = eventsJson events := by
  have helems : ∀ es : List StoredEvent, Json.decodedElems (es.map fun e => .obj e.toDict) =
      es.map fun e => .obj e.toDict := by
    intro es
    induction es with
    | nil => rfl
    | cons e es ih => rw [List.map_cons, Json.decodedElems, ih, StoredEvent.decoded_toDict]
  rw [eventsJson, decoded, helems]

theorem mem_strings_events {s : Str} : s ∈ strings (eventsJson events) ↔
    ∃ e ∈ events, s ∈ StoredEvent.names ∨ s ∈ e.columnTexts := by
  have helems : ∀ es : List StoredEvent, s ∈ Json.stringsElems (es.map fun e => .obj e.toDict) ↔
      ∃ e ∈ es, s ∈ StoredEvent.names ∨ s ∈ e.columnTexts := by
    intro es
    induction es with
    | nil => simp [Json.stringsElems]
    | cons e es ih =>
      rw [List.map_cons, Json.stringsElems, List.mem_append, ih, StoredEvent.mem_strings_toDict,
        List.exists_mem_cons_iff]
  exact helems events

/-- The names of the columns are shown as they are. -/
theorem name_spec {k : Str} (hk : k ∈ StoredEvent.names) :
    ¬ TabAssignment (keysHidden k) ∧ scrubLiteral k = k ∧ '/' ∉ k := by
  have hall : ∀ k ∈ StoredEvent.names, k.length < 16 ∧ '\t' ∉ k ∧ '/' ∉ k := by decide
  obtain ⟨hlen, htab, hslash⟩ := hall k hk
  have hclean := clean_short hlen
  refine ⟨?_, (replaced_scrubLiteral k).eq_of_clean hclean, hslash⟩
  rw [keysHidden_of_clean hclean]
  rintro ⟨w, -, -, hin⟩
  exact htab (hin.subset List.mem_cons_self)

/-- With its strings replaced by `g`, the row shows `path` nowhere, the payload included. -/
structure Veiled (D : Decoder) (path : Str) (g : Str → Str) (e : StoredEvent) : Prop where
  columns : ∀ u ∈ e.columnTexts, ¬ path <:+: g u
  payload : ∀ text, e.payloadJson = some text → ∀ p, loads D (g text) = some p →
    ∀ s ∈ strings p, ¬ path <:+: s

theorem lists_withTexts_iff {path : Str} (hpath : '/' ∈ path) (g : Str → Str) :
    Lists D path events ((events.map (·.withTexts g)).map fun e => .obj e.toDict) ↔
      ∀ e ∈ events, Veiled D path g e := by
  have hnames : ∀ k ∈ StoredEvent.names, ¬ path <:+: k := fun k hk hin =>
    (name_spec hk).2.2 (hin.subset hpath)
  have hpayload : ∀ {e : StoredEvent} {text : Str},
      (e.withTexts g).toDict.get? "payload_json" = some (.str text) ↔
        ∃ u, e.payloadJson = some u ∧ g u = text := by
    intro e text
    rw [StoredEvent.get_payloadJson, StoredEvent.withTexts]
    cases e.payloadJson <;> simp [ofText]
  have hmem : ∀ {j : Json}, j ∈ ((events.map (·.withTexts g)).map fun e => Json.obj e.toDict) ↔
      ∃ e ∈ events, .obj (e.withTexts g).toDict = j := by
    simp
  constructor
  · rintro ⟨-, hshown, hdecoded⟩ e he
    have hj := hmem.mpr ⟨e, he, rfl⟩
    constructor
    · intro u hu
      refine hshown _ hj (g u) (StoredEvent.mem_strings_toDict.mpr (.inr ?_))
      rw [StoredEvent.columnTexts_withTexts]
      exact List.mem_map_of_mem hu
    · intro u hu
      exact hdecoded _ hj (g u) (hpayload.mpr ⟨u, hu, rfl⟩)
  · intro hveiled
    constructor
    · rw [List.map_map, List.forall₂_map_right_iff, List.forall₂_same]
      exact fun e _ => ⟨_, rfl, StoredEvent.get_ids (e.withTexts g)⟩
    · intro j hj s hs
      obtain ⟨e, he, rfl⟩ := hmem.mp hj
      obtain hname | hs := StoredEvent.mem_strings_toDict.mp hs
      · exact hnames s hname
      · rw [StoredEvent.columnTexts_withTexts] at hs
        obtain ⟨u, hu, rfl⟩ := List.mem_map.mp hs
        exact (hveiled e he).columns u hu
    · intro d hd text htext
      obtain ⟨e, he, hde⟩ := hmem.mp hd
      obtain rfl := Json.obj.inj hde
      obtain ⟨u, hu, rfl⟩ := hpayload.mp htext
      exact (hveiled e he).payload u hu

/-- The answer is the list with the strings that are read, if no literal is cut. -/
theorem loads_lists_iff {body g : Str → Str} {path : Str} (hpath : '/' ∈ path)
    (hcodes : Codes body g) (hg : ∀ k ∈ StoredEvent.names, g k = k)
    (hevents : ∀ e ∈ events, Appended D e) :
    (∃ out, loads D (printWith body (eventsJson events)) = some (.arr out) ∧
        Lists D path events out) ↔
      (∀ e ∈ events, ∀ u ∈ e.columnTexts, ¬ TabAssignment (keysHidden u)) ∧
        ∀ e ∈ events, Veiled D path g e := by
  have hread : Readable D (mapStrings g (eventsJson events)) := (readable_events hevents).mapStrings
  rw [← lists_withTexts_iff hpath]
  obtain ⟨hfree, hloads⟩ | ⟨⟨s, hs, htab⟩, hloads⟩ := hcodes.loads hread
  · rw [hloads, mapStrings_events hg, decoded_events]
    constructor
    · rintro ⟨out, hout, hlists⟩
      obtain rfl := Json.arr.inj (Option.some.inj hout)
      exact ⟨fun e he u hu => hfree u (mem_strings_events.mpr ⟨e, he, .inr hu⟩), hlists⟩
    · rintro ⟨-, hlists⟩
      exact ⟨_, rfl, hlists⟩
  · rw [hloads]
    constructor
    · rintro ⟨out, hout, -⟩
      simp at hout
    · rintro ⟨hfree, -⟩
      obtain ⟨e, he, hname | hu⟩ := mem_strings_events.mp hs
      · exact absurd htab (name_spec hname).1
      · exact absurd htab (hfree e he s hu)

end Answer

/-! ## Hiding the root -/

/-- The path without the slashes at its end. -/
def rstrip (path : Str) : Str := (path.reverse.dropWhile (· = '/')).reverse

theorem rstrip_append (path : Str) : ∃ t, path = rstrip path ++ t ∧ ∀ c ∈ t, c = '/' := by
  refine ⟨(path.reverse.takeWhile (· = '/')).reverse, ?_, fun c hc => ?_⟩
  · rw [rstrip, ← List.reverse_append, List.takeWhile_append_dropWhile, List.reverse_reverse]
  · simpa using List.mem_takeWhile_imp (List.mem_reverse.mp hc)

theorem rstrip_head {path : Str} (h : path.head? = some '/') : ∀ c ∈ (rstrip path).head?, c = '/' := by
  obtain ⟨t, ht, -⟩ := rstrip_append path
  intro c hc
  cases hroot : rstrip path with
  | nil =>
    rw [hroot] at hc
    simp at hc
  | cons d root =>
    rw [hroot, List.head?_cons] at hc
    rw [ht, hroot, List.cons_append, List.head?_cons] at h
    exact (Option.some.inj hc).symm.trans (Option.some.inj h)

theorem plain_path {path : Str} (h : Plain (rstrip path)) : Plain (path ++ ['/']) := by
  obtain ⟨t, ht, hslash⟩ := rstrip_append path
  refine plain_slash ?_
  rw [ht]
  intro c hc
  obtain hc | hc := List.mem_append.mp hc
  · exact h c hc
  · rw [hslash c hc]
    decide

theorem redact_some {path : Str} (h : path ≠ []) (text : Str) :
    redact text (some path) = stripRoot (rstrip path) (redact text none) := by
  obtain ⟨c, s, rfl⟩ := List.exists_cons_of_ne_nil h
  rfl

/-- The root does not stand in the text, where it would be taken out. -/
def Missing (root text : Str) : Prop :=
  Substitution.search (rootAt (root ++ ['/']) fun _ => true) text = false ∧
    Substitution.search (rootAt root boundary) text = false

theorem Missing.stripRoot_eq {root text : Str} (h : Missing root text) :
    stripRoot root text = text := by
  rw [stripRoot, Substitution.sub_nil_eq_iff.mpr h.1, Substitution.sub_nil_eq_iff.mpr h.2]

/-- The letters that `dumps` prints. -/
def isPrintable (c : Char) : Bool := 32 ≤ c.toNat ∧ c.toNat ≤ 126

theorem escape_letters (c : Char) : ∀ d ∈ escape c, isPrintable d = true := by
  intro d hd
  by_cases hc : escape c = [c]
  · rw [hc] at hd
    obtain rfl := List.mem_singleton.mp hd
    have hascii := plain_toNat hc
    simpa [isPrintable] using hascii
  · have hletters : ∀ d ∈ codeLetters, isPrintable d = true := by decide
    obtain hd | ⟨-, rfl⟩ := code_mem hc hd
    · exact hletters d hd
    · decide

theorem dumps_letters (v : Json) : ∀ c ∈ dumps v, isPrintable c = true := by
  rw [Json.dumps_eq_printWith]
  refine Json.printWith_letters ?_ ?_ (fun s c hc => ?_) v
  · rintro c (hc | rfl | rfl)
    · have hall : ∀ c ∈ ['\\', ',', ':', '[', ']', '\x7b', '\x7d'], isPrintable c = true := by decide
      exact hall c (by simpa [isBarrier] using hc)
    · decide
    · decide
  · rintro t (hnumber | hname) c hc
    · have hnum := hnumber c hc
      rw [Json.isNumberChar, Bool.or_eq_true, Char.isDigit_iff_toNat, decide_eq_true_eq] at hnum
      obtain hdigit | hmark := hnum
      · simp only [Char.reduceToNat] at hdigit
        simp only [isPrintable, decide_eq_true_eq]
        omega
      · have hall : ∀ c ∈ "+-.eENaInfity".toList, isPrintable c = true := by decide
        exact hall c hmark
    · have hall : ∀ t ∈ ["null".toList, "true".toList, "false".toList, "[]".toList, ['\x7b', '\x7d']],
          ∀ c ∈ t, isPrintable c = true := by decide
      exact hall t hname c hc
  · obtain ⟨d, -, hd⟩ := List.mem_flatMap.mp hc
    exact escape_letters d c hd

theorem redacted_letters (v : Json) : ∀ c ∈ redact (dumps v) none, isPrintable c = true := by
  intro c hc
  have hmarker : ∀ c ∈ "[REDACTED]".toList, isPrintable c = true := by decide
  obtain hc | hc := Substitution.mem_of_mem_sub hc
  · exact hmarker c hc
  · obtain hc | hc := Substitution.mem_of_mem_sub hc
    · exact hmarker c hc
    · obtain hc | hc := Substitution.mem_of_mem_sub hc
      · exact hmarker c hc
      · exact dumps_letters v c hc

/-- A letter that has a code is not found, but for the quotation mark and the backslash. -/
theorem missing_of_coded {root : Str} (hroot : ¬ Plain root) (hquote : '"' ∉ root)
    (hslash : '\\' ∉ root) (v : Json) : Missing root (redact (dumps v) none) := by
  obtain ⟨c, hc, hcode⟩ : ∃ c ∈ root, escape c ≠ [c] := by
    simpa [Plain] using hroot
  have hout : c ∉ redact (dumps v) none := by
    intro hin
    have hprint : 32 ≤ c.toNat ∧ c.toNat ≤ 126 := by
      simpa [isPrintable] using redacted_letters v c hin
    have hne : ∀ d : Char, d ∉ root → c.toNat ≠ d.toNat := by
      intro d hd hn
      exact hd (Char.toNat_inj.mp hn ▸ hc)
    exact hcode (escape_plain hprint (hne '"' hquote) (hne '\\' hslash))
  have hsearch : ∀ {r : Str} {tail : Str → Bool}, c ∈ r →
      Substitution.search (rootAt r tail) (redact (dumps v) none) = false := by
    intro r tail hr
    rw [← Bool.not_eq_true, search_rootAt (List.ne_nil_of_mem hr)]
    rintro ⟨rest, hsuf, -⟩
    exact hout (hsuf.subset (List.mem_append_left _ hr))
  exact ⟨hsearch (List.mem_append_left _ hc), hsearch hc⟩

/-- A root that is spelled as it stands is taken out of the strings of a payload along
with those of the columns. -/
theorem veiled_strip_iff {D : Decoder} {root path : Str} {e : StoredEvent}
    (hhead : ∀ c ∈ root.head?, c = '/') (hroot : Plain root) (hpath : Plain path)
    (he : Appended D e) : Veiled D path (fun u => stripLiteral root (scrubLiteral u)) e ↔
      ∀ u ∈ e.columnTexts, ¬ path <:+: stripLiteral root (scrubLiteral u) := by
  refine ⟨fun h => h.columns, fun h => ⟨h, fun text htext p hp s hs hin => ?_⟩⟩
  obtain ⟨payload, hproper, hstored⟩ := he.payload
  obtain rfl := Option.some.inj (htext.symm.trans hstored)
  have hclean : Clean (redact (dumps (canon (.obj payload))) none) := clean_scrub _
  -- what is stored, and what is left of it
  have hletters : stripLiteral root (redact (dumps (canon (.obj payload))) none) =
      printWith (fun u =>
        stripWith literalBoundary root (scrub id "[REDACTED]".toList (u.flatMap escape)))
        (canon (.obj payload)) := by
    have hprint : redact (dumps (canon (.obj payload))) none = _ := scrub_dumps _
    rw [hprint]
    exact (stripWith_literalwise hhead hroot literalBoundary_quote).printWith _
  have hcolumn := h _ (StoredEvent.payloadJson_mem hstored)
  rw [(replaced_scrubLiteral _).eq_of_clean hclean, hletters] at hp hcolumn
  have hread : Readable D (mapStrings (fun u => stripLiteral root (scrubLiteral u))
      (canon (.obj payload))) := (Readable.canon _ hproper.decoded_eq.1).mapStrings
  obtain ⟨hfree, hloads⟩ | ⟨-, hloads⟩ := (codes_stripWith hhead hroot (.inr rfl)).loads hread
  · rw [hloads] at hp
    obtain rfl := Option.some.inj hp
    have hmem := Json.mem_strings_of_decoded _ hs
    rw [Json.strings_mapStrings] at hmem
    obtain ⟨u, hu, rfl⟩ := List.mem_map.mp hmem
    refine hcolumn (List.IsInfix.trans ?_ (Json.infix_printWith _ hu))
    obtain ⟨-, hcode⟩ | ⟨htab, -⟩ := codes_stripWith hhead hroot (.inr rfl) u
    · beta_reduce at hcode
      rw [hcode, ← Substitution.flatMap_plain hpath]
      exact hin.flatMap escape
    · exact absurd htab (hfree u hu)
  · rw [hloads] at hp
    simp at hp

/-- A list of events is shown without `path` in it. -/
def HidesPath (D : Decoder) (tasks : Str → Option (Option Str)) (auditEvents : List StoredEvent)
    (taskId : Str) (since : ℤ) (path : Str) : Prop :=
  ∃ out, getEvents D tasks auditEvents taskId since = .ok (.arr out) ∧
    Lists D (path ++ ['/']) (listSince auditEvents taskId since) out

/-- No tab begins an assignment in a column, and either the root is spelled in a text as
it stands and no path is left, or formed, where it is taken out of the strings, or the
root is not found and the path is in no string. -/
def Hidden (D : Decoder) (path : Str) (events : List StoredEvent) : Prop :=
  (∀ e ∈ events, ∀ u ∈ e.columnTexts, ¬ TabAssignment (keysHidden u)) ∧
    ((Plain (rstrip path) ∧ ∀ e ∈ events, ∀ u ∈ e.columnTexts,
        ¬ path ++ ['/'] <:+: stripLiteral (rstrip path) (scrubLiteral u)) ∨
      (Missing (rstrip path) (redact (dumps (eventsJson events)) none) ∧
        ∀ e ∈ events, Veiled D (path ++ ['/']) scrubLiteral e))

theorem ne_nil_of_head {path : Str} {c : Char} (h : path.head? = some c) : path ≠ [] := by
  rintro rfl
  simp at h

theorem appended_listSince {D : Decoder} {auditEvents : List StoredEvent}
    (h : ∀ e ∈ auditEvents, Appended D e) (taskId : Str) (since : ℤ) :
    ∀ e ∈ listSince auditEvents taskId since, Appended D e := by
  intro e he
  rw [listSince, List.mem_insertionSort, List.mem_filter] at he
  exact h e he.1

/-- Taking the root out twice may put it together again. -/
example : stripLiteral "/a/b" "/a/a/a/b//b/b/" = "/a/b/".toList := by decide

section Endpoint
variable {D : Decoder} {tasks : Str → Option (Option Str)} {auditEvents : List StoredEvent}
  {taskId path : Str} {since : ℤ}

theorem hidesPath_iff (htask : tasks taskId = some (some path)) (hpath : path ≠ []) :
    HidesPath D tasks auditEvents taskId since path ↔
      ∃ out, loads D (stripRoot (rstrip path)
          (redact (dumps (eventsJson (listSince auditEvents taskId since))) none)) = some (.arr out) ∧
        Lists D (path ++ ['/']) (listSince auditEvents taskId since) out := by
  have hanswer : ∀ v, getEvents D tasks auditEvents taskId since = .ok v ↔
      loads D (stripRoot (rstrip path)
        (redact (dumps (eventsJson (listSince auditEvents taskId since))) none)) = some v := by
    intro v
    simp only [getEvents, htask, redact_some hpath]
    split <;> simp [*]
  simp only [HidesPath, hanswer]

variable (habsolute : path.head? = some '/') (hstored : ∀ e ∈ auditEvents, Appended D e)
include habsolute hstored

theorem hidesPath_plain (htask : tasks taskId = some (some path)) (hroot : Plain (rstrip path)) :
    HidesPath D tasks auditEvents taskId since path ↔
      (∀ e ∈ listSince auditEvents taskId since, ∀ u ∈ e.columnTexts,
        ¬ TabAssignment (keysHidden u)) ∧
      ∀ e ∈ listSince auditEvents taskId since, ∀ u ∈ e.columnTexts,
        ¬ path ++ ['/'] <:+: stripLiteral (rstrip path) (scrubLiteral u) := by
  have hhead := rstrip_head habsolute
  have htext : stripRoot (rstrip path)
        (redact (dumps (eventsJson (listSince auditEvents taskId since))) none) =
      printWith (fun u => stripWith innerBoundary (rstrip path)
        (scrub id "[REDACTED]".toList (u.flatMap escape)))
          (eventsJson (listSince auditEvents taskId since)) := by
    have hprint : redact (dumps (eventsJson (listSince auditEvents taskId since))) none = _ :=
      scrub_dumps _
    rw [hprint]
    exact (stripWith_literalwise hhead hroot boundary_quote).printWith _
  have hnames : ∀ k ∈ StoredEvent.names, stripLiteral (rstrip path) (scrubLiteral k) = k := by
    intro k hk
    obtain ⟨-, hkeep, hslash⟩ := name_spec hk
    rw [hkeep, stripLiteral_of_not_mem hhead hslash]
  have hevents := appended_listSince hstored taskId since
  rw [hidesPath_iff htask (ne_nil_of_head habsolute), htext,
    loads_lists_iff (by simp) (codes_stripWith hhead hroot (.inl rfl)) hnames hevents]
  refine and_congr_right fun _ => forall₂_congr fun e he => ?_
  exact veiled_strip_iff hhead hroot (plain_path hroot) (hevents e he)

theorem hidesPath_missing (htask : tasks taskId = some (some path))
    (hmissing : Missing (rstrip path)
      (redact (dumps (eventsJson (listSince auditEvents taskId since))) none)) :
    HidesPath D tasks auditEvents taskId since path ↔
      (∀ e ∈ listSince auditEvents taskId since, ∀ u ∈ e.columnTexts,
        ¬ TabAssignment (keysHidden u)) ∧
      ∀ e ∈ listSince auditEvents taskId since, Veiled D (path ++ ['/']) scrubLiteral e := by
  have hprint : redact (dumps (eventsJson (listSince auditEvents taskId since))) none =
      printWith (fun u => scrub id "[REDACTED]".toList (u.flatMap escape))
        (eventsJson (listSince auditEvents taskId since)) := scrub_dumps _
  rw [hidesPath_iff htask (ne_nil_of_head habsolute), hmissing.stripRoot_eq, hprint]
  exact loads_lists_iff (by simp) codes_scrub (fun k hk => (name_spec hk).2.1)
    (appended_listSince hstored taskId since)

/-- The endpoint hides the workspace if no column is cut and the root is taken out of all
strings, or not found and in none of them; and only then, unless the root has a quotation
mark or a backslash and stands in the text. -/
theorem events_hidden_iff (htask : tasks taskId = some (some path)) :
    (Hidden D path (listSince auditEvents taskId since) →
      HidesPath D tasks auditEvents taskId since path) ∧
    (('"' ∉ rstrip path ∧ '\\' ∉ rstrip path) ∨ Missing (rstrip path)
        (redact (dumps (eventsJson (listSince auditEvents taskId since))) none) →
      HidesPath D tasks auditEvents taskId since path →
        Hidden D path (listSince auditEvents taskId since)) := by
  constructor
  · rintro ⟨hfree, ⟨hroot, hshown⟩ | ⟨hmissing, hveiled⟩⟩
    · exact (hidesPath_plain habsolute hstored htask hroot).mpr ⟨hfree, hshown⟩
    · exact (hidesPath_missing habsolute hstored htask hmissing).mpr ⟨hfree, hveiled⟩
  · intro hletters hhides
    by_cases hroot : Plain (rstrip path)
    · obtain ⟨hfree, hshown⟩ := (hidesPath_plain habsolute hstored htask hroot).mp hhides
      exact ⟨hfree, .inl ⟨hroot, hshown⟩⟩
    · have hmissing : Missing (rstrip path)
          (redact (dumps (eventsJson (listSince auditEvents taskId since))) none) := by
        obtain ⟨hquote, hslash⟩ | hmissing := hletters
        · exact missing_of_coded hroot hquote hslash _
        · exact hmissing
      obtain ⟨hfree, hveiled⟩ := (hidesPath_missing habsolute hstored htask hmissing).mp hhides
      exact ⟨hfree, .inr ⟨hmissing, hveiled⟩⟩

end Endpoint

/-- The first event of the task `t1`. -/
def firstEvent (payloadJson : Str) : StoredEvent where
  eventId := 1
  taskId := "t1"
  stepIndex := some 0
  timestamp := some "2026-01-01T00:00:00+00:00"
  eventType := some "EventType.TOOL_EXECUTED"
  payloadJson := some payloadJson
  prevHash := some AuditChain.genesis
  hash := some "15e7beb5813e080dc5ba19bae312d0ab90e03ee4c552ced3b9a0ed6a33249181"

theorem appended_firstEvent (detail : Str) {payloadJson : Str}
    (h : redact (dumps (.obj [("detail".toList, .str detail)])) none = payloadJson) :
    Appended AuditChain.payloadDecoder (firstEvent payloadJson) where
  eventId := (by decide : fitsInteger 1 = true)
  stepIndex := ⟨0, rfl, by decide⟩
  payload := ⟨[("detail".toList, .str detail)], ⟨List.nodup_singleton _, trivial, trivial⟩,
    congrArg some h.symm⟩

def workspaceEvent : StoredEvent := firstEvent "\x7b\"detail\": \"/workspace/a.py\"\x7d"

theorem events_hidden_iff_workspace :
    (Hidden AuditChain.payloadDecoder "/workspace" (listSince [workspaceEvent] "t1" 0) →
      HidesPath AuditChain.payloadDecoder (fun _ => some (some "/workspace".toList))
        [workspaceEvent] "t1" 0 "/workspace") ∧
    (('"' ∉ rstrip "/workspace" ∧ '\\' ∉ rstrip "/workspace") ∨ Missing (rstrip "/workspace")
        (redact (dumps (eventsJson (listSince [workspaceEvent] "t1" 0))) none) →
      HidesPath AuditChain.payloadDecoder (fun _ => some (some "/workspace".toList))
        [workspaceEvent] "t1" 0 "/workspace" →
      Hidden AuditChain.payloadDecoder "/workspace" (listSince [workspaceEvent] "t1" 0)) := by
  have hstored : ∀ e ∈ [workspaceEvent], Appended AuditChain.payloadDecoder e := by
    intro e he
    obtain rfl := List.mem_singleton.mp he
    exact appended_firstEvent "/workspace/a.py" (by decide +kernel)
  exact events_hidden_iff (by decide) hstored rfl

def accentedEvent : StoredEvent := firstEvent "\x7b\"detail\": \"/\\u00e9/a.py\"\x7d"

/-- The letter has a code in the payload, so the path is not found. -/
theorem accented_path_shown :
    Appended AuditChain.payloadDecoder accentedEvent ∧
      ¬ HidesPath AuditChain.payloadDecoder (fun _ => some (some "/é".toList)) [accentedEvent]
        "t1" 0 "/é" := by
  have hstored : Appended AuditChain.payloadDecoder accentedEvent :=
    appended_firstEvent "/é/a.py" (by decide +kernel)
  refine ⟨hstored, fun hhides => ?_⟩
  have hall : ∀ e ∈ [accentedEvent], Appended AuditChain.payloadDecoder e := by
    intro e he
    obtain rfl := List.mem_singleton.mp he
    exact hstored
  have hmissing : Missing (rstrip "/é")
      (redact (dumps (eventsJson (listSince [accentedEvent] "t1" 0))) none) :=
    ⟨by decide +kernel, by decide +kernel⟩
  obtain ⟨-, hveiled⟩ := (hidesPath_missing (by decide) hall rfl hmissing).mp hhides
  have hlisted : accentedEvent ∈ listSince [accentedEvent] "t1" 0 := List.mem_singleton_self _
  have hstrings : (loads AuditChain.payloadDecoder (scrubLiteral
      "\x7b\"detail\": \"/\\u00e9/a.py\"\x7d".toList)).map strings =
        some ["detail".toList, "/é/a.py".toList] := by decide +kernel
  obtain ⟨p, hp, hdecoded⟩ := Option.map_eq_some_iff.mp hstrings
  refine (hveiled accentedEvent hlisted).payload _ rfl p hp "/é/a.py".toList (by simp [hdecoded]) ?_
  decide

end AegisCode
