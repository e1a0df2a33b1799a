import AegisCode.Fingerprint
import AegisCode.LiteralRedaction

/-!
# The structure of stored payloads

A stored payload is read as the payload with the credentials of its strings
replaced, unless a literal was broken or two keys of an object became the same.
-/
namespace AegisCode.Json

/-! ## Merged keys -/

theorem length_setItem_le (d : Dict) (k : Str) (v : Json) :
    (setItem d k v).length ≤ d.length + 1 := by
  induction d with
  | nil => rfl
  | cons m d ih =>
    rw [setItem]
    split
    · simp
    · simpa using ih

theorem length_setItem_of_mem {d : Dict} {k : Str} (h : k ∈ d.map Prod.fst) (v : Json) :
    (setItem d k v).length = d.length := by
  induction d with
  | nil => simp at h
  | cons m d ih =>
    rw [setItem]
    split
    · rfl
    · rename_i hne
      obtain rfl | h := List.mem_cons.mp h
      · exact absurd rfl hne
      · rw [List.length_cons, List.length_cons, ih h]

theorem length_foldl_setItem_le (ms : List (Str × Json)) : ∀ d : Dict,
    (ms.foldl (fun d m => setItem d m.1 m.2) d).length ≤ d.length + ms.length := by
  induction ms with
  | nil => exact fun d => le_rfl
  | cons m ms ih =>
    intro d
    have hset := length_setItem_le d m.1 m.2
    have hrest := ih (setItem d m.1 m.2)
    rw [List.foldl_cons, List.length_cons]
    omega

/-- A dictionary with an entry for every member has members with distinct keys. -/
theorem nodup_of_length_dictOf {ms : List (Str × Json)} (h : ms.length ≤ (dictOf ms).length) :
    (ms.map Prod.fst).Nodup := by
  have hrun : ∀ (ms : List (Str × Json)) (d : Dict), (d.map Prod.fst).Nodup →
      d.length + ms.length ≤ (ms.foldl (fun d m => setItem d m.1 m.2) d).length →
      ((d ++ ms).map Prod.fst).Nodup := by
    intro ms
    induction ms with
    | nil => exact fun d hd _ => by rwa [List.append_nil]
    | cons m ms ih =>
      intro d hd hlen
      rw [List.foldl_cons, List.length_cons] at hlen
      have hrest := length_foldl_setItem_le ms (setItem d m.1 m.2)
      have hnew : m.1 ∉ d.map Prod.fst := fun hin => by
        have hset := length_setItem_of_mem hin m.2
        omega
      rw [setItem_new hnew] at hlen
      have hnodup : ((d ++ [(m.1, m.2)]).map Prod.fst).Nodup := by
        rw [List.map_append]
        exact List.nodup_append.mpr ⟨hd, by simp, by simpa using fun a b hab h => hnew (by
          rw [← h]; exact List.mem_map_of_mem hab)⟩
      have hstep := ih (d ++ [(m.1, m.2)]) hnodup (by
        rw [List.length_append, List.length_singleton]
        omega)
      simpa using hstep
  simpa using hrun ms [] (by simp) (by simpa [dictOf] using h)

open Redactor (Replaced Clean scrubLiteral keysHidden TabAssignment Cut)

mutual
/-- In no object two keys are the same once their credentials are replaced. -/
def Unmerged : Json → Prop
  | .arr xs => UnmergedElems xs
  | .obj ms => (ms.map fun m => scrubLiteral m.1).Nodup ∧ UnmergedMembers ms
  | .null => True
  | .bool _ => True
  | .int _ => True
  | .float _ => True
  | .str _ => True

def UnmergedElems : List Json → Prop
  | [] => True
  | x :: xs => Unmerged x ∧ UnmergedElems xs

def UnmergedMembers : List (Str × Json) → Prop
  | [] => True
  | (_, v) :: ms => Unmerged v ∧ UnmergedMembers ms
end

mutual
/-- The second value has the structure of the first one: the same keys, but for
credentials in them, and the same values, but for credentials in strings. -/
def Keeps : Json → Json → Prop
  | .str s, w => ∃ t, w = .str t ∧ Replaced s t
  | .arr xs, w => ∃ ys, w = .arr ys ∧ KeepsElems xs ys
  | .obj ms, w => ∃ ns, w = .obj ns ∧ KeepsMembers ms ns
  | .null, w => w = .null
  | .bool b, w => w = .bool b
  | .int n, w => w = .int n
  | .float x, w => w = .float x

def KeepsElems : List Json → List Json → Prop
  | [], ys => ys = []
  | x :: xs, ys => ∃ y ys', ys = y :: ys' ∧ Keeps x y ∧ KeepsElems xs ys'

def KeepsMembers : List (Str × Json) → List (Str × Json) → Prop
  | [], ns => ns = []
  | (k, v) :: ms, ns => ∃ k' w ns', ns = (k', w) :: ns' ∧ (Clean k → k' = k) ∧ Replaced k k' ∧
      Keeps v w ∧ KeepsMembers ms ns'
end

theorem KeepsMembers.length_eq : ∀ {ms ns : List (Str × Json)}, KeepsMembers ms ns →
    ns.length = ms.length := by
  intro ms
  induction ms with
  | nil =>
    rintro ns rfl
    rfl
  | cons m ms ih =>
    rintro ns ⟨k', w, ns, rfl, -, -, -, hrest⟩
    rw [List.length_cons, List.length_cons, ih hrest]

theorem map_fst_decodedMembers (g : Str → Str) : ∀ ms : List (Str × Json),
    (decodedMembers (mapMembers g ms)).map Prod.fst = ms.map fun m => g m.1 := by
  intro ms
  induction ms with
  | nil => rfl
  | cons m ms ih => rw [mapMembers, decodedMembers, List.map_cons, List.map_cons, ih]

mutual
/-- A value with hidden credentials keeps its structure exactly if no keys are merged. -/
theorem keeps_decoded_iff : ∀ v : Json, Keeps v (decoded (mapStrings scrubLiteral v)) ↔ Unmerged v
  | .null => by simp [Keeps, decoded, mapStrings, Unmerged]
  | .bool _ => by simp [Keeps, decoded, mapStrings, Unmerged]
  | .int _ => by simp [Keeps, decoded, mapStrings, Unmerged]
  | .float _ => by simp [Keeps, decoded, mapStrings, Unmerged]
  | .str s => by
      simp only [Keeps, decoded, mapStrings, Unmerged, iff_true]
      exact ⟨_, rfl, Redactor.replaced_scrubLiteral s⟩
  | .arr xs => by
      rw [Unmerged, ← keepsElems_decoded_iff xs, Keeps, mapStrings, decoded]
      constructor
      · rintro ⟨ys, hys, h⟩
        rwa [Json.arr.inj hys]
      · exact fun h => ⟨_, rfl, h⟩
  | .obj ms => by
      have hkeys := map_fst_decodedMembers scrubLiteral ms
      rw [Unmerged, ← keepsMembers_decoded_iff ms, ← hkeys, Keeps, mapStrings, decoded]
      constructor
      · rintro ⟨ns, hns, h⟩
        rw [← Json.obj.inj hns] at h
        have hlen : (decodedMembers (mapMembers scrubLiteral ms)).length ≤
            (dictOf (decodedMembers (mapMembers scrubLiteral ms))).length := by
          have hmap := congrArg List.length hkeys
          rw [List.length_map, List.length_map] at hmap
          rw [h.length_eq, hmap]
        have hnodup := nodup_of_length_dictOf hlen
        rw [dictOf_eq hnodup] at h
        exact ⟨hnodup, h⟩
      · rintro ⟨hnodup, h⟩
        rw [dictOf_eq hnodup]
        exact ⟨_, rfl, h⟩

theorem keepsElems_decoded_iff : ∀ xs : List Json,
    KeepsElems xs (decodedElems (mapElems scrubLiteral xs)) ↔ UnmergedElems xs
  | [] => by simp [KeepsElems, mapElems, decodedElems, UnmergedElems]
  | x :: xs => by
      rw [UnmergedElems, ← keeps_decoded_iff x, ← keepsElems_decoded_iff xs, KeepsElems, mapElems,
        decodedElems]
      constructor
      · rintro ⟨y, ys, hys, hx, hxs⟩
        obtain ⟨rfl, rfl⟩ := List.cons.inj hys
        exact ⟨hx, hxs⟩
      · rintro ⟨hx, hxs⟩
        exact ⟨_, _, rfl, hx, hxs⟩

theorem keepsMembers_decoded_iff : ∀ ms : List (Str × Json),
    KeepsMembers ms (decodedMembers (mapMembers scrubLiteral ms)) ↔ UnmergedMembers ms
  | [] => by simp [KeepsMembers, mapMembers, decodedMembers, UnmergedMembers]
  | (k, v) :: ms => by
      rw [UnmergedMembers, ← keeps_decoded_iff v, ← keepsMembers_decoded_iff ms, KeepsMembers,
        mapMembers, decodedMembers]
      constructor
      · rintro ⟨k', w, ns, hns, -, -, hv, hms⟩
        obtain ⟨hm, rfl⟩ := List.cons.inj hns
        obtain ⟨rfl, rfl⟩ := Prod.mk.inj hm
        exact ⟨hv, hms⟩
      · rintro ⟨hv, hms⟩
        have hkey := Redactor.replaced_scrubLiteral k
        exact ⟨_, _, _, rfl, hkey.eq_of_clean, hkey, hv, hms⟩
end

/-! ## Stored payloads -/

mutual
theorem Readable.canon {D : Decoder} : ∀ v : Json, Readable D v → Readable D (canon v)
  | .null, h => h
  | .bool _, h => h
  | .int _, h => h
  | .float _, h => h
  | .str _, h => h
  | .arr xs, h => ReadableElems.canon xs h
  | .obj ms, h => by
      have hall : ∀ {ns : List (Str × Json)}, ReadableMembers D ns ↔ ∀ m ∈ ns, Readable D m.2 := by
        intro ns
        induction ns with
        | nil => simp [ReadableMembers]
        | cons m ns ih => simp [ReadableMembers, ih]
      have hms := hall.mp (ReadableMembers.canon ms h)
      exact hall.mpr fun m hm => hms m ((List.mem_insertionSort _).mp hm)

theorem ReadableElems.canon {D : Decoder} : ∀ xs : List Json, ReadableElems D xs →
    ReadableElems D (canonElems xs)
  | [], _ => trivial
  | x :: xs, h => ⟨Readable.canon x h.1, ReadableElems.canon xs h.2⟩

theorem ReadableMembers.canon {D : Decoder} : ∀ ms : List (Str × Json), ReadableMembers D ms →
    ReadableMembers D (canonMembers ms)
  | [], _ => trivial
  | (_, v) :: ms, h => ⟨Readable.canon v h.1, ReadableMembers.canon ms h.2⟩
end

theorem unmergedMembers_iff {ms : List (Str × Json)} :
    UnmergedMembers ms ↔ ∀ m ∈ ms, Unmerged m.2 := by
  induction ms with
  | nil => simp [UnmergedMembers]
  | cons m ms ih => simp [UnmergedMembers, ih]

mutual
theorem unmerged_canon : ∀ v : Json, Unmerged (canon v) ↔ Unmerged v
  | .null => Iff.rfl
  | .bool _ => Iff.rfl
  | .int _ => Iff.rfl
  | .float _ => Iff.rfl
  | .str _ => Iff.rfl
  | .arr xs => unmergedElems_canon xs
  | .obj ms => by
      have hsort := List.perm_insertionSort (fun a b : Str × Json => a.1 ≤ b.1) (canonMembers ms)
      have hkeys : (canonMembers ms).map (fun m => scrubLiteral m.1) =
          ms.map fun m => scrubLiteral m.1 := by
        have hmap := congrArg (List.map scrubLiteral) (map_fst_canonMembers ms)
        rwa [List.map_map, List.map_map] at hmap
      rw [canon, Unmerged, Unmerged, (hsort.map _).nodup_iff, hkeys, unmergedMembers_iff,
        ← unmergedMembers_canon ms, unmergedMembers_iff]
      simp only [List.mem_insertionSort]

theorem unmergedElems_canon : ∀ xs : List Json, UnmergedElems (canonElems xs) ↔ UnmergedElems xs
  | [] => Iff.rfl
  | x :: xs => by
      rw [canonElems, UnmergedElems, UnmergedElems, unmerged_canon x, unmergedElems_canon xs]

theorem unmergedMembers_canon : ∀ ms : List (Str × Json),
    UnmergedMembers (canonMembers ms) ↔ UnmergedMembers ms
  | [] => Iff.rfl
  | (k, v) :: ms => by
      rw [canonMembers, UnmergedMembers, UnmergedMembers, unmerged_canon v, unmergedMembers_canon ms]
end

/-- The redacted text of an object is read as an object of the same structure, exactly if
no code of a tab begins an assignment and no keys are merged. -/
theorem loads_keeps_iff {D : Decoder} {ms : List (Str × Json)} (hms : Readable D (.obj ms)) :
    (∃ j, loads D (Redactor.redact (dumps (.obj ms)) none) = some j ∧ Keeps (.obj ms) j) ↔
      (∀ s ∈ strings (.obj ms), ¬ TabAssignment (keysHidden s)) ∧ Unmerged (.obj ms) := by
  have htext : Redactor.redact (dumps (.obj ms)) none =
      printWith (fun s => Redactor.scrub id "[REDACTED]".toList (s.flatMap escape)) (.obj ms) :=
    Redactor.scrub_dumps _
  have hread : Readable D (mapStrings scrubLiteral (.obj ms)) := hms.mapStrings
  rw [htext, ← keeps_decoded_iff]
  obtain ⟨hfree, hloads⟩ | ⟨⟨s, hs, hcut⟩, hloads⟩ := Redactor.codes_scrub.loads hread
  · rw [hloads]
    constructor
    · rintro ⟨j, hj, hkeeps⟩
      obtain rfl := Option.some.inj hj
      exact ⟨hfree, hkeeps⟩
    · rintro ⟨-, hkeeps⟩
      exact ⟨_, rfl, hkeeps⟩
  · rw [hloads]
    constructor
    · rintro ⟨j, hj, -⟩
      simp at hj
    · rintro ⟨hfree, -⟩
      exact absurd hcut (hfree s hs)

end AegisCode.Json

namespace AegisCode.AuditChain

open Program
open Redactor (redact keysHidden TabAssignment)
open Json (Decoder Proper Keeps Unmerged loads strings)

section Append
variable {H : Digest}

/-- The payload that `append` stores can be read and has kept its structure, exactly if
in no string a tab is followed by the rest of an assignment that begins with a `t`, and
in no object two keys differ in their credentials only. -/
theorem append_structured_iff {D : Decoder} {s s' t t' : Writers} {taskId eventType timestamp : Str}
    {n : ℤ} {payload : Dict} (hpayload : Proper D (.obj payload))
    (hread : writerStep H (redact · none) s
      (.read taskId n eventType timestamp (.obj payload)) = some s')
    (hpending : t.pending taskId = s'.pending taskId)
    (hinsert : writerStep H (redact · none) t (.insert taskId) = some t') :
    ∃ row text, t'.table = t.table ++ [(taskId, row)] ∧ row.payloadJson = some text ∧
      ((∃ j, loads D text = some j ∧ Keeps (Json.canon (.obj payload)) j) ↔
        (∀ v ∈ strings (.obj payload), ¬ TabAssignment (keysHidden v)) ∧
          Unmerged (.obj payload)) := by
  obtain ⟨row, htable, -, hstored⟩ := append_stores hread hpending hinsert
  refine ⟨row, _, htable, hstored, ?_⟩
  have hcanon : Json.Readable D (Json.canon (.obj payload)) :=
    Json.Readable.canon _ (Json.Proper.decoded_eq _ hpayload).1
  rw [← Json.unmerged_canon]
  simp only [← Json.mem_strings_canon (.obj payload)]
  exact Json.loads_keeps_iff hcanon

/-- A decoder as far as the payloads below need it: they have no floats. -/
def payloadDecoder : Decoder where
  float _ := Json.nan
  unpaired _ := '?'

theorem append_structured_iff_quoted :
    ∃ t' row text, writerStep quotedDigest (redact · none)
        ⟨[], Function.update (fun _ => none) "t1".toList (some quotedPending)⟩
        (.insert "t1".toList) = some t' ∧
      t'.table = [("t1".toList, row)] ∧ row.payloadJson = some text ∧
      ((∃ j, loads payloadDecoder text = some j ∧ Keeps (Json.canon quotedPayload) j) ↔
        (∀ v ∈ strings quotedPayload, ¬ TabAssignment (keysHidden v)) ∧
          Unmerged quotedPayload) := by
  have hread : writerStep quotedDigest (redact · none) Writers.initial
      (.read "t1".toList 0 "EventType.TOOL_EXECUTED".toList "2026-01-01T00:00:00+00:00".toList
        quotedPayload) = some _ := rfl
  have hproper : Proper payloadDecoder quotedPayload := ⟨List.nodup_singleton _, trivial, trivial⟩
  obtain ⟨row, text, htable, hrow⟩ := append_structured_iff hproper hread rfl rfl
  exact ⟨_, row, text, rfl, htable, hrow⟩

/-- A tab with a `t` for its code, and the rest of an assignment. -/
def tabPayload : Json := .obj [("detail".toList, .str "\token=abcdefghijklmnop".toList)]

def tabPending : Pending :=
  ⟨genesis, 0, "EventType.TOOL_EXECUTED".toList, "2026-01-01T00:00:00+00:00".toList,
    redact (Json.dumps (Json.canon tabPayload)) none⟩

/-- SHA-256 as far as that append needs it. -/
def tabDigest : Digest :=
  .single (genesis ++ body "t1" tabPending.columns)
    "c36a9a6c877a13b5c4384eb0a22dac698c0fc6f7a70c5105a2d3849eceb0a652" (by decide)

/-- The stored payload is no JSON: the marker stands behind the backslash of the tab. -/
theorem tab_payload_stored :
    ∃ s t' row text, writerStep tabDigest (redact · none) Writers.initial
        (.read "t1".toList 0 "EventType.TOOL_EXECUTED".toList "2026-01-01T00:00:00+00:00".toList
          tabPayload) = some s ∧
      writerStep tabDigest (redact · none) s (.insert "t1".toList) = some t' ∧
      t'.table = [("t1".toList, row)] ∧ row.payloadJson = some text ∧
      text = "\x7b\"detail\": \"\\[REDACTED]\"\x7d".toList ∧
      ¬ ∃ j, loads payloadDecoder text = some j ∧ Keeps (Json.canon tabPayload) j := by
  have hread : writerStep tabDigest (redact · none) Writers.initial
      (.read "t1".toList 0 "EventType.TOOL_EXECUTED".toList "2026-01-01T00:00:00+00:00".toList
        tabPayload) = some _ := rfl
  obtain ⟨row, htable, -, hrow⟩ := append_stores (H := tabDigest) hread rfl rfl
  have htext : redact (Json.dumps (Json.canon tabPayload)) none =
      "\x7b\"detail\": \"\\[REDACTED]\"\x7d".toList := by decide +kernel
  rw [htext] at hrow
  have hnone : (loads payloadDecoder "\x7b\"detail\": \"\\[REDACTED]\"\x7d".toList).isNone = true := by
    decide +kernel
  refine ⟨_, _, row, _, hread, rfl, htable, hrow, rfl, ?_⟩
  rintro ⟨j, hj, -⟩
  rw [hj] at hnone
  simp at hnone

end Append

end AegisCode.AuditChain
