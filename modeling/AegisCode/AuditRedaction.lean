import AegisCode.AuditChain
import AegisCode.RedactedStrings

/-!
# Redaction of audit payloads

The audit log redacts the text of a payload, not its strings. Every string of
the payload stands in the text as a literal, between letters that belong to no
credential, so the redactor treats each literal as if it stood alone. An audit
row therefore hides what redacting a string would hide exactly if the string is
`Redactable`.
-/
namespace AegisCode

namespace Json

/-- A string of a value: its literal in the text, with what stands around it. -/
structure Place where
  before : Str
  string : Str
  after : Str

/-- The place in a longer text. -/
def Place.within (left right : Str) (p : Place) : Place :=
  ⟨left ++ p.before, p.string, p.after ++ right⟩

mutual
/-- The places of the strings of a value, keys included, in its printed text. -/
def places : Json → List Place
  | .str s => [⟨[], s, []⟩]
  | .arr (x :: xs) =>
      (places x).map (.within ['['] (dumpsElems xs)) ++
        (placesElems xs).map (.within ('[' :: dumps x) [])
  | .obj ((k, v) :: ms) =>
      ⟨['\x7b'], k, ": ".toList ++ dumps v ++ dumpsMembers ms⟩ ::
        (places v).map (.within ('\x7b' :: (quote k ++ ": ".toList)) (dumpsMembers ms)) ++
          (placesMembers ms).map (.within ('\x7b' :: (quote k ++ ": ".toList ++ dumps v)) [])
  | _ => []

def placesElems : List Json → List Place
  | [] => []
  | x :: xs =>
      (places x).map (.within ", ".toList (dumpsElems xs)) ++
        (placesElems xs).map (.within (", ".toList ++ dumps x) [])

def placesMembers : List (Str × Json) → List Place
  | [] => []
  | (k, v) :: ms =>
      ⟨", ".toList, k, ": ".toList ++ dumps v ++ dumpsMembers ms⟩ ::
        (places v).map (.within (", ".toList ++ quote k ++ ": ".toList) (dumpsMembers ms)) ++
          (placesMembers ms).map
            (.within (", ".toList ++ quote k ++ ": ".toList ++ dumps v) [])
end

mutual
/-- The strings of a value, the keys of its objects included. -/
def strings : Json → List Str
  | .str s => [s]
  | .arr xs => stringsElems xs
  | .obj ms => stringsMembers ms
  | _ => []

def stringsElems : List Json → List Str
  | [] => []
  | x :: xs => strings x ++ stringsElems xs

def stringsMembers : List (Str × Json) → List Str
  | [] => []
  | (k, v) :: ms => k :: strings v ++ stringsMembers ms
end

theorem map_string_within (left right : Str) (ps : List Place) :
    (ps.map (.within left right)).map Place.string = ps.map Place.string := by
  rw [List.map_map]
  rfl

mutual
/-- There is a place for every string. -/
theorem places_string : ∀ v : Json, (places v).map Place.string = strings v
  | .null => rfl
  | .bool _ => rfl
  | .int _ => rfl
  | .float _ => rfl
  | .str _ => rfl
  | .arr [] => rfl
  | .arr (x :: xs) => by
      rw [places, strings, stringsElems, List.map_append, map_string_within, map_string_within,
        places_string x, placesElems_string xs]
  | .obj [] => rfl
  | .obj ((k, v) :: ms) => by
      rw [places, strings, stringsMembers, List.map_append, List.map_cons, map_string_within,
        map_string_within, places_string v, placesMembers_string ms]

theorem placesElems_string : ∀ xs : List Json, (placesElems xs).map Place.string = stringsElems xs
  | [] => rfl
  | x :: xs => by
      rw [placesElems, stringsElems, List.map_append, map_string_within, map_string_within,
        places_string x, placesElems_string xs]

theorem placesMembers_string : ∀ ms : List (Str × Json),
    (placesMembers ms).map Place.string = stringsMembers ms
  | [] => rfl
  | (k, v) :: ms => by
      rw [placesMembers, stringsMembers, List.map_append, List.map_cons, map_string_within,
        map_string_within, places_string v, placesMembers_string ms]
end

theorem mem_stringsMembers {s : Str} {ms : List (Str × Json)} :
    s ∈ stringsMembers ms ↔ ∃ m ∈ ms, s = m.1 ∨ s ∈ strings m.2 := by
  induction ms with
  | nil => simp [stringsMembers]
  | cons m ms ih => simp [stringsMembers, ih, or_assoc]

mutual
/-- Sorting the keys keeps the strings. -/
theorem mem_strings_canon {s : Str} : ∀ v : Json, s ∈ strings (canon v) ↔ s ∈ strings v
  | .null => Iff.rfl
  | .bool _ => Iff.rfl
  | .int _ => Iff.rfl
  | .float _ => Iff.rfl
  | .str _ => Iff.rfl
  | .arr xs => by
      rw [canon, strings, strings]
      exact mem_stringsElems_canon xs
  | .obj ms => by
      rw [canon, strings, strings, mem_stringsMembers, ← mem_stringsMembers_canon ms,
        mem_stringsMembers]
      simp only [List.mem_insertionSort]

theorem mem_stringsElems_canon {s : Str} :
    ∀ xs : List Json, s ∈ stringsElems (canonElems xs) ↔ s ∈ stringsElems xs
  | [] => Iff.rfl
  | x :: xs => by
      rw [canonElems, stringsElems, stringsElems, List.mem_append, List.mem_append,
        mem_strings_canon x, mem_stringsElems_canon xs]

theorem mem_stringsMembers_canon {s : Str} :
    ∀ ms : List (Str × Json), s ∈ stringsMembers (canonMembers ms) ↔ s ∈ stringsMembers ms
  | [] => Iff.rfl
  | (k, v) :: ms => by
      rw [canonMembers, stringsMembers, stringsMembers, List.cons_append, List.cons_append,
        List.mem_cons, List.mem_cons, List.mem_append, List.mem_append, mem_strings_canon v,
        mem_stringsMembers_canon ms]
end

open Redactor (isBarrier)

/-- What stands in front of a literal ends with a barrier, perhaps with a blank behind it. -/
def Opens (before : Str) : Prop :=
  ∃ a b gap, before = a ++ b :: gap ∧ isBarrier b = true ∧ (gap = [] ∨ gap = [' '])

/-- What stands behind a literal begins with a barrier. -/
def Closes (after : Str) : Prop := ∀ c ∈ after.head?, isBarrier c = true

/-- The place is one of the text. -/
structure Place.Stands (text : Str) (p : Place) : Prop where
  text_eq : text = p.before ++ (quote p.string ++ p.after)
  opens : p.before = [] ∨ Opens p.before
  closes : Closes p.after

theorem Opens.append_left {before : Str} (h : Opens before) (left : Str) :
    Opens (left ++ before) := by
  obtain ⟨a, b, gap, rfl, hb, hgap⟩ := h
  exact ⟨left ++ a, b, gap, by rw [List.append_assoc], hb, hgap⟩

theorem Place.Stands.within {text left right whole : Str} {p : Place} (h : p.Stands text)
    (hleft : Opens left ∨ p.before ≠ []) (hright : Closes right)
    (hwhole : whole = left ++ (text ++ right)) : (p.within left right).Stands whole where
  text_eq := by
    rw [hwhole, h.text_eq]
    simp [Place.within]
  opens := by
    obtain hnil | hopen := h.opens
    · rw [Place.within, hnil, List.append_nil]
      exact .inr (hleft.resolve_right fun hne => hne hnil)
    · exact .inr (hopen.append_left left)
  closes := by
    intro c hc
    have hafter := h.closes c
    cases hp : p.after with
    | nil =>
      rw [Place.within, hp] at hc
      exact hright c hc
    | cons d t =>
      rw [Place.within, hp] at hc
      rw [hp] at hafter
      exact hafter hc

theorem Place.within_before_ne_nil {left right : Str} {p : Place} (h : left ≠ []) :
    (p.within left right).before ≠ [] := by simp [Place.within, h]

theorem closes_nil : Closes [] := by simp [Closes]

theorem closes_elems (xs : List Json) : Closes (dumpsElems xs) := by
  intro c hc
  cases xs <;> simp [dumpsElems] at hc <;> subst c <;> decide

theorem closes_members (ms : List (Str × Json)) : Closes (dumpsMembers ms) := by
  intro c hc
  cases ms <;> simp [dumpsMembers] at hc <;> subst c <;> decide

theorem opens_barrier {b : Char} (hb : isBarrier b = true) : Opens [b] :=
  ⟨[], b, [], rfl, hb, .inl rfl⟩

theorem opens_colon : Opens ": ".toList := ⟨[], ':', [' '], rfl, by decide, .inr rfl⟩

theorem opens_comma : Opens ", ".toList := ⟨[], ',', [' '], rfl, by decide, .inr rfl⟩

theorem closes_colon (r : Str) : Closes (": ".toList ++ r) := by
  intro c hc
  obtain rfl : ':' = c := by simpa using hc
  decide

mutual
/-- Every place of a value is one of its text. -/
theorem stands_places : ∀ v : Json, ∀ p ∈ places v, p.Stands (dumps v)
  | .null, p, hp => absurd hp List.not_mem_nil
  | .bool _, p, hp => absurd hp List.not_mem_nil
  | .int _, p, hp => absurd hp List.not_mem_nil
  | .float _, p, hp => absurd hp List.not_mem_nil
  | .str s, p, hp => by
      obtain rfl := List.mem_singleton.mp hp
      exact ⟨by simp [dumps], .inl rfl, closes_nil⟩
  | .arr [], p, hp => absurd hp List.not_mem_nil
  | .arr (x :: xs), p, hp => by
      rw [places, List.mem_append, List.mem_map, List.mem_map] at hp
      rw [dumps]
      obtain ⟨q, hq, rfl⟩ | ⟨q, hq, rfl⟩ := hp
      · exact (stands_places x q hq).within (.inl (opens_barrier (by decide))) (closes_elems xs) rfl
      · have hstands := stands_placesElems xs q hq
        exact hstands.1.within (.inr hstands.2) closes_nil (by simp)
  | .obj [], p, hp => absurd hp List.not_mem_nil
  | .obj ((k, v) :: ms), p, hp => by
      rw [places, List.cons_append, List.mem_cons, List.mem_append, List.mem_map, List.mem_map] at hp
      rw [dumps]
      obtain rfl | ⟨q, hq, rfl⟩ | ⟨q, hq, rfl⟩ := hp
      · refine ⟨by simp, .inr (opens_barrier (by decide)), ?_⟩
        rw [List.append_assoc]
        exact closes_colon _
      · have hopen := opens_colon.append_left ('\x7b' :: quote k)
        exact (stands_places v q hq).within (.inl hopen) (closes_members ms) (by simp)
      · have hstands := stands_placesMembers ms q hq
        exact hstands.1.within (.inr hstands.2) closes_nil (by simp)

theorem stands_placesElems : ∀ xs : List Json, ∀ p ∈ placesElems xs,
    p.Stands (dumpsElems xs) ∧ p.before ≠ []
  | [], p, hp => absurd hp List.not_mem_nil
  | x :: xs, p, hp => by
      rw [placesElems, List.mem_append, List.mem_map, List.mem_map] at hp
      rw [dumpsElems]
      obtain ⟨q, hq, rfl⟩ | ⟨q, hq, rfl⟩ := hp
      · refine ⟨?_, Place.within_before_ne_nil (by simp)⟩
        exact (stands_places x q hq).within (.inl opens_comma) (closes_elems xs) (by simp)
      · have hstands := stands_placesElems xs q hq
        refine ⟨?_, Place.within_before_ne_nil (by simp)⟩
        exact hstands.1.within (.inr hstands.2) closes_nil (by simp)

theorem stands_placesMembers : ∀ ms : List (Str × Json), ∀ p ∈ placesMembers ms,
    p.Stands (dumpsMembers ms) ∧ p.before ≠ []
  | [], p, hp => absurd hp List.not_mem_nil
  | (k, v) :: ms, p, hp => by
      rw [placesMembers, List.cons_append, List.mem_cons, List.mem_append, List.mem_map,
        List.mem_map] at hp
      rw [dumpsMembers]
      obtain rfl | ⟨q, hq, rfl⟩ | ⟨q, hq, rfl⟩ := hp
      · refine ⟨⟨by simp, .inr opens_comma, ?_⟩, by simp⟩
        rw [List.append_assoc]
        exact closes_colon _
      · refine ⟨?_, Place.within_before_ne_nil (by simp)⟩
        have hopen := opens_colon.append_left (", ".toList ++ quote k)
        exact (stands_places v q hq).within (.inl hopen) (closes_members ms) (by simp)
      · have hstands := stands_placesMembers ms q hq
        refine ⟨?_, Place.within_before_ne_nil (by simp)⟩
        exact hstands.1.within (.inr hstands.2) closes_nil (by simp)
end

end Json

namespace Redactor

open Substitution
open Json (Opens Closes Place)

/-! ## Literals in a text -/

/-- No match reaches across a quotation mark or a letter around a literal. -/
structure Fenced (p : Matcher Char) : Prop where
  barrier : ∀ {b : Char}, isBarrier b = true → ∀ r, Stops p (b :: r)
  quote : ∀ {r : Str}, Closes r → Stops p ('"' :: r)
  inert : ∀ {c : Char}, c = ' ' ∨ c = '"' → ∀ s, p.find (c :: s) = none

/-- Words without quotation marks, blanks and barriers. -/
theorem Finds.fenced {p : Matcher Char} {L : Str → Prop} {P : Char → Bool} (hp : Finds p L P)
    (hL : ∀ w, L w → ∀ c ∈ w, isKeyChar c = true) (hP : ∀ c, P c = true → isKeyChar c = true) :
    Fenced p := by
  have hstop : ∀ {c : Char}, isKeyChar c = false → ∀ r, Stops p (c :: r) := by
    intro c hc r
    refine hp.stops (fun d hd => ?_) fun a z hw hz => ?_
    · obtain rfl : c = d := by simpa using hd
      exact Bool.eq_false_iff.mpr fun hPc => by simp [hP c hPc] at hc
    · cases z with
      | nil => rfl
      | cons d z =>
        obtain ⟨t, ht⟩ := hz
        obtain rfl : d = c := (List.cons.inj ht).1
        simp [hL _ hw d (by simp)] at hc
  have hbarrier : ∀ {b : Char}, isBarrier b = true → isKeyChar b = false := by
    intro b hb
    have hall : ∀ c ∈ ['\\', ',', ':', '[', ']', '\x7b', '\x7d'], isKeyChar c = false := by decide
    exact hall b (by simpa [isBarrier] using hb)
  exact ⟨fun hb => hstop (hbarrier hb), fun _ => hstop (by decide) _,
    fun hc s => (hstop (by obtain rfl | rfl := hc <;> decide) s).find_eq_none⟩

/-- An assignment ends with a letter of its value. -/
theorem IsGeneric.last {w : Str} (h : IsGeneric w) : ∀ a c, w = a ++ [c] → isValueChar c = true := by
  obtain ⟨_, _, _, _, hlen, hrun⟩ := h
  rename_i run _ _ _ _
  intro a c heq
  obtain rfl | ⟨run, d, rfl⟩ := List.eq_nil_or_concat' run
  · simp at hlen
  · rw [← List.append_assoc, ← List.cons_append, ← List.append_assoc] at heq
    obtain rfl : d = c := (List.append_singleton_inj.mp heq).2
    exact hrun d (by simp)

theorem fenced_generic : Fenced genericAssignment where
  barrier := fun {b} hb r => by
    have hletters : ∀ c ∈ ['\\', ',', ':', '[', ']', '\x7b', '\x7d'], isValueChar c = false := by decide
    refine finds_generic.stops (fun d hd => ?_) fun a z hw hz => ?_
    · obtain rfl : b = d := by simpa using hd
      exact hletters b (by simpa [isBarrier] using hb)
    · cases z with
      | nil => rfl
      | cons d z =>
        obtain ⟨t, ht⟩ := hz
        obtain rfl : d = b := (List.cons.inj ht).1
        exact absurd (by simp) (hw.not_barrier hb)
  quote := fun {r} hr => by
    refine finds_generic.stops (fun d hd => ?_) fun a z hw hz => ?_
    · obtain rfl : '"' = d := by simpa using hd
      decide
    · cases z with
      | nil => rfl
      | cons d z =>
        obtain ⟨t, ht⟩ := hz
        obtain rfl : d = '"' := (List.cons.inj ht).1
        have hrest : z ++ t = r := (List.cons.inj ht).2
        cases z with
        | nil => exact absurd (hw.last a _ rfl) (by decide)
        | cons e z =>
          have he : isBarrier e = true := hr e (by rw [← hrest]; rfl)
          exact absurd (by simp) (hw.not_barrier he)
  inert := fun hc s => find_generic_eq_none (by obtain rfl | rfl := hc <;> decide) s

theorem fenced_of_mem : ∀ p ∈ keyPatterns, Fenced p := by
  intro p hp
  simp only [keyPatterns, List.mem_cons, List.not_mem_nil, or_false] at hp
  obtain rfl | rfl | rfl := hp
  · exact Finds.fenced finds_openai (fun _ hw => hw.isKeyChar) fun _ hc => hc
  · exact Finds.fenced finds_aws (fun _ hw => hw.isKeyChar) fun _ hc => by simp at hc
  · exact fenced_generic

/-- Text that stems from no character of the string. -/
def bare (s : Str) : Labelled := s.map fun c => (c, none)

def frame (before : Str) (body : Labelled) (after : Str) : Labelled :=
  bare before ++ ('"', none) :: (body ++ ('"', none) :: bare after)

theorem map_bare (s : Str) : (bare s).map Prod.fst = s := by
  rw [bare, List.map_map]
  exact List.map_id s

theorem sub_bare (p : Matcher Char) (s : Str) :
    sub p Prod.fst marker 0 (bare s) = bare (sub p id "[REDACTED]".toList 0 s) :=
  (map_sub (f := Prod.fst) (fun c => (c, none)) "[REDACTED]".toList 0 s).symm

theorem not_shown_bare {i : ℕ} {s : Str} : ¬ Shown i (bare s) := by
  rintro ⟨c, hc⟩
  obtain ⟨_, _, heq⟩ := List.mem_map.mp hc
  exact absurd (Prod.mk.inj heq).2 (by simp)

theorem shown_frame {i : ℕ} {before after : Str} {body : Labelled} :
    Shown i (frame before body after) ↔ Shown i body := by
  simp [frame, shown_append, shown_cons, not_shown_bare]

section Frame
variable {p : Matcher Char} (hp : Fenced p)
include hp

theorem Fenced.sub_closes {after : Str} (ha : Closes after) :
    Closes (sub p id "[REDACTED]".toList 0 after) := by
  cases after with
  | nil => exact ha
  | cons b t =>
    have hb : isBarrier b = true := ha b rfl
    have hnone : p.find ((b :: t).map id) = none := (hp.barrier hb _).find_eq_none
    rw [sub_none hnone]
    intro c hc
    obtain rfl : b = c := by simpa using hc
    exact hb

theorem Fenced.sub_body {body : Labelled} {after : Str} (ha : Closes after) :
    sub p Prod.fst marker 0 (('"', none) :: (body ++ ('"', none) :: bare after)) =
      ('"', none) :: (sub p Prod.fst marker 0 body ++ ('"', none) ::
        bare (sub p id "[REDACTED]".toList 0 after)) := by
  have hmark : ∀ xs : Labelled, sub p Prod.fst marker 0 (('"', none) :: xs) =
      ('"', none) :: sub p Prod.fst marker 0 xs := fun xs =>
    sub_keep (f := Prod.fst) (hp.inert (.inr rfl)) xs
  have hstop : Stops p ((('"', none) :: bare after : Labelled).map Prod.fst) := by
    rw [List.map_cons, map_bare]
    exact hp.quote ha
  rw [hmark, sub_append hstop (Nat.zero_le _), hmark, sub_bare]

/-- A match never crosses from the frame into the literal or back. -/
theorem Fenced.sub_frame {before after : Str} {body : Labelled} (hb : before = [] ∨ Opens before)
    (ha : Closes after) : ∃ before' after', (before' = [] ∨ Opens before') ∧ Closes after' ∧
      sub p Prod.fst marker 0 (frame before body after) =
        frame before' (sub p Prod.fst marker 0 body) after' := by
  rw [frame]
  obtain rfl | ⟨a, b, gap, rfl, hbar, hgap⟩ := hb
  · exact ⟨[], _, .inl rfl, hp.sub_closes ha, hp.sub_body ha⟩
  · refine ⟨sub p id "[REDACTED]".toList 0 a ++ b :: gap, _,
      .inr ⟨_, b, gap, rfl, hbar, hgap⟩, hp.sub_closes ha, ?_⟩
    have hbare : ∀ s t, bare (s ++ t) = bare s ++ bare t := fun s t => List.map_append
    -- nothing begins at the barrier or at the blank behind it
    have hkeep : ∀ xs : Labelled, sub p Prod.fst marker 0 (bare (b :: gap) ++ ('"', none) :: xs) =
        bare (b :: gap) ++ sub p Prod.fst marker 0 (('"', none) :: xs) := by
      intro xs
      have hb : ∀ s, p.find (b :: s) = none := fun s => (hp.barrier hbar s).find_eq_none
      have hblank : ∀ s, p.find (' ' :: s) = none := hp.inert (.inl rfl)
      obtain rfl | rfl := hgap
      · exact sub_keep (f := Prod.fst) hb _
      · refine (sub_keep (f := Prod.fst) hb _).trans ?_
        exact congrArg ((b, none) :: ·) (sub_keep (f := Prod.fst) (x := (' ', none)) hblank _)
    have hstop : Stops p ((bare (b :: gap) ++ ('"', none) ::
        (body ++ ('"', none) :: bare after)).map Prod.fst) := hp.barrier hbar _
    rw [frame, hbare, List.append_assoc, sub_append hstop (Nat.zero_le _), hkeep, hp.sub_body ha,
      sub_bare, hbare, List.append_assoc]

end Frame

/-- The redactor treats a literal as if it stood alone. -/
theorem scrub_frame {before after : Str} {body : Labelled} (hb : before = [] ∨ Opens before)
    (ha : Closes after) : ∃ before' after', scrub Prod.fst marker (frame before body after) =
      frame before' (scrub Prod.fst marker body) after' := by
  have hrun : ∀ (ps : List (Matcher Char)), (∀ p ∈ ps, Fenced p) → ∀ {before after body},
      (before = [] ∨ Opens before) → Closes after → ∃ before' after',
        ps.foldl (fun out p => sub p Prod.fst marker 0 out) (frame before body after) =
          frame before' (ps.foldl (fun out p => sub p Prod.fst marker 0 out) body) after' := by
    intro ps
    induction ps with
    | nil => exact fun _ {before after body} _ _ => ⟨before, after, rfl⟩
    | cons p ps ih =>
      intro hps before after body hb ha
      obtain ⟨b, a, hb', ha', hsub⟩ :=
        (hps p List.mem_cons_self).sub_frame hb ha
      rw [List.foldl_cons, List.foldl_cons, hsub]
      exact ih (fun q hq => hps q (List.mem_cons_of_mem p hq)) hb' ha'
  exact hrun keyPatterns fenced_of_mem hb ha

theorem map_scrub (xs : Labelled) : (scrub Prod.fst marker xs).map Prod.fst =
    scrub id "[REDACTED]".toList (xs.map Prod.fst) := by
  rw [scrub_eq, scrub_eq, ← map_withoutKeys]
  exact map_sub (f := id) Prod.fst marker 0 _

/-! ## What an audit row shows -/

/-- The text around the place, with the characters of its string labelled. -/
def labelled (p : Place) : Labelled :=
  frame p.before ((label p.string).flatMap (encode Json.escape)) p.after

/-- The stored text, as `append` redacts it. -/
def stored (p : Place) : Labelled := scrub Prod.fst marker (labelled p)

theorem map_labelled {text : Str} {p : Place} (h : p.Stands text) :
    (labelled p).map Prod.fst = text := by
  rw [h.text_eq, labelled, frame, List.map_append, List.map_cons, List.map_append, List.map_cons,
    map_bare, map_bare, map_encode, map_label, Json.quote]
  simp

theorem map_stored {text : Str} {p : Place} (h : p.Stands text) :
    (stored p).map Prod.fst = redact text none := by
  rw [stored, map_scrub, map_labelled h]
  rfl

/-- `redact(v)`, with the characters labelled that are left of `v`. -/
def redacted (v : Str) : Labelled := scrub Prod.fst marker (label v)

theorem map_redacted (v : Str) : (redacted v).map Prod.fst = redact v none := by
  rw [redacted, map_scrub, map_label]
  rfl

theorem stored_shows_iff {text : Str} {p : Place} (h : p.Stands text) :
    (∀ i, Shown i (stored p) → Shown i (redacted p.string)) ↔ Redactable p.string := by
  have hbody : ∃ before after, scrub Prod.fst marker (labelled p) =
      frame before (scrub Prod.fst marker ((label p.string).flatMap (encode Json.escape))) after :=
    scrub_frame h.opens h.closes
  obtain ⟨before, after, hframe⟩ := hbody
  rw [redacted, ← literal_shows_iff, stored, hframe]
  simp only [shown_frame]

end Redactor

namespace AuditChain

open Program Redactor

section Append
variable {H : Digest}

/-- What `append` stores of the step index and the payload it was called with, other
writers' steps in between or not. -/
theorem append_stores {s s' t t' : Writers} {taskId eventType timestamp : Str} {n : ℤ}
    {payload : Json}
    (hread : writerStep H (redact · none) s (.read taskId n eventType timestamp payload) = some s')
    (hpending : t.pending taskId = s'.pending taskId)
    (hinsert : writerStep H (redact · none) t (.insert taskId) = some t') :
    ∃ row, t'.table = t.table ++ [(taskId, row)] ∧
      (row.stepIndex = some n ∧ fitsInteger n = true) ∧
      row.payloadJson = some (redact (Json.dumps (Json.canon payload)) none) := by
  have hrow : ∃ a : Pending, t.pending taskId = some a ∧ a.stepIndex = n ∧
      a.payloadJson = redact (Json.dumps (Json.canon payload)) none := by
    simp only [writerStep] at hread
    split at hread
    · obtain rfl := Option.some.inj hread
      exact ⟨_, hpending.trans (Function.update_self ..), rfl, rfl⟩
    · simp at hread
  obtain ⟨a, ha, rfl, hpayload⟩ := hrow
  simp only [writerStep, ha] at hinsert
  split_ifs at hinsert with hfits
  obtain rfl := Option.some.inj hinsert
  exact ⟨appendRow H taskId a, rfl, ⟨rfl, hfits⟩, congrArg some hpayload⟩

/-- Nothing of a string that redacting the string takes away is shown anywhere in the
stored text, exactly if the string is redactable. -/
theorem append_redacts_iff {s s' t t' : Writers} {taskId eventType timestamp : Str} {n : ℤ}
    {payload : Json}
    (hread : writerStep H (redact · none) s (.read taskId n eventType timestamp payload) = some s')
    (hpending : t.pending taskId = s'.pending taskId)
    (hinsert : writerStep H (redact · none) t (.insert taskId) = some t')
    {v : Str} (hv : v ∈ payload.strings) :
    ∃ row text, t'.table = t.table ++ [(taskId, row)] ∧ row.payloadJson = some text ∧
      (∀ p ∈ (Json.canon payload).places, (stored p).map Prod.fst = text) ∧
      (redacted v).map Prod.fst = redact v none ∧
      ((∀ p ∈ (Json.canon payload).places, p.string = v →
        ∀ i, Shown i (stored p) → Shown i (redacted v)) ↔ Redactable v) := by
  obtain ⟨row, htable, -, hstored⟩ := append_stores hread hpending hinsert
  refine ⟨row, _, htable, hstored, fun p hp => ?_, map_redacted v, ?_, ?_⟩
  · exact map_stored (Json.stands_places _ p hp)
  · intro h
    rw [← Json.mem_strings_canon, ← Json.places_string] at hv
    obtain ⟨p, hp, rfl⟩ := List.mem_map.mp hv
    exact (stored_shows_iff (Json.stands_places _ p hp)).mp (h p hp rfl)
  · rintro h p hp rfl
    exact (stored_shows_iff (Json.stands_places _ p hp)).mpr h

/-- A quoted assignment, as the redactor is meant to catch it. -/
def quotedSecret : Str := "KEY = \"abcdefghijklmnop\"".toList

def quotedPayload : Json := .obj [("out".toList, .str quotedSecret)]

/-- The append of that payload between its two steps. -/
def quotedPending : Pending :=
  ⟨genesis, 0, "EventType.TOOL_EXECUTED".toList, "2026-01-01T00:00:00+00:00".toList,
    redact (Json.dumps (Json.canon quotedPayload)) none⟩

/-- SHA-256 as far as that append needs it. -/
def quotedDigest : Digest :=
  .single (genesis ++ body "t1" quotedPending.columns)
    "a0955f5fb30b751bc12695be0a0932dbd79c5e71a5820d83c937eccabf2e051a" (by decide)

theorem append_redacts_iff_quoted :
    ∃ t' row text, writerStep quotedDigest (redact · none)
        ⟨[], Function.update (fun _ => none) "t1".toList (some quotedPending)⟩
        (.insert "t1".toList) = some t' ∧
      t'.table = [("t1".toList, row)] ∧ row.payloadJson = some text ∧
      (∀ p ∈ (Json.canon quotedPayload).places, (stored p).map Prod.fst = text) ∧
      (redacted quotedSecret).map Prod.fst = redact quotedSecret none ∧
      ((∀ p ∈ (Json.canon quotedPayload).places, p.string = quotedSecret →
        ∀ i, Shown i (stored p) → Shown i (redacted quotedSecret)) ↔ Redactable quotedSecret) := by
  have hread : writerStep quotedDigest (redact · none) Writers.initial
      (.read "t1".toList 0 "EventType.TOOL_EXECUTED".toList "2026-01-01T00:00:00+00:00".toList
        quotedPayload) = some _ := rfl
  obtain ⟨row, text, htable, hrow⟩ := append_redacts_iff hread rfl rfl
    (by decide : quotedSecret ∈ quotedPayload.strings)
  exact ⟨_, row, text, rfl, htable, hrow⟩

/-- The quotation mark is escaped in the stored text, so the value stays in it. -/
theorem quoted_secret_stored :
    redact quotedSecret none = "[REDACTED]\"".toList ∧
      Str.contains "abcdefghijklmnop".toList
        (redact (Json.dumps (Json.canon quotedPayload)) none) = true ∧
      ¬ ∀ p ∈ (Json.canon quotedPayload).places, p.string = quotedSecret →
        ∀ i, Shown i (stored p) → Shown i (redacted quotedSecret) := by
  refine ⟨by decide +kernel, by decide +kernel, fun h => ?_⟩
  have hstored : ∃ p ∈ (Json.canon quotedPayload).places, p.string = quotedSecret ∧
      ('a', some 7) ∈ stored p := by decide +kernel
  have hlost : some 7 ∉ (redacted quotedSecret).map Prod.snd := by decide +kernel
  obtain ⟨p, hp, hv, hshown⟩ := hstored
  obtain ⟨c, hc⟩ := h p hp hv 7 ⟨'a', hshown⟩
  exact hlost (List.mem_map_of_mem hc)

end Append

end AuditChain

end AegisCode
