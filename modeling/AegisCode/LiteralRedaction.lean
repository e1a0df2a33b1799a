import AegisCode.JsonStrings
import AegisCode.Redaction

/-!
# Redaction literal by literal

Redacting the text of a value is redacting each of its literals. In a literal the
matches of the patterns are words of the string, with one exception: the `t` of
the code of a tab may begin a keyword. Then the marker is left behind the
backslash of the code, and the literal cannot be read any more.
-/
namespace AegisCode.Redactor

open Substitution
open Json (Literalwise escape printWith enclose Broken)

/-! ## Literal by literal -/

/-- What a pattern makes of the text of a value. -/
def substitute (p : Matcher Char) (text : Str) : Str := sub p id "[REDACTED]".toList 0 text

theorem scrub_substitute (text : Str) : scrub id "[REDACTED]".toList text =
    substitute genericAssignment (substitute awsKey (substitute openaiKey text)) := rfl

/-- A pattern that finds nothing in texts without a credential. -/
structure Selects (p : Matcher Char) : Prop extends Fenced p where
  clean : ∀ {t : Str}, Clean t → substitute p t = t

theorem selects_of_mem : ∀ p ∈ keyPatterns, Selects p := by
  intro p hp
  refine ⟨fenced_of_mem p hp, fun {t} ht => ?_⟩
  rw [clean_iff] at ht
  simp only [keyPatterns, List.mem_cons, List.not_mem_nil, or_false] at hp
  obtain rfl | rfl | rfl := hp
  · exact finds_openai.sub_of_clean (fun w hw => ht w (.inl hw)) _
  · exact finds_aws.sub_of_clean (fun w hw => ht w (.inr (.inl hw))) _
  · exact finds_generic.sub_of_clean (fun w hw => ht w (.inr (.inr hw))) _

/-- The text of a value without strings has no credential. -/
theorem clean_number {t : Str} (h : ∀ c ∈ t, Json.isNumberChar c = true) : Clean t := by
  refine clean_iff.mpr fun w hw hin => ?_
  have hletter : ∀ c ∈ w, Json.isNumberChar c = true := fun c hc => h c (hin.subset hc)
  obtain ⟨run, rfl, -⟩ | ⟨run, rfl, -⟩ | hw := hw
  · exact absurd (hletter 's' (by simp)) (by decide)
  · exact absurd (hletter 'K' (by simp)) (by decide)
  · obtain ⟨-, -, -, -, -, -⟩ := hw
    exact absurd (hletter '=' (by simp)) (by decide)

theorem clean_short {t : Str} (h : t.length < 16) : Clean t := by
  refine clean_iff.mpr fun w hw hin => ?_
  have hlong := hw.length_le
  have hle := hin.length_le
  omega

section Literals
variable {p : Matcher Char} (hp : Selects p)
include hp

theorem Selects.stops_closes {rest : Str} (h : Json.Closes rest) : Stops p rest := by
  cases rest with
  | nil =>
    intro s
    rw [List.append_nil]
  | cons b r => exact hp.barrier (h b rfl) r

theorem Selects.barrier_cons {b : Char} (hb : isBarrier b = true) (text : Str) :
    substitute p (b :: text) = b :: substitute p text :=
  sub_keep (f := id) (fun s => (hp.barrier hb s).find_eq_none) text

theorem Selects.mark_cons {c : Char} (hc : c = ' ' ∨ c = '"') (text : Str) :
    substitute p (c :: text) = c :: substitute p text :=
  sub_keep (f := id) (hp.inert hc) text

/-- A pattern is applied to the letters of each literal. -/
theorem Selects.literalwise : Literalwise (substitute p) (substitute p) where
  nil := rfl
  mark := by
    rintro c (hc | rfl) text
    · exact hp.barrier_cons hc text
    · exact hp.mark_cons (.inl rfl) text
  atom := by
    intro t rest ht h
    have hclean : Clean t := by
      obtain hnumber | hname := ht
      · exact clean_number hnumber
      · have hall : ∀ t ∈ ["null".toList, "true".toList, "false".toList, "[]".toList, ['\x7b', '\x7d']],
          t.length < 16 := by decide
        exact clean_short (hall t hname)
    have hstop : Stops p (rest.map id) := by
      rw [List.map_id]
      exact hp.stops_closes h
    have hsplit : substitute p (t ++ rest) = substitute p t ++ substitute p rest :=
      sub_append hstop (Nat.zero_le _)
    rw [hsplit, hp.clean hclean]
  literal := by
    intro body rest h
    have hstop : Stops p (('"' :: rest).map id) := by
      rw [List.map_id]
      exact hp.quote h
    have htext : enclose body ++ rest = '"' :: (body ++ '"' :: rest) := by simp [Json.enclose]
    have hbody : substitute p (body ++ '"' :: rest) =
        substitute p body ++ substitute p ('"' :: rest) :=
      sub_append hstop (Nat.zero_le _)
    rw [htext, hp.mark_cons (.inr rfl), hbody, hp.mark_cons (.inr rfl)]
    simp [Json.enclose]

end Literals

/-- Redaction is applied to each literal of a text. -/
theorem scrub_dumps (v : Json) : scrub id "[REDACTED]".toList (Json.dumps v) =
    printWith (fun s => scrub id "[REDACTED]".toList (s.flatMap escape)) v := by
  have hmem := selects_of_mem
  simp only [keyPatterns, List.forall_mem_cons] at hmem
  obtain ⟨hopenai, haws, hgeneric, -⟩ := hmem
  rw [Json.dumps_eq_printWith, scrub_substitute, hopenai.literalwise.printWith,
    haws.literalwise.printWith, hgeneric.literalwise.printWith]
  rfl

/-! ## The letters of a literal -/

/-- An assignment of a string that is spelled as it stands. -/
def literalAssignment : Matcher Char where
  find := fun s => genericAt (s.flatMap escape)
  isPrefix := fun h =>
    have ⟨hw, _, hsplit, _⟩ := genericAt_iff.mp h
    have ⟨t, hs, _⟩ := escaping.split (not_mem_escape _ hw) hsplit
    ⟨t, hs.symm⟩
  ne_nil := fun h => genericAssignment.ne_nil h

theorem literalAssignment_word {s w : Str} (h : literalAssignment.find s = some w) :
    IsGeneric w ∧ ∀ c ∈ w, escape c = [c] := by
  obtain ⟨hw, _, hsplit, _⟩ := genericAt_iff.mp h
  obtain ⟨_, _, _, hplain⟩ := escaping.split (not_mem_escape _ hw) hsplit
  exact ⟨hw, hplain⟩

/-- A tab after which an assignment goes on whose first letter is the last one of
the code of the tab. -/
def TabAssignment (u : Str) : Prop :=
  ∃ w, IsGeneric ('t' :: w) ∧ (∀ c ∈ w, escape c = [c]) ∧ '\t' :: w <:+: u

theorem tabAssignment_cons {x : Char} {u : Str} : TabAssignment (x :: u) ↔
    (x = '\t' ∧ ∃ w, genericAt ('t' :: u.flatMap escape) = some w) ∨ TabAssignment u := by
  constructor
  · rintro ⟨w, hw, hplain, hin⟩
    obtain hpre | hin := List.infix_cons_iff.mp hin
    · obtain ⟨rfl, r, rfl⟩ := List.cons_prefix_cons.mp hpre
      have hfind := finds_generic.find_word hw (r.flatMap escape)
      rw [List.cons_append] at hfind
      refine .inl ⟨rfl, 't' :: (w ++ (r.flatMap escape).takeWhile isValueChar), ?_⟩
      rw [List.flatMap_append, flatMap_plain hplain]
      exact hfind
    · exact .inr ⟨w, hw, hplain, hin⟩
  · rintro (⟨rfl, w, hfind⟩ | ⟨w, hw, hplain, hin⟩)
    · obtain ⟨hw, r, hsplit, -⟩ := genericAt_iff.mp hfind
      obtain ⟨w, rfl⟩ : ∃ w', w = 't' :: w' := by
        cases w with
        | nil => exact absurd rfl (genericAssignment.ne_nil hfind)
        | cons d w => exact ⟨w, by rw [(List.cons.inj hsplit).1]⟩
      have hesc : '\\' ∉ w := fun hin => not_mem_escape _ hw (List.mem_cons_of_mem _ hin)
      obtain ⟨t, rfl, -, hplain⟩ := escaping.split hesc (List.cons.inj hsplit).2
      exact ⟨w, hw, hplain, List.IsPrefix.isInfix ⟨t, rfl⟩⟩
    · exact ⟨w, hw, hplain, hin.trans (List.infix_cons (List.infix_refl u))⟩

/-- A text that ends a literal too early, behind a backslash. -/
def Cut (text : Str) : Prop := ∃ a b : Str, text = a.flatMap escape ++ '\\' :: '[' :: b

theorem Cut.prepend {text : Str} (h : Cut text) (s : Str) : Cut (s.flatMap escape ++ text) := by
  obtain ⟨a, b, rfl⟩ := h
  exact ⟨s ++ a, b, by rw [List.flatMap_append, List.append_assoc]⟩

theorem broken_of_cut {D : Json.Decoder} {text : Str} (h : Cut text) : Broken D text := by
  obtain ⟨a, b, rfl⟩ := h
  intro n r
  rw [List.append_assoc]
  induction a generalizing n with
  | nil =>
    refine Option.eq_none_iff_forall_ne_some.mpr fun x hx => ?_
    cases n with
    | zero => simp [Json.scanString] at hx
    | succ n =>
      obtain ⟨hquote, -⟩ | ⟨c, cs, u, hc, -⟩ := Json.scanString_succ hx
      · exact absurd (List.cons.inj hquote).1 (by decide)
      · have hnone : Json.scanChar D ('\\' :: '[' :: (b ++ '"' :: r)) = none := rfl
        exact absurd (hnone.symm.trans hc) (by simp)
  | cons c a ih =>
    refine Option.eq_none_iff_forall_ne_some.mpr fun x hx => ?_
    cases n with
    | zero => simp [Json.scanString] at hx
    | succ n =>
      rw [List.flatMap_cons, List.append_assoc] at hx
      obtain ⟨hquote, -⟩ | ⟨d, cs, u, hd, hcs, -⟩ := Json.scanString_succ hx
      · obtain ⟨e, t, he, hne⟩ := Json.escape_head c
        rw [he, List.cons_append] at hquote
        exact hne (List.cons.inj hquote).1
      · rw [Json.scanChar_escape] at hd
        obtain ⟨rfl, rfl⟩ := Prod.mk.inj (Option.some.inj hd)
        rw [ih n] at hcs
        simp at hcs

theorem marker_literal : "[REDACTED]".toList.flatMap escape = "[REDACTED]".toList := by decide

/-- No assignment begins in a code, but perhaps at the last letter of a tab's. -/
theorem sub_code {x : Char} {u : Str} (hx : escape x ≠ [x])
    (h : ¬ (x = '\t' ∧ ∃ w, genericAt ('t' :: u.flatMap escape) = some w)) :
    sub genericAssignment id "[REDACTED]".toList 0 (escape x ++ u.flatMap escape) =
      escape x ++ sub genericAssignment id "[REDACTED]".toList 0 (u.flatMap escape) := by
  refine sub_inert fun a d b hab => ?_
  rw [List.map_id]
  by_cases htab : x = '\t'
  · obtain rfl := htab
    have hcode : ['\\', 't'] = a ++ d :: b := hab
    cases a with
    | nil =>
      obtain ⟨rfl, -⟩ := List.cons.inj hcode
      exact find_generic_escape _
    | cons c a =>
      obtain ⟨-, hcode⟩ := List.cons.inj hcode
      cases a with
      | nil =>
        obtain ⟨rfl, rfl⟩ := List.cons.inj hcode
        exact Option.eq_none_iff_forall_ne_some.mpr fun w hw => h ⟨rfl, w, hw⟩
      | cons c a => simp at hcode
  · refine finds_generic.find_eq_none (fun w => ?_) _
    exact code_generic hx (by rw [hab]; simp) htab w

/-- The scans of a string and of its literal side by side: they agree, unless the code
of a tab is taken for the beginning of an assignment. -/
theorem literal_scan {u : Str} : ∀ {k : ℕ}, (∀ c ∈ u.take k, escape c = [c]) →
    (¬ TabAssignment u ∧ sub genericAssignment id "[REDACTED]".toList k (u.flatMap escape) =
      (sub literalAssignment id "[REDACTED]".toList k u).flatMap escape) ∨
    (TabAssignment u ∧ Cut (sub genericAssignment id "[REDACTED]".toList k (u.flatMap escape))) := by
  induction u with
  | nil =>
    intro k _
    refine .inl ⟨?_, by cases k <;> rfl⟩
    rintro ⟨w, -, -, hin⟩
    simp at hin
  | cons x u ih =>
    intro k hk
    have htab : escape x = [x] → (TabAssignment (x :: u) ↔ TabAssignment u) := by
      intro hx
      rw [tabAssignment_cons, or_iff_right]
      rintro ⟨rfl, -⟩
      exact absurd hx (by decide)
    cases k with
    | succ k =>
      have hx : escape x = [x] := hk x (by simp)
      rw [List.flatMap_cons, hx, htab hx]
      exact ih fun c hc => hk c (by simp [hc])
    | zero =>
      cases hfind : literalAssignment.find (x :: u) with
      | some w =>
        obtain ⟨-, hplain⟩ := literalAssignment_word hfind
        obtain ⟨r, hr⟩ := literalAssignment.isPrefix hfind
        cases w with
        | nil => exact absurd rfl (literalAssignment.ne_nil hfind)
        | cons y w =>
          obtain ⟨rfl, hu⟩ := List.cons.inj hr
          have hy : escape y = [y] := hplain y List.mem_cons_self
          have hcode : (y :: u).flatMap escape = y :: u.flatMap escape := by
            rw [List.flatMap_cons, hy, List.singleton_append]
          have hletters : genericAssignment.find (y :: u.flatMap escape) = some (y :: w) := by
            rw [← hcode]
            exact hfind
          rw [hcode, htab hy, sub_some (by rwa [List.map_id]),
      sub_some (f := id) (by rwa [List.map_id])]
          have hskip : ∀ c ∈ u.take ((y :: w).length - 1), escape c = [c] := by
            intro c hc
            have htake : u.take w.length = w := by
              rw [← hu]
              exact List.take_left
            rw [List.length_cons, Nat.add_sub_cancel, htake] at hc
            exact hplain c (List.mem_cons_of_mem y hc)
          obtain ⟨hfree, hscan⟩ | ⟨hcut, hscan⟩ := ih hskip
          · exact .inl ⟨hfree, by rw [hscan, List.flatMap_append, marker_literal]⟩
          · have hmark := hscan.prepend "[REDACTED]".toList
            rw [marker_literal] at hmark
            exact .inr ⟨hcut, hmark⟩
      | none =>
        have hkeep : sub literalAssignment id "[REDACTED]".toList 0 (x :: u) =
            x :: sub literalAssignment id "[REDACTED]".toList 0 u :=
          sub_none (by rwa [List.map_id])
        by_cases hcut : x = '\t' ∧ ∃ w, genericAt ('t' :: u.flatMap escape) = some w
        · refine .inr ⟨tabAssignment_cons.mpr (.inl hcut), ?_⟩
          obtain ⟨rfl, w, hw⟩ := hcut
          have hslash : sub genericAssignment id "[REDACTED]".toList 0
              ('\\' :: 't' :: u.flatMap escape) = '\\' :: sub genericAssignment id
                "[REDACTED]".toList 0 ('t' :: u.flatMap escape) :=
            sub_keep (f := id) find_generic_escape _
          have hmark : sub genericAssignment id "[REDACTED]".toList 0 ('t' :: u.flatMap escape) =
              "[REDACTED]".toList ++ sub genericAssignment id "[REDACTED]".toList (w.length - 1)
                (u.flatMap escape) :=
            sub_some (by rw [List.map_id]; exact hw)
          have hcode : ('\t' :: u).flatMap escape = '\\' :: 't' :: u.flatMap escape := rfl
          rw [hcode, hslash, hmark]
          exact ⟨[], _, rfl⟩
        · rw [tabAssignment_cons, or_iff_right hcut, hkeep, List.flatMap_cons, List.flatMap_cons]
          have hscan : sub genericAssignment id "[REDACTED]".toList 0
              (escape x ++ u.flatMap escape) = escape x ++
                sub genericAssignment id "[REDACTED]".toList 0 (u.flatMap escape) := by
            by_cases hx : escape x = [x]
            · have hnone : genericAssignment.find (x :: u.flatMap escape) = none := by
                have hcode : (x :: u).flatMap escape = x :: u.flatMap escape := by
                  rw [List.flatMap_cons, hx, List.singleton_append]
                rw [← hcode]
                exact hfind
              rw [hx, List.singleton_append, List.singleton_append,
                sub_none (by rwa [List.map_id])]
            · exact sub_code hx hcut
          rw [hscan]
          obtain ⟨hfree, hrest⟩ | ⟨htab, hrest⟩ := ih (k := 0) (by simp)
          · exact .inl ⟨hfree, by rw [hrest]⟩
          · have hlater := hrest.prepend [x]
            rw [List.flatMap_singleton] at hlater
            exact .inr ⟨htab, hlater⟩

/-- What the first two patterns leave of a string. -/
def keysHidden (s : Str) : Str := withoutKeys id "[REDACTED]".toList s

/-- What redaction leaves of a string in a text. -/
def scrubLiteral (s : Str) : Str := sub literalAssignment id "[REDACTED]".toList 0 (keysHidden s)

theorem keysHidden_of_clean {s : Str} (h : Clean s) : keysHidden s = s := by
  rw [clean_iff] at h
  rw [keysHidden, withoutKeys, finds_openai.sub_of_clean fun w hw => h w (.inl hw),
    finds_aws.sub_of_clean fun w hw => h w (.inr (.inl hw))]

theorem withoutKeys_literal (s : Str) : withoutKeys id "[REDACTED]".toList (s.flatMap escape) =
    (keysHidden s).flatMap escape := by
  calc withoutKeys id "[REDACTED]".toList (s.flatMap escape)
      = withoutKeys id "[REDACTED]".toList (((label s).flatMap (encode escape)).map Prod.fst) := by
        rw [map_encode, map_label]
    _ = ((withoutKeys Prod.fst marker (label s)).flatMap (encode escape)).map Prod.fst := by
        rw [← map_withoutKeys, withoutKeys_encode]
    _ = (keysHidden s).flatMap escape := by
        rw [map_encode, map_withoutKeys, map_label, keysHidden]

/-- A redacted literal is the literal of the redacted string, or cut. -/
theorem literal_cases (s : Str) :
    (¬ TabAssignment (keysHidden s) ∧
      scrub id "[REDACTED]".toList (s.flatMap escape) = (scrubLiteral s).flatMap escape) ∨
    (TabAssignment (keysHidden s) ∧ Cut (scrub id "[REDACTED]".toList (s.flatMap escape))) := by
  rw [scrub_eq, withoutKeys_literal]
  exact literal_scan (by simp)

/-- The letters of every string are the code of another one, or they are cut where a
tab begins an assignment. -/
def Codes (body g : Str → Str) : Prop := ∀ s,
  (¬ TabAssignment (keysHidden s) ∧ body s = (g s).flatMap escape) ∨
    (TabAssignment (keysHidden s) ∧ Cut (body s))

theorem codes_scrub :
    Codes (fun s => scrub id "[REDACTED]".toList (s.flatMap escape)) scrubLiteral := literal_cases

/-- The text is read, exactly if no literal is cut. -/
theorem Codes.loads {D : Json.Decoder} {body g : Str → Str} (h : Codes body g) {v : Json}
    (hv : Json.Readable D (Json.mapStrings g v)) :
    ((∀ s ∈ Json.strings v, ¬ TabAssignment (keysHidden s)) ∧
      Json.loads D (printWith body v) = some (Json.decoded (Json.mapStrings g v))) ∨
    ((∃ s ∈ Json.strings v, TabAssignment (keysHidden s)) ∧
      Json.loads D (printWith body v) = none) := by
  by_cases htab : ∃ s ∈ Json.strings v, TabAssignment (keysHidden s)
  · have hbroken : ∃ s ∈ Json.strings v, Broken D (body s) := by
      obtain ⟨s, hs, hcut⟩ := htab
      obtain ⟨hfree, -⟩ | ⟨-, h⟩ := h s
      · exact absurd hcut hfree
      · exact ⟨s, hs, broken_of_cut h⟩
    have hcodes : ∀ s, Broken D (body s) ∨ body s = (g s).flatMap escape := by
      intro s
      obtain ⟨-, h⟩ | ⟨-, h⟩ := h s
      · exact .inr h
      · exact .inl (broken_of_cut h)
    exact .inr ⟨htab, Json.loads_broken hcodes hv hbroken⟩
  · have hfree : ∀ s ∈ Json.strings v, ¬ TabAssignment (keysHidden s) :=
      fun s hs hcut => htab ⟨s, hs, hcut⟩
    have hgood : ∀ s ∈ Json.strings v, body s = (g s).flatMap escape := by
      intro s hs
      obtain ⟨-, h⟩ | ⟨hcut, -⟩ := h s
      · exact h
      · exact absurd hcut (hfree s hs)
    exact .inl ⟨hfree, Json.loads_printWith hgood hv⟩

/-! ## Replaced credentials -/

/-- The second text is the first one with some of its credentials replaced. -/
inductive Replaced : Str → Str → Prop
  | nil : Replaced [] []
  | keep (c : Char) {s t : Str} : Replaced s t → Replaced (c :: s) (c :: t)
  | hide {w s t : Str} : IsCredential w → Replaced s t → Replaced (w ++ s) ("[REDACTED]".toList ++ t)

theorem Replaced.refl (s : Str) : Replaced s s := by
  induction s with
  | nil => exact .nil
  | cons c s ih => exact .keep c ih

/-- What is not part of a marker was in the text before. -/
theorem Replaced.word {w r : Str} (hw : '[' ∉ w) : ∀ {s : Str}, Replaced s (w ++ r) →
    ∃ s', s = w ++ s' ∧ Replaced s' r := by
  induction w with
  | nil => exact fun {s} h => ⟨s, rfl, h⟩
  | cons c w ih =>
    intro s h
    generalize ht : c :: w ++ r = t at h
    cases h with
    | nil => simp at ht
    | keep d h =>
      obtain ⟨rfl, rfl⟩ := List.cons.inj ht
      obtain ⟨s', rfl, hrest⟩ := ih (fun hin => hw (List.mem_cons_of_mem c hin)) h
      exact ⟨s', rfl, hrest⟩
    | hide _ _ =>
      obtain rfl : c = '[' := (List.cons.inj ht).1
      exact absurd List.mem_cons_self hw

theorem marker_length : "[REDACTED]".toList.length = 10 := by decide

/-- No credential begins in a marker. -/
theorem find_marker {M : Matcher Char} (hM : ∀ {s w}, M.find s = some w → IsCredential w)
    {a b : Str} {c : Char} (h : "[REDACTED]".toList = a ++ c :: b) (t : Str) :
    M.find (c :: (b ++ t)) = none := by
  refine Option.eq_none_iff_forall_ne_some.mpr fun w hw => ?_
  have hcred := hM hw
  have hlen := hcred.length_le
  have hmark := congrArg List.length h
  rw [marker_length, List.length_append, List.length_cons] at hmark
  -- the match takes in the bracket at the end of the marker
  have hclose : ']' ∈ c :: b := by
    have hlast : (c :: b).getLast? = some ']' := by
      have hsplit := congrArg List.getLast? h
      rw [List.getLast?_append_of_ne_nil _ (List.cons_ne_nil c b)] at hsplit
      rw [← hsplit]
      decide
    exact List.mem_of_getLast? hlast
  have hpre : c :: b <+: w := by
    refine List.prefix_of_prefix_length_le ⟨t, rfl⟩ (M.isPrefix hw) ?_
    rw [List.length_cons]
    omega
  exact hcred.not_bracket (.inr rfl) (hpre.subset hclose)

/-- A further substitution of credentials. -/
theorem Replaced.sub {M : Matcher Char} (hM : ∀ {s w}, M.find s = some w → IsCredential w)
    {s t : Str} (h : Replaced s t) : Replaced s (sub M id "[REDACTED]".toList 0 t) := by
  induction hn : t.length using Nat.strong_induction_on generalizing s t with
  | _ n ih =>
    subst hn
    cases h with
    | nil => exact .nil
    | hide hw hrest =>
      rename_i w s t
      have hmark : Substitution.sub M id "[REDACTED]".toList 0 ("[REDACTED]".toList ++ t) =
          "[REDACTED]".toList ++ Substitution.sub M id "[REDACTED]".toList 0 t :=
        sub_inert fun a x b hab => by
          rw [List.map_id]
          exact find_marker hM hab t
      have hlt : t.length < ("[REDACTED]".toList ++ t).length := by
        rw [List.length_append, marker_length]
        omega
      rw [hmark]
      exact .hide hw (ih t.length hlt hrest rfl)
    | keep c hrest =>
      rename_i s t
      cases hfind : M.find (c :: t) with
      | none =>
        rw [sub_none (by rwa [List.map_id])]
        exact .keep c (ih t.length (by simp) hrest rfl)
      | some w =>
        obtain ⟨r, hr⟩ := M.isPrefix hfind
        have hcred := hM hfind
        have hword : Substitution.sub M id "[REDACTED]".toList 0 (w ++ r) =
            "[REDACTED]".toList ++ Substitution.sub M id "[REDACTED]".toList 0 r :=
          sub_word (by rw [List.map_id, List.map_id, hr, hfind])
        have hall : Replaced (c :: s) (w ++ r) := hr ▸ .keep c hrest
        obtain ⟨s', hs', hlater⟩ := hall.word (hcred.not_bracket (.inl rfl))
        have hlt : r.length < (c :: t).length := by
          have hlen := hcred.length_le
          rw [← hr, List.length_append]
          omega
        rw [← hr, hword, hs']
        exact .hide hcred (ih r.length hlt hlater rfl)

/-- A string of a stored payload is the original one with credentials replaced. -/
theorem replaced_scrubLiteral (s : Str) : Replaced s (scrubLiteral s) := by
  have hopenai : Replaced s (substitute openaiKey s) :=
    (Replaced.refl s).sub fun h => .inl (finds_openai.find_iff.mp h).1
  have haws : Replaced s (keysHidden s) :=
    hopenai.sub fun h => .inr (.inl (finds_aws.find_iff.mp h).1)
  exact haws.sub fun h => .inr (.inr (literalAssignment_word h).1)

theorem Replaced.eq_of_clean {s t : Str} (h : Replaced s t) (hs : Clean s) : t = s := by
  induction h with
  | nil => rfl
  | keep c _ ih => rw [ih (hs.inside (List.infix_cons (List.infix_refl _)))]
  | hide hw _ _ => exact absurd (List.prefix_append ..).isInfix (clean_iff.mp hs _ hw)

end AegisCode.Redactor
