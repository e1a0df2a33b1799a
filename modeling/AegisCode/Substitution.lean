import Mathlib.Tactic
import Mathlib.Data.List.TakeWhile

/-!
# Substituting matches from left to right

A matcher finds the match at the front of a text, if there is one, and `sub`
puts a marker in place of every match that a scan from the left meets. The scan
runs over items that carry a letter each, so that a text whose letters are
labelled with where they come from is scanned like the text itself.
-/
namespace AegisCode.Substitution

/-- A matcher: the match it finds is a nonempty beginning of the text. -/
structure Matcher (Γ : Type) where
  find : List Γ → Option (List Γ)
  isPrefix : ∀ {s w : List Γ}, find s = some w → w <+: s
  ne_nil : ∀ {s w : List Γ}, find s = some w → w ≠ []

variable {α β Γ : Type} (M : Matcher Γ)

/-- The scan, with `k` items of a match still to be dropped. -/
def sub (f : α → Γ) (marker : List α) : ℕ → List α → List α
  | _, [] => []
  | k + 1, _ :: xs => sub f marker k xs
  | 0, x :: xs =>
      match M.find ((x :: xs).map f) with
      | some w => marker ++ sub f marker (w.length - 1) xs
      | none => x :: sub f marker 0 xs

/-- Where the matches begin and end, for a scan that is at index `i`. -/
def spans : ℕ → ℕ → List Γ → List (ℕ × ℕ)
  | _, _, [] => []
  | k + 1, i, _ :: s => spans k (i + 1) s
  | 0, i, c :: s =>
      match M.find (c :: s) with
      | some w => (i, i + w.length) :: spans (w.length - 1) (i + 1) s
      | none => spans 0 (i + 1) s

/-- A text behind which every match ends as at the end of the text. -/
def Stops (r : List Γ) : Prop := ∀ s, M.find (s ++ r) = M.find s

variable {M}

theorem Matcher.find_nil : M.find [] = none := by
  cases h : M.find [] with
  | none => rfl
  | some w => exact absurd (List.prefix_nil.mp (M.isPrefix h)) (M.ne_nil h)

theorem Matcher.length_le {s w : List Γ} (h : M.find s = some w) :
    0 < w.length ∧ w.length ≤ s.length :=
  ⟨List.length_pos_of_ne_nil (M.ne_nil h), (M.isPrefix h).length_le⟩

/-- No match begins where none begins with a single letter in front of the rest. -/
theorem Stops.find_eq_none {r : List Γ} (h : Stops M r) : M.find r = none := by
  have hnil := h []
  rwa [List.nil_append, Matcher.find_nil] at hnil

section Scan
variable {f : α → Γ} {marker : List α}

theorem sub_some {x : α} {xs : List α} {w : List Γ} (h : M.find ((x :: xs).map f) = some w) :
    sub M f marker 0 (x :: xs) = marker ++ sub M f marker (w.length - 1) xs := by
  rw [sub, h]

theorem sub_none {x : α} {xs : List α} (h : M.find ((x :: xs).map f) = none) :
    sub M f marker 0 (x :: xs) = x :: sub M f marker 0 xs := by
  rw [sub, h]

theorem sub_keep {x : α} (h : ∀ s, M.find (f x :: s) = none) (xs : List α) :
    sub M f marker 0 (x :: xs) = x :: sub M f marker 0 xs := sub_none (h _)

/-- Forgetting what the items carry besides their letters. -/
theorem map_sub (g : β → α) (mark : List β) (k : ℕ) (ys : List β) :
    (sub M (f ∘ g) mark k ys).map g = sub M f (mark.map g) k (ys.map g) := by
  induction ys generalizing k with
  | nil => cases k <;> rfl
  | cons y ys ih =>
    cases k with
    | succ k => exact ih k
    | zero =>
      have hletters : (y :: ys).map (f ∘ g) = (g y :: ys.map g).map f := by simp
      cases h : M.find ((y :: ys).map (f ∘ g)) with
      | some w =>
        rw [sub_some h, List.map_append, ih, List.map_cons, sub_some (hletters ▸ h)]
      | none =>
        rw [sub_none h, List.map_cons, ih, List.map_cons, sub_none (hletters ▸ h)]

theorem mem_of_mem_sub {y : α} {xs : List α} :
    ∀ {k : ℕ}, y ∈ sub M f marker k xs → y ∈ marker ∨ y ∈ xs := by
  induction xs with
  | nil =>
    intro k h
    cases k <;> exact absurd h List.not_mem_nil
  | cons x xs ih =>
    intro k h
    cases k with
    | succ k => exact (ih h).imp_right (List.mem_cons_of_mem x)
    | zero =>
      cases hfind : M.find ((x :: xs).map f) with
      | some w =>
        rw [sub_some hfind] at h
        obtain h | h := List.mem_append.mp h
        · exact .inl h
        · exact (ih h).imp_right (List.mem_cons_of_mem x)
      | none =>
        rw [sub_none hfind] at h
        obtain rfl | h := List.mem_cons.mp h
        · exact .inr List.mem_cons_self
        · exact (ih h).imp_right (List.mem_cons_of_mem x)

theorem sub_skip (xs ys : List α) :
    sub M f marker xs.length (xs ++ ys) = sub M f marker 0 ys := by
  induction xs with
  | nil => rfl
  | cons x xs ih => exact ih

/-- A match at the front of a text is replaced. -/
theorem sub_word {w ys : List α} (h : M.find ((w ++ ys).map f) = some (w.map f)) :
    sub M f marker 0 (w ++ ys) = marker ++ sub M f marker 0 ys := by
  cases w with
  | nil => exact absurd rfl (M.ne_nil h)
  | cons x w =>
    calc sub M f marker 0 (x :: (w ++ ys))
        = marker ++ sub M f marker (((x :: w).map f).length - 1) (w ++ ys) := sub_some h
      _ = marker ++ sub M f marker 0 ys := by
        rw [List.length_map, List.length_cons, Nat.add_sub_cancel, sub_skip]

/-- A text is scanned by itself, with a matcher that knows what is behind it. -/
theorem sub_append_of {N : Matcher Γ} {ys : List α} (hfind : ∀ s, M.find (s ++ ys.map f) = N.find s)
    {k : ℕ} {xs : List α} (hk : k ≤ xs.length) :
    sub M f marker k (xs ++ ys) = sub N f marker k xs ++ sub M f marker 0 ys := by
  induction xs generalizing k with
  | nil =>
    obtain rfl : k = 0 := by simpa using hk
    rfl
  | cons x xs ih =>
    cases k with
    | succ k => exact ih (by simpa using hk)
    | zero =>
      have hword : M.find ((x :: (xs ++ ys)).map f) = N.find ((x :: xs).map f) := by
        rw [← List.cons_append, List.map_append, hfind]
      cases h : N.find ((x :: xs).map f) with
      | some w =>
        have hlen := (Matcher.length_le h).2
        rw [List.length_map, List.length_cons] at hlen
        rw [List.cons_append, sub_some (hword.trans h), sub_some h, ih (by omega),
          List.append_assoc]
      | none =>
        rw [List.cons_append, sub_none (hword.trans h), sub_none h, ih (Nat.zero_le _),
          List.cons_append]

/-- A text that stops every match is scanned by itself. -/
theorem sub_append {ys : List α} (hstop : Stops M (ys.map f)) {k : ℕ} {xs : List α}
    (hk : k ≤ xs.length) :
    sub M f marker k (xs ++ ys) = sub M f marker k xs ++ sub M f marker 0 ys :=
  sub_append_of hstop hk

/-- Letters at which no match begins are kept. -/
theorem sub_inert {xs ys : List α}
    (h : ∀ a x b, xs = a ++ x :: b → M.find ((x :: (b ++ ys)).map f) = none) :
    sub M f marker 0 (xs ++ ys) = xs ++ sub M f marker 0 ys := by
  induction xs with
  | nil => rfl
  | cons x xs ih =>
    have hx := h [] x xs rfl
    rw [List.cons_append, sub_none hx, ih fun a y b hab => h (x :: a) y b (by rw [hab]; rfl),
      List.cons_append]

end Scan

/-! ## Spans -/

theorem spans_some {i : ℕ} {c : Γ} {s w : List Γ} (h : M.find (c :: s) = some w) :
    spans M 0 i (c :: s) = (i, i + w.length) :: spans M (w.length - 1) (i + 1) s := by
  rw [spans, h]

theorem spans_none {i : ℕ} {c : Γ} {s : List Γ} (h : M.find (c :: s) = none) :
    spans M 0 i (c :: s) = spans M 0 (i + 1) s := by
  rw [spans, h]

theorem le_of_mem_spans {s : List Γ} : ∀ {k i : ℕ} {p : ℕ × ℕ}, p ∈ spans M k i s → i + k ≤ p.1 := by
  induction s with
  | nil =>
    intro k i p h
    cases k <;> exact absurd h List.not_mem_nil
  | cons c s ih =>
    intro k i p h
    cases k with
    | succ k =>
      have := ih h
      omega
    | zero =>
      cases hfind : M.find (c :: s) with
      | some w =>
        rw [spans_some hfind] at h
        obtain rfl | h := List.mem_cons.mp h
        · exact le_rfl
        · have := ih h
          omega
      | none =>
        rw [spans_none hfind] at h
        have := ih h
        omega

/-- A span is where a match stands. -/
theorem word_of_mem_spans {s : List Γ} : ∀ {k i : ℕ} {p : ℕ × ℕ}, p ∈ spans M k i s →
    ∃ a w b, s = a ++ (w ++ b) ∧ M.find (w ++ b) = some w ∧
      p = (i + a.length, i + a.length + w.length) := by
  induction s with
  | nil =>
    intro k i p h
    cases k <;> exact absurd h List.not_mem_nil
  | cons c s ih =>
    have hcons : ∀ {k i : ℕ} {p : ℕ × ℕ}, p ∈ spans M k (i + 1) s → ∃ a w b,
        c :: s = a ++ (w ++ b) ∧ M.find (w ++ b) = some w ∧
          p = (i + a.length, i + a.length + w.length) := by
      intro k i p h
      obtain ⟨a, w, b, rfl, hw, rfl⟩ := ih h
      exact ⟨c :: a, w, b, rfl, hw, by simp; omega⟩
    intro k i p h
    cases k with
    | succ k => exact hcons h
    | zero =>
      cases hfind : M.find (c :: s) with
      | some w =>
        rw [spans_some hfind] at h
        obtain rfl | h := List.mem_cons.mp h
        · obtain ⟨b, hb⟩ := M.isPrefix hfind
          exact ⟨[], w, b, hb.symm, by rw [hb, hfind], rfl⟩
        · exact hcons h
      | none =>
        rw [spans_none hfind] at h
        exact hcons h

/-- What a scan keeps of a text lies outside of all matches. -/
theorem mem_sub {f : α → Γ} {marker : List α} {y : α} (hy : y ∉ marker) {xs : List α} :
    ∀ {k i : ℕ}, y ∈ sub M f marker k xs → ∃ r, xs[r]? = some y ∧ k ≤ r ∧
      ∀ p ∈ spans M k i (xs.map f), ¬ (p.1 ≤ i + r ∧ i + r < p.2) := by
  induction xs with
  | nil =>
    intro k i h
    cases k <;> exact absurd h List.not_mem_nil
  | cons x xs ih =>
    intro k i h
    cases k with
    | succ k =>
      obtain ⟨r, hr, hk, hout⟩ := ih (i := i + 1) h
      refine ⟨r + 1, hr, by omega, fun p hp => ?_⟩
      have := hout p hp
      omega
    | zero =>
      cases hfind : M.find ((x :: xs).map f) with
      | some w =>
        rw [sub_some hfind] at h
        obtain ⟨r, hr, hk, hout⟩ := ih (i := i + 1) ((List.mem_append.mp h).resolve_left hy)
        refine ⟨r + 1, hr, by omega, fun p hp => ?_⟩
        rw [List.map_cons] at hp hfind
        rw [spans_some hfind] at hp
        obtain rfl | hp := List.mem_cons.mp hp
        · dsimp only
          omega
        · have := hout p hp
          omega
      | none =>
        rw [sub_none hfind] at h
        rw [List.map_cons] at hfind
        obtain rfl | h := List.mem_cons.mp h
        · refine ⟨0, rfl, le_rfl, fun p hp => ?_⟩
          rw [List.map_cons, spans_none hfind] at hp
          have := le_of_mem_spans hp
          omega
        · obtain ⟨r, hr, hk, hout⟩ := ih (i := i + 1) h
          refine ⟨r + 1, hr, by omega, fun p hp => ?_⟩
          rw [List.map_cons, spans_none hfind] at hp
          have := hout p hp
          omega

/-- The scan drops or keeps items, and adds nothing but markers. -/
theorem sub_sublist {f : α → Γ} {marker : List α} {q : α → Bool} (hm : ∀ x ∈ marker, q x = false)
    (xs : List α) : ∀ k, ((sub M f marker k xs).filter q).Sublist (xs.filter q) := by
  have hmark : marker.filter q = [] := List.filter_eq_nil_iff.mpr fun x hx => by simp [hm x hx]
  induction xs with
  | nil =>
    intro k
    cases k <;> exact List.Sublist.refl _
  | cons x xs ih =>
    intro k
    cases k with
    | succ k => exact (ih k).trans ((List.sublist_cons_self x xs).filter q)
    | zero =>
      cases hfind : M.find ((x :: xs).map f) with
      | some w =>
        rw [sub_some hfind, List.filter_append, hmark, List.nil_append]
        exact (ih _).trans ((List.sublist_cons_self x xs).filter q)
      | none =>
        rw [sub_none hfind, List.filter_cons, List.filter_cons]
        split
        · exact (ih 0).cons_cons x
        · exact ih 0

/-- Items at which no match begins, and which no match contains, are kept. -/
theorem mem_sub_of_unmatched {f : α → Γ} {marker : List α} {y : α}
    (hy : ∀ {s w : List Γ}, M.find s = some w → f y ∉ w) {xs : List α} :
    ∀ {k : ℕ}, y ∈ xs.drop k → y ∈ sub M f marker k xs := by
  induction xs with
  | nil =>
    intro k h
    simp at h
  | cons x xs ih =>
    intro k h
    cases k with
    | succ k => exact ih (by simpa using h)
    | zero =>
      cases hfind : M.find ((x :: xs).map f) with
      | none =>
        rw [sub_none hfind]
        obtain rfl | h := List.mem_cons.mp h
        · exact List.mem_cons_self
        · exact List.mem_cons_of_mem x (ih h)
      | some w =>
        rw [sub_some hfind]
        have hpos := (Matcher.length_le hfind).1
        have hw : w = ((x :: xs).take w.length).map f := by
          rw [List.map_take]
          exact List.prefix_iff_eq_take.mp (M.isPrefix hfind)
        have hrest : y ∈ (x :: xs).drop w.length := by
          have hsplit := (List.take_append_drop w.length (x :: xs)).symm ▸ h
          refine (List.mem_append.mp hsplit).resolve_left fun hin => hy hfind ?_
          rw [hw]
          exact List.mem_map_of_mem hin
        obtain ⟨n, hn⟩ := Nat.exists_eq_succ_of_ne_zero (by omega : w.length ≠ 0)
        rw [hn] at hrest ⊢
        exact List.mem_append_right _ (ih hrest)

/-! ## Occurrences

A marker between two letters that a word does not have keeps what is on its two
sides apart, so a word in the scanned text was in the text before. -/

/-- Whether a match begins somewhere in the text. -/
def search (M : Matcher Γ) (s : List Γ) : Bool := s.tails.any fun t => (M.find t).isSome

theorem search_iff {s : List Γ} : search M s = true ↔ ∃ t, t <:+ s ∧ ∃ w, M.find t = some w := by
  simp only [search, List.any_eq_true, List.mem_tails, Option.isSome_iff_exists]

theorem infix_of_not_mem {d : Γ} {w a b : List Γ} (hd : d ∉ w) (h : w <:+: a ++ d :: b) :
    w <:+: a ∨ w <:+: b := by
  obtain ⟨u, v, huv⟩ := h
  rw [List.append_assoc] at huv
  obtain ⟨z, rfl, hz⟩ | ⟨z, rfl, hz⟩ := List.append_eq_append_iff.mp huv
  · obtain ⟨y, rfl, -⟩ | ⟨y, rfl, hy⟩ := List.append_eq_append_iff.mp hz
    · exact .inl ⟨u, y, by simp⟩
    · cases y with
      | nil => exact .inl ⟨u, [], by simp⟩
      | cons e y =>
        obtain rfl : d = e := (List.cons.inj hy).1
        exact absurd (by simp) hd
  · cases z with
    | nil =>
      cases w with
      | nil => exact .inr (List.nil_infix ..)
      | cons e w =>
        obtain rfl : d = e := (List.cons.inj hz).1
        exact absurd List.mem_cons_self hd
    | cons e z =>
      obtain ⟨-, rfl⟩ := List.cons.inj hz
      exact .inr ⟨z, v, by simp⟩

section Marker
variable {first last : Γ} {inside w : List Γ}

/-- A word at the front of a scanned text stands at the front of the text. -/
theorem prefix_of_prefix_sub (hw : w ≠ []) (hfirst : first ∉ w) {marker xs : List Γ}
    (h : w <+: sub M id (first :: marker) 0 xs) : w <+: xs ∧ M.find xs = none := by
  induction xs generalizing w with
  | nil => exact absurd (List.prefix_nil.mp h) hw
  | cons x xs ih =>
    obtain ⟨c, w, rfl⟩ := List.exists_cons_of_ne_nil hw
    cases hfind : M.find (x :: xs) with
    | some v =>
      rw [sub_some (by rwa [List.map_id]), List.cons_append, List.cons_prefix_cons] at h
      exact absurd (by rw [h.1]; exact List.mem_cons_self) hfirst
    | none =>
      rw [sub_none (by rwa [List.map_id]), List.cons_prefix_cons] at h
      refine ⟨List.cons_prefix_cons.mpr ⟨h.1, ?_⟩, rfl⟩
      by_cases hnil : w = []
      · rw [hnil]
        exact List.nil_prefix
      · exact (ih hnil (fun hin => hfirst (List.mem_cons_of_mem c hin)) h.2).1

/-- A word of a scanned text stands in the text, where no match begins with it. -/
theorem infix_of_infix_sub (hw : w ≠ []) (hfirst : first ∉ w) (hlast : last ∉ w)
    (hinside : ¬ w <:+: inside) {xs : List Γ} : ∀ {k : ℕ},
      w <:+: sub M id (first :: (inside ++ [last])) k xs →
      ∃ t, w <+: t ∧ t <:+ xs ∧ M.find t = none := by
  induction xs with
  | nil =>
    intro k h
    have hnil : sub M id (first :: (inside ++ [last])) k [] = [] := by cases k <;> rfl
    rw [hnil] at h
    exact absurd (List.infix_nil.mp h) hw
  | cons x xs ih =>
    have hlater : (∃ t, w <+: t ∧ t <:+ xs ∧ M.find t = none) →
        ∃ t, w <+: t ∧ t <:+ x :: xs ∧ M.find t = none := by
      rintro ⟨t, hpre, hsuf, hnone⟩
      exact ⟨t, hpre, hsuf.trans (List.suffix_cons x xs), hnone⟩
    intro k h
    cases k with
    | succ k => exact hlater (ih h)
    | zero =>
      cases hfind : M.find (x :: xs) with
      | some v =>
        rw [sub_some (by rwa [List.map_id])] at h
        have hmark : w <:+: [] ++ first ::
            (inside ++ last :: sub M id (first :: (inside ++ [last])) (v.length - 1) xs) := by
          simpa using h
        obtain hnil | h := infix_of_not_mem hfirst hmark
        · exact absurd (List.infix_nil.mp hnil) hw
        · obtain hin | h := infix_of_not_mem hlast h
          · exact absurd hin hinside
          · exact hlater (ih h)
      | none =>
        rw [sub_none (by rwa [List.map_id])] at h
        obtain hpre | h := List.infix_cons_iff.mp h
        · have hscan : sub M id (first :: (inside ++ [last])) 0 (x :: xs) =
              x :: sub M id (first :: (inside ++ [last])) 0 xs := sub_none (by rwa [List.map_id])
          rw [← hscan] at hpre
          exact ⟨x :: xs, (prefix_of_prefix_sub hw hfirst hpre).1, List.suffix_refl _, hfind⟩
        · exact hlater (ih h)

end Marker

theorem sub_nil_sublist (k : ℕ) (xs : List Γ) : (sub M id [] k xs).Sublist xs := by
  have h : ((sub M id [] k xs).filter fun _ => true).Sublist (xs.filter fun _ => true) :=
    sub_sublist (by simp) xs k
  simpa using h

/-- Deleting the matches changes a text if and only if there is one. -/
theorem sub_nil_eq_iff {xs : List Γ} : sub M id [] 0 xs = xs ↔ search M xs = false := by
  rw [← Bool.not_eq_true, search_iff]
  induction xs with
  | nil =>
    have hnil : sub M id [] 0 [] = [] := rfl
    simp [hnil, Matcher.find_nil]
  | cons x xs ih =>
    cases hfind : M.find (x :: xs) with
    | some w =>
      have hlen := (sub_nil_sublist (M := M) (w.length - 1) xs).length_le
      constructor
      · intro h
        rw [sub_some (by rwa [List.map_id]), List.nil_append] at h
        rw [h, List.length_cons] at hlen
        omega
      · intro h
        exact absurd ⟨x :: xs, List.suffix_refl _, w, hfind⟩ h
    | none =>
      rw [sub_none (by rwa [List.map_id]), List.cons.injEq]
      simp [List.suffix_cons_iff, hfind, ih]

/-! ## Matchers of a language -/

/-- The matches are the words of `L` behind which no letter of `P` stands; a
word with letters of `P` behind it is a longer word. -/
structure Finds (M : Matcher Γ) (L : List Γ → Prop) (P : Γ → Bool) : Prop where
  find_iff : ∀ {s w : List Γ},
    M.find s = some w ↔ L w ∧ ∃ r, s = w ++ r ∧ ∀ c ∈ r.head?, P c = false
  extend : ∀ {w z : List Γ}, L w → (∀ c ∈ z, P c = true) → L (w ++ z)

variable {L : List Γ → Prop} {P : Γ → Bool}

/-- A text stops the matches if no word reaches into it and it lengthens none. -/
theorem Finds.stops (hM : Finds M L P) {r : List Γ} (hr : ∀ c ∈ r.head?, P c = false)
    (hin : ∀ a z, L (a ++ z) → z <+: r → z = []) : Stops M r := by
  intro s
  refine Option.ext fun w => ?_
  rw [hM.find_iff, hM.find_iff]
  constructor
  · rintro ⟨hw, t, hsplit, ht⟩
    refine ⟨hw, ?_⟩
    obtain ⟨z, rfl, hz⟩ | ⟨z, rfl, rfl⟩ := List.append_eq_append_iff.mp hsplit
    · obtain rfl := hin s z hw ⟨t, hz.symm⟩
      exact ⟨[], by simp, by simp⟩
    · refine ⟨z, rfl, fun c hc => ht c ?_⟩
      cases z with
      | nil => simp at hc
      | cons d z => exact hc
  · rintro ⟨hw, t, rfl, ht⟩
    refine ⟨hw, t ++ r, List.append_assoc .., fun c hc => ?_⟩
    cases t with
    | nil => exact hr c hc
    | cons d t => exact ht c hc

/-- The match at a word is the longest one. -/
theorem Finds.find_word (hM : Finds M L P) {w : List Γ} (hw : L w) (r : List Γ) :
    M.find (w ++ r) = some (w ++ r.takeWhile P) := by
  refine hM.find_iff.mpr ⟨hM.extend hw fun c hc => List.mem_takeWhile_imp hc, r.dropWhile P, ?_, ?_⟩
  · rw [List.append_assoc, List.takeWhile_append_dropWhile]
  · intro c hc
    have hnot := List.head?_dropWhile_not P r
    rw [Option.mem_def.mp hc] at hnot
    simpa using hnot

/-- A match begins where a word stands. -/
theorem Finds.search_iff (hM : Finds M L P) {s : List Γ} :
    search M s = true ↔ ∃ w, L w ∧ w <:+: s := by
  rw [Substitution.search_iff]
  constructor
  · rintro ⟨t, hsuf, w, hw⟩
    exact ⟨w, (hM.find_iff.mp hw).1, (M.isPrefix hw).isInfix.trans hsuf.isInfix⟩
  · rintro ⟨w, hw, u, v, rfl⟩
    exact ⟨w ++ v, ⟨u, by simp⟩, _, hM.find_word hw v⟩

/-- The words of a language that a marker keeps apart from what is around it. -/
structure Shielded (L : List Γ → Prop) (first : Γ) (inside : List Γ) (last : Γ) : Prop where
  first_not_mem : ∀ {w}, L w → first ∉ w
  last_not_mem : ∀ {w}, L w → last ∉ w
  not_infix : ∀ {w}, L w → ¬ w <:+: inside

section Shielded
variable {first last : Γ} {inside : List Γ}

/-- A substitution leaves none of its own words. -/
theorem Finds.clean_sub (hM : Finds M L P) (hS : Shielded L first inside last) (xs : List Γ) :
    ∀ w, L w → ¬ w <:+: sub M id (first :: (inside ++ [last])) 0 xs := by
  intro w hw hin
  have hne : w ≠ [] := by
    rintro rfl
    exact hS.not_infix hw (List.nil_infix ..)
  obtain ⟨t, ⟨r, rfl⟩, -, hnone⟩ := infix_of_infix_sub hne (hS.first_not_mem hw)
    (hS.last_not_mem hw) (hS.not_infix hw) hin
  rw [hM.find_word hw r] at hnone
  exact Option.some_ne_none _ hnone

/-- A substitution makes no word of another language. -/
theorem Shielded.clean_sub {K : List Γ → Prop} (hS : Shielded K first inside last) {xs : List Γ}
    (hclean : ∀ w, K w → ¬ w <:+: xs) :
    ∀ w, K w → ¬ w <:+: sub M id (first :: (inside ++ [last])) 0 xs := by
  intro w hw hin
  have hne : w ≠ [] := by
    rintro rfl
    exact hclean [] hw (List.nil_infix ..)
  obtain ⟨t, hpre, hsuf, -⟩ := infix_of_infix_sub hne (hS.first_not_mem hw)
    (hS.last_not_mem hw) (hS.not_infix hw) hin
  exact hclean w hw (hpre.isInfix.trans hsuf.isInfix)

end Shielded

/-- A text without a word is not changed. -/
theorem Finds.sub_of_clean (hM : Finds M L P) {xs : List Γ} (hclean : ∀ w, L w → ¬ w <:+: xs)
    (marker : List Γ) : sub M id marker 0 xs = xs := by
  have hkeep : sub M id marker 0 (xs ++ []) = xs ++ sub M id marker 0 [] := by
    apply sub_inert
    intro a x b hab
    rw [List.append_nil, List.map_id]
    refine Option.eq_none_iff_forall_ne_some.mpr fun w hw => ?_
    refine hclean w (hM.find_iff.mp hw).1 ((M.isPrefix hw).isInfix.trans ?_)
    exact ⟨a, [], by rw [hab, List.append_nil]⟩
  rwa [List.append_nil, sub, List.append_nil] at hkeep

/-- No match begins with a letter that begins no word. -/
theorem Finds.find_eq_none (hM : Finds M L P) {c : Γ} (hc : ∀ w, ¬ L (c :: w)) (s : List Γ) :
    M.find (c :: s) = none := by
  refine Option.eq_none_iff_forall_ne_some.mpr fun w h => ?_
  obtain ⟨hw, r, hsplit, _⟩ := hM.find_iff.mp h
  cases w with
  | nil => exact M.ne_nil h rfl
  | cons d w =>
    obtain rfl := (List.cons.inj hsplit).1
    exact hc w hw

/-! ## Encoded texts

Every letter is written as one or more letters by `enc`; the plain ones stand
for themselves, and the codes of the others begin with the letter `esc`. -/

structure Escaping (enc : Γ → List Γ) (esc : Γ) : Prop where
  code : ∀ {c : Γ}, enc c ≠ [c] → ∃ t, enc c = esc :: t
  coded : enc esc ≠ [esc]

theorem flatMap_plain {enc : Γ → List Γ} {w : List Γ} (h : ∀ d ∈ w, enc d = [d]) :
    w.flatMap enc = w := by
  induction w with
  | nil => rfl
  | cons d w ih =>
    rw [List.flatMap_cons, h d List.mem_cons_self, ih fun e he => h e (List.mem_cons_of_mem d he),
      List.singleton_append]

section Escaped
variable {enc : Γ → List Γ} {esc : Γ}

/-- What is written without the escape letter is written as it stands. -/
theorem Escaping.split (hE : Escaping enc esc) {w r : List Γ} (hw : esc ∉ w) :
    ∀ {s : List Γ}, s.flatMap enc = w ++ r →
      ∃ t, s = w ++ t ∧ r = t.flatMap enc ∧ ∀ d ∈ w, enc d = [d] := by
  induction w with
  | nil => exact fun {s} h => ⟨s, rfl, h.symm, by simp⟩
  | cons d w ih =>
    intro s h
    cases s with
    | nil => simp at h
    | cons c s =>
      by_cases hc : enc c = [c]
      · rw [List.flatMap_cons, hc, List.singleton_append, List.cons_append] at h
        obtain ⟨rfl, hrest⟩ := List.cons.inj h
        obtain ⟨t, rfl, hr, hplain⟩ := ih (fun hin => hw (List.mem_cons_of_mem c hin)) hrest
        refine ⟨t, rfl, hr, fun e he => ?_⟩
        obtain rfl | he := List.mem_cons.mp he
        · exact hc
        · exact hplain e he
      · obtain ⟨t, ht⟩ := hE.code hc
        rw [List.flatMap_cons, ht, List.cons_append, List.cons_append] at h
        obtain rfl : esc = d := (List.cons.inj h).1
        exact absurd List.mem_cons_self hw

/-- An encoded text begins with `esc` or with a plain letter. -/
theorem Escaping.head (hE : Escaping enc esc) {s : List Γ} {c : Γ}
    (h : c ∈ (s.flatMap enc).head?) : c = esc ∨ enc c = [c] ∧ c ∈ s.head? := by
  cases s with
  | nil => simp at h
  | cons d s =>
    by_cases hd : enc d = [d]
    · rw [List.flatMap_cons, hd] at h
      obtain rfl : d = c := by simpa using h
      exact .inr ⟨hd, rfl⟩
    · obtain ⟨t, ht⟩ := hE.code hd
      rw [List.flatMap_cons, ht] at h
      exact .inl (by simpa using h.symm)

/-- A match of an encoded text is the beginning of a match of the text. -/
theorem Finds.find_of_enc (hM : Finds M L P) (hE : Escaping enc esc) (hesc : ∀ w, L w → esc ∉ w)
    {s w : List Γ} (h : M.find (s.flatMap enc) = some w) :
    (∀ d ∈ w, enc d = [d]) ∧ ∃ z, M.find s = some (w ++ z) := by
  obtain ⟨hw, r, hsplit, _⟩ := hM.find_iff.mp h
  obtain ⟨t, rfl, _, hplain⟩ := hE.split (hesc w hw) hsplit
  exact ⟨hplain, t.takeWhile P, hM.find_word hw t⟩

/-- A match that is written as it stands is found in the encoded text. -/
theorem Finds.enc_of_find (hM : Finds M L P) (hE : Escaping enc esc) (hP : P esc = false)
    {s w : List Γ} (h : M.find s = some w) (hw : ∀ d ∈ w, enc d = [d]) :
    M.find (s.flatMap enc) = some w := by
  obtain ⟨hL, r, rfl, hr⟩ := hM.find_iff.mp h
  refine hM.find_iff.mpr ⟨hL, r.flatMap enc, ?_, fun c hc => ?_⟩
  · rw [List.flatMap_append, flatMap_plain hw]
  · obtain rfl | ⟨_, hc⟩ := hE.head hc
    · exact hP
    · exact hr c hc

end Escaped

/-- The matcher finds the same in a text and in its encoding. -/
structure Transparent (M : Matcher Γ) (enc : Γ → List Γ) : Prop where
  find_enc : ∀ {c : Γ} {s w : List Γ}, enc c = [c] → M.find (c :: s) = some w →
    (∀ d ∈ w, enc d = [d]) ∧ M.find ((c :: s).flatMap enc) = some w
  find_enc_none : ∀ {c : Γ} {s : List Γ}, enc c = [c] → M.find (c :: s) = none →
    M.find ((c :: s).flatMap enc) = none
  find_coded : ∀ {c : Γ} {s : List Γ}, enc c ≠ [c] → M.find (c :: s) = none
  inert : ∀ {c d : Γ} {a b : List Γ}, enc c ≠ [c] → enc c = a ++ d :: b →
    ∀ t, M.find (d :: (b ++ t)) = none

/-- A matcher of plain words only. -/
theorem Finds.transparent {enc : Γ → List Γ} {esc : Γ} (hM : Finds M L P) (hE : Escaping enc esc)
    (hplain : ∀ w, L w → ∀ d ∈ w, enc d = [d]) (hP : P esc = false)
    (hinert : ∀ {c d : Γ}, enc c ≠ [c] → d ∈ enc c → ∀ w, ¬ L (d :: w)) : Transparent M enc where
  find_enc := fun _ h =>
    have hw := hplain _ (hM.find_iff.mp h).1
    ⟨hw, hM.enc_of_find hE hP h hw⟩
  find_enc_none := fun {c s} _ h => by
    refine Option.eq_none_iff_forall_ne_some.mpr fun w hw => ?_
    have hesc : ∀ w, L w → esc ∉ w := fun w hw hin => hE.coded (hplain w hw esc hin)
    obtain ⟨_, z, hz⟩ := hM.find_of_enc hE hesc hw
    rw [h] at hz
    simp at hz
  find_coded := fun {c s} hc => hM.find_eq_none (fun w hw => hc (hplain _ hw c List.mem_cons_self)) s
  inert := fun {c d a b} hc hcode t => hM.find_eq_none (hinert hc (by simp [hcode])) (b ++ t)

/-- The encoding of an item: its label goes with every letter. -/
def encode (enc : Γ → List Γ) {ι : Type} (x : Γ × ι) : List (Γ × ι) :=
  (enc x.1).map fun c => (c, x.2)

theorem encode_plain {enc : Γ → List Γ} {ι : Type} {x : Γ × ι} (h : enc x.1 = [x.1]) :
    encode enc x = [x] := by
  rw [encode, h]
  rfl

theorem map_encode (enc : Γ → List Γ) {ι : Type} (xs : List (Γ × ι)) :
    (xs.flatMap (encode enc)).map Prod.fst = (xs.map Prod.fst).flatMap enc := by
  induction xs with
  | nil => rfl
  | cons x xs ih =>
    have hx : (encode enc x).map Prod.fst = enc x.1 := by
      simp [encode, Function.comp_def]
    rw [List.flatMap_cons, List.map_append, ih, hx, List.map_cons, List.flatMap_cons]

theorem flatMap_encode_plain {enc : Γ → List Γ} {ι : Type} {xs : List (Γ × ι)}
    (h : ∀ x ∈ xs, enc x.1 = [x.1]) : xs.flatMap (encode enc) = xs := by
  induction xs with
  | nil => rfl
  | cons x xs ih =>
    rw [List.flatMap_cons, encode_plain (h x List.mem_cons_self),
      ih fun y hy => h y (List.mem_cons_of_mem x hy), List.singleton_append]

/-- The letters behind the first one of a match. -/
theorem mem_of_mem_take {ι : Type} {x : Γ × ι} {xs : List (Γ × ι)} {w : List Γ}
    (h : M.find ((x :: xs).map Prod.fst) = some w) {y : Γ × ι}
    (hy : y ∈ xs.take (w.length - 1)) : y.1 ∈ w := by
  have hw : ((x :: xs).map Prod.fst).take w.length = w :=
    (List.prefix_iff_eq_take.mp (M.isPrefix h)).symm
  have hpos := (Matcher.length_le h).1
  obtain ⟨n, hn⟩ := Nat.exists_eq_succ_of_ne_zero (by omega : w.length ≠ 0)
  rw [← hw, ← List.map_take, hn, List.take_succ_cons]
  rw [hn] at hy
  exact List.mem_map_of_mem (List.mem_cons_of_mem x hy)

/-- No letter of the code of an item that is not plain begins a match. -/
theorem sub_coded {enc : Γ → List Γ} {ι : Type} {marker : List (Γ × ι)} {x : Γ × ι}
    {ys : List (Γ × ι)}
    (h : ∀ a d b, enc x.1 = a ++ d :: b → M.find (d :: (b ++ ys.map Prod.fst)) = none) :
    sub M Prod.fst marker 0 (encode enc x ++ ys) = encode enc x ++ sub M Prod.fst marker 0 ys := by
  refine sub_inert fun a y b hab => ?_
  have hcode : enc x.1 = a.map Prod.fst ++ y.1 :: b.map Prod.fst := by
    have hmap := congrArg (List.map Prod.fst) hab
    simpa [encode, Function.comp_def] using hmap
  rw [List.map_cons, List.map_append]
  exact h _ _ _ hcode

/-- An encoded text is scanned like the text itself, with a matcher that knows the code. -/
theorem sub_flatMap {N : Matcher Γ} {enc : Γ → List Γ} {marker : List Γ}
    (hfind : ∀ s, M.find (s.flatMap enc) = N.find s)
    (hplain : ∀ {s w}, N.find s = some w → ∀ c ∈ w, enc c = [c])
    (hinert : ∀ {c d : Γ} {a b : List Γ}, enc c ≠ [c] → enc c = a ++ d :: b →
      ∀ t, M.find (d :: (b ++ t)) = none)
    (hmarker : ∀ c ∈ marker, enc c = [c]) (xs : List Γ) :
    ∀ k, (∀ c ∈ xs.take k, enc c = [c]) →
      sub M id marker k (xs.flatMap enc) = (sub N id marker k xs).flatMap enc := by
  induction xs with
  | nil =>
    intro k _
    cases k <;> rfl
  | cons x xs ih =>
    intro k hk
    cases k with
    | succ k =>
      have hx : enc x = [x] := hk x (by simp)
      rw [List.flatMap_cons, hx]
      exact ih k fun c hc => hk c (by simp [hc])
    | zero =>
      have hrest := ih 0 (by simp)
      by_cases hx : enc x = [x]
      · have htext : (x :: xs).flatMap enc = x :: xs.flatMap enc := by
          rw [List.flatMap_cons, hx, List.singleton_append]
        have hletters : M.find ((x :: xs.flatMap enc).map id) = N.find ((x :: xs).map id) := by
          rw [List.map_id, List.map_id, ← htext, hfind]
        rw [htext]
        cases hword : N.find ((x :: xs).map id) with
        | some w =>
          have hskip : ∀ c ∈ xs.take (w.length - 1), enc c = [c] := by
            intro c hc
            have hcw := hplain hword c
            rw [List.map_id] at hword
            obtain ⟨r, hr⟩ := N.isPrefix hword
            cases w with
            | nil => exact absurd rfl (N.ne_nil hword)
            | cons y w =>
              obtain ⟨rfl, rfl⟩ := List.cons.inj hr
              refine hcw (List.mem_cons_of_mem y ?_)
              rw [List.length_cons, Nat.add_sub_cancel] at hc
              have htake : (w ++ r).take w.length = w := List.take_left
              exact htake ▸ hc
          rw [sub_some (hletters.trans hword), sub_some hword, ih _ hskip, List.flatMap_append,
            flatMap_plain hmarker]
        | none =>
          rw [sub_none (hletters.trans hword), sub_none hword, hrest, List.flatMap_cons, hx,
            List.singleton_append]
      · have hcode : sub M id marker 0 (enc x ++ xs.flatMap enc) =
            enc x ++ sub M id marker 0 (xs.flatMap enc) :=
          sub_inert fun a d b hab => by
            rw [List.map_id]
            exact hinert hx hab _
        have hnone : N.find ((x :: xs).map id) = none := by
          refine Option.eq_none_iff_forall_ne_some.mpr fun w hw => ?_
          rw [List.map_id] at hw
          obtain ⟨r, hr⟩ := N.isPrefix hw
          cases w with
          | nil => exact N.ne_nil hw rfl
          | cons y w =>
            obtain rfl := (List.cons.inj hr).1
            exact hx (hplain hw y List.mem_cons_self)
        rw [List.flatMap_cons, hcode, hrest, sub_none hnone, List.flatMap_cons]

/-- A transparent matcher may be run before or after the encoding. -/
theorem sub_encode {enc : Γ → List Γ} (hM : Transparent M enc) {ι : Type}
    {marker : List (Γ × ι)} (hmarker : ∀ x ∈ marker, enc x.1 = [x.1]) (xs : List (Γ × ι)) :
    ∀ k, (∀ x ∈ xs.take k, enc x.1 = [x.1]) →
      sub M Prod.fst marker k (xs.flatMap (encode enc)) =
        (sub M Prod.fst marker k xs).flatMap (encode enc) := by
  induction xs with
  | nil =>
    intro k _
    cases k <;> rfl
  | cons x xs ih =>
    intro k hk
    cases k with
    | succ k =>
      have hx : enc x.1 = [x.1] := hk x (by simp)
      rw [List.flatMap_cons, encode_plain hx]
      exact ih k fun y hy => hk y (by simp [hy])
    | zero =>
      have hrest := ih 0 (by simp)
      by_cases hx : enc x.1 = [x.1]
      · have hletters : (x :: xs.flatMap (encode enc)).map Prod.fst =
            ((x :: xs).map Prod.fst).flatMap enc := by
          rw [← map_encode, List.flatMap_cons, encode_plain hx, List.singleton_append]
        rw [List.flatMap_cons, encode_plain hx, List.singleton_append]
        cases hfind : M.find ((x :: xs).map Prod.fst) with
        | some w =>
          obtain ⟨hplain, hcoded⟩ := hM.find_enc hx hfind
          have hskip := ih (w.length - 1) fun y hy => hplain _ (mem_of_mem_take hfind hy)
          rw [sub_some (hletters ▸ hcoded), sub_some hfind, hskip, List.flatMap_append,
            flatMap_encode_plain hmarker]
        | none =>
          have hcoded := hM.find_enc_none hx hfind
          rw [sub_none (hletters ▸ hcoded), sub_none hfind, hrest, List.flatMap_cons,
            encode_plain hx, List.singleton_append]
      · have hnone : M.find ((x :: xs).map Prod.fst) = none := hM.find_coded hx
        rw [List.flatMap_cons, sub_coded fun a d b hab => hM.inert hx hab _, hrest,
          sub_none hnone, List.flatMap_cons]

end AegisCode.Substitution
