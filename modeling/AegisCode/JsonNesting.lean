import AegisCode.JsonDecoder

/-!
# Nested JSON texts

The decoder calls itself for a value inside a value, as deep as the interpreter
lets it. `readOnce` is the decoder with everything it raises, and `nestedOnce` is
how deep a text takes it: `readOnce` runs out of levels where they are fewer, and
reads as `scanOnce` everywhere else.
-/
namespace AegisCode.Json

/-- What the decoder raises: `JSONDecodeError`, the `ValueError` of `int`, and
`RecursionError` as it enters an object or an array. -/
inductive Stop where
  | malformed
  | longInteger (digits : ℕ)
  | recursion (container : Str)

/-- The outcome of a reader, given the digits of the integer at which it stops. -/
def stopped {α : Type} (read : Option α) (excess : Option ℕ) : Except Stop α :=
  match read with
  | some m => .ok m
  | none =>
      match excess with
      | some digits => .error (.longInteger digits)
      | none => .error .malformed

/-- Every array and every object takes a level of the interpreter's stack. -/
def enter {α : Type} (container : Str) (levels : ℕ) (read : ℕ → Except Stop α) : Except Stop α :=
  match levels with
  | 0 => .error (.recursion container)
  | levels + 1 => read levels

mutual
/-- The value at the front of a text, with the levels that are left. -/
def readOnce (D : Decoder) : ℕ → ℕ → Str → Except Stop (Json × Str)
  | 0, _, _ => .error .malformed
  | n + 1, levels, s =>
      match s with
      | '"' :: t => stopped ((scanString D n t).map fun (s, r) => (.str s, r)) none
      | '{' :: t => enter "object" levels fun levels =>
        match skipBlank t with
        | '}' :: r => .ok (.obj [], r)
        | t => (readMembers D n levels t).map fun (ms, r) => (.obj (dictOf ms), r)
      | '[' :: t => enter "array" levels fun levels =>
        match skipBlank t with
        | ']' :: r => .ok (.arr [], r)
        | t => (readElems D n levels t).map fun (xs, r) => (.arr xs, r)
      | s => stopped (scanAtom D s) (excessAtom s)

def readMembers (D : Decoder) : ℕ → ℕ → Str → Except Stop (List (Str × Json) × Str)
  | 0, _, _ => .error .malformed
  | n + 1, levels, s =>
      match s with
      | '"' :: t =>
        match scanString D n t with
        | none => .error .malformed
        | some (k, t) =>
          match skipBlank t with
          | ':' :: t => (readOnce D n levels (skipBlank t)).bind fun (v, t) =>
            match skipBlank t with
            | '}' :: r => .ok ([(k, v)], r)
            | ',' :: t =>
              (readMembers D n levels (skipBlank t)).map fun (ms, r) => ((k, v) :: ms, r)
            | _ => .error .malformed
          | _ => .error .malformed
      | _ => .error .malformed

def readElems (D : Decoder) : ℕ → ℕ → Str → Except Stop (List Json × Str)
  | 0, _, _ => .error .malformed
  | n + 1, levels, s => (readOnce D n levels s).bind fun (v, t) =>
        match skipBlank t with
        | ']' :: r => .ok ([v], r)
        | ',' :: t => (readElems D n levels (skipBlank t)).map fun (vs, r) => (v :: vs, r)
        | _ => .error .malformed
end

mutual
/-- The levels that the decoder enters before it is done with a text. -/
def nestedOnce (D : Decoder) : ℕ → Str → ℕ
  | 0, _ => 0
  | n + 1, s =>
      match s with
      | '{' :: t =>
        match skipBlank t with
        | '}' :: _ => 1
        | t => nestedMembers D n t + 1
      | '[' :: t =>
        match skipBlank t with
        | ']' :: _ => 1
        | t => nestedElems D n t + 1
      | _ => 0

def nestedMembers (D : Decoder) : ℕ → Str → ℕ
  | 0, _ => 0
  | n + 1, s =>
      match s with
      | '"' :: t =>
        match scanString D n t with
        | none => 0
        | some (_, t) =>
          match skipBlank t with
          | ':' :: t =>
            match scanOnce D n (skipBlank t) with
            | none => nestedOnce D n (skipBlank t)
            | some (_, u) =>
              match skipBlank u with
              | ',' :: u => max (nestedOnce D n (skipBlank t)) (nestedMembers D n (skipBlank u))
              | _ => nestedOnce D n (skipBlank t)
          | _ => 0
      | _ => 0

def nestedElems (D : Decoder) : ℕ → Str → ℕ
  | 0, _ => 0
  | n + 1, s =>
      match scanOnce D n s with
      | none => nestedOnce D n s
      | some (_, t) =>
        match skipBlank t with
        | ',' :: t => max (nestedOnce D n s) (nestedElems D n (skipBlank t))
        | _ => nestedOnce D n s
end

def rawDecodeWithin (D : Decoder) (levels : ℕ) (s : Str) : Except Stop (Json × Str) :=
  readOnce D s.length levels s

/-- The levels that `rawDecode` enters. -/
def nested (D : Decoder) (s : Str) : ℕ := nestedOnce D s.length s

def loadsWithin (D : Decoder) (levels : ℕ) (s : Str) : Except Stop Json :=
  (rawDecodeWithin D levels (skipBlank s)).bind fun (v, r) =>
    if skipBlank r = [] then .ok v else .error .malformed

variable {D : Decoder} {α β : Type}

/-! ## A reader with enough levels and without -/

@[simp] theorem stopped_some (m : α) (excess : Option ℕ) : stopped (some m) excess = .ok m := rfl

theorem stopped_map (f : α → β) (read : Option α) (excess : Option ℕ) :
    stopped (read.map f) excess = (stopped read excess).map f := by
  cases read with
  | some m => rfl
  | none => cases excess <;> rfl

/-- A reader that needs so many levels: with them it does what it does without a
limit, with fewer it runs out of them. -/
structure Needs (depth levels : ℕ) (limited free : Except Stop α) : Prop where
  enough : depth ≤ levels → limited = free
  short : levels < depth → ∃ container, limited = .error (.recursion container)

theorem Needs.zero (levels : ℕ) (read : Except Stop α) : Needs 0 levels read read :=
  ⟨fun _ => rfl, fun h => absurd h (Nat.not_lt_zero _)⟩

theorem Needs.of_eq {levels : ℕ} {limited free : Except Stop α} (h : limited = free) :
    Needs 0 levels limited free := h ▸ .zero _ _

theorem Needs.map {depth levels : ℕ} {limited free : Except Stop α}
    (h : Needs depth levels limited free) (f : α → β) :
    Needs depth levels (limited.map f) (free.map f) := by
  refine ⟨fun hle => by rw [h.enough hle], fun hlt => ?_⟩
  obtain ⟨container, heq⟩ := h.short hlt
  exact ⟨container, by rw [heq]; rfl⟩

theorem Needs.enter {depth : ℕ} {read : ℕ → Except Stop α} {free : Except Stop α}
    (h : ∀ levels, Needs depth levels (read levels) free) (container : Str) (levels : ℕ) :
    Needs (depth + 1) levels (enter container levels read) free := by
  cases levels with
  | zero => exact ⟨fun hle => by omega, fun _ => ⟨container, rfl⟩⟩
  | succ levels =>
    exact ⟨fun hle => (h levels).enough (by omega), fun hlt => (h levels).short (by omega)⟩

theorem Needs.stop {depth levels : ℕ} {limited : Except Stop α} {excess : Option ℕ}
    (h : Needs depth levels limited (stopped none excess)) (f : α → Except Stop β) :
    Needs depth levels (limited.bind f) (stopped none excess) := by
  refine ⟨fun hle => ?_, fun hlt => ?_⟩
  · rw [h.enough hle]
    cases excess <;> rfl
  · obtain ⟨container, heq⟩ := h.short hlt
    exact ⟨container, by rw [heq]; rfl⟩

theorem Needs.bind {depth depth' levels : ℕ} {limited : Except Stop α} {m : α}
    {f : α → Except Stop β} {free : Except Stop β} (h : Needs depth levels limited (.ok m))
    (hf : Needs depth' levels (f m) free) :
    Needs (max depth depth') levels (limited.bind f) free := by
  refine ⟨fun hle => ?_, fun hlt => ?_⟩
  · rw [h.enough (by omega)]
    exact hf.enough (by omega)
  · obtain hlt' | hle' := lt_or_ge levels depth
    · obtain ⟨container, heq⟩ := h.short hlt'
      exact ⟨container, by rw [heq]; rfl⟩
    · rw [h.enough hle']
      exact hf.short (by omega)

/-! ## One step of each reader -/

/-- The readers of one depth need the levels that the text nests. -/
structure Limited (D : Decoder) (n : ℕ) : Prop where
  value : ∀ levels s, Needs (nestedOnce D n s) levels (readOnce D n levels s)
    (stopped (scanOnce D n s) (excessOnce D n s))
  members : ∀ levels s, Needs (nestedMembers D n s) levels (readMembers D n levels s)
    (stopped (scanMembers D n s) (excessMembers D n s))
  elems : ∀ levels s, Needs (nestedElems D n s) levels (readElems D n levels s)
    (stopped (scanElems D n s) (excessElems D n s))

theorem Limited.value_step {n m : ℕ} (ih : Limited D n) (hm : m = n + 1) (levels : ℕ) (s : Str) :
    Needs (nestedOnce D m s) levels (readOnce D m levels s)
      (stopped (scanOnce D m s) (excessOnce D m s)) := by
  fun_cases nestedOnce D m s with
  | case1 => contradiction
  | case2 n t r hclose =>
    rw [readOnce, scanOnce]
    simp only [hclose]
    exact .enter (fun _ => .zero _ _) _ _
  | case3 n t hopen =>
    obtain rfl := Nat.succ.inj hm
    simp only [readOnce, scanOnce, excessOnce, stopped_map]
    exact .enter (fun l => (ih.members l _).map _) _ _
  | case4 n t r hclose =>
    rw [readOnce, scanOnce]
    simp only [hclose]
    exact .enter (fun _ => .zero _ _) _ _
  | case5 n t hopen =>
    obtain rfl := Nat.succ.inj hm
    simp only [readOnce, scanOnce, excessOnce, stopped_map]
    exact .enter (fun l => (ih.elems l _).map _) _ _
  | case6 n s hobj harr =>
    by_cases hstr : ∃ t, s = '"' :: t
    · obtain ⟨t, rfl⟩ := hstr
      rewrite [readOnce, scanOnce, excessOnce]
      exact .zero _ _
    · have hother : ∀ t, s = '"' :: t → False := fun t ht => hstr ⟨t, ht⟩
      rewrite [readOnce, scanOnce, excessOnce]
      · exact .zero _ _
      all_goals assumption

theorem Limited.members_step {n m : ℕ} (ih : Limited D n) (hm : m = n + 1) (levels : ℕ) (s : Str) :
    Needs (nestedMembers D m s) levels (readMembers D m levels s)
      (stopped (scanMembers D m s) (excessMembers D m s)) := by
  fun_cases nestedMembers D m s with
  | case1 => contradiction
  | case2 n t hk =>
    simp only [readMembers, scanMembers, excessMembers, hk]
    exact .zero _ _
  | case3 n t k u hk t' hcolon hv =>
    obtain rfl := Nat.succ.inj hm
    have hvalue := ih.value levels (skipBlank t')
    rw [hv] at hvalue
    simp only [readMembers, scanMembers, excessMembers, hk, hcolon, hv]
    exact hvalue.stop _
  | case4 n t k u hk t' hcolon v w hv x hcomma =>
    obtain rfl := Nat.succ.inj hm
    have hvalue := ih.value levels (skipBlank t')
    rw [hv] at hvalue
    simp only [readMembers, scanMembers, excessMembers, hk, hcolon, hv, hcomma, stopped_map]
    refine hvalue.bind ?_
    simp only [hcomma]
    exact (ih.members _ _).map _
  | case5 n t k u hk t' hcolon v w hv hcomma =>
    obtain rfl := Nat.succ.inj hm
    have hvalue := ih.value levels (skipBlank t')
    rw [hv] at hvalue
    simp only [readMembers, scanMembers, excessMembers, hk, hcolon, hv]
    rw [← max_eq_left (Nat.zero_le (nestedOnce D n (skipBlank t')))]
    refine hvalue.bind (.of_eq ?_)
    grind [stopped]
  | case6 n t k u hk hcolon =>
    simp only [readMembers, scanMembers, excessMembers, hk]
    exact .zero _ _
  | case7 n hm' hquote =>
    simp only [readMembers, scanMembers, excessMembers]
    exact .zero _ _

theorem Limited.elems_step {n m : ℕ} (ih : Limited D n) (hm : m = n + 1) (levels : ℕ) (s : Str) :
    Needs (nestedElems D m s) levels (readElems D m levels s)
      (stopped (scanElems D m s) (excessElems D m s)) := by
  fun_cases nestedElems D m s with
  | case1 => contradiction
  | case2 n s hv =>
    obtain rfl := Nat.succ.inj hm
    have hvalue := ih.value levels s
    rw [hv] at hvalue
    simp only [readElems, scanElems, excessElems, hv]
    exact hvalue.stop _
  | case3 n s v w hv x hcomma =>
    obtain rfl := Nat.succ.inj hm
    have hvalue := ih.value levels s
    rw [hv] at hvalue
    simp only [readElems, scanElems, excessElems, hv, hcomma, stopped_map]
    refine hvalue.bind ?_
    simp only [hcomma]
    exact (ih.elems _ _).map _
  | case4 n s v w hv hcomma =>
    obtain rfl := Nat.succ.inj hm
    have hvalue := ih.value levels s
    rw [hv] at hvalue
    simp only [readElems, scanElems, excessElems, hv]
    rw [← max_eq_left (Nat.zero_le (nestedOnce D n s))]
    refine hvalue.bind (.of_eq ?_)
    grind [stopped]

theorem limited_all (n : ℕ) : Limited D n := by
  induction n with
  | zero => exact ⟨fun _ _ => .zero _ _, fun _ _ => .zero _ _, fun _ _ => .zero _ _⟩
  | succ n ih => exact ⟨ih.value_step rfl, ih.members_step rfl, ih.elems_step rfl⟩

theorem rawDecodeWithin_needs (D : Decoder) (levels : ℕ) (s : Str) :
    Needs (nested D s) levels (rawDecodeWithin D levels s) (stopped (rawDecode D s) (excess D s)) :=
  (limited_all _).value levels s

theorem loadsWithin_needs (D : Decoder) (levels : ℕ) (s : Str) :
    Needs (nested D (skipBlank s)) levels (loadsWithin D levels s)
      (stopped (loads D s) (excess D (skipBlank s))) := by
  have hvalue := rawDecodeWithin_needs D levels (skipBlank s)
  rw [loads]
  cases hread : rawDecode D (skipBlank s) with
  | none =>
    rw [hread] at hvalue
    exact hvalue.stop _
  | some m =>
    obtain ⟨v, r⟩ := m
    rw [hread] at hvalue
    rw [excess_eq_none hread, ← max_eq_left (Nat.zero_le (nested D (skipBlank s)))]
    refine hvalue.bind ?_
    dsimp only
    split
    · exact .zero _ _
    · exact .zero _ _

/-! ## How deep a text goes -/

theorem nestedOnce_obj {n : ℕ} {t u : Str} (ht : skipBlank t = '"' :: u) :
    nestedOnce D (n + 1) ('{' :: t) = nestedMembers D n ('"' :: u) + 1 := by
  rw [nestedOnce, ht]
  rfl

theorem nestedOnce_le_members {n : ℕ} {k s w u : Str} (hw : Blank w)
    (hk : scanString D n s = some (k, w ++ ':' :: u)) :
    nestedOnce D n (skipBlank u) ≤ nestedMembers D (n + 1) ('"' :: s) := by
  have hskip := skipBlank_to hw (by decide : isBlank ':' = false) u
  simp only [nestedMembers, hk, hskip]
  split
  · exact le_rfl
  · split
    · exact le_max_left _ _
    · exact le_rfl

theorem nestedOnce_le_elems (n : ℕ) (s : Str) : nestedOnce D n s ≤ nestedElems D (n + 1) s := by
  rw [nestedElems]
  split
  · exact le_rfl
  · split
    · exact le_max_left _ _
    · exact le_rfl

theorem nestedOnce_arr_pos (n : ℕ) (t : Str) : 0 < nestedOnce D (n + 1) ('[' :: t) := by
  rw [nestedOnce]
  split
  · exact Nat.one_pos
  · exact Nat.succ_pos _

/-- Every opening bracket goes a level down. -/
theorem le_nestedOnce_brackets (k n : ℕ) (t : Str) :
    k ≤ nestedOnce D (2 * k + n) (List.replicate k '[' ++ t) := by
  induction k with
  | zero => exact Nat.zero_le _
  | succ k ih =>
    rw [show 2 * (k + 1) + n = 2 * k + n + 1 + 1 by omega, List.replicate_succ, List.cons_append]
    cases k with
    | zero => exact nestedOnce_arr_pos _ _
    | succ k =>
      have hinner := ih.trans (nestedOnce_le_elems _ _)
      rw [List.replicate_succ, List.cons_append] at hinner ⊢
      exact Nat.succ_le_succ hinner

end AegisCode.Json
