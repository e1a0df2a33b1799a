import AegisCode.JsonTexts

/-!
# Inside and outside the strings of a text

A text that is read from the left stands outside its string literals, inside one
of them, or behind a backslash. Outside of them a text of a value has few
characters, and its opening braces begin the objects in the value. A reader that
is started inside a string literal takes the strings for the text between them.
-/
namespace AegisCode.Json

/-- Where a text stands that is read from the left. -/
inductive Mode where
  | outside
  | inside
  | escaped
  deriving DecidableEq

def next : Mode → Char → Mode
  | .outside, c => if c = '"' then .inside else .outside
  | .inside, c => if c = '"' then .outside else if c = '\\' then .escaped else .inside
  | .escaped, _ => .inside

def after (m : Mode) (t : Str) : Mode := t.foldl next m

/-- Characters of names and numbers. -/
def isAtomChar (c : Char) : Bool := isNumberChar c || c ∈ "nultrefas".toList

/-- Characters between the strings of a text. -/
def isMark (c : Char) : Bool := isAtomChar c || isBlank c || c ∈ ['{', '}', '[', ']', ':', ',']

/-- Only marks stand outside the strings. -/
def Follows : Mode → Str → Prop
  | _, [] => True
  | m, c :: t => (m = .outside → c = '"' ∨ isMark c = true) ∧ Follows (next m c) t

theorem after_append (m : Mode) (x y : Str) : after m (x ++ y) = after (after m x) y :=
  List.foldl_append

theorem after_cons (m : Mode) (c : Char) (t : Str) : after m (c :: t) = after (next m c) t := rfl

theorem follows_append {m : Mode} {x y : Str} :
    Follows m (x ++ y) ↔ Follows m x ∧ Follows (after m x) y := by
  induction x generalizing m with
  | nil => exact ⟨fun h => ⟨trivial, h⟩, fun h => h.2⟩
  | cons c x ih =>
    rw [List.cons_append, Follows, Follows, after_cons, ih, and_assoc]

/-! ## Characters -/

theorem isMark_ne {c d : Char} (hc : isMark c = true) (hd : isMark d = false) : c ≠ d := by
  rintro rfl
  rw [hc] at hd
  contradiction

theorem isMark_of_isAtomChar {c : Char} (h : isAtomChar c = true) : isMark c = true := by
  rw [isMark, h]
  rfl

theorem isMark_of_isBlank {c : Char} (h : isBlank c = true) : isMark c = true := by
  rw [isMark, h, Bool.or_true]
  rfl

theorem isAtomChar_of_isNumberChar {c : Char} (h : isNumberChar c = true) :
    isAtomChar c = true := by
  rw [isAtomChar, h]
  rfl

theorem isBlank_ne {c d : Char} (hc : isBlank c = true) (hd : isBlank d = false) : c ≠ d := by
  rintro rfl
  rw [hc] at hd
  contradiction

/-- A character that is neither a quotation mark nor a backslash. -/
theorem next_inside {c : Char} (hq : c ≠ '"') (hb : c ≠ '\\') : next .inside c = .inside := by
  rw [next, if_neg hq, if_neg hb]

theorem next_outside {c : Char} (hc : isMark c = true) : next .outside c = .outside := by
  rw [next, if_neg (isMark_ne hc (by decide))]

theorem after_inside {w : Str} (hw : ∀ c ∈ w, c ≠ '"' ∧ c ≠ '\\') : after .inside w = .inside := by
  induction w with
  | nil => rfl
  | cons c w ih =>
    obtain ⟨hc, hw⟩ := List.forall_mem_cons.mp hw
    rw [after_cons, next_inside hc.1 hc.2, ih hw]

theorem after_outside {w : Str} (hw : ∀ c ∈ w, isMark c = true) : after .outside w = .outside := by
  induction w with
  | nil => rfl
  | cons c w ih =>
    obtain ⟨hc, hw⟩ := List.forall_mem_cons.mp hw
    rw [after_cons, next_outside hc, ih hw]

theorem follows_outside {w : Str} (hw : ∀ c ∈ w, isMark c = true) : Follows .outside w := by
  induction w with
  | nil => trivial
  | cons c w ih =>
    obtain ⟨hc, hw⟩ := List.forall_mem_cons.mp hw
    rw [Follows, next_outside hc]
    exact ⟨fun _ => .inr hc, ih hw⟩

/-- Behind a character that stands in a string the text goes on in the string. -/
theorem Follows.inside {m : Mode} {c : Char} {t : Str} (h : Follows m (c :: t))
    (hm : m ≠ .outside) (hq : c ≠ '"') (hb : c ≠ '\\') : Follows .inside (c :: t) := by
  have hnext : next m c = .inside := by
    cases m with
    | outside => exact absurd rfl hm
    | inside => exact next_inside hq hb
    | escaped => rfl
  have ht := h.2
  rw [hnext] at ht
  rw [Follows, next_inside hq hb]
  exact ⟨nofun, ht⟩

/-! ## Texts that end where they began -/

/-- A text that begins and ends outside the strings. -/
structure Whole (t : Str) : Prop where
  follows : Follows .outside t
  after_eq : after .outside t = .outside

theorem whole_of_marks {t : Str} (h : ∀ c ∈ t, isMark c = true) : Whole t :=
  ⟨follows_outside h, after_outside h⟩

theorem Whole.append {x y : Str} (hx : Whole x) (hy : Whole y) : Whole (x ++ y) := by
  constructor
  · rw [follows_append, hx.after_eq]
    exact ⟨hx.follows, hy.follows⟩
  · rw [after_append, hx.after_eq, hy.after_eq]

theorem whole_of_blank {w : Str} (hw : Blank w) : Whole w :=
  whole_of_marks fun c hc => isMark_of_isBlank (hw c hc)

/-! A string literal is left only at its end. -/

/-- The text stays in the string, and so does every beginning of it. -/
def Stays (u : Str) : Prop :=
  after .inside u = .inside ∧ ∀ x, x <+: u → after .inside x ≠ .outside

theorem stays_nil : Stays [] := by
  refine ⟨rfl, fun x hx => ?_⟩
  obtain rfl := List.prefix_nil.mp hx
  decide

theorem Stays.append {u v : Str} (hu : Stays u) (hv : Stays v) : Stays (u ++ v) := by
  refine ⟨by rw [after_append, hu.1, hv.1], fun x hx => ?_⟩
  obtain ⟨z, hz⟩ := hx
  obtain ⟨y, rfl, _⟩ | ⟨y, rfl, rfl⟩ := List.append_eq_append_iff.mp hz
  · exact hu.2 x (List.prefix_append x y)
  · rw [after_append, hu.1]
    exact hv.2 y (List.prefix_append y z)

theorem stays_plain {u : Str} (h : ∀ c ∈ u, c ≠ '"' ∧ c ≠ '\\') : Stays u := by
  refine ⟨after_inside h, fun x hx => ?_⟩
  rw [after_inside fun c hc => h c (hx.subset hc)]
  decide

/-- A backslash takes the character behind it along. -/
theorem stays_escape (c : Char) {u : Str} (h : ∀ d ∈ u, d ≠ '"' ∧ d ≠ '\\') :
    Stays ('\\' :: c :: u) := by
  have hpair : Stays ['\\', c] := by
    refine ⟨rfl, fun x hx => ?_⟩
    match x, hx with
    | [], _ => decide
    | d :: x, hx =>
      rw [(List.cons_prefix_cons.mp hx).1]
      match x, (List.cons_prefix_cons.mp hx).2 with
      | [], _ => decide
      | e :: x, hx =>
        obtain rfl := List.prefix_nil.mp (List.cons_prefix_cons.mp hx).2
        exact nofun
  exact hpair.append (stays_plain h)

theorem follows_of_ne {m : Mode} {u : Str}
    (h : ∀ x c y, u = x ++ c :: y → after m x ≠ .outside) : Follows m u := by
  induction u generalizing m with
  | nil => trivial
  | cons c u ih =>
    refine ⟨fun hm => absurd hm (h [] c u rfl), ih fun x d y heq => ?_⟩
    exact h (c :: x) d y (by rw [heq, List.cons_append])

theorem Stays.follows {u : Str} (h : Stays u) : Follows .inside u :=
  follows_of_ne fun x c y heq => h.2 x ⟨c :: y, heq.symm⟩

/-! ## Names and numbers -/

section
variable {D : Decoder}

/-- What is read of `p`, with `t` left, is a whole text. -/
def Reads (p t : Str) : Prop := ∃ w, p = w ++ t ∧ Whole w

theorem Reads.trans {p t r : Str} (h : Reads p t) (h' : Reads t r) : Reads p r := by
  obtain ⟨u, rfl, hu⟩ := h
  obtain ⟨v, rfl, hv⟩ := h'
  exact ⟨u ++ v, by rw [List.append_assoc], hu.append hv⟩

theorem reads_marks {w : Str} (hw : ∀ c ∈ w, isMark c = true) (t : Str) : Reads (w ++ t) t :=
  ⟨w, rfl, whole_of_marks hw⟩

theorem reads_mark {c : Char} (hc : isMark c = true) (t : Str) : Reads (c :: t) t :=
  reads_marks (List.forall_mem_singleton.mpr hc) t

theorem reads_blank {w : Str} (hw : Blank w) (t : Str) : Reads (w ++ t) t :=
  reads_marks (fun c hc => isMark_of_isBlank (hw c hc)) t

theorem reads_skipBlank (t : Str) : Reads t (skipBlank t) := by
  obtain ⟨w, hw, ht⟩ := skipBlank_eq (t := t)
  have hread := reads_blank hw (skipBlank t)
  rwa [← ht] at hread

/-- The text of one character of a string. -/
def CharRest (p t : Str) : Prop := ∃ u, p = u ++ t ∧ Stays u

theorem CharRest.trans {p t r : Str} (h : CharRest p t) (h' : CharRest t r) : CharRest p r := by
  obtain ⟨u, rfl, hu⟩ := h
  obtain ⟨v, rfl, hv⟩ := h'
  exact ⟨u ++ v, by rw [List.append_assoc], hu.append hv⟩

theorem Reads.tail {p t : Str} {c : Char} (h : Reads p (c :: t)) (hc : isMark c = true) :
    Reads p t :=
  h.trans (reads_mark hc t)

theorem Reads.drop_blank {p w t : Str} (h : Reads p (w ++ t)) (hw : Blank w) : Reads p t :=
  h.trans (reads_blank hw t)

theorem Reads.skipBlank {p t : Str} (h : Reads p t) : Reads p (skipBlank t) :=
  h.trans (reads_skipBlank t)

theorem Follows.tail {c : Char} {t : Str} (h : Follows .inside (c :: t)) (hq : c ≠ '"')
    (hb : c ≠ '\\') : Follows .inside t := by
  have ht := h.2
  rwa [next_inside hq hb] at ht

theorem Follows.drop {w t : Str} (h : Follows .inside (w ++ t))
    (hw : ∀ c ∈ w, c ≠ '"' ∧ c ≠ '\\') : Follows .inside t := by
  have ht := (follows_append.mp h).2
  rwa [after_inside hw] at ht

theorem Follows.drop_blank {w t : Str} (h : Follows .inside (w ++ t)) (hw : Blank w) :
    Follows .inside t :=
  h.drop fun c hc => ⟨isBlank_ne (hw c hc) (by decide), isBlank_ne (hw c hc) (by decide)⟩

theorem Follows.skipBlank {t : Str} (h : Follows .inside t) : Follows .inside (skipBlank t) := by
  obtain ⟨w, hw, ht⟩ := skipBlank_eq (t := t)
  rw [ht] at h
  exact h.drop_blank hw

theorem keys_setItem {d : Dict} {key : Str} {value : Json} {P : Str → Prop}
    (hd : ∀ m ∈ d, P m.1) (hkey : P key) : ∀ m ∈ setItem d key value, P m.1 := by
  induction d with
  | nil => exact List.forall_mem_singleton.mpr hkey
  | cons m d ih =>
    obtain ⟨k, v⟩ := m
    obtain ⟨hk, hd⟩ := List.forall_mem_cons.mp hd
    rw [setItem]
    split_ifs
    · exact List.forall_mem_cons.mpr ⟨hk, hd⟩
    · exact List.forall_mem_cons.mpr ⟨hk, ih hd⟩

end

end AegisCode.Json
