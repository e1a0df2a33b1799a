import AegisCode.AuditRedaction
import AegisCode.JsonTexts

/-!
# Texts with other strings

The text of a value with what stands between the quotation marks of its strings
replaced. If every replacement is the code of a string, the text is the one of
the value with these strings; if one of them cannot be read, the text cannot.
-/
namespace AegisCode.Json

/-! ## Printing and mapping -/

/-- A literal with the given letters between its quotation marks. -/
def enclose (body : Str) : Str := '"' :: (body ++ ['"'])

mutual
/-- The text of a value, with `body s` as the letters of the string `s`. -/
def printWith (body : Str → Str) : Json → Str
  | .str s => enclose (body s)
  | .arr [] => "[]"
  | .arr (x :: xs) => '[' :: (printWith body x ++ printElems body xs)
  | .obj [] => ['\x7b', '\x7d']
  | .obj ((k, v) :: ms) => '\x7b' :: (enclose (body k) ++ ": ".toList ++ printWith body v ++
      printMembers body ms)
  | .null => dumps .null
  | .bool b => dumps (.bool b)
  | .int n => dumps (.int n)
  | .float x => dumps (.float x)

def printElems (body : Str → Str) : List Json → Str
  | [] => "]"
  | x :: xs => ", ".toList ++ printWith body x ++ printElems body xs

def printMembers (body : Str → Str) : List (Str × Json) → Str
  | [] => ['\x7d']
  | (k, v) :: ms => ", ".toList ++ enclose (body k) ++ ": ".toList ++ printWith body v ++
      printMembers body ms
end

mutual
/-- The value with every string, the keys included, replaced. -/
def mapStrings (g : Str → Str) : Json → Json
  | .str s => .str (g s)
  | .arr xs => .arr (mapElems g xs)
  | .obj ms => .obj (mapMembers g ms)
  | .null => .null
  | .bool b => .bool b
  | .int n => .int n
  | .float x => .float x

def mapElems (g : Str → Str) : List Json → List Json
  | [] => []
  | x :: xs => mapStrings g x :: mapElems g xs

def mapMembers (g : Str → Str) : List (Str × Json) → List (Str × Json)
  | [] => []
  | (k, v) :: ms => (g k, mapStrings g v) :: mapMembers g ms
end

section Print
variable {body g : Str → Str}

theorem quote_eq_enclose (s : Str) : quote s = enclose (s.flatMap escape) := rfl

mutual
/-- Codes of strings print the value with these strings. -/
theorem printWith_eq : ∀ v : Json, (∀ s ∈ strings v, body s = (g s).flatMap escape) →
    printWith body v = dumps (mapStrings g v)
  | .null, _ => rfl
  | .bool _, _ => rfl
  | .int _, _ => rfl
  | .float _, _ => rfl
  | .str s, h => by
      rw [printWith, mapStrings, dumps, quote_eq_enclose, h s (by simp [strings])]
  | .arr [], _ => rfl
  | .arr (x :: xs), h => by
      rw [printWith, mapStrings, mapElems, dumps,
        printWith_eq x fun s hs => h s (by simp [strings, stringsElems, hs]),
        printElems_eq xs fun s hs => h s (by simp [strings, stringsElems, hs])]
  | .obj [], _ => rfl
  | .obj ((k, v) :: ms), h => by
      rw [printWith, mapStrings, mapMembers, dumps, quote_eq_enclose,
        h k (by simp [strings, stringsMembers]),
        printWith_eq v fun s hs => h s (by simp [strings, stringsMembers, hs]),
        printMembers_eq ms fun s hs => h s (by simp [strings, stringsMembers, hs])]

theorem printElems_eq : ∀ xs : List Json, (∀ s ∈ stringsElems xs, body s = (g s).flatMap escape) →
    printElems body xs = dumpsElems (mapElems g xs)
  | [], _ => rfl
  | x :: xs, h => by
      rw [printElems, mapElems, dumpsElems,
        printWith_eq x fun s hs => h s (by simp [stringsElems, hs]),
        printElems_eq xs fun s hs => h s (by simp [stringsElems, hs])]

theorem printMembers_eq : ∀ ms : List (Str × Json),
    (∀ s ∈ stringsMembers ms, body s = (g s).flatMap escape) →
    printMembers body ms = dumpsMembers (mapMembers g ms)
  | [], _ => rfl
  | (k, v) :: ms, h => by
      rw [printMembers, mapMembers, dumpsMembers, quote_eq_enclose,
        h k (by simp [stringsMembers]),
        printWith_eq v fun s hs => h s (by simp [stringsMembers, hs]),
        printMembers_eq ms fun s hs => h s (by simp [stringsMembers, hs])]
end

mutual
theorem mapStrings_id : ∀ v : Json, mapStrings id v = v
  | .null => rfl
  | .bool _ => rfl
  | .int _ => rfl
  | .float _ => rfl
  | .str _ => rfl
  | .arr xs => by rw [mapStrings, mapElems_id xs]
  | .obj ms => by rw [mapStrings, mapMembers_id ms]

theorem mapElems_id : ∀ xs : List Json, mapElems id xs = xs
  | [] => rfl
  | x :: xs => by rw [mapElems, mapStrings_id x, mapElems_id xs]

theorem mapMembers_id : ∀ ms : List (Str × Json), mapMembers id ms = ms
  | [] => rfl
  | (k, v) :: ms => by rw [mapMembers, mapStrings_id v, mapMembers_id ms]; rfl
end

theorem dumps_eq_printWith (v : Json) : dumps v = printWith (·.flatMap escape) v := by
  have h : printWith (·.flatMap escape) v = dumps (mapStrings id v) := printWith_eq v fun s _ => rfl
  rw [h, mapStrings_id]

mutual
theorem Readable.mapStrings {D : Decoder} : ∀ v : Json, Readable D v → Readable D (mapStrings g v)
  | .null, h => h
  | .bool _, h => h
  | .int _, h => h
  | .float _, h => h
  | .str _, _ => trivial
  | .arr xs, h => ReadableElems.mapElems xs h
  | .obj ms, h => ReadableMembers.mapMembers ms h

theorem ReadableElems.mapElems {D : Decoder} : ∀ xs : List Json, ReadableElems D xs →
    ReadableElems D (mapElems g xs)
  | [], _ => trivial
  | x :: xs, h => ⟨Readable.mapStrings x h.1, ReadableElems.mapElems xs h.2⟩

theorem ReadableMembers.mapMembers {D : Decoder} : ∀ ms : List (Str × Json), ReadableMembers D ms →
    ReadableMembers D (mapMembers g ms)
  | [], _ => trivial
  | (_, v) :: ms, h => ⟨Readable.mapStrings v h.1, ReadableMembers.mapMembers ms h.2⟩
end

mutual
theorem strings_mapStrings : ∀ v : Json, strings (mapStrings g v) = (strings v).map g
  | .null => rfl
  | .bool _ => rfl
  | .int _ => rfl
  | .float _ => rfl
  | .str _ => rfl
  | .arr xs => stringsElems_mapElems xs
  | .obj ms => stringsMembers_mapMembers ms

theorem stringsElems_mapElems : ∀ xs : List Json, stringsElems (mapElems g xs) = (stringsElems xs).map g
  | [] => rfl
  | x :: xs => by
      rw [mapElems, stringsElems, stringsElems, strings_mapStrings x, stringsElems_mapElems xs,
        List.map_append]

theorem stringsMembers_mapMembers : ∀ ms : List (Str × Json),
    stringsMembers (mapMembers g ms) = (stringsMembers ms).map g
  | [] => rfl
  | (k, v) :: ms => by
      rw [mapMembers, stringsMembers, stringsMembers, strings_mapStrings v,
        stringsMembers_mapMembers ms, List.map_append, List.map_cons]
end

theorem infix_enclose (s : Str) : s <:+: enclose s := ⟨['"'], ['"'], rfl⟩

theorem infix_member {s k v rest : Str} (h : s <:+: k ∨ s <:+: v ∨ s <:+: rest) :
    s <:+: enclose k ++ ": ".toList ++ v ++ rest := by
  obtain h | h | h := h
  · refine List.infix_append_of_infix_left (List.infix_append_of_infix_left ?_)
    exact List.infix_append_of_infix_left (h.trans (infix_enclose k))
  · exact List.infix_append_of_infix_left (List.infix_append_of_infix_right h)
  · exact List.infix_append_of_infix_right h

mutual
/-- The letters of every string stand in the text. -/
theorem infix_printWith {s : Str} : ∀ v : Json, s ∈ strings v → body s <:+: printWith body v
  | .null, h => absurd h (by simp [strings])
  | .bool _, h => absurd h (by simp [strings])
  | .int _, h => absurd h (by simp [strings])
  | .float _, h => absurd h (by simp [strings])
  | .str u, h => by
      obtain rfl := List.mem_singleton.mp h
      exact infix_enclose (body s)
  | .arr [], h => absurd h (by simp [strings, stringsElems])
  | .arr (x :: xs), h => by
      rw [printWith]
      refine List.infix_cons ?_
      obtain h | h := List.mem_append.mp h
      · exact List.infix_append_of_infix_left (infix_printWith x h)
      · exact List.infix_append_of_infix_right (infix_printElems xs h)
  | .obj [], h => absurd h (by simp [strings, stringsMembers])
  | .obj ((k, v) :: ms), h => by
      rw [strings, stringsMembers, List.mem_append, List.mem_cons] at h
      rw [printWith]
      refine List.infix_cons (infix_member ?_)
      obtain (rfl | h) | h := h
      · exact .inl (List.infix_refl _)
      · exact .inr (.inl (infix_printWith v h))
      · exact .inr (.inr (infix_printMembers ms h))

theorem infix_printElems {s : Str} : ∀ xs : List Json, s ∈ stringsElems xs →
    body s <:+: printElems body xs
  | [], h => absurd h (by simp [stringsElems])
  | x :: xs, h => by
      rw [printElems]
      obtain h | h := List.mem_append.mp h
      · exact List.infix_append_of_infix_left (List.infix_append_of_infix_right (infix_printWith x h))
      · exact List.infix_append_of_infix_right (infix_printElems xs h)

theorem infix_printMembers {s : Str} : ∀ ms : List (Str × Json), s ∈ stringsMembers ms →
    body s <:+: printMembers body ms
  | [], h => absurd h (by simp [stringsMembers])
  | (k, v) :: ms, h => by
      rw [stringsMembers, List.mem_append, List.mem_cons] at h
      have htext : printMembers body ((k, v) :: ms) = ", ".toList ++ (enclose (body k) ++
          ": ".toList ++ printWith body v ++ printMembers body ms) := by
        simp only [printMembers, List.append_assoc]
      rw [htext]
      refine List.infix_append_of_infix_right (infix_member ?_)
      obtain (rfl | h) | h := h
      · exact .inl (List.infix_refl _)
      · exact .inr (.inl (infix_printWith v h))
      · exact .inr (.inr (infix_printMembers ms h))
end

theorem mem_setItem {d : Dict} {k : Str} {v : Json} {m : Str × Json} (h : m ∈ setItem d k v) :
    m = (k, v) ∨ m ∈ d := by
  induction d with
  | nil => exact .inl (List.mem_singleton.mp h)
  | cons n d ih =>
    rw [setItem] at h
    split at h
    · rename_i hkey
      obtain rfl | h := List.mem_cons.mp h
      · exact .inl (by rw [hkey])
      · exact .inr (List.mem_cons_of_mem n h)
    · obtain rfl | h := List.mem_cons.mp h
      · exact .inr List.mem_cons_self
      · obtain h | h := ih h
        · exact .inl h
        · exact .inr (List.mem_cons_of_mem n h)

/-- The entries of a dictionary are members of its text. -/
theorem mem_of_mem_dictOf {ms : List (Str × Json)} {m : Str × Json} (h : m ∈ dictOf ms) : m ∈ ms := by
  have hrun : ∀ (ms : List (Str × Json)) (d : Dict),
      m ∈ ms.foldl (fun d m => setItem d m.1 m.2) d → m ∈ ms ∨ m ∈ d := by
    intro ms
    induction ms with
    | nil => exact fun d h => .inr h
    | cons n ms ih =>
      intro d h
      obtain h | h := ih _ h
      · exact .inl (List.mem_cons_of_mem n h)
      · obtain rfl | h := mem_setItem h
        · exact .inl List.mem_cons_self
        · exact .inr h
  obtain h | h := hrun ms [] h
  · exact h
  · simp at h

mutual
/-- Reading a text back adds no strings. -/
theorem mem_strings_of_decoded {s : Str} : ∀ v : Json, s ∈ strings (decoded v) → s ∈ strings v
  | .null, h => h
  | .bool _, h => h
  | .int _, h => h
  | .float _, h => h
  | .str _, h => h
  | .arr xs, h => mem_stringsElems_of_decoded xs h
  | .obj ms, h => by
      obtain ⟨m, hm, hs⟩ := mem_stringsMembers.mp h
      exact mem_stringsMembers_of_decoded ms (mem_stringsMembers.mpr ⟨m, mem_of_mem_dictOf hm, hs⟩)

theorem mem_stringsElems_of_decoded {s : Str} : ∀ xs : List Json,
    s ∈ stringsElems (decodedElems xs) → s ∈ stringsElems xs
  | [], h => h
  | x :: xs, h => by
      obtain h | h := List.mem_append.mp h
      · exact List.mem_append_left _ (mem_strings_of_decoded x h)
      · exact List.mem_append_right _ (mem_stringsElems_of_decoded xs h)

theorem mem_stringsMembers_of_decoded {s : Str} : ∀ ms : List (Str × Json),
    s ∈ stringsMembers (decodedMembers ms) → s ∈ stringsMembers ms
  | [], h => h
  | (k, v) :: ms, h => by
      rw [decodedMembers, stringsMembers, List.mem_append, List.mem_cons] at h
      rw [stringsMembers, List.mem_append, List.mem_cons]
      obtain (rfl | h) | h := h
      · exact .inl (.inl rfl)
      · exact .inl (.inr (mem_strings_of_decoded v h))
      · exact .inr (mem_stringsMembers_of_decoded ms h)
end

end Print

/-! ## Maps of texts -/

section Literalwise
open Redactor (isBarrier)

/-- The text of a value without strings. -/
def IsAtom (t : Str) : Prop := (∀ c ∈ t, isNumberChar c = true) ∨
  t ∈ ["null".toList, "true".toList, "false".toList, "[]".toList, ['\x7b', '\x7d']]

/-- The map `f` of texts keeps what stands between the literals, and is `g` on the letters
of each literal. -/
structure Literalwise (f g : Str → Str) : Prop where
  nil : f [] = []
  mark : ∀ {c : Char}, isBarrier c = true ∨ c = ' ' → ∀ text, f (c :: text) = c :: f text
  atom : ∀ {t rest : Str}, IsAtom t → Closes rest → f (t ++ rest) = t ++ f rest
  literal : ∀ {body rest : Str}, Closes rest → f (enclose body ++ rest) = enclose (g body) ++ f rest

theorem closes_of_head {t rest : Str} {a b : Char} (ha : isBarrier a = true) (hb : isBarrier b = true)
    (h : t.head? = some a ∨ t.head? = some b) : Closes (t ++ rest) := by
  intro c hc
  cases t with
  | nil => simp at h
  | cons d t =>
    obtain rfl : d = c := by simpa using hc
    obtain h | h := h
    · obtain rfl := Option.some.inj h
      exact ha
    · obtain rfl := Option.some.inj h
      exact hb

theorem printElems_head (body : Str → Str) (xs : List Json) : (printElems body xs).head? = some ']' ∨
    (printElems body xs).head? = some ',' := by
  cases xs with
  | nil => exact .inl rfl
  | cons x xs => exact .inr rfl

theorem printMembers_head (body : Str → Str) (ms : List (Str × Json)) :
    (printMembers body ms).head? = some '\x7d' ∨ (printMembers body ms).head? = some ',' := by
  rcases ms with _ | ⟨⟨k, v⟩, ms⟩
  · exact .inl rfl
  · exact .inr rfl

theorem closes_printElems (body : Str → Str) (xs : List Json) (rest : Str) :
    Closes (printElems body xs ++ rest) :=
  closes_of_head (by decide) (by decide) (printElems_head body xs)

theorem closes_printMembers (body : Str → Str) (ms : List (Str × Json)) (rest : Str) :
    Closes (printMembers body ms ++ rest) :=
  closes_of_head (by decide) (by decide) (printMembers_head body ms)

theorem Literalwise.closes {f g : Str → Str} (hf : Literalwise f g) {rest : Str} (h : Closes rest) :
    Closes (f rest) := by
  cases rest with
  | nil =>
    rw [hf.nil]
    exact h
  | cons c t =>
    rw [hf.mark (.inl (h c rfl))]
    intro d hd
    exact h d hd

theorem Literalwise.comp {f g f' g' : Str → Str} (hf' : Literalwise f' g') (hf : Literalwise f g) :
    Literalwise (fun s => f' (f s)) (fun s => g' (g s)) where
  nil := by rw [hf.nil, hf'.nil]
  mark := fun hc text => by rw [hf.mark hc, hf'.mark hc]
  atom := fun ht h => by rw [hf.atom ht h, hf'.atom ht (Literalwise.closes hf h)]
  literal := fun h => by rw [hf.literal h, hf'.literal (Literalwise.closes hf h)]

variable {f g : Str → Str} (hf : Literalwise f g) {body : Str → Str}
include hf

theorem Literalwise.comma (text : Str) : f (", ".toList ++ text) = ", ".toList ++ f text :=
  (hf.mark (.inl (by decide)) _).trans (congrArg (',' :: ·) (hf.mark (.inr rfl) text))

theorem Literalwise.colon (text : Str) : f (": ".toList ++ text) = ": ".toList ++ f text :=
  (hf.mark (.inl (by decide)) _).trans (congrArg (':' :: ·) (hf.mark (.inr rfl) text))

set_option linter.unusedSectionVars false in
mutual
theorem Literalwise.printWith_append : ∀ (v : Json) {rest : Str}, Closes rest →
    f (printWith body v ++ rest) = printWith (fun s => g (body s)) v ++ f rest
  | .null, _, h => hf.atom (t := "null".toList) (.inr (by decide)) h
  | .bool true, _, h => hf.atom (t := "true".toList) (.inr (by decide)) h
  | .bool false, _, h => hf.atom (t := "false".toList) (.inr (by decide)) h
  | .int n, _, h => hf.atom (.inl (List.all_eq_true.mp (decimal_numeric n))) h
  | .float x, _, h => hf.atom (.inl (List.all_eq_true.mp x.numeric)) h
  | .str s, _, h => hf.literal h
  | .arr [], _, h => hf.atom (t := "[]".toList) (.inr (by decide)) h
  | .arr (x :: xs), rest, _ => by
      have hbracket : f (printWith body (.arr (x :: xs)) ++ rest) =
          '[' :: f (printWith body x ++ (printElems body xs ++ rest)) := by
        rw [printWith, List.cons_append, List.append_assoc]
        exact hf.mark (.inl (by decide)) _
      rw [hbracket, Literalwise.printWith_append x (closes_printElems body xs rest),
        Literalwise.printElems_append xs rest, printWith, List.cons_append, List.append_assoc]
  | .obj [], _, h => hf.atom (t := ['\x7b', '\x7d']) (.inr (by decide)) h
  | .obj ((k, v) :: ms), rest, _ => by
      have hbrace : f (printWith body (.obj ((k, v) :: ms)) ++ rest) =
          '\x7b' :: f (enclose (body k) ++ (": ".toList ++ (printWith body v ++
            (printMembers body ms ++ rest)))) := by
        simp only [printWith, List.cons_append, List.append_assoc]
        exact hf.mark (.inl (by decide)) _
      rw [hbrace, hf.literal (closes_colon _), hf.colon,
        Literalwise.printWith_append v (closes_printMembers body ms rest),
        Literalwise.printMembers_append ms rest]
      simp only [printWith, List.cons_append, List.append_assoc]

theorem Literalwise.printElems_append : ∀ (xs : List Json) (rest : Str),
    f (printElems body xs ++ rest) = printElems (fun s => g (body s)) xs ++ f rest
  | [], rest => hf.mark (c := ']') (.inl (by decide)) rest
  | x :: xs, rest => by
      have hcomma : f (printElems body (x :: xs) ++ rest) = ", ".toList ++
          f (printWith body x ++ (printElems body xs ++ rest)) := by
        rw [printElems, List.append_assoc, List.append_assoc]
        exact hf.comma _
      rw [hcomma, Literalwise.printWith_append x (closes_printElems body xs rest),
        Literalwise.printElems_append xs rest, printElems, List.append_assoc, List.append_assoc]

theorem Literalwise.printMembers_append : ∀ (ms : List (Str × Json)) (rest : Str),
    f (printMembers body ms ++ rest) = printMembers (fun s => g (body s)) ms ++ f rest
  | [], rest => hf.mark (c := '\x7d') (.inl (by decide)) rest
  | (k, v) :: ms, rest => by
      have hcomma : f (printMembers body ((k, v) :: ms) ++ rest) = ", ".toList ++
          f (enclose (body k) ++ (": ".toList ++ (printWith body v ++
            (printMembers body ms ++ rest)))) := by
        simp only [printMembers, List.append_assoc]
        exact hf.comma _
      rw [hcomma, hf.literal (closes_colon _), hf.colon,
        Literalwise.printWith_append v (closes_printMembers body ms rest),
        Literalwise.printMembers_append ms rest]
      simp only [printMembers, List.append_assoc]
end

/-- The map is applied to each literal of a text. -/
theorem Literalwise.printWith (v : Json) :
    f (Json.printWith body v) = Json.printWith (fun s => g (body s)) v := by
  have hsplit : f (Json.printWith body v ++ []) = Json.printWith (fun s => g (body s)) v ++ f [] :=
    hf.printWith_append v closes_nil
  rwa [hf.nil, List.append_nil, List.append_nil] at hsplit

omit hf in
/-- A filter that keeps the letters around the strings is applied to the strings. -/
theorem literalwise_filter {P : Char → Bool} (hmark : ∀ c, isBarrier c = true ∨ c = ' ' ∨ c = '"' →
      P c = true) (hatom : ∀ t, IsAtom t → ∀ c ∈ t, P c = true) :
    Literalwise (List.filter P) (List.filter P) where
  nil := rfl
  mark := fun hc text => List.filter_cons_of_pos (hmark _ (hc.imp_right .inl))
  atom := fun ht _ => by rw [List.filter_append, List.filter_eq_self.mpr (hatom _ ht)]
  literal := fun _ => by
    have hquote : P '"' = true := hmark _ (.inr (.inr rfl))
    simp [enclose, hquote]

omit hf in
/-- The letters of a text are those of its strings and some that stand around them. -/
theorem printWith_letters {P : Char → Bool} (hmark : ∀ c, isBarrier c = true ∨ c = ' ' ∨ c = '"' →
      P c = true) (hatom : ∀ t, IsAtom t → ∀ c ∈ t, P c = true)
    (hbody : ∀ s, ∀ c ∈ body s, P c = true) (v : Json) : ∀ c ∈ printWith body v, P c = true := by
  have hfilter : (printWith body v).filter P = printWith (fun s => (body s).filter P) v :=
    (literalwise_filter hmark hatom).printWith v
  have hkeep : (fun s => (body s).filter P) = body :=
    funext fun s => List.filter_eq_self.mpr (hbody s)
  rw [hkeep] at hfilter
  exact List.filter_eq_self.mp hfilter

end Literalwise

/-! ## Reading -/

section Reading
variable {D : Decoder} {body g : Str → Str}

/-- A string with these letters cannot be read, whatever stands behind it. -/
def Broken (D : Decoder) (body : Str) : Prop := ∀ n r, scanString D n (body ++ '"' :: r) = none

theorem scanString_literal {s r : Str} {n : ℕ} (hs : body s = (g s).flatMap escape)
    (hn : (body s).length < n) : scanString D n (body s ++ '"' :: r) = some (g s, r) := by
  rw [hs] at hn ⊢
  have hlen := length_quote (g s)
  simp only [quote, List.length_cons, List.length_append, List.length_nil] at hlen
  exact scanString_escapes (g s) r (by omega)

/-- A value whose strings are codes is read, whatever follows its end. -/
theorem scanOnce_printWith {v : Json} {r : Str} {n : ℕ}
    (hcodes : ∀ s ∈ strings v, body s = (g s).flatMap escape) (hv : Readable D (mapStrings g v))
    (hr : Delimited r) (hn : (printWith body v).length ≤ n) :
    scanOnce D n (printWith body v ++ r) = some (decoded (mapStrings g v), r) := by
  rw [printWith_eq v hcodes] at hn ⊢
  exact scanOnce_decoded _ hv (dumps_spread _) hr hn

theorem scanOnce_none_str {n : ℕ} {t : Str} (h : ∀ n, scanString D n t = none) :
    scanOnce D n ('"' :: t) = none := by
  cases n with
  | zero => rfl
  | succ n =>
    show (scanString D n t).map _ = none
    rw [h, Option.map_none]

theorem scanOnce_none_arr {n : ℕ} {c : Char} {t : Str} (hblank : isBlank c = false) (hc : c ≠ ']')
    (h : scanElems D (n - 1) (c :: t) = none) : scanOnce D n ('[' :: c :: t) = none := by
  cases n with
  | zero => rfl
  | succ n =>
    have hskip : skipBlank (c :: t) = c :: t := skipBlank_to (w := []) (by simp [Blank]) hblank t
    simp only [scanOnce, hskip]
    split
    · rename_i heq
      exact absurd (List.cons.inj heq).1 hc
    · rw [Nat.add_sub_cancel] at h
      rw [h, Option.map_none]

theorem scanOnce_none_obj {n : ℕ} {t : Str} (h : scanMembers D (n - 1) ('"' :: t) = none) :
    scanOnce D n ('{' :: '"' :: t) = none := by
  cases n with
  | zero => rfl
  | succ n =>
    have hskip : skipBlank ('"' :: t) = '"' :: t := skipBlank_to (w := []) (by simp [Blank]) (by decide) t
    exact (scanOnce_obj_none hskip h).1

theorem scanElems_none {n : ℕ} {v : Json} {s t : Str} (hv : scanOnce D n s = some (v, ',' :: t))
    (hvs : scanElems D n (skipBlank t) = none) : scanElems D (n + 1) s = none := by
  have hskip : skipBlank (',' :: t) = ',' :: t := skipBlank_to (w := []) (by simp [Blank]) (by decide) t
  simp only [scanElems, hv, hskip, hvs, Option.map_none]

theorem scanMembers_rest_none {n : ℕ} {k : Str} {v : Json} {s u t : Str}
    (hk : scanString D n s = some (k, ':' :: u))
    (hv : scanOnce D n (skipBlank u) = some (v, ',' :: t))
    (hms : scanMembers D n (skipBlank t) = none) : scanMembers D (n + 1) ('"' :: s) = none := by
  have hskip : skipBlank (':' :: u) = ':' :: u := skipBlank_to (w := []) (by simp [Blank]) (by decide) u
  have hskip' : skipBlank (',' :: t) = ',' :: t :=
    skipBlank_to (w := []) (by simp [Blank]) (by decide) t
  simp only [scanMembers, hk, hskip, hv, hskip', hms, Option.map_none]

theorem skipBlank_space {c : Char} (hc : isBlank c = false) (t : Str) :
    skipBlank (' ' :: c :: t) = c :: t :=
  skipBlank_to (w := [' ']) (by simp [Blank]; decide) hc t

/-- A value begins neither with a blank nor with a closing bracket. -/
theorem printWith_head (body : Str → Str) (v : Json) :
    ∃ c t, printWith body v = c :: t ∧ isBlank c = false ∧ c ≠ ']' := by
  have hlead : ∀ w : Json, ∃ c t, dumps w = c :: t ∧ isBlank c = false ∧ c ≠ ']' := by
    intro w
    obtain ⟨c, t, ht, hc⟩ := (dumps_spread w).lead
    have hlt := kind_lt w
    refine ⟨c, t, ht, ?_, ?_⟩
    · by_contra hblank
      rw [leadKind_of_isBlank (by simpa using hblank)] at hc
      omega
    · rintro rfl
      have h7 : leadKind ']' = 7 := by decide
      omega
  cases v with
  | null => exact hlead .null
  | bool b => exact hlead (.bool b)
  | int n => exact hlead (.int n)
  | float x => exact hlead (.float x)
  | str s => exact ⟨_, _, rfl, by decide, by decide⟩
  | arr xs => cases xs <;> exact ⟨_, _, rfl, by decide, by decide⟩
  | obj ms => rcases ms with _ | ⟨⟨k, v⟩, ms⟩ <;> exact ⟨_, _, rfl, by decide, by decide⟩

/-- The text of an array that is not empty, and of its elements. -/
theorem printWith_arr (body : Str → Str) {xs : List Json} (h : xs ≠ []) :
    ∃ t, printElems body xs = ", ".toList ++ t ∧ printWith body (.arr xs) = '[' :: t ∧
      ∃ c u, t = c :: u ∧ isBlank c = false ∧ c ≠ ']' := by
  obtain ⟨x, xs, rfl⟩ := List.exists_cons_of_ne_nil h
  obtain ⟨c, u, hx, hc⟩ := printWith_head body x
  refine ⟨printWith body x ++ printElems body xs, ?_, rfl, c, u ++ printElems body xs, ?_, hc⟩
  · rw [printElems, List.append_assoc]
  · rw [hx, List.cons_append]

theorem printWith_obj (body : Str → Str) {ms : List (Str × Json)} (h : ms ≠ []) :
    ∃ t, printMembers body ms = ", ".toList ++ '"' :: t ∧
      printWith body (.obj ms) = '\x7b' :: '"' :: t := by
  obtain ⟨⟨k, v⟩, ms, rfl⟩ := List.exists_cons_of_ne_nil h
  exact ⟨_, rfl, rfl⟩

variable (hcodes : ∀ s, Broken D (body s) ∨ body s = (g s).flatMap escape)
include hcodes

set_option linter.unusedSectionVars false in
mutual
/-- A value with a string that cannot be read cannot be read. -/
theorem scanOnce_broken : ∀ (v : Json) {n : ℕ} {r : Str}, Readable D (mapStrings g v) →
    (∃ s ∈ strings v, Broken D (body s)) → (printWith body v).length ≤ n →
    scanOnce D n (printWith body v ++ r) = none
  | .null, _, _, _, h, _ => absurd h (by simp [strings])
  | .bool _, _, _, _, h, _ => absurd h (by simp [strings])
  | .int _, _, _, _, h, _ => absurd h (by simp [strings])
  | .float _, _, _, _, h, _ => absurd h (by simp [strings])
  | .str s, n, r, _, h, _ => by
      have hs : Broken D (body s) := by simpa [strings] using h
      have htext : printWith body (.str s) ++ r = '"' :: (body s ++ '"' :: r) := by
        simp [printWith, enclose]
      rw [htext]
      exact scanOnce_none_str fun n => hs n r
  | .arr xs, n, r, hv, h, hn => by
      have hne : xs ≠ [] := by
        rintro rfl
        simp [strings, stringsElems] at h
      obtain ⟨t, ht, htext, c, u, rfl, hblank, hclose⟩ := printWith_arr body hne
      rw [htext] at hn ⊢
      have hnone := scanElems_broken xs (n := n - 1) (r := r) hv h ht (by simp at hn ⊢; omega)
      exact scanOnce_none_arr hblank hclose hnone
  | .obj ms, n, r, hv, h, hn => by
      have hne : ms ≠ [] := by
        rintro rfl
        simp [strings, stringsMembers] at h
      obtain ⟨t, ht, htext⟩ := printWith_obj body hne
      rw [htext] at hn ⊢
      have hnone := scanMembers_broken ms (n := n - 1) (r := r) hv h ht (by simp at hn ⊢; omega)
      exact scanOnce_none_obj hnone

theorem scanElems_broken : ∀ (xs : List Json) {t : Str} {n : ℕ} {r : Str},
    ReadableElems D (mapElems g xs) → (∃ s ∈ stringsElems xs, Broken D (body s)) →
    printElems body xs = ", ".toList ++ t → t.length ≤ n → scanElems D n (t ++ r) = none
  | [], _, _, _, _, h, _, _ => absurd h (by simp [stringsElems])
  | x :: xs, t, n, r, hv, h, ht, hn => by
      obtain rfl : t = printWith body x ++ printElems body xs := by
        rw [printElems, List.append_assoc] at ht
        exact (List.append_cancel_left ht).symm
      rw [List.length_append] at hn
      have hend : 0 < (printElems body xs).length := by
        cases xs <;> simp [printElems]
      cases n with
      | zero => rfl
      | succ n =>
        rw [List.append_assoc]
        by_cases hx : ∃ s ∈ strings x, Broken D (body s)
        · have hnone := scanOnce_broken x (n := n) (r := printElems body xs ++ r) hv.1 hx (by omega)
          simp only [scanElems, hnone]
        · have hxs : ∃ s ∈ stringsElems xs, Broken D (body s) := by
            obtain ⟨s, hs, hb⟩ := h
            obtain hs | hs := List.mem_append.mp hs
            · exact absurd ⟨s, hs, hb⟩ hx
            · exact ⟨s, hs, hb⟩
          have hne : xs ≠ [] := by
            rintro rfl
            simp [stringsElems] at hxs
          obtain ⟨t, ht, -, c, u, rfl, hblank, -⟩ := printWith_arr body hne
          have hcomma : ", ".toList.length = 2 := rfl
          rw [ht, List.length_append, hcomma] at hn
          have hnone := scanElems_broken xs (n := n) (r := r) hv.2 hxs ht (by simp at hn ⊢; omega)
          rw [ht]
          have hgood : ∀ s ∈ strings x, body s = (g s).flatMap escape := fun s hs =>
            (hcodes s).resolve_left fun hb => hx ⟨s, hs, hb⟩
          have hread := scanOnce_printWith (r := ", ".toList ++ c :: u ++ r) (n := n) hgood hv.1
            (delimited_blank (w := []) (by simp [Blank]) (by decide) _) (by omega)
          refine scanElems_none hread ?_
          exact (congrArg (scanElems D n) (skipBlank_space hblank (u ++ r))).trans hnone

theorem scanMembers_broken : ∀ (ms : List (Str × Json)) {t : Str} {n : ℕ} {r : Str},
    ReadableMembers D (mapMembers g ms) → (∃ s ∈ stringsMembers ms, Broken D (body s)) →
    printMembers body ms = ", ".toList ++ '"' :: t → t.length < n →
    scanMembers D n ('"' :: t ++ r) = none
  | [], _, _, _, _, h, _, _ => absurd h (by simp [stringsMembers])
  | (k, v) :: ms, t, n, r, hv, h, ht, hn => by
      obtain rfl : t = body k ++ '"' :: (": ".toList ++ printWith body v ++ printMembers body ms) := by
        simpa [printMembers, enclose] using ht.symm
      have hend : 0 < (printMembers body ms).length := by
        rcases ms with _ | ⟨m, ms⟩ <;> simp [printMembers]
      simp only [List.length_append, List.length_cons] at hn
      have htext : '"' :: (body k ++ '"' :: (": ".toList ++ printWith body v ++
          printMembers body ms)) ++ r = '"' :: (body k ++ '"' :: ':' :: ' ' ::
            (printWith body v ++ (printMembers body ms ++ r))) := by simp
      rw [htext]
      cases n with
      | zero => rfl
      | succ n =>
        by_cases hkey : Broken D (body k)
        · simp only [scanMembers, hkey n]
        · have hk := scanString_literal (D := D) (g := g) (r := ':' :: ' ' ::
            (printWith body v ++ (printMembers body ms ++ r))) ((hcodes k).resolve_left hkey)
            (by omega : (body k).length < n)
          obtain ⟨c, u, hc, hblank, -⟩ := printWith_head body v
          have hskip : skipBlank (' ' :: (printWith body v ++ (printMembers body ms ++ r))) =
              printWith body v ++ (printMembers body ms ++ r) := by
            rw [hc]
            exact skipBlank_space hblank _
          by_cases hx : ∃ s ∈ strings v, Broken D (body s)
          · have hnone := scanOnce_broken v (n := n) (r := printMembers body ms ++ r) hv.1 hx
              (by omega)
            rw [← hskip] at hnone
            exact (scanMembers_none (w := []) (by simp [Blank]) hk hnone).1
          · have hxs : ∃ s ∈ stringsMembers ms, Broken D (body s) := by
              obtain ⟨s, hs, hb⟩ := h
              rw [stringsMembers, List.mem_append, List.mem_cons] at hs
              obtain (rfl | hs) | hs := hs
              · exact absurd hb hkey
              · exact absurd ⟨s, hs, hb⟩ hx
              · exact ⟨s, hs, hb⟩
            have hne : ms ≠ [] := by
              rintro rfl
              simp [stringsMembers] at hxs
            obtain ⟨t, ht, -⟩ := printWith_obj body hne
            have hnone := scanMembers_broken ms (n := n) (r := r) hv.2 hxs ht
              (by simp [ht] at hn; omega)
            have hgood : ∀ s ∈ strings v, body s = (g s).flatMap escape := fun s hs =>
              (hcodes s).resolve_left fun hb => hx ⟨s, hs, hb⟩
            have hread := scanOnce_printWith (r := printMembers body ms ++ r) (n := n) hgood hv.1
              (by rw [ht]; exact delimited_blank (w := []) (by simp [Blank]) (by decide) _) (by omega)
            have hvalue : scanOnce D n (skipBlank (' ' ::
                (printWith body v ++ (printMembers body ms ++ r)))) =
                  some (decoded (mapStrings g v), ',' :: ' ' :: ('"' :: t ++ r)) := by
              rw [hskip, hread, ht]
              rfl
            refine scanMembers_rest_none hk hvalue ?_
            exact (congrArg (scanMembers D n) (skipBlank_space (by decide) (t ++ r))).trans hnone
end

omit hcodes in
theorem skipBlank_printWith (body : Str → Str) (v : Json) :
    skipBlank (printWith body v) = printWith body v := by
  obtain ⟨c, t, hc, hblank, -⟩ := printWith_head body v
  rw [hc]
  exact skipBlank_to (w := []) (by simp [Blank]) hblank t

omit hcodes in
theorem loads_printWith {v : Json} (hgood : ∀ s ∈ strings v, body s = (g s).flatMap escape)
    (hv : Readable D (mapStrings g v)) :
    loads D (printWith body v) = some (decoded (mapStrings g v)) := by
  have hread := scanOnce_printWith (r := []) hgood hv (by simp [Delimited]) le_rfl
  rw [List.append_nil] at hread
  rw [loads, skipBlank_printWith, rawDecode, hread]
  rfl

theorem loads_broken {v : Json} (hv : Readable D (mapStrings g v))
    (h : ∃ s ∈ strings v, Broken D (body s)) : loads D (printWith body v) = none := by
  have hnone := scanOnce_broken hcodes v (r := []) hv h le_rfl
  rw [List.append_nil] at hnone
  rw [loads, skipBlank_printWith, rawDecode, hnone]

end Reading

end AegisCode.Json
