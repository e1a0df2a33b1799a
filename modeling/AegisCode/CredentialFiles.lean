import AegisCode.ActionParser
import AegisCode.CredentialStore
import AegisCode.JsonModes
import AegisCode.Traces

/-!
# The credentials file

`JsonFileBackend` keeps its passwords in one JSON file, which each change reads and then
writes anew. A write can be cut short, by a full disk or by the end of the program, and then
the file holds a beginning of its text. Nothing of such a beginning is read.
-/
namespace AegisCode

open Program
open Json (Decoder loads dumps dumpsMembers quote excess excessOnce excessMembers skipBlank setItem
  scanOnce scanString Proper ProperMembers Spread tokens)

/-! ## Beginnings of a text of strings -/

namespace Json

def AllStrings (ms : List (Str × Json)) : Prop := ∀ m ∈ ms, ∃ s, m.2 = .str s

section Front
variable {D : Decoder} {n : ℕ} {c : Char} {k v p q r s t : Str} {ms : List (Str × Json)}

theorem front_cons (h : p ++ q = c :: r) : p = [] ∨ ∃ u, p = c :: u ∧ u ++ q = r := by
  cases p with
  | nil => exact .inl rfl
  | cons d u =>
    obtain ⟨rfl, hu⟩ := List.cons.inj h
    exact .inr ⟨u, rfl, hu⟩

/-- A literal that is read in a beginning of a text is the literal of the whole text. -/
theorem scanString_front (h : '"' :: p ++ q = quote s ++ r) (hk : scanString D n p = some (k, t)) :
    t ++ q = r := by
  have hlong := scanString_append hk (Nat.le_max_left n (s.length + 1)) q
  have hwhole := scanString_quote (D := D) s r (n := max n (s.length + 1)) (by omega)
    (t := p ++ q) h.symm
  rw [hwhole] at hlong
  exact (Prod.mk.inj (Option.some.inj hlong)).2.symm

theorem excessOnce_nil (n : ℕ) : excessOnce D n [] = none := by
  cases n <;> rfl

theorem excessOnce_quote (n : ℕ) (t : Str) : excessOnce D n ('"' :: t) = none := by
  cases n <;> rfl

theorem excessMembers_nil (n : ℕ) : excessMembers D n [] = none := by
  cases n <;> rfl

theorem unread_nil (n : ℕ) (q r : Str) : excessOnce D n [] = none ∧
    ∀ w t, scanOnce D n [] = some (w, t) → t ++ q = r := by
  refine ⟨excessOnce_nil n, fun w t hread => ?_⟩
  rw [scanOnce_nil] at hread
  cases hread

/-- At a string, whole or cut off, no integer is met. -/
theorem excessOnce_front (h : p ++ q = ' ' :: (quote v ++ r)) :
    excessOnce D n (skipBlank p) = none ∧
      ∀ w t, scanOnce D n (skipBlank p) = some (w, t) → t ++ q = r := by
  obtain rfl | ⟨u, rfl, hu⟩ := front_cons h
  · exact unread_nil n q r
  · obtain rfl | ⟨x, rfl, -⟩ :=
      front_cons (r := v.flatMap escape ++ ('"' :: r)) (by simpa [quote] using hu)
    · exact unread_nil n q r
    · rw [show skipBlank (' ' :: '"' :: x) = '"' :: x from rfl]
      refine ⟨excessOnce_quote n x, fun w t hread => ?_⟩
      cases n with
      | zero => cases hread
      | succ n =>
        obtain ⟨⟨k, t'⟩, hk, heq⟩ := Option.map_eq_some_iff.mp hread
        obtain ⟨-, rfl⟩ := Prod.mk.inj heq
        exact scanString_front hu hk

/-- One member of strings, whole or cut off, and what may follow it. -/
theorem excessMembers_member (h : p ++ q = quote k ++ (':' :: ' ' :: (quote v ++ r)))
    (hrest : ∀ m t u, t ++ q = r → skipBlank t = ',' :: u →
      excessMembers D m (skipBlank u) = none) : excessMembers D n p = none := by
  cases n with
  | zero => rfl
  | succ n =>
    obtain rfl | ⟨t, rfl, -⟩ :=
      front_cons (r := k.flatMap escape ++ ('"' :: ':' :: ' ' :: (quote v ++ r)))
        (by simpa [quote] using h)
    · rfl
    · rw [excessMembers]
      cases hk : scanString D n t with
      | none => rfl
      | some read =>
        obtain ⟨k', t⟩ := read
        obtain rfl | ⟨u, rfl, hu⟩ := front_cons (scanString_front h hk)
        · rfl
        · split
          · contradiction
          · rename_i hfound
            obtain ⟨-, rfl⟩ := Prod.mk.inj (Option.some.inj hfound)
            rw [show skipBlank (':' :: u) = ':' :: u from rfl]
            obtain ⟨hnone, hread⟩ := excessOnce_front (D := D) (n := n) hu
            split
            · rename_i x hx
              obtain rfl : u = x := (List.cons.inj hx).2
              cases hv : scanOnce D n (skipBlank u) with
              | none => exact hnone
              | some read =>
                obtain ⟨w, t⟩ := read
                split
                · contradiction
                · rename_i hvalue
                  obtain ⟨-, rfl⟩ := Prod.mk.inj (Option.some.inj hvalue)
                  split
                  · rename_i y hy
                    exact hrest n t y (hread w t hv) hy
                  · rfl
            · rfl

/-- No beginning of members that are strings has an integer that is too long. -/
theorem excessMembers_front (hms : AllStrings ms)
    (h : p ++ q = quote k ++ (':' :: ' ' :: (quote v ++ dumpsMembers ms))) :
    excessMembers D n p = none := by
  induction ms generalizing n k v p with
  | nil =>
    refine excessMembers_member h fun m t u ht hu => ?_
    obtain rfl | ⟨x, rfl, -⟩ := front_cons (r := []) ht
    · cases hu
    · cases hu
  | cons m ms ih =>
    refine excessMembers_member h fun n t u ht hu => ?_
    obtain ⟨s, hs⟩ := hms m (List.mem_cons_self ..)
    have htail : dumpsMembers (m :: ms) =
        ',' :: ' ' :: (quote m.1 ++ (':' :: ' ' :: (quote s ++ dumpsMembers ms))) := by
      simp [dumpsMembers, hs, dumps]
    rw [htail] at ht
    obtain rfl | ⟨x, rfl, hx⟩ := front_cons ht
    · cases hu
    · obtain rfl : x = u := (List.cons.inj hu).2
      obtain rfl | ⟨y, rfl, hy⟩ := front_cons hx
      · exact excessMembers_nil n
      · have hstart : skipBlank (' ' :: y) = y := by
          obtain rfl | ⟨z, rfl, -⟩ := front_cons
            (r := m.1.flatMap escape ++ ('"' :: ':' :: ' ' :: (quote s ++ dumpsMembers ms)))
            (by simpa [quote] using hy)
          · rfl
          · rfl
        rw [hstart]
        exact ih (fun m' hm' => hms m' (List.mem_cons_of_mem _ hm')) hy

theorem AllStrings.proper (hms : AllStrings ms) : ProperMembers D ms := by
  induction ms with
  | nil => trivial
  | cons m ms ih =>
    obtain ⟨⟨k, v⟩, hm⟩ : ∃ x, x = m := ⟨m, rfl⟩
    obtain ⟨s, hs⟩ := hms m (List.mem_cons_self ..)
    subst hm
    obtain rfl : v = .str s := hs
    exact ⟨trivial, ih fun m' hm' => hms m' (List.mem_cons_of_mem _ hm')⟩

/-- The decoder with what the parser of actions has besides. -/
def library (D : Decoder) : ParserLibrary := { D with decodeError := id, validationError := dumps }

theorem loads_dumps (hms : AllStrings ms) (hnodup : (ms.map Prod.fst).Nodup) :
    loads D (dumps (.obj ms)) = some (.obj ms) :=
  loads_spread (P := library D) ⟨hnodup, hms.proper⟩ (dumps_spread _)

/-- Nothing is read of a proper beginning of an object of strings, and no integer is met. -/
theorem loads_take (hms : AllStrings ms) (hnodup : (ms.map Prod.fst).Nodup)
    (hcut : n < (dumps (.obj ms)).length) :
    loads D ((dumps (.obj ms)).take n) = none ∧
      excess D (skipBlank ((dumps (.obj ms)).take n)) = none := by
  obtain ⟨rest, hrest⟩ : ∃ rest, dumps (.obj ms) = '\x7b' :: rest := by
    cases ms with
    | nil => exact ⟨_, rfl⟩
    | cons m ms => exact ⟨_, rfl⟩
  cases n with
  | zero => exact ⟨rfl, excessOnce_nil _⟩
  | succ n =>
    have hsplit : dumps (.obj ms) = '\x7b' :: rest.take n ++ rest.drop n := by
      rw [hrest, List.cons_append, List.take_append_drop]
    have hdrop : rest.drop n ≠ [] := by
      rw [hrest, List.length_cons] at hcut
      exact List.drop_eq_nil_iff.not.mpr (by omega)
    have htake : (dumps (.obj ms)).take (n + 1) = '\x7b' :: rest.take n := by
      rw [hrest, List.take_succ_cons]
    rw [htake]
    refine ⟨loads_front (P := library D) ⟨hnodup, hms.proper⟩ (dumps_spread _) hdrop hsplit, ?_⟩
    rw [show skipBlank ('\x7b' :: rest.take n) = '\x7b' :: rest.take n from rfl, excess,
      List.length_cons, excessOnce]
    split
    · rfl
    · cases ms with
      | nil =>
        obtain rfl : ['}'] = rest := (List.cons.inj hrest).2
        cases n with
        | zero => exact excessMembers_nil _
        | succ n => exact absurd (by simp) hdrop
      | cons m ms =>
        obtain ⟨v, hv⟩ := hms m (List.mem_cons_self ..)
        have htext : rest.take n ++ rest.drop n =
            quote m.1 ++ (':' :: ' ' :: (quote v ++ dumpsMembers ms)) := by
          rw [List.take_append_drop, ← (List.cons.inj hrest).2]
          simp [hv, dumps]
        have hquoted : rest.take n ++ rest.drop n =
            '"' :: (m.1.flatMap escape ++ ('"' :: ':' :: ' ' :: (quote v ++ dumpsMembers ms))) := by
          rw [htext]
          simp [quote]
        have hstart : skipBlank (rest.take n) = rest.take n := by
          obtain hnil | ⟨x, hx, -⟩ := front_cons hquoted
          · rw [hnil]
            rfl
          · rw [hx]
            rfl
        rw [hstart]
        exact excessMembers_front (fun m' hm' => hms m' (List.mem_cons_of_mem _ hm')) htext

end Front

end Json

/-! ## The file of the backend -/

/-- `credentials.json`: its text and the bits of its mode. -/
structure StoredFile where
  text : Str
  mode : ℕ

abbrev CredentialDisk := Option StoredFile

/-- What `json.load` makes of a text. -/
def loadText (D : Decoder) (text : Str) : CredentialFile :=
  match loads D text with
  | some v => .holds v
  | none =>
    match excess D (skipBlank text) with
    | some digits => .raised (excessExn digits)
    | none => .unreadable

/-- The file as `_load` meets it; it may be missing, or not be opened. -/
def readCredentials (D : Decoder) (opened : Bool) : CredentialDisk → CredentialFile
  | none => .unreadable
  | some file => if opened then loadText D file.text else .unreadable

/-- What is done to the loaded passwords. -/
inductive PasswordChange where
  | set (value : Str)
  | delete

namespace PasswordChange

/-- `data[key] = value` and `data.pop(key, None)`. -/
def apply (key : Str) : PasswordChange → Json → Except Exn Dict
  | .set value, .obj data => .ok (setItem data key (.str value))
  | .delete, .obj data => .ok (data.filter fun m => m.1 ≠ key)
  | .set _, .arr _ => .error ⟨.typeError, "list indices must be integers or slices, not str"⟩
  | .set _, v => .error ⟨.typeError,
      "'".toList ++ v.typeName ++ "' object does not support item assignment".toList⟩
  | .delete, .arr _ => .error ⟨.typeError, "pop expected at most 1 argument, got 2"⟩
  | .delete, v => .error ⟨.attributeError,
      "'".toList ++ v.typeName ++ "' object has no attribute 'pop'".toList⟩

/-- The password that is left. -/
def value : PasswordChange → Option Str
  | .set value => some value
  | .delete => none

end PasswordChange

/-- How `_save` ends: the file is not opened, its text is cut short, or it is whole and its
mode may be set. -/
inductive SaveOutcome where
  | refused
  | cut (n : ℕ)
  | written (tightened : Bool)

/-- The mode of the file once it is open: a new one gets `0600` less the mask. -/
def openedMode (umask : ℕ) : CredentialDisk → ℕ
  | none => 0o600 &&& (0o777 ^^^ umask)
  | some file => file.mode

def saveCredentials (umask : ℕ) (disk : CredentialDisk) (data : Dict) :
    SaveOutcome → CredentialDisk
  | .refused => disk
  | .cut n => some ⟨(dumps (.obj data)).take n, openedMode umask disk⟩
  | .written tightened =>
      some ⟨dumps (.obj data), if tightened then 0o600 else openedMode umask disk⟩

/-- `_key`. -/
def passwordKey (service user : Str) : Str := service ++ "/".toList ++ user

/-- `set_password` and `delete_password` up to the write: the file is read and changed. -/
def changedPasswords (D : Decoder) (disk : CredentialDisk) (opened : Bool) (key : Str)
    (change : PasswordChange) : Except Exn Dict := do
  let v ← (readCredentials D opened disk).load
  change.apply key v

/-! ## Runs over the file -/

inductive CredentialOp where
  | get (opened : Bool) (service user : Str) (answer : Except Exn Json)
  | change (opened : Bool) (service user : Str) (change : PasswordChange) (outcome : SaveOutcome)

/-- One call of the backend, as the file system lets it go. -/
inductive CredentialStep (D : Decoder) (umask : ℕ) :
    CredentialDisk → CredentialOp → CredentialDisk → Prop
  | get {disk : CredentialDisk} {opened : Bool} {service user : Str} {answer : Except Exn Json}
      (hanswer : answer =
        (jsonFileBackend (readCredentials D opened disk)).getPassword service user) :
      CredentialStep D umask disk (.get opened service user answer) disk
  | changed {disk : CredentialDisk} {opened : Bool} {service user : Str}
      {change : PasswordChange} {outcome : SaveOutcome} {data : Dict}
      (hdata : changedPasswords D disk opened (passwordKey service user) change = .ok data)
      (hcut : ∀ n, outcome = .cut n → n < (dumps (.obj data)).length) :
      CredentialStep D umask disk (.change opened service user change outcome)
        (saveCredentials umask disk data outcome)
  | raised {disk : CredentialDisk} {opened : Bool} {service user : Str}
      {change : PasswordChange} {outcome : SaveOutcome} {e : Exn}
      (hraised : changedPasswords D disk opened (passwordKey service user) change = .error e) :
      CredentialStep D umask disk (.change opened service user change outcome) disk

/-! ## The passwords that the file stands for -/

abbrev Passwords := Str → Option Str

/-- What a call finds of them. -/
def Passwords.loaded (m : Passwords) (opened : Bool) : Passwords :=
  if opened then m else fun _ => none

def Passwords.answer (m : Passwords) (opened : Bool) (service user : Str) : Json :=
  ((m.loaded opened (passwordKey service user)).map Json.str).getD .null

/-- A cut leaves no password, and a change of a file that could not be opened loses the
other ones. -/
def Passwords.next (m : Passwords) : CredentialOp → Passwords
  | .get .. => m
  | .change _ _ _ _ .refused => m
  | .change _ _ _ _ (.cut _) => fun _ => none
  | .change opened service user change (.written _) =>
      Function.update (m.loaded opened) (passwordKey service user) change.value

/-- The file is loaded as a dictionary of strings. -/
def Sound (D : Decoder) (disk : CredentialDisk) (data : Dict) : Prop :=
  (readCredentials D true disk).load = .ok (.obj data) ∧ Json.AllStrings data ∧
    (data.map Prod.fst).Nodup

def Json.password? : Json → Option Str
  | .str s => some s
  | _ => none

def Dict.passwords (data : Dict) : Passwords := fun key => (data.lookup key).bind Json.password?

def passwordsOf (D : Decoder) (disk : CredentialDisk) : Passwords :=
  match (readCredentials D true disk).load with
  | .ok (.obj data) => Dict.passwords data
  | _ => fun _ => none

/-- Nobody but the owner has a right to the file. -/
def Private (disk : CredentialDisk) : Prop := ∀ file ∈ disk, file.mode &&& 0o077 = 0

def CredentialOp.tightens : CredentialOp → Prop
  | .change _ _ _ _ (.written tightened) => tightened = true
  | _ => False

section Dictionaries
variable {data : Dict} {key : Str}

theorem lookup_member (k key' : Str) (v : Json) :
    ((k, v) :: data).lookup key' = if key' = k then some v else data.lookup key' := by
  rw [List.lookup_cons]
  by_cases h : key' = k
  · rw [if_pos h, beq_iff_eq.mpr h]
  · rw [if_neg h, beq_eq_false_iff_ne.mpr h]

theorem lookup_setItem (v : Json) (key' : Str) :
    (setItem data key v).lookup key' = if key' = key then some v else data.lookup key' := by
  induction data with
  | nil => rw [setItem, lookup_member]
  | cons m data ih =>
    obtain ⟨k, w⟩ := m
    rw [setItem]
    by_cases hk : k = key
    · subst hk
      rw [if_pos rfl, lookup_member, lookup_member]
      by_cases hkey : key' = k
      · rw [if_pos hkey, if_pos hkey]
      · rw [if_neg hkey, if_neg hkey, if_neg hkey]
    · rw [if_neg hk, lookup_member, lookup_member, ih]
      by_cases hkey : key' = k
      · subst hkey
        rw [if_pos rfl, if_neg hk, if_pos rfl]
      · rw [if_neg hkey, if_neg hkey]

theorem lookup_pop (key' : Str) : (data.filter fun m => m.1 ≠ key).lookup key' =
    if key' = key then none else data.lookup key' := by
  induction data with
  | nil => exact (ite_self _).symm
  | cons m data ih =>
    obtain ⟨k, w⟩ := m
    by_cases hk : k = key
    · subst hk
      rw [List.filter_cons_of_neg (by simp), ih, lookup_member]
      by_cases hkey : key' = k
      · rw [if_pos hkey, if_pos hkey]
      · rw [if_neg hkey, if_neg hkey, if_neg hkey]
    · rw [List.filter_cons_of_pos (by simpa using hk), lookup_member, lookup_member, ih]
      by_cases hkey : key' = k
      · subst hkey
        rw [if_pos rfl, if_neg hk, if_pos rfl]
      · rw [if_neg hkey, if_neg hkey]

theorem nodup_setItem (h : (data.map Prod.fst).Nodup) (v : Json) :
    ((setItem data key v).map Prod.fst).Nodup := by
  induction data with
  | nil => simp [setItem]
  | cons m data ih =>
    obtain ⟨k, w⟩ := m
    rw [List.map_cons, List.nodup_cons] at h
    rw [setItem]
    split_ifs with hk
    · exact List.nodup_cons.mpr h
    · refine List.nodup_cons.mpr ⟨fun hin => ?_, ih h.2⟩
      obtain ⟨m, hm, hfst⟩ := List.mem_map.mp hin
      have hkeys : m.1 ∈ data.map Prod.fst ∨ m.1 = key :=
        Json.keys_setItem (P := fun x => x ∈ data.map Prod.fst ∨ x = key)
          (fun m hm => Or.inl (List.mem_map_of_mem hm)) (Or.inr rfl) m hm
      rw [hfst] at hkeys
      exact hkeys.elim h.1 hk

theorem allStrings_setItem (h : Json.AllStrings data) (value : Str) :
    Json.AllStrings (setItem data key (.str value)) := by
  induction data with
  | nil =>
    intro m hm
    obtain rfl := List.mem_singleton.mp hm
    exact ⟨value, rfl⟩
  | cons m data ih =>
    obtain ⟨k, w⟩ := m
    obtain ⟨hm, hdata⟩ := List.forall_mem_cons.mp h
    rw [setItem]
    split_ifs
    · exact List.forall_mem_cons.mpr ⟨⟨value, rfl⟩, hdata⟩
    · exact List.forall_mem_cons.mpr ⟨hm, ih hdata⟩

/-- A change keeps the passwords strings under distinct keys, and touches one of them. -/
theorem PasswordChange.apply_ok (change : PasswordChange) (key : Str)
    (hstr : Json.AllStrings data) (hnodup : (data.map Prod.fst).Nodup) :
    ∃ data', change.apply key (.obj data) = .ok data' ∧ Json.AllStrings data' ∧
      (data'.map Prod.fst).Nodup ∧
      Dict.passwords data' = Function.update (Dict.passwords data) key change.value := by
  cases change with
  | set value =>
    refine ⟨_, rfl, allStrings_setItem hstr value, nodup_setItem hnodup _, funext fun key' => ?_⟩
    rw [Dict.passwords, lookup_setItem]
    by_cases hkey : key' = key
    · subst hkey
      simp [Json.password?, PasswordChange.value]
    · simp [hkey, Dict.passwords]
  | delete =>
    refine ⟨_, rfl, fun m hm => hstr m (List.mem_of_mem_filter hm),
      hnodup.sublist (List.filter_sublist.map _), funext fun key' => ?_⟩
    rw [Dict.passwords, lookup_pop]
    by_cases hkey : key' = key
    · subst hkey
      simp [PasswordChange.value]
    · simp [hkey, Dict.passwords]

end Dictionaries

/-! ## One call -/

section Calls
variable {D : Decoder} {umask : ℕ} {disk disk' : CredentialDisk} {data : Dict} {op : CredentialOp}

theorem Sound.passwords (h : Sound D disk data) : passwordsOf D disk = Dict.passwords data := by
  rw [passwordsOf, h.1]

theorem sound_written (hstr : Json.AllStrings data) (hnodup : (data.map Prod.fst).Nodup)
    (mode : ℕ) : Sound D (some ⟨dumps (.obj data), mode⟩) data := by
  refine ⟨?_, hstr, hnodup⟩
  simp only [readCredentials, if_true, loadText, Json.loads_dumps hstr hnodup]
  rfl

/-- A text that is cut short is taken for an empty dictionary. -/
theorem sound_cut (hstr : Json.AllStrings data) (hnodup : (data.map Prod.fst).Nodup) {n : ℕ}
    (hcut : n < (dumps (.obj data)).length) (mode : ℕ) :
    Sound D (some ⟨(dumps (.obj data)).take n, mode⟩) [] := by
  obtain ⟨hloads, hexcess⟩ := Json.loads_take (D := D) hstr hnodup hcut
  refine ⟨?_, List.forall_mem_nil _, List.nodup_nil⟩
  simp only [readCredentials, if_true, loadText, hloads, hexcess]
  rfl

/-- What a call reads is the dictionary, or nothing when the file could not be opened. -/
theorem Sound.load (h : Sound D disk data) (opened : Bool) :
    (readCredentials D opened disk).load = .ok (.obj (if opened then data else [])) := by
  cases opened with
  | true => simpa using h.1
  | false => cases disk <;> rfl

theorem Sound.change (h : Sound D disk data) (opened : Bool) (key : Str)
    (change : PasswordChange) :
    ∃ data', changedPasswords D disk opened key change = .ok data' ∧ Json.AllStrings data' ∧
      (data'.map Prod.fst).Nodup ∧ Dict.passwords data' =
        Function.update ((passwordsOf D disk).loaded opened) key change.value := by
  have hstr : Json.AllStrings (if opened then data else []) := by
    split
    · exact h.2.1
    · exact List.forall_mem_nil _
  have hnodup : ((if opened then data else []).map Prod.fst).Nodup := by
    split
    · exact h.2.2
    · exact List.nodup_nil
  obtain ⟨data', happly, hstr', hnodup', hupdate⟩ :=
    PasswordChange.apply_ok change key hstr hnodup
  refine ⟨data', ?_, hstr', hnodup', ?_⟩
  · rw [changedPasswords, h.load opened]
    exact happly
  · rw [hupdate, h.passwords]
    cases opened with
    | true => rfl
    | false => rfl

/-- A call leaves a file that is loaded as a dictionary of strings, with the passwords that
are expected. -/
theorem CredentialStep.sound (h : Sound D disk data)
    (hstep : CredentialStep D umask disk op disk') :
    (∃ data', Sound D disk' data') ∧ passwordsOf D disk' = (passwordsOf D disk).next op := by
  cases hstep with
  | get => exact ⟨⟨data, h⟩, rfl⟩
  | @changed opened service user change outcome data₁ hdata hcut =>
    obtain ⟨data', happly, hstr, hnodup, hupdate⟩ :=
      h.change opened (passwordKey service user) change
    obtain rfl : data' = data₁ := Except.ok.inj (happly.symm.trans hdata)
    cases outcome with
    | refused => exact ⟨⟨data, h⟩, rfl⟩
    | cut n =>
      have hsound := sound_cut (D := D) hstr hnodup (hcut n rfl) (openedMode umask disk)
      exact ⟨⟨[], hsound⟩, hsound.passwords⟩
    | written tightened =>
      have hsound := sound_written (D := D) hstr hnodup
        (if tightened then 0o600 else openedMode umask disk)
      exact ⟨⟨data', hsound⟩, hsound.passwords.trans hupdate⟩
  | @raised opened service user change outcome e hraised =>
    obtain ⟨data', happly, -⟩ := h.change opened (passwordKey service user) change
    rw [happly] at hraised
    cases hraised

/-- A new file is the owner's under every mask. -/
theorem private_new (umask : ℕ) : 0o600 &&& (0o777 ^^^ umask) &&& 0o077 = 0 := by
  have hdisjoint : 0o600 &&& 0o077 = 0 := rfl
  rw [Nat.and_assoc, Nat.and_comm _ 0o077, ← Nat.and_assoc, hdisjoint, Nat.zero_and]

theorem private_opened (umask : ℕ) (disk : CredentialDisk) (text : Str) :
    Private (some ⟨text, openedMode umask disk⟩) ↔ Private disk := by
  cases disk with
  | none => simp [Private, openedMode, private_new]
  | some file => simp [Private, openedMode]

/-- A call opens the file to nobody, and closes it exactly when it sets the mode. -/
theorem CredentialStep.private (h : Sound D disk data)
    (hstep : CredentialStep D umask disk op disk') :
    Private disk' ↔ Private disk ∨ op.tightens := by
  cases hstep with
  | get => simp [CredentialOp.tightens]
  | @changed opened service user change outcome data₁ hdata hcut =>
    cases outcome with
    | refused => simp [CredentialOp.tightens, saveCredentials]
    | cut n => simpa [CredentialOp.tightens, saveCredentials] using private_opened umask disk _
    | written tightened =>
      cases tightened with
      | false => simpa [CredentialOp.tightens, saveCredentials] using private_opened umask disk _
      | true => simp [CredentialOp.tightens, saveCredentials, Private]
  | @raised opened service user change outcome e hraised =>
    obtain ⟨data', happly, -⟩ := h.change opened (passwordKey service user) change
    rw [happly] at hraised
    cases hraised

/-- `get_password` answers with the password, and with nothing when the file could not be
opened. -/
theorem Sound.get (h : Sound D disk data) (opened : Bool) (service user : Str) :
    (jsonFileBackend (readCredentials D opened disk)).getPassword service user =
      .ok ((passwordsOf D disk).answer opened service user) := by
  have hlookup : ∀ key, Dict.get? data key = (Dict.passwords data key).map Json.str := by
    intro key
    rw [Dict.get?, Dict.passwords]
    cases hfound : data.lookup key with
    | none => rfl
    | some v =>
      obtain ⟨l, l', hdata, -⟩ := List.lookup_eq_some_iff.mp hfound
      obtain ⟨s, hs⟩ := h.2.1 (key, v) (by simp [hdata])
      obtain rfl : v = .str s := hs
      rfl
  simp only [jsonFileBackend, h.load opened]
  cases opened with
  | true =>
    rw [h.passwords]
    simp only [Passwords.answer, Passwords.loaded, if_true, ← hlookup]
    rfl
  | false => rfl

end Calls

/-! ## Whole runs -/

theorem foldl_exists {α : Type} (P : α → Prop) (xs : List α) (p : Prop) :
    xs.foldl (fun p x => p ∨ P x) p ↔ p ∨ ∃ x ∈ xs, P x := by
  induction xs using List.reverseRecOn with
  | nil => simp
  | append_singleton xs x ih =>
    rw [List.foldl_concat, ih, or_assoc]
    simp only [List.mem_append, List.mem_singleton, or_and_right, exists_or, exists_eq_left]

variable {D : Decoder} {umask : ℕ} {disk₀ disk : CredentialDisk} {data₀ : Dict}
  {ops : List CredentialOp}

theorem passwords_of_run (h₀ : Sound D disk₀ data₀)
    (hrun : Trace (CredentialStep D umask) disk₀ ops disk) :
    (∃ data, Sound D disk data) ∧
      passwordsOf D disk = ops.foldl Passwords.next (passwordsOf D disk₀) :=
  hrun.foldl ⟨data₀, h₀⟩ fun _ _ _ hsound _ hstep => hstep.sound hsound.choose_spec

theorem private_of_run (h₀ : Sound D disk₀ data₀)
    (hrun : Trace (CredentialStep D umask) disk₀ ops disk) :
    Private disk ↔ Private disk₀ ∨ ∃ op ∈ ops, op.tightens := by
  have hfold : (∃ data, Sound D disk data) ∧
      Private disk = ops.foldl (fun p op => p ∨ op.tightens) (Private disk₀) :=
    hrun.foldl ⟨data₀, h₀⟩ fun _ _ _ hsound _ hstep =>
      ⟨(hstep.sound hsound.choose_spec).1, propext (hstep.private hsound.choose_spec)⟩
  rw [hfold.2, foldl_exists]

/-- In every run of calls that the file system refuses, cuts short or lets through, the file
is the map that the changes make of the first one: a cut leaves the empty map, and a change of
a file that could not be opened starts from it. Every answer is the map's, and the file is
closed to the others exactly when it was at first or a write has set its mode. -/
theorem credentials_refine (D : Decoder) (umask : ℕ) (disk₀ disk : CredentialDisk) (data₀ : Dict)
    (ops : List CredentialOp) (h₀ : Sound D disk₀ data₀)
    (hrun : Trace (CredentialStep D umask) disk₀ ops disk) :
    (∃ data, Sound D disk data) ∧
    passwordsOf D disk = ops.foldl Passwords.next (passwordsOf D disk₀) ∧
    (Private disk ↔ Private disk₀ ∨ ∃ op ∈ ops, op.tightens) ∧
    ∀ before opened service user answer after,
      ops = before ++ .get opened service user answer :: after →
      answer = .ok ((before.foldl Passwords.next (passwordsOf D disk₀)).answer
        opened service user) := by
  obtain ⟨hsound, hfold⟩ := passwords_of_run h₀ hrun
  refine ⟨hsound, hfold, private_of_run h₀ hrun, ?_⟩
  rintro before opened service user answer after rfl
  obtain ⟨disk₁, hbefore, hrest⟩ := trace_append.mp hrun
  obtain ⟨disk₂, hget, -⟩ := trace_cons.mp hrest
  obtain ⟨⟨data₁, hsound₁⟩, hfold₁⟩ := passwords_of_run h₀ hbefore
  cases hget with
  | get hanswer => rw [hanswer, hsound₁.get, hfold₁]

/-! ## A deletion that is cut short -/

def asciiDecoder : Decoder where
  float s := if s = "-Infinity".toList then Json.negInfinity else Json.nan
  unpaired _ := '?'

def keySet : CredentialOp :=
  .change true CredentialStore.service CredentialStore.user (.set "sk-local") (.written false)

def tornDelete : CredentialOp :=
  .change true CredentialStore.service CredentialStore.user .delete (.cut 1)

def emptyGet : CredentialOp :=
  .get true CredentialStore.service CredentialStore.user (.ok .null)

def keyDisk : CredentialDisk :=
  saveCredentials 0o022 none
    [(passwordKey CredentialStore.service CredentialStore.user, .str "sk-local")] (.written false)

def tornFile : StoredFile := ⟨['\x7b'], 0o600⟩

theorem torn_run : Trace (CredentialStep asciiDecoder 0o022) none [keySet, tornDelete, emptyGet]
    (some tornFile) := by
  have hset : CredentialStep asciiDecoder 0o022 none keySet keyDisk := .changed rfl (by simp)
  have hempty : changedPasswords asciiDecoder keyDisk true
      (passwordKey CredentialStore.service CredentialStore.user) .delete = .ok [] := rfl
  have hdelete : CredentialStep asciiDecoder 0o022 keyDisk tornDelete (some tornFile) :=
    .changed hempty fun n hn => by cases hn; decide
  exact .snoc (.snoc (.snoc .nil hset) hdelete) (.get rfl)

theorem credentials_refine_torn :
    Sound asciiDecoder none [] ∧
      [keySet, tornDelete, emptyGet].foldl Passwords.next (passwordsOf asciiDecoder none) =
        passwordsOf asciiDecoder (some tornFile) ∧ Private (some tornFile) :=
  have h₀ : Sound asciiDecoder none [] := ⟨rfl, List.forall_mem_nil _, List.nodup_nil⟩
  have hall := credentials_refine asciiDecoder 0o022 none (some tornFile) [] _ h₀ torn_run
  ⟨h₀, hall.2.1.symm, hall.2.2.1.mpr (.inl (by simp [Private]))⟩

end AegisCode
