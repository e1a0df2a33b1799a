import AegisCode.Action

/-!
# Loading the configuration

`load_config` on whatever a YAML document holds: the overrides from the environment
are written into the document before it is validated. The validation of keywords
against the schema is pydantic's, and a parameter.
-/
namespace AegisCode

/-! ## Documents -/

/-- The values of `yaml.safe_load`; a float is known by its text. -/
inductive Yaml where
  | null
  | bool (b : Bool)
  | int (n : ℤ)
  | float (text : Str)
  | str (s : Str)
  | bytes (bs : List UInt8)
  | date (text : Str)
  | datetime (text : Str)
  | seq (vs : List Yaml)
  | pair (a b : Yaml)
  | set (vs : List Yaml)
  | map (ms : List (Yaml × Yaml))

def Yaml.truthy : Yaml → Bool
  | .null => false
  | .bool b => b
  | .int n => n ≠ 0
  | .float text => text ≠ "0.0".toList ∧ text ≠ "-0.0".toList
  | .str s => !s.isEmpty
  | .bytes bs => !bs.isEmpty
  | .seq vs => !vs.isEmpty
  | .set vs => !vs.isEmpty
  | .map ms => !ms.isEmpty
  | _ => true

def Yaml.typeName : Yaml → Str
  | .null => "NoneType"
  | .bool _ => "bool"
  | .int _ => "int"
  | .float _ => "float"
  | .str _ => "str"
  | .bytes _ => "bytes"
  | .date _ => "datetime.date"
  | .datetime _ => "datetime.datetime"
  | .seq _ => "list"
  | .pair _ _ => "tuple"
  | .set _ => "set"
  | .map _ => "dict"

/-- The entries of a mapping, with keys of any type. -/
abbrev YamlDict := List (Yaml × Yaml)

def isField (key : Str) (m : Yaml × Yaml) : Bool :=
  match m.1 with
  | .str s => s = key
  | _ => false

namespace YamlDict
variable (ms : YamlDict) (key : Str)

def field? : Option Yaml := (ms.find? (isField key)).map Prod.snd

/-- `d[key] = value`. -/
def setField (value : Yaml) : YamlDict :=
  if ms.any (isField key) then ms.map fun m => if isField key m then (m.1, value) else m
  else ms ++ [(.str key, value)]

/-- All keys are strings, as the names of keywords have to be. -/
def StringKeys : Prop := ∀ m ∈ ms, ∃ k, m.1 = .str k

/-- The entry as a keyword. -/
def keyword? (m : Yaml × Yaml) : Option (Str × Yaml) :=
  match m.1 with
  | .str k => some (k, m.2)
  | _ => none

def keywords? : Option (List (Str × Yaml)) := ms.mapM keyword?

end YamlDict

/-! ## The loader -/

/-- `ConfigError`, or an exception of another class. -/
inductive LoadError where
  | configError (text : Str)
  | raised (e : Exn)

/-- An override: the variable, and the section and the field that it sets. -/
structure Override where
  key : Str
  sectionName : Str
  field : Str

/-- `_ENV_MAP`. -/
def envMap : List Override :=
  [⟨"AEGIS_LLM_PROVIDER", "llm", "provider"⟩,
    ⟨"AEGIS_LLM_MODEL", "llm", "model"⟩,
    ⟨"AEGIS_WORKSPACE_ROOT", "workspace", "root"⟩,
    ⟨"AEGIS_WORKSPACE_ALLOWED_BASE", "workspace", "allowed_base"⟩]

/-- What `v[field] = value` raises on a value that is no mapping. -/
def assignmentError : Yaml → LoadError
  | .seq _ => .raised ⟨.typeError, "list indices must be integers or slices, not str"⟩
  | v => .raised ⟨.typeError,
      "'".toList ++ v.typeName ++ "' object does not support item assignment".toList⟩

/-- `raw.setdefault(section, {})[field] = value`. -/
def setOverride (o : Override) (value : Str) : Yaml → Except LoadError Yaml
  | .map ms =>
    match (YamlDict.field? ms o.sectionName).getD (.map []) with
    | .map fields => .ok (.map (YamlDict.setField ms o.sectionName
        (.map (YamlDict.setField fields o.field (.str value)))))
    | v => .error (assignmentError v)
  | v => .error (.raised ⟨.attributeError,
      "'".toList ++ v.typeName ++ "' object has no attribute 'setdefault'".toList⟩)

/-- One turn of the loop of `_apply_env_overrides`. -/
def applyOverride (src : Env) (raw : Yaml) (o : Override) : Except LoadError Yaml :=
  match src.lookup o.key with
  | none => .ok raw
  | some value => setOverride o value raw

def applyEnvOverrides (raw : Yaml) (src : Env) : Except LoadError Yaml :=
  envMap.foldlM (applyOverride src) raw

/-- The validation of keywords: the configuration, or the text of the `ValidationError`. -/
abbrev Validator := List (Str × Yaml) → Except Str AegisConfig

/-- `_build`. -/
def build (validate : Validator) : Yaml → Except LoadError AegisConfig
  | .map ms =>
    match YamlDict.keywords? ms with
    | none => .error (.raised ⟨.typeError, "keywords must be strings"⟩)
    | some keywords =>
      match validate keywords with
      | .ok config => .ok config
      | .error text => .error (.configError text)
  | v => .error (.raised ⟨.typeError,
      "aegiscode.config.schema.AegisConfig() argument after ** must be a mapping, not ".toList ++
        v.typeName⟩)

/-- `yaml.safe_load(fh) or {}`. -/
def documentOf (v : Yaml) : Yaml := if v.truthy then v else .map []

/-- `load_config`, where `loaded` is what the file holds, or the text of the
`YAMLError`, and `environ` is the environment of the process. -/
def loadConfig (validate : Validator) (environ : Env) (loaded : Except Str Yaml)
    (env : Option Env) : Except LoadError AegisConfig :=
  match loaded with
  | .error text => .error (.configError ("invalid YAML: ".toList ++ text))
  | .ok v => do build validate (← applyEnvOverrides (documentOf v) (env.getD environ))

def loadDefaults (validate : Validator) (environ : Env) (env : Option Env) :
    Except LoadError AegisConfig := do
  build validate (← applyEnvOverrides (.map []) (env.getD environ))

/-! ## The outcomes -/

/-- A configuration, or a `ConfigError` and nothing else. -/
def OnlyConfigErrors (out : Except LoadError AegisConfig) : Prop :=
  ∀ e, out ≠ .error (.raised e)

/-- The override is not set, or its section can be written: it is not there yet, or it
is a mapping. -/
def Writable (src : Env) (ms : YamlDict) (o : Override) : Prop :=
  src.lookup o.key = none ∨ ∀ v, ms.field? o.sectionName = some v → ∃ fields, v = .map fields

/-- The document is a mapping with string keys, and every override can be written. -/
def Loadable (src : Env) (raw : Yaml) : Prop :=
  ∃ ms, raw = .map ms ∧ YamlDict.StringKeys ms ∧ ∀ o ∈ envMap, Writable src ms o

/-! ## Entries behind an assignment -/

namespace YamlDict

section Entries
variable {ms : YamlDict} {key key' : Str} {value : Yaml}

theorem isField_iff {m : Yaml × Yaml} : isField key m = true ↔ m.1 = .str key := by
  obtain ⟨k, v⟩ := m
  cases k <;> simp [isField]

theorem isField_ne {m : Yaml × Yaml} (hne : key ≠ key') (h : isField key m = true) :
    isField key' m = false := by
  rw [isField_iff] at h
  rw [Bool.eq_false_iff, Ne, isField_iff, h]
  exact fun heq => hne (Yaml.str.inj heq)

theorem field?_setField_self : field? (setField ms key value) key = some value := by
  unfold field? setField
  by_cases hany : ms.any (isField key) = true
  · rw [if_pos hany]
    induction ms with
    | nil => cases hany
    | cons m ms ih =>
      by_cases hm : isField key m = true
      · have hkept : isField key (m.1, value) = true := hm
        rw [List.map_cons, if_pos hm, List.find?_cons_of_pos hkept]
        rfl
      · have hrest : ms.any (isField key) = true := by simpa [hm] using hany
        rw [List.map_cons, if_neg hm, List.find?_cons_of_neg hm]
        exact ih hrest
  · rw [if_neg hany]
    have hnone : ms.find? (isField key) = none := by
      rw [List.find?_eq_none]
      intro m hm hfield
      exact hany (List.any_eq_true.mpr ⟨m, hm, hfield⟩)
    rw [List.find?_append, hnone]
    simp [isField]

theorem field?_setField_ne (hne : key ≠ key') :
    field? (setField ms key value) key' = field? ms key' := by
  unfold field? setField
  by_cases hany : ms.any (isField key) = true
  · rw [if_pos hany]
    clear hany
    induction ms with
    | nil => rfl
    | cons m ms ih =>
      by_cases hm : isField key m = true
      · have hother : isField key' m = false := isField_ne hne hm
        have hkept : isField key' (m.1, value) = false := hother
        rw [List.map_cons, if_pos hm, List.find?_cons_of_neg (by simp [hkept]),
          List.find?_cons_of_neg (by simp [hother]), ih]
      · rw [List.map_cons, if_neg hm, List.find?_cons, List.find?_cons]
        split
        · rfl
        · exact ih
  · rw [if_neg hany, List.find?_append]
    have hnew : [(Yaml.str key, value)].find? (isField key') = none := by simp [isField, hne]
    rw [hnew, Option.or_none]

/-- An assignment to a string key keeps the types of the keys. -/
theorem stringKeys_setField : StringKeys (setField ms key value) ↔ StringKeys ms := by
  unfold StringKeys setField
  by_cases hany : ms.any (isField key) = true
  · rw [if_pos hany]
    simp only [List.mem_map]
    constructor
    · intro h m hm
      obtain ⟨k, hk⟩ := h _ ⟨m, hm, rfl⟩
      refine ⟨k, ?_⟩
      rw [← hk]
      split_ifs
      · rfl
      · rfl
    · rintro h _ ⟨m, hm, rfl⟩
      obtain ⟨k, hk⟩ := h m hm
      refine ⟨k, ?_⟩
      split_ifs
      · exact hk
      · exact hk
  · rw [if_neg hany]
    simp only [List.mem_append, List.mem_singleton]
    constructor
    · exact fun h m hm => h m (.inl hm)
    · rintro h m (hm | rfl)
      · exact h m hm
      · exact ⟨key, rfl⟩

theorem keyword?_isSome {m : Yaml × Yaml} : (keyword? m).isSome = true ↔ ∃ k, m.1 = .str k := by
  obtain ⟨k, v⟩ := m
  cases k <;> simp [keyword?]

theorem keywords?_isSome : (keywords? ms).isSome = true ↔ StringKeys ms := by
  unfold keywords? StringKeys
  induction ms with
  | nil => simp
  | cons m ms ih =>
    rw [List.forall_mem_cons, ← ih, ← keyword?_isSome, List.mapM_cons]
    cases hm : keyword? m with
    | none => simp
    | some kw =>
      cases hms : ms.mapM keyword? with
      | none => simp
      | some kws => simp

end Entries

end YamlDict

/-! ## The overrides -/

section Overrides
variable {src : Env} {ms : YamlDict} {o : Override}

/-- An override that cannot be written raises. -/
theorem setOverride_raises (value : Str)
    (hno : ¬ ∀ v, YamlDict.field? ms o.sectionName = some v → ∃ fields, v = .map fields) :
    ∃ e, setOverride o value (.map ms) = .error (.raised e) := by
  push Not at hno
  obtain ⟨v, hv, hnomap⟩ := hno
  have hsection : (YamlDict.field? ms o.sectionName).getD (.map []) = v := by
    rw [hv, Option.getD_some]
  simp only [setOverride, hsection]
  cases v with
  | map fields => exact absurd rfl (hnomap fields)
  | _ => exact ⟨_, rfl⟩

/-- One that can be written leaves a mapping that can take the same overrides. -/
theorem setOverride_ok (src : Env) (value : Str)
    (hmap : ∀ v, YamlDict.field? ms o.sectionName = some v → ∃ fields, v = .map fields) :
    ∃ ms', setOverride o value (.map ms) = .ok (.map ms') ∧
      (YamlDict.StringKeys ms' ↔ YamlDict.StringKeys ms) ∧
      ∀ o', Writable src ms' o' ↔ Writable src ms o' := by
  have hfields : ∃ fields, (YamlDict.field? ms o.sectionName).getD (.map []) = .map fields := by
    cases hget : YamlDict.field? ms o.sectionName with
    | none => exact ⟨[], rfl⟩
    | some v =>
      obtain ⟨fields, rfl⟩ := hmap v hget
      exact ⟨fields, rfl⟩
  obtain ⟨fields, hfields⟩ := hfields
  refine ⟨YamlDict.setField ms o.sectionName (.map (YamlDict.setField fields o.field (.str value))),
    by simp only [setOverride, hfields], YamlDict.stringKeys_setField, fun o' => ?_⟩
  unfold Writable
  by_cases hsection : o.sectionName = o'.sectionName
  · -- the section is a mapping before and after
    rw [← hsection, YamlDict.field?_setField_self]
    have hafter : ∀ v, some (Yaml.map (YamlDict.setField fields o.field (.str value))) = some v →
        ∃ fields, v = .map fields := fun v hv => ⟨_, (Option.some.inj hv).symm⟩
    exact iff_of_true (.inr hafter) (.inr hmap)
  · rw [YamlDict.field?_setField_ne hsection]

/-- The loop over the overrides goes through exactly when all of them can be written. -/
theorem foldlM_applyOverride (src : Env) (ms : YamlDict) (os : List Override) :
    (∃ ms', os.foldlM (applyOverride src) (.map ms) = .ok (.map ms') ∧
        (YamlDict.StringKeys ms' ↔ YamlDict.StringKeys ms) ∧ ∀ o ∈ os, Writable src ms o) ∨
      ((∃ e, os.foldlM (applyOverride src) (.map ms) = .error (.raised e)) ∧
        ¬ ∀ o ∈ os, Writable src ms o) := by
  induction os generalizing ms with
  | nil => exact .inl ⟨ms, rfl, Iff.rfl, fun _ ho => absurd ho List.not_mem_nil⟩
  | cons o os ih =>
    rw [List.foldlM_cons, List.forall_mem_cons]
    unfold applyOverride
    cases hset : src.lookup o.key with
    | none =>
      have hwrite : Writable src ms o := .inl hset
      obtain ⟨ms', hfold, hkeys, hall⟩ | ⟨hfold, hno⟩ := ih ms
      · exact .inl ⟨ms', hfold, hkeys, hwrite, hall⟩
      · exact .inr ⟨hfold, fun h => hno h.2⟩
    | some value =>
      by_cases hmap : ∀ v, YamlDict.field? ms o.sectionName = some v → ∃ fields, v = .map fields
      · obtain ⟨ms₁, hset₁, hkeys₁, hwrite₁⟩ := setOverride_ok src value hmap
        simp only [hset₁]
        have hwrites : (∀ o ∈ os, Writable src ms₁ o) ↔ ∀ o ∈ os, Writable src ms o := by
          simp only [hwrite₁]
        obtain ⟨ms', hfold, hkeys, hall⟩ | ⟨hfold, hno⟩ := ih ms₁
        · exact .inl ⟨ms', hfold, hkeys.trans hkeys₁, .inr hmap, hwrites.mp hall⟩
        · exact .inr ⟨hfold, fun h => hno (hwrites.mpr h.2)⟩
      · obtain ⟨e, he⟩ := setOverride_raises value hmap
        refine .inr ⟨⟨e, by simp only [he]; rfl⟩, ?_⟩
        rintro ⟨hwrite | hwrite, _⟩
        · rw [hset] at hwrite
          cases hwrite
        · exact hmap hwrite

/-- What is no mapping gets through without an override only. -/
theorem foldlM_applyOverride_other (src : Env) {raw : Yaml} (hraw : ∀ ms, raw ≠ .map ms)
    (os : List Override) :
    os.foldlM (applyOverride src) raw = .ok raw ∨
      ∃ e, os.foldlM (applyOverride src) raw = .error (.raised e) := by
  induction os with
  | nil => exact .inl rfl
  | cons o os ih =>
    rw [List.foldlM_cons]
    unfold applyOverride
    cases hset : src.lookup o.key with
    | none => exact ih
    | some value =>
      right
      cases raw with
      | map ms => exact absurd rfl (hraw ms)
      | _ => exact ⟨_, rfl⟩

end Overrides

/-! ## The loader's errors -/

theorem build_onlyConfigErrors {validate : Validator} {ms : YamlDict} :
    OnlyConfigErrors (build validate (.map ms)) ↔ YamlDict.StringKeys ms := by
  rw [← YamlDict.keywords?_isSome]
  unfold OnlyConfigErrors
  cases hkw : YamlDict.keywords? ms with
  | none =>
    simp only [build, hkw]
    exact iff_of_false (fun h => h _ rfl) Bool.false_ne_true
  | some keywords =>
    simp only [build, hkw]
    cases validate keywords with
    | ok config => simp
    | error text => simp

theorem build_other {validate : Validator} {raw : Yaml} (hraw : ∀ ms, raw ≠ .map ms) :
    ¬ OnlyConfigErrors (build validate raw) := by
  intro h
  cases raw with
  | map ms => exact hraw ms rfl
  | _ => exact h _ rfl

theorem loaded_onlyConfigErrors {validate : Validator} {raw : Yaml} {src : Env} :
    OnlyConfigErrors (do build validate (← applyEnvOverrides raw src)) ↔ Loadable src raw := by
  unfold applyEnvOverrides
  by_cases hmap : ∃ ms, raw = .map ms
  · obtain ⟨ms, rfl⟩ := hmap
    have hload : Loadable src (.map ms) ↔
        YamlDict.StringKeys ms ∧ ∀ o ∈ envMap, Writable src ms o := by
      constructor
      · rintro ⟨ms', heq, hkeys, hall⟩
        obtain rfl := Yaml.map.inj heq
        exact ⟨hkeys, hall⟩
      · rintro ⟨hkeys, hall⟩
        exact ⟨ms, rfl, hkeys, hall⟩
    rw [hload]
    obtain ⟨ms', hfold, hkeys, hall⟩ | ⟨⟨e, hfold⟩, hno⟩ :=
      foldlM_applyOverride src ms envMap
    · rw [hfold, and_iff_left hall, ← hkeys]
      exact build_onlyConfigErrors
    · rw [hfold]
      exact iff_of_false (fun h => h e rfl) fun h => hno h.2
  · have hraw : ∀ ms, raw ≠ .map ms := fun ms h => hmap ⟨ms, h⟩
    refine iff_of_false ?_ fun ⟨ms, h, _⟩ => hraw ms h
    obtain hfold | ⟨e, hfold⟩ := foldlM_applyOverride_other src hraw envMap
    · rw [hfold]
      exact build_other hraw
    · rw [hfold]
      exact fun h => h e rfl

/-- The loader raises nothing but a `ConfigError` exactly when the document is empty or
a mapping with string keys whose sections can take the overrides that are set; the
defaults are the configuration of an empty document. -/
theorem loadConfig_onlyConfigErrors_iff (validate : Validator) (environ : Env) (doc : Yaml)
    (env : Option Env) :
    (OnlyConfigErrors (loadConfig validate environ (.ok doc) env) ↔
      Loadable (env.getD environ) (documentOf doc)) ∧
    loadDefaults validate environ env = loadConfig validate environ (.ok .null) env :=
  ⟨loaded_onlyConfigErrors, rfl⟩

/-- A document with an empty section, as its author left it. -/
def emptySection : Yaml := .map [(.str "llm", .null)]

/-- An override into an empty section raises a `TypeError`. -/
theorem empty_section_raises :
    ¬ ∀ (validate : Validator) (environ : Env) (doc : Yaml) (env : Option Env),
      OnlyConfigErrors (loadConfig validate environ (.ok doc) env) := by
  intro h
  exact h (fun _ => .ok {}) [] emptySection
    (some [("AEGIS_LLM_PROVIDER".toList, "mock".toList)]) _ rfl

end AegisCode
