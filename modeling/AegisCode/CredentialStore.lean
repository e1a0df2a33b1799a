import AegisCode.Commands
import AegisCode.FileTools

/-!
# The credential store

`CredentialStore.get_key` and `status`, and the factory that builds the store. A key
comes from the backend, from a dotenv file, or from the environment, in this order.
-/
namespace AegisCode

open Posix

/-! ## Backends -/

structure Backend where
  getPassword : Str → Str → Except Exn Json

/-- What reading `credentials.json` comes to. -/
inductive CredentialFile where
  | unreadable
  | raised (e : Exn)
  | holds (v : Json)

/-- `JsonFileBackend._load`, which takes an unreadable file for an empty one. -/
def CredentialFile.load : CredentialFile → Except Exn Json
  | .unreadable => .ok (.obj [])
  | .raised e => .error e
  | .holds v => .ok v

def jsonFileBackend (file : CredentialFile) : Backend where
  getPassword service user := do
    match ← file.load with
    | .obj data => return (Dict.get? data (service ++ "/".toList ++ user)).getD .null
    | v => throw ⟨.attributeError,
        "'".toList ++ v.typeName ++ "' object has no attribute 'get'".toList⟩

/-! ## The dotenv file -/

/-- The lines of a text, as a file opened as text gives them out. -/
def universalLinesFrom : Str → Str → List Str
  | [], [] => []
  | line, [] => [line]
  | line, '\r' :: '\n' :: s => (line ++ ['\n']) :: universalLinesFrom [] s
  | line, c :: s =>
    if c = '\n' ∨ c = '\r' then (line ++ ['\n']) :: universalLinesFrom [] s
    else universalLinesFrom (line ++ [c]) s

/-- An opened file: the lines that it gives out, and the exception that ends them if
they are not all. -/
structure OpenedFile where
  lines : List Str
  stop : Option Exn := none

def OpenedFile.ofText (text : Str) : OpenedFile := { lines := universalLinesFrom [] text }

/-- `open(path)` and what it leads to. -/
abbrev Opener := Str → Except Exn OpenedFile

def stripChar (c : Char) (s : Str) : Str := (s.dropWhile (· = c)).rdropWhile (· = c)

/-- The value of a line behind its first `=`, without quotes around it. -/
def dotenvValue (line : Str) : Str :=
  stripChar '\'' (stripChar '"' (strip ((Str.partition '=' line).2.getD [])))

def isKeyLine (line : Str) : Bool := Str.startsWith line "OPENAI_API_KEY="

/-! ## The store -/

structure CredentialStore where
  backend : Backend
  allowDotenv : Bool := false
  env : Env := []
  dotenvPath : Option Str := none

def keyVariable : Str := "OPENAI_API_KEY"

/-- `env.get("OPENAI_API_KEY")`. -/
def envKey (env : Env) : Json := ((env.lookup keyVariable).map Json.str).getD .null

structure CredentialStatus where
  configured : Bool
  masked : Option Str

/-- The mask of a key that is not empty; what is no string cannot be cut. -/
def maskKey : Json → Except Exn Str
  | .str v =>
    if v.length < 8 then .ok "***"
    else .ok (v.take 3 ++ "…".toList ++ v.drop (v.length - 4))
  | .arr vs =>
    if vs.length < 8 then .ok "***"
    else .error ⟨.typeError, "can only concatenate list (not \"str\") to list"⟩
  | .obj ms =>
    if ms.length < 8 then .ok "***" else .error ⟨.keyError, "slice(None, 3, None)"⟩
  | v => .error ⟨.typeError,
      "object of type '".toList ++ v.typeName ++ "' has no len()".toList⟩

namespace CredentialStore

def service : Str := "aegiscode"

def user : Str := "llm_api_key"

variable (opener : Opener) (cs : CredentialStore)

/-- The first layer, where every exception counts as no key. -/
def backendKey : Json :=
  match cs.backend.getPassword service user with
  | .ok v => v
  | .error _ => .null

/-- The path of the dotenv file, when the store reads one. -/
def dotenv : Option Str :=
  if cs.allowDotenv then cs.dotenvPath.filter (· ≠ []) else none

/-- The layers behind the backend. -/
def lowerKey : Except Exn Json :=
  match cs.dotenv with
  | none => .ok (envKey cs.env)
  | some path =>
    match opener path with
    | .error e => if e.kind = .osError then .ok (envKey cs.env) else .error e
    | .ok file =>
      match file.lines.find? isKeyLine with
      | some line => .ok (.str (dotenvValue line))
      | none =>
        match file.stop with
        | none => .ok (envKey cs.env)
        | some e => if e.kind = .osError then .ok (envKey cs.env) else .error e

/-- `get_key`. -/
def getKey : Except Exn Json :=
  if cs.backendKey.truthy then .ok cs.backendKey else cs.lowerKey opener

def status : Except Exn CredentialStatus := do
  let v ← cs.getKey opener
  if !v.truthy then return ⟨false, none⟩
  else return ⟨true, some (← maskKey v)⟩

end CredentialStore

/-! ## The factory -/

/-- Where the program runs: its keyring, which may be missing, and the credentials file
of a directory. -/
structure Machine where
  keyring : Except Exn Backend
  home : Str
  credentials : Str → CredentialFile

/-- `build_credential_store`; what it builds is not given the environment. -/
def buildCredentialStore (m : Machine) (env : Env) : CredentialStore :=
  match (env.lookup "AEGIS_HOME".toList).filter (· ≠ []) with
  | some aegisHome => { backend := jsonFileBackend (m.credentials aegisHome) }
  | none =>
    match m.keyring with
    | .ok backend => { backend := backend }
    | .error _ => { backend := jsonFileBackend (m.credentials (join m.home ".aegiscode")) }

/-! ## The layers -/

/-- The value of the key line of a dotenv file that can be read. -/
def dotenvLayer (opener : Opener) (path : Str) : Option Str :=
  match opener path with
  | .error _ => none
  | .ok file => (file.lines.find? isKeyLine).map dotenvValue

/-- The law of the layers: the first one with a key wins, and the environment is last. -/
def layeredKey (opener : Opener) (cs : CredentialStore) (env : Env) : Json :=
  if cs.backendKey.truthy then cs.backendKey
  else match (cs.dotenv.bind (dotenvLayer opener)).filter (· ≠ []) with
    | some v => .str v
    | none => envKey env

/-- The store follows the law, and its status says whether there is a key. -/
structure Layered (opener : Opener) (cs : CredentialStore) (env : Env) : Prop where
  key : cs.getKey opener = .ok (layeredKey opener cs env)
  configured : ∃ status, cs.status opener = .ok status ∧
    (status.configured = true ↔ (layeredKey opener cs env).truthy = true)

/-- The backend answers with a string or with nothing, or raises. -/
def Backend.GivesStrings (b : Backend) : Prop :=
  ∀ v, b.getPassword CredentialStore.service CredentialStore.user = .ok v → v = .null ∨ ∃ s, v = .str s

/-- What a store must meet to follow the law when its backend has no key: the dotenv
file opens and can be read up to its key line, or fails with an `OSError`; and a key
line without a value meets an environment that has none either. -/
def DotenvFallsThrough (opener : Opener) (env : Env) (path : Str) : Prop :=
  match opener path with
  | .error e => e.kind = .osError
  | .ok file =>
    match file.lines.find? isKeyLine with
    | some line => dotenvValue line ≠ [] ∨ envKey env = .str []
    | none => ∀ e, file.stop = some e → e.kind = .osError

section Laws
variable {opener : Opener} {cs : CredentialStore} {env : Env}

theorem envKey_string (env : Env) : envKey env = .null ∨ ∃ s, envKey env = .str s := by
  unfold envKey
  cases env.lookup keyVariable with
  | none => exact .inl rfl
  | some s => exact .inr ⟨s, rfl⟩

theorem backendKey_string (hstr : cs.backend.GivesStrings) :
    cs.backendKey = .null ∨ ∃ s, cs.backendKey = .str s := by
  unfold CredentialStore.backendKey
  split
  · rename_i v hv
    exact hstr v hv
  · exact .inl rfl

theorem layeredKey_string (hstr : cs.backend.GivesStrings) :
    layeredKey opener cs env = .null ∨ ∃ s, layeredKey opener cs env = .str s := by
  unfold layeredKey
  by_cases hkey : cs.backendKey.truthy = true
  · rw [if_pos hkey]
    exact backendKey_string hstr
  · rw [if_neg hkey]
    split
    · rename_i v _
      exact .inr ⟨v, rfl⟩
    · exact envKey_string env

/-- The status follows the key. -/
theorem status_of_getKey {v : Json} (hget : cs.getKey opener = .ok v)
    (hstr : v = .null ∨ ∃ s, v = .str s) :
    ∃ status, cs.status opener = .ok status ∧ (status.configured = true ↔ v.truthy = true) := by
  unfold CredentialStore.status
  rw [hget]
  obtain rfl | ⟨s, rfl⟩ := hstr
  · exact ⟨_, rfl, by simp [Json.truthy]⟩
  · by_cases hempty : s = []
    · subst hempty
      exact ⟨_, rfl, by simp [Json.truthy]⟩
    · have hmask : ∃ masked, maskKey (.str s) = .ok masked := by
        by_cases hshort : s.length < 8
        · exact ⟨_, if_pos hshort⟩
        · exact ⟨_, if_neg hshort⟩
      obtain ⟨masked, hmask⟩ := hmask
      refine ⟨⟨true, some masked⟩, ?_, by simp [Json.truthy, hempty]⟩
      have htruthy : (!(Json.str s).truthy) = false := by simp [Json.truthy, hempty]
      change (if (!(Json.str s).truthy) = true then _ else _) = _
      rw [htruthy, if_neg Bool.false_ne_true, hmask]
      rfl

/-- With strings in the backend, the law is about the key alone. -/
theorem layered_iff (hstr : cs.backend.GivesStrings) :
    Layered opener cs env ↔ cs.getKey opener = .ok (layeredKey opener cs env) :=
  ⟨Layered.key, fun hget => ⟨hget, status_of_getKey hget (layeredKey_string hstr)⟩⟩

theorem getKey_eq_iff : cs.getKey opener = .ok (layeredKey opener cs cs.env) ↔
    cs.backendKey.truthy = true ∨ ∀ path, cs.dotenv = some path →
      DotenvFallsThrough opener cs.env path := by
  unfold CredentialStore.getKey layeredKey
  by_cases hkey : cs.backendKey.truthy = true
  · simp [hkey]
  · rw [if_neg hkey, if_neg hkey, or_iff_right hkey]
    unfold CredentialStore.lowerKey
    cases hdot : cs.dotenv with
    | none => simp
    | some path =>
      simp only [Option.some.injEq, forall_eq', Option.bind_some]
      unfold DotenvFallsThrough dotenvLayer
      cases hopen : opener path with
      | error e =>
        by_cases hkind : e.kind = .osError
        · simp [hkind]
        · simp [hkind]
      | ok file =>
        cases hline : file.lines.find? isKeyLine with
        | some line =>
          by_cases hvalue : dotenvValue line = []
          · simp [hline, hvalue, Option.filter_some, eq_comm]
          · simp [hline, hvalue, Option.filter_some]
        | none =>
          cases hstop : file.stop with
          | none => simp [hline, hstop]
          | some e =>
            by_cases hkind : e.kind = .osError
            · simp [hline, hstop, hkind]
            · simp [hline, hstop, hkind]

theorem buildCredentialStore_eq (m : Machine) (env : Env) :
    buildCredentialStore m env = { backend := (buildCredentialStore m env).backend } := by
  unfold buildCredentialStore
  split
  · rfl
  · split
    · rfl
    · rfl

/-- The built store knows its backend only. -/
theorem getKey_buildCredentialStore_iff {m : Machine} :
    (buildCredentialStore m env).getKey opener =
        .ok (layeredKey opener (buildCredentialStore m env) env) ↔
      (buildCredentialStore m env).backendKey.truthy = true ∨
        env.lookup keyVariable = none := by
  rw [buildCredentialStore_eq]
  generalize (buildCredentialStore m env).backend = backend
  unfold CredentialStore.getKey layeredKey
  by_cases hkey : (CredentialStore.backendKey { backend := backend }).truthy = true
  · simp [hkey]
  · rw [if_neg hkey, if_neg hkey, or_iff_right hkey]
    cases henv : env.lookup keyVariable with
    | none => simp [CredentialStore.lowerKey, CredentialStore.dotenv, envKey, henv]
    | some s => simp [CredentialStore.lowerKey, CredentialStore.dotenv, envKey, henv]

end Laws

/-- A store that is given the environment follows the law exactly when its backend has
a key or its dotenv file lets the layers through; the store that the program builds,
exactly when its backend has a key or the environment has none. -/
theorem credential_layers_iff (opener : Opener) (m : Machine) (env : Env) (cs : CredentialStore)
    (henv : cs.env = env) (hcs : cs.backend.GivesStrings)
    (hbuilt : (buildCredentialStore m env).backend.GivesStrings) :
    (Layered opener cs env ↔ cs.backendKey.truthy = true ∨ ∀ path, cs.dotenv = some path →
      DotenvFallsThrough opener env path) ∧
    (Layered opener (buildCredentialStore m env) env ↔
      (buildCredentialStore m env).backendKey.truthy = true ∨
        env.lookup keyVariable = none) := by
  subst henv
  exact ⟨(layered_iff hcs).trans getKey_eq_iff,
    (layered_iff hbuilt).trans getKey_buildCredentialStore_iff⟩

/-! ## A key in the environment -/

/-- A container: no keyring, no credentials file, and the key in the environment. -/
def container : Machine where
  keyring := .error ⟨.other, "No recommended backend was available"⟩
  home := "/root"
  credentials _ := .unreadable

def containerEnv : Env :=
  [("AEGIS_HOME".toList, "/data".toList), ("OPENAI_API_KEY".toList, "sk-container".toList)]

def noFiles : Opener := fun _ => .error ⟨.osError, "No such file or directory"⟩

theorem containerStore_givesStrings :
    (buildCredentialStore container containerEnv).backend.GivesStrings := by
  intro v hv
  exact .inl (Except.ok.inj hv).symm

/-- The store that the container's variables are handed to. -/
def containerStore : CredentialStore where
  backend := (buildCredentialStore container containerEnv).backend
  env := containerEnv

theorem credential_layers_iff_container :
    (Layered noFiles containerStore containerEnv ↔
        containerStore.backendKey.truthy = true ∨ ∀ path, containerStore.dotenv = some path →
          DotenvFallsThrough noFiles containerEnv path) ∧
      (Layered noFiles (buildCredentialStore container containerEnv) containerEnv ↔
        (buildCredentialStore container containerEnv).backendKey.truthy = true ∨
          containerEnv.lookup keyVariable = none) :=
  credential_layers_iff noFiles container containerEnv containerStore rfl
    containerStore_givesStrings containerStore_givesStrings

/-- The built store does not see the key of the environment. -/
theorem container_key_unseen :
    ¬ ∀ (opener : Opener) (m : Machine) (env : Env),
      (buildCredentialStore m env).backend.GivesStrings →
      Layered opener (buildCredentialStore m env) env := by
  intro h
  have hkey := (h noFiles container containerEnv containerStore_givesStrings).key
  have hseen : (buildCredentialStore container containerEnv).getKey noFiles = .ok .null := rfl
  rw [hseen] at hkey
  have hlayered : layeredKey noFiles (buildCredentialStore container containerEnv) containerEnv =
      .str "sk-container" := rfl
  rw [hlayered] at hkey
  cases hkey

end AegisCode
