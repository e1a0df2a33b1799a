import AegisCode.DirectoryWalk
import AegisCode.PathFence
import AegisCode.Policy

/-!
# The file tools

`write_file`, `read_file`, `list_files` and `search_text` on a filesystem. A run
of a tool also says which files it opened, by location. The text of an `OSError`
is the operating system's and is left open.
-/
namespace AegisCode

open Posix

/-! ## Bytes and lines -/

/-- UTF-8. -/
def encodeUtf8 (s : Str) : List UInt8 := s.flatMap String.utf8EncodeChar

/-- A character under way: continuation bytes missing, bits so far, and the range
of the next byte. -/
structure PendingChar where
  need : ℕ
  bits : ℕ
  lo : ℕ := 0x80
  hi : ℕ := 0xbf

/-- What a byte begins: a character, a longer one, or an error. -/
def leadByte (b : ℕ) : Str × Option PendingChar :=
  if b < 0x80 then ([Char.ofNat b], none)
  else if 0xc2 ≤ b ∧ b ≤ 0xdf then ([], some { need := 1, bits := b - 0xc0 })
  else if b = 0xe0 then ([], some { need := 2, bits := 0, lo := 0xa0 })
  else if b = 0xed then ([], some { need := 2, bits := 0xd, hi := 0x9f })
  else if 0xe1 ≤ b ∧ b ≤ 0xef then ([], some { need := 2, bits := b - 0xe0 })
  else if b = 0xf0 then ([], some { need := 3, bits := 0, lo := 0x90 })
  else if b = 0xf4 then ([], some { need := 3, bits := 4, hi := 0x8f })
  else if 0xf1 ≤ b ∧ b ≤ 0xf3 then ([], some { need := 3, bits := b - 0xf0 })
  else (['\ufffd'], none)

def decodeFrom : Option PendingChar → List UInt8 → Str
  | none, [] => []
  | some _, [] => ['\ufffd']
  | none, b :: bs => (leadByte b.toNat).1 ++ decodeFrom (leadByte b.toNat).2 bs
  | some p, b :: bs =>
    let bits := p.bits * 64 + (b.toNat - 0x80)
    if p.lo ≤ b.toNat ∧ b.toNat ≤ p.hi then
      if p.need = 1 then Char.ofNat bits :: decodeFrom none bs
      else decodeFrom (some { need := p.need - 1, bits := bits }) bs
    else '\ufffd' :: ((leadByte b.toNat).1 ++ decodeFrom (leadByte b.toNat).2 bs)

/-- `raw.decode(errors="replace")`. -/
def decodeUtf8 (raw : List UInt8) : Str := decodeFrom none raw

/-- `_is_binary`. -/
def isBinary (raw : List UInt8) : Bool := 0 ∈ raw

def isLineBreak (c : Char) : Bool :=
  c.toNat ∈ [0x0a, 0x0b, 0x0c, 0x0d, 0x1c, 0x1d, 0x1e, 0x85, 0x2028, 0x2029]

/-- `splitlines`, with the line under way in front. -/
def splitlinesFrom : Str → Str → List Str
  | [], [] => []
  | line, [] => [line]
  | line, '\r' :: '\n' :: s => line :: splitlinesFrom [] s
  | line, c :: s =>
    if isLineBreak c then line :: splitlinesFrom [] s else splitlinesFrom (line ++ [c]) s

def splitlines (s : Str) : List Str := splitlinesFrom [] s

def isSpace (c : Char) : Bool :=
  (0x09 ≤ c.toNat ∧ c.toNat ≤ 0x0d) ∨ (0x1c ≤ c.toNat ∧ c.toNat ≤ 0x20) ∨
    (0x2000 ≤ c.toNat ∧ c.toNat ≤ 0x200a) ∨
    c.toNat ∈ [0x85, 0xa0, 0x1680, 0x2028, 0x2029, 0x202f, 0x205f, 0x3000]

def strip (s : Str) : Str := (s.dropWhile isSpace).rdropWhile isSpace

/-! ## Paths -/

/-- `ctx.resolve`. -/
def TaskContext.resolve (ctx : TaskContext) (p : Str) : Str :=
  if isabs p then p else join ctx.workspaceRoot p

/-- The names of `os.path.abspath`. -/
def absNames (fs : FileSystem) (s : Str) : Path := normalize (fs.base s ++ names s)

/-- `os.path.relpath`. -/
def relpath (fs : FileSystem) (path start : Str) : Str :=
  let startList := absNames fs start
  let pathList := absNames fs path
  let i := (commonPrefix startList pathList).length
  let rel := List.replicate (startList.length - i) "..".toList ++ pathList.drop i
  if rel = [] then "." else Str.join "/" rel

/-! ## The tools -/

/-- What a tool did: the filesystem behind it, the files it opened to read and to
write, and how it ended. -/
structure ToolRun where
  fs : FileSystem
  opened : List Path := []
  written : List Path := []
  result : Except Exn ToolResult

def missingArgument (name : Str) : Exn := ⟨.keyError, Str.repr name⟩

def noPath (v : Json) : Exn :=
  ⟨.typeError, "expected str, bytes or os.PathLike object, not ".toList ++ v.typeName⟩

def toolError (tool summary : Str) : ToolResult where
  tool := tool
  status := .error
  category := some .toolError
  summary := summary

/-- The directory that `write_file` makes for a path. -/
def parentDir (ctx : TaskContext) (path : Str) : Str :=
  if dirname (ctx.resolve path) = [] then ".".toList else dirname (ctx.resolve path)

section Tools
variable (strerror : Str → Str) (fs : FileSystem) (ctx : TaskContext) (arguments : Dict)

def cannot (verb path abspath : Str) : Str :=
  "cannot ".toList ++ verb ++ " ".toList ++ path ++ ": ".toList ++ strerror abspath

/-- The writing of `write_file`, once its arguments are checked. -/
def writeText (path content : Str) : ToolRun :=
  let abspath := ctx.resolve path
  let dir := parentDir ctx path
  let made := FileSystem.makedirs (dir.length + 1) fs dir
  let failed : ToolRun :=
    { fs := made.1, result := .ok (toolError "write_file" (cannot strerror "write" path abspath)) }
  match made.2 with
  | .error _ => failed
  | .ok _ =>
    match made.1.writeFile abspath (encodeUtf8 content) with
    | none => failed
    | some (p, fs') =>
      { fs := fs', written := [p], result := .ok
          { tool := "write_file", status := .success, summary := "wrote ".toList ++ path
            artifacts := [("changed_files", .arr [.str path])] } }

/-- `WriteFileTool.run`. -/
def writeFileTool : ToolRun :=
  match arguments.get? "path", arguments.get? "content" with
  | none, _ => { fs := fs, result := .error (missingArgument "path") }
  | some _, none => { fs := fs, result := .error (missingArgument "content") }
  | some path, some (.str content) =>
    if (encodeUtf8 content).length > ctx.writeMaxBytes then
      { fs := fs, result := .ok (toolError "write_file" "content exceeds write_max_bytes") }
    else match path with
      | .str path => writeText strerror fs ctx path content
      | v => { fs := fs, result := .error (noPath v) }
  | some _, some v =>
    { fs := fs, result := .error ⟨.attributeError,
        "'".toList ++ v.typeName ++ "' object has no attribute 'encode'".toList⟩ }

/-- `ReadFileTool.run`. -/
def readFileTool : ToolRun :=
  match arguments.get? "path" with
  | none => { fs := fs, result := .error (missingArgument "path") }
  | some (.str path) =>
    match fs.readBytes (ctx.resolve path) with
    | none => { fs := fs, result := .ok (toolError "read_file"
        (cannot strerror "read" path (ctx.resolve path))) }
    | some (p, raw) =>
      { fs := fs, opened := [p], result := .ok <|
          if isBinary raw then
            { tool := "read_file", status := .success, summary := "binary skipped" }
          else
            { tool := "read_file", status := .success
              summary := "read ".toList ++ Nat.toDigits 10 (splitlines (decodeUtf8 raw)).length ++
                " lines".toList
              detailForLlm := decodeUtf8 raw } }
  | some v => { fs := fs, result := .error (noPath v) }

/-- `ListFilesTool.run`. -/
def listFilesTool : ToolRun :=
  match (arguments.get? "path").getD (.str ".") with
  | .str path =>
    match fs.listdir (ctx.resolve path) with
    | none => { fs := fs, result := .ok (toolError "list_files"
        (cannot strerror "list" path (ctx.resolve path))) }
    | some ns =>
      { fs := fs, result := .ok
          { tool := "list_files", status := .success
            summary := Nat.toDigits 10 ns.length ++ " entries".toList
            detailForLlm := Str.join "\n" (ns.insertionSort (· ≤ ·)) } }
  | v => { fs := fs, result := .error (noPath v) }

/-- The matches in one file; only text can be searched for. -/
def fileHits (base fp : Str) (query : Json) (data : List UInt8) : Except Exn (List Str) :=
  let lines := if isBinary data then [] else splitlines (decodeUtf8 data)
  match query with
  | .str q => .ok <| (lines.zipIdx 1).filterMap fun line =>
      if Str.contains q line.1 then
        some (relpath fs fp base ++ ":".toList ++ Nat.toDigits 10 line.2 ++ ": ".toList ++
          strip line.1)
      else none
  | v =>
    if lines = [] then .ok []
    else .error ⟨.typeError,
      "'in <string>' requires string as left operand, not ".toList ++ v.typeName⟩

/-- The loop over the files: the ones that were opened, and the matches. -/
def searchFiles (base : Str) (query : Json) : List Str → List Path × Except Exn (List Str)
  | [] => ([], .ok [])
  | fp :: fps =>
    match fs.readBytes fp with
    | none => searchFiles base query fps
    | some (p, data) =>
      match fileHits fs base fp query data with
      | .error e => ([p], .error e)
      | .ok hits =>
        let rest := searchFiles base query fps
        (p :: rest.1, rest.2.map (hits ++ ·))

/-- The files below the workspace, in the order of the search. -/
def workspaceFiles : List Str :=
  FileSystem.walkFiles (fs.entries.length + 1) fs (ctx.resolve ".")

/-- `SearchTextTool.run`. -/
def searchTextTool : ToolRun :=
  match arguments.get? "query" with
  | none => { fs := fs, result := .error (missingArgument "query") }
  | some query =>
    let found := searchFiles fs (ctx.resolve ".") query (workspaceFiles fs ctx)
    { fs := fs, opened := found.1, result := found.2.map fun hits =>
        { tool := "search_text", status := .success
          summary := Nat.toDigits 10 hits.length ++ " matches".toList
          detailForLlm := Str.join "\n" hits } }

end Tools

end AegisCode
