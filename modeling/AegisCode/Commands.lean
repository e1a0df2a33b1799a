import AegisCode.Action

/-!
# Command strings

`shlex.split` as the state machine it is, the lexer that refuses shell
metastructure before it, and the rules that judge a lexed command.
-/
namespace AegisCode

/-! ## shlex -/

/-- The states of `shlex` in POSIX mode with `whitespace_split`. An escape goes
back to the quotes it stands in, or to the word. -/
inductive ShlexState where
  | space
  | word
  | quotes (quote : Char)
  | escape (within : Option Char)

def isShlexSpace (c : Char) : Bool := c ∈ " \t\r\n".toList

def isQuote (c : Char) : Bool := c = '"' ∨ c = '\''

/-- The state behind an escaped character. -/
def ShlexState.back : Option Char → ShlexState
  | some quote => .quotes quote
  | none => .word

/-- The tokens from here on, the one under way in front. -/
def shlexFrom : ShlexState → Str → Str → Except Exn (List Str)
  | .space, _, [] => .ok []
  | .word, token, [] => .ok [token]
  | .quotes _, _, [] => .error ⟨.valueError, "No closing quotation"⟩
  | .escape _, _, [] => .error ⟨.valueError, "No escaped character"⟩
  | .space, token, c :: s =>
    if isShlexSpace c then shlexFrom .space token s
    else if c = '\\' then shlexFrom (.escape none) token s
    else if isQuote c then shlexFrom (.quotes c) token s
    else shlexFrom .word [c] s
  | .word, token, c :: s =>
    if isShlexSpace c then (shlexFrom .space [] s).map (token :: ·)
    else if isQuote c then shlexFrom (.quotes c) token s
    else if c = '\\' then shlexFrom (.escape none) token s
    else shlexFrom .word (token ++ [c]) s
  | .quotes quote, token, c :: s =>
    if c = quote then shlexFrom .word token s
    -- only between double quotes does a backslash escape
    else if c = '\\' ∧ quote = '"' then shlexFrom (.escape (some quote)) token s
    else shlexFrom (.quotes quote) (token ++ [c]) s
  | .escape within, token, c :: s =>
    let token := if within.any fun quote => c ≠ '\\' ∧ c ≠ quote then token ++ ['\\'] else token
    shlexFrom (.back within) (token ++ [c]) s

/-- `shlex.split`. -/
def shlexSplit (s : Str) : Except Exn (List Str) := shlexFrom .space [] s

/-! ## The lexer -/

structure LexResult where
  ok : Bool
  argv : List Str
  reason : Str
  hasMetastructure : Bool

def metaTokens : List Str :=
  ["&&", "||", "$(", ">>", "|", ">", "<", ";", "\x60", "&", "(", ")", "*", "?", "[", "\x7b",
    "\n", "\r"]

def metaResult (token : Str) : LexResult :=
  ⟨false, [], "shell metastructure ".toList ++ Str.repr token ++ " not allowed".toList, true⟩

def lexString (command : Str) : LexResult :=
  match metaTokens.find? fun token => Str.contains token command with
  | some token => metaResult token
  | none =>
    match shlexSplit command with
    | .error e => ⟨false, [], "lex error: ".toList ++ e.text, false⟩
    | .ok [] => ⟨false, [], "empty command", false⟩
    | .ok argv => ⟨true, argv, "ok", false⟩

/-- The name of the class that a JSON value is read as. -/
def Json.typeName : Json → Str
  | .null => "NoneType"
  | .bool _ => "bool"
  | .int _ => "int"
  | .float _ => "float"
  | .str _ => "str"
  | .arr _ => "list"
  | .obj _ => "dict"

/-- What the value has as members, if it is a collection but no string. -/
def Json.members? : Json → Option (List Json)
  | .arr xs => some xs
  | .obj ms => some (ms.map fun m => .str m.1)
  | _ => none

/-- `lex_command`, on whatever the argument of a command is. -/
def lexCommand : Json → Except Exn LexResult
  | .str command => .ok (lexString command)
  | v =>
    match v.members? with
    | none => .error ⟨.typeError,
        "argument of type '".toList ++ v.typeName ++ "' is not iterable".toList⟩
    | some members =>
      match metaTokens.find? fun token => members.any fun
        | .str member => member = token
        | _ => false with
      | some token => .ok (metaResult token)
      | none => .error ⟨.attributeError,
          "'".toList ++ v.typeName ++ "' object has no attribute 'read'".toList⟩

/-! ## The rules -/

/-- The zeros of the decimal digits that `\d` matches, in blocks of ten. -/
def decimalZeros : List ℕ :=
  [0x30, 0x660, 0x6f0, 0x7c0, 0x966, 0x9e6, 0xa66, 0xae6, 0xb66, 0xbe6, 0xc66, 0xce6, 0xd66, 0xde6,
    0xe50, 0xed0, 0xf20, 0x1040, 0x1090, 0x17e0, 0x1810, 0x1946, 0x19d0, 0x1a80, 0x1a90, 0x1b50,
    0x1bb0, 0x1c40, 0x1c50, 0xa620, 0xa8d0, 0xa900, 0xa9d0, 0xa9f0, 0xaa50, 0xabf0, 0xff10,
    0x104a0, 0x10d30, 0x11066, 0x110f0, 0x11136, 0x111d0, 0x112f0, 0x11450, 0x114d0, 0x11650,
    0x116c0, 0x11730, 0x118e0, 0x11950, 0x11c50, 0x11d50, 0x11da0, 0x11f50, 0x16a60, 0x16ac0,
    0x16b50, 0x1d7ce, 0x1d7d8, 0x1d7e2, 0x1d7ec, 0x1d7f6, 0x1e140, 0x1e2f0, 0x1e4f0, 0x1e950, 0x1fbf0]

def isDecimal (c : Char) : Bool := decimalZeros.any fun z => z ≤ c.toNat ∧ c.toNat < z + 10

/-- The class `[\d.]`. -/
def isVersionChar (c : Char) : Bool := isDecimal c || c = '.'

/-- What a pattern that ends in `$` has to match: one line feed may follow. -/
def dropFinalNewline (s : Str) : Str := if s.getLast? = some '\n' then s.dropLast else s

/-- `_norm_argv0`: a versioned interpreter is `python`. -/
def normArgv0 (argv0 : Str) : Str :=
  let s := dropFinalNewline argv0
  match s.drop 6 with
  | c :: cs =>
    if Str.startsWith s "python" ∧ isDecimal c ∧ cs.all isVersionChar then "python" else argv0
  | [] => argv0

/-- `_arg_matches`. -/
def argMatches (tok arg : Str) : Bool :=
  if !Str.startsWith tok "-" then arg = tok
  else if Str.startsWith tok "--" then
    let argname := (Str.partition '=' arg).1
    Str.startsWith argname "--" && (argname.length > 2 && Str.startsWith tok argname)
  else arg = tok || (Str.startsWith arg tok && !Str.startsWith arg "--")

/-- `_rule_matches`. -/
def ruleMatches (rule : CommandRule) (norm : Str) (args : List Str) : Bool :=
  normArgv0 rule.argv0 = norm ∧ rule.argsContain.all fun tok => args.any (argMatches tok)

def Decision.severity : Decision → ℕ
  | .allow => 0
  | .allowWithAudit => 1
  | .requireApproval => 2
  | .deny => 3

/-- The loop over the rules: the first of the most severe matches, with its index. -/
def strictest (matched : List (CommandRule × ℕ)) : Option (CommandRule × ℕ) :=
  matched.foldl (fun winner r =>
    match winner with
    | none => some r
    | some w => if r.1.decision.severity > w.1.decision.severity then some r else some w) none

/-- `judge_command` on a lexed command. -/
def judgeArgv (argv0 : Str) (args allowlist : List Str) (rules : List CommandRule) :
    GovernanceVerdict :=
  if argv0 ∉ allowlist then
    ⟨.deny, "CMD_ALLOWLIST", argv0 ++ " not in allowlist".toList⟩
  else
    match strictest (rules.zipIdx.filter fun r => ruleMatches r.1 (normArgv0 argv0) args) with
    | some (rule, i) => ⟨rule.decision, "CMD_RULE_".toList ++ Nat.toDigits 10 i,
        "rule matched: ".toList ++ argv0 ++ " ".toList ++ Str.reprList rule.argsContain⟩
    | none => ⟨.allow, "CMD_DEFAULT_ALLOWED", argv0 ++ " allowed".toList⟩

/-- `judge_command`. -/
def judgeCommand (command : Json) (allowlist : List Str) (rules : List CommandRule) :
    Except Exn GovernanceVerdict := do
  let lr ← lexCommand command
  match lr.ok, lr.argv with
  | true, argv0 :: args => return judgeArgv argv0 args allowlist rules
  | _, _ => return ⟨.deny, "CMD_STRUCT", lr.reason⟩

end AegisCode
