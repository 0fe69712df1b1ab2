import Mathlib

/-!
# The JSON parser

`qobject/json-parser.c` : a recursive descent over the list of tokens that the streamer
hands on. `parser_context_pop_token` and `parser_context_peek_token` assert that there is a
token left; a failed assertion is the result `abort` here. The tokens from `tokens.pos` on
are a list, so that a saved context is the list at that point. A function that returns `NULL`
has the result `null`, with what it leaves in the context.

The recursion is on fuel, and one more than the number of tokens is enough
(`jsonParserParseErr_ne_outOfFuel`).
-/

namespace QemuArm

/-! ## Tokens -/

/-- `enum json_lexer_state` -/
inductive JsonLexerState where
  | inError
  | inDqUcode3
  | inDqUcode2
  | inDqUcode1
  | inDqUcode0
  | inDqStringEscape
  | inDqString
  | inSqUcode3
  | inSqUcode2
  | inSqUcode1
  | inSqUcode0
  | inSqStringEscape
  | inSqString
  | inZero
  | inDigits
  | inDigit
  | inExpE
  | inMantissa
  | inMantissaDigits
  | inNonzeroNumber
  | inNegNonzeroNumber
  | inKeyword
  | inEscape
  | inEscapeL
  | inEscapeLl
  | inEscapeI
  | inEscapeI6
  | inEscapeI64
  | inWhitespace
  | inStart
  deriving DecidableEq

/-- `JSONTokenType`. The table of the lexer has states and types in the same bytes, and the
lexer passes its state as the type of a token that has grown too large. -/
inductive JsonTokenType where
  | operator
  | integer
  | float
  | keyword
  | string
  | escape
  | skip
  | error
  | state (s : JsonLexerState)
  deriving DecidableEq

structure JsonToken where
  type : JsonTokenType
  token : List UInt8
  deriving DecidableEq

namespace JsonChar

def quote : UInt8 := 0x22
def percent : UInt8 := 0x25
def apostrophe : UInt8 := 0x27
def comma : UInt8 := 0x2C
def slash : UInt8 := 0x2F
def colon : UInt8 := 0x3A
def leftBracket : UInt8 := 0x5B
def backslash : UInt8 := 0x5C
def rightBracket : UInt8 := 0x5D
def leftBrace : UInt8 := 0x7B
def rightBrace : UInt8 := 0x7D

def isDigit (c : UInt8) : Bool := 0x30 ≤ c && c ≤ 0x39

def isHex (c : UInt8) : Bool := isDigit c || 0x61 ≤ c && c ≤ 0x66 || 0x41 ≤ c && c ≤ 0x46

end JsonChar

open JsonChar

def tokenIsOperator (tok : JsonToken) (op : UInt8) : Bool :=
  tok.type == .operator && tok.token == [op]

/-- The bytes of a word -/
def asciiBytes (word : String) : List UInt8 := word.toList.map fun c => c.toNat.toUInt8

/-! ## Values -/

/-- `QObject`. A float is kept as the text that `strtod` gets. -/
inductive JsonValue where
  | string (s : List UInt8)
  | int (n : ℤ)
  | float (text : List UInt8)
  | bool (b : Bool)
  | dict (entries : List (List UInt8 × JsonValue))
  | list (items : List JsonValue)

/-- `qdict_put_obj` replaces the value of a key that is there. -/
def qdictPutObj (key : List UInt8) (value : JsonValue) :
    List (List UInt8 × JsonValue) → List (List UInt8 × JsonValue)
  | [] => [(key, value)]
  | (k, v) :: entries =>
    if k = key then (k, value) :: entries else (k, v) :: qdictPutObj key value entries

/-- What `parse_error` is called with. The texts for a missing token are not among them :
the tokens are never `NULL`. -/
inductive JsonParseError where
  | keyNotString
  | missingColon
  | missingValue
  | dictSeparator
  | listSeparator
  | expectingValue
  | invalidKeyword (token : List UInt8)
  | invalidHexEscape
  | invalidEscape
  deriving DecidableEq

def JsonParseError.message : JsonParseError → List UInt8
  | keyNotString => asciiBytes "key is not a string in object"
  | missingColon => asciiBytes "missing : in object pair"
  | missingValue => asciiBytes "Missing value in dict"
  | dictSeparator => asciiBytes "expected separator in dict"
  | listSeparator => asciiBytes "expected separator in list"
  | expectingValue => asciiBytes "expecting value"
  | invalidKeyword token => asciiBytes "invalid keyword `" ++ token ++ [apostrophe]
  | invalidHexEscape => asciiBytes "invalid hex escape sequence in string"
  | invalidEscape => asciiBytes "invalid escape sequence in string"

/-! ## Strings and numbers -/

/-- The bytes that `qstring_append` takes from the buffer, which end at a zero -/
def wcharToUtf8 (wchar : ℕ) : List UInt8 :=
  if wchar = 0 then []
  else if wchar ≤ 0x7F then [wchar.toUInt8]
  else if wchar ≤ 0x7FF then [(0xC0 + wchar / 64).toUInt8, (0x80 + wchar % 64).toUInt8]
  else [(0xE0 + wchar / 4096).toUInt8, (0x80 + wchar / 64 % 64).toUInt8,
    (0x80 + wchar % 64).toUInt8]

def hex2decimal (c : UInt8) : ℕ :=
  if isDigit c then c.toNat - 0x30
  else if 0x61 ≤ c then 10 + (c.toNat - 0x61)
  else 10 + (c.toNat - 0x41)

/-- What an escape stands for, but for `\u` -/
def escapedChar (c : UInt8) : Option UInt8 :=
  if c = quote ∨ c = apostrophe ∨ c = backslash ∨ c = slash then some c
  else if c = 0x62 then some 8
  else if c = 0x66 then some 12
  else if c = 0x6E then some 10
  else if c = 0x72 then some 13
  else if c = 0x74 then some 9
  else none

/-- The loop of `qstring_from_escaped_str`, up to the closing quote or the end -/
def unescape (close : UInt8) : List UInt8 → Except JsonParseError (List UInt8)
  | [] => .ok []
  | c :: cs =>
    if c = close then .ok []
    else if c ≠ backslash then (unescape close cs).map (c :: ·)
    else match cs with
      | [] => .error .invalidEscape
      | e :: cs =>
        if e = 0x75 then
          match cs with
          | h0 :: h1 :: h2 :: h3 :: cs =>
            if isHex h0 && isHex h1 && isHex h2 && isHex h3 then
              let wchar := 4096 * hex2decimal h0 + 256 * hex2decimal h1 + 16 * hex2decimal h2 +
                hex2decimal h3
              (unescape close cs).map (wcharToUtf8 wchar ++ ·)
            else .error .invalidHexEscape
          | _ => .error .invalidHexEscape
        else match escapedChar e with
          | some c => (unescape close cs).map (c :: ·)
          | none => .error .invalidEscape

def qstringFromEscapedStr (token : List UInt8) : Except JsonParseError (List UInt8) :=
  match token with
  | [] => .ok []
  | c :: cs => unescape (if c = quote then quote else apostrophe) cs

/-- The number that the digits at the start of a text stand for -/
def digitsValue (text : List UInt8) : ℕ :=
  (text.takeWhile isDigit).foldl (fun n c => 10 * n + (c.toNat - 0x30)) 0

/-- `strtoll` of a token of the lexer; `none` is `ERANGE`. -/
def strtoll (text : List UInt8) : Option ℤ :=
  let n : ℤ := match text with
    | 0x2D :: digits => -digitsValue digits
    | digits => digitsValue digits
  if -2 ^ 63 ≤ n ∧ n < 2 ^ 63 then some n else none

/-! ## The parser -/

/-- `rest` is the part of the tokens from `pos` on. `args` counts the calls of `va_arg`. -/
structure JsonCtx where
  rest : List JsonToken
  args : ℕ
  err : Option JsonParseError

inductive JsonResult (β : Type) where
  | value (v : β) (ctx : JsonCtx)
  | null (ctx : JsonCtx)
  | abort
  | outOfFuel

namespace JsonResult

variable {β γ : Type}

/-- Go on with a value. -/
def andThen (r : JsonResult β) (f : β → JsonCtx → JsonResult γ) : JsonResult γ :=
  match r with
  | value v ctx => f v ctx
  | null ctx => null ctx
  | abort => abort
  | outOfFuel => outOfFuel

/-- Try the next rule after a `NULL`. -/
def orElse (r : JsonResult β) (f : JsonCtx → JsonResult β) : JsonResult β :=
  match r with
  | null ctx => f ctx
  | r => r

/-- The `out` label : the tokens are restored, and the error is the caller's, if it sets one. -/
def restore (r : JsonResult β) (saved : List JsonToken) : JsonResult β :=
  match r with
  | null ctx => null { ctx with rest := saved }
  | r => r

/-- `parse_error` after a `NULL` -/
def orError (r : JsonResult β) (e : JsonParseError) : JsonResult β :=
  match r with
  | null ctx => null { ctx with err := some e }
  | r => r

end JsonResult

section Parser

-- what the `n`-th `va_arg` gives, as an object; `none` for no argument list
variable (ap : Option (ℕ → JsonValue))

def parserContextPopToken {β : Type} (ctx : JsonCtx) (f : JsonToken → JsonCtx → JsonResult β) :
    JsonResult β :=
  match ctx.rest with
  | [] => .abort
  | tok :: rest => f tok { ctx with rest := rest }

def parserContextPeekToken {β : Type} (ctx : JsonCtx) (f : JsonToken → JsonResult β) :
    JsonResult β :=
  match ctx.rest with
  | [] => .abort
  | tok :: _ => f tok

def parseLiteral (ctx : JsonCtx) : JsonResult JsonValue :=
  parserContextPopToken ctx fun tok ctx' =>
    match tok.type with
    | .string =>
      -- without a string there is nothing to return, and the token stays taken
      match qstringFromEscapedStr tok.token with
      | .ok s => .value (.string s) ctx'
      | .error e => .null { ctx' with err := some e }
    | .integer =>
      match strtoll tok.token with
      | some n => .value (.int n) ctx'
      | none => .value (.float tok.token) ctx'
    | .float => .value (.float tok.token) ctx'
    | _ => .null ctx

def parseKeyword (ctx : JsonCtx) : JsonResult JsonValue :=
  parserContextPopToken ctx fun tok ctx' =>
    if tok.type ≠ .keyword then .null ctx
    else if tok.token = asciiBytes "true" then .value (.bool true) ctx'
    else if tok.token = asciiBytes "false" then .value (.bool false) ctx'
    else .null { ctx with err := some (.invalidKeyword tok.token) }

/-- The conversions of `parse_escape` -/
def escapeTokens : List (List UInt8) :=
  ["%p", "%i", "%d", "%ld", "%lld", "%I64d", "%s", "%f"].map asciiBytes

def parseEscape (ctx : JsonCtx) : JsonResult JsonValue :=
  match ap with
  | none => .null ctx
  | some arg =>
    parserContextPopToken ctx fun tok ctx' =>
      if tok.type = .escape ∧ tok.token ∈ escapeTokens then
        .value (arg ctx.args) { ctx' with args := ctx.args + 1 }
      else .null ctx

variable (parseValue : JsonCtx → JsonResult JsonValue)

def parsePair (dict : List (List UInt8 × JsonValue)) (ctx : JsonCtx) :
    JsonResult (List (List UInt8 × JsonValue)) :=
  (parserContextPeekToken ctx fun _ =>
    ((parseValue ctx).orError .keyNotString).andThen fun key ctx =>
      match key with
      | .string key =>
        parserContextPopToken ctx fun tok ctx =>
          if tokenIsOperator tok colon then
            ((parseValue ctx).orError .missingValue).andThen fun value ctx =>
              .value (qdictPutObj key value dict) ctx
          else .null { ctx with err := some .missingColon }
      | _ => .null { ctx with err := some .keyNotString }).restore ctx.rest

/-- The loop of `parse_object`, from the pop after a pair on -/
def parseObjectLoop : ℕ → List (List UInt8 × JsonValue) → JsonCtx → JsonResult JsonValue
  | 0, _, _ => .outOfFuel
  | fuel + 1, dict, ctx =>
    parserContextPopToken ctx fun tok ctx =>
      if tokenIsOperator tok rightBrace then .value (.dict dict) ctx
      else if tokenIsOperator tok comma then
        (parsePair parseValue dict ctx).andThen fun dict ctx => parseObjectLoop fuel dict ctx
      else .null { ctx with err := some .dictSeparator }

def parseObject (fuel : ℕ) (ctx : JsonCtx) : JsonResult JsonValue :=
  (parserContextPopToken ctx fun tok ctx =>
    if tokenIsOperator tok leftBrace then
      parserContextPeekToken ctx fun peek =>
        if tokenIsOperator peek rightBrace then
          parserContextPopToken ctx fun _ ctx => .value (.dict []) ctx
        else
          (parsePair parseValue [] ctx).andThen fun dict ctx =>
            parseObjectLoop parseValue fuel dict ctx
    else .null ctx).restore ctx.rest

/-- The loop of `parse_array`, from the pop after a value on -/
def parseArrayLoop : ℕ → List JsonValue → JsonCtx → JsonResult JsonValue
  | 0, _, _ => .outOfFuel
  | fuel + 1, list, ctx =>
    parserContextPopToken ctx fun tok ctx =>
      if tokenIsOperator tok rightBracket then .value (.list list) ctx
      else if tokenIsOperator tok comma then
        ((parseValue ctx).orError .expectingValue).andThen fun obj ctx =>
          parseArrayLoop fuel (list ++ [obj]) ctx
      else .null { ctx with err := some .listSeparator }

def parseArray (fuel : ℕ) (ctx : JsonCtx) : JsonResult JsonValue :=
  (parserContextPopToken ctx fun tok ctx =>
    if tokenIsOperator tok leftBracket then
      parserContextPeekToken ctx fun peek =>
        if tokenIsOperator peek rightBracket then
          parserContextPopToken ctx fun _ ctx => .value (.list []) ctx
        else
          ((parseValue ctx).orError .expectingValue).andThen fun obj ctx =>
            parseArrayLoop parseValue fuel [obj] ctx
    else .null ctx).restore ctx.rest

end Parser

def parseValue (ap : Option (ℕ → JsonValue)) : ℕ → JsonCtx → JsonResult JsonValue
  | 0, _ => .outOfFuel
  | fuel + 1, ctx =>
    ((((parseObject (parseValue ap fuel) fuel ctx).orElse
      (parseArray (parseValue ap fuel) fuel)).orElse
      (parseEscape ap)).orElse
      parseKeyword).orElse
      parseLiteral

/-- `json_parser_parse_err`. Without a context nothing is parsed. -/
def jsonParserParseErr (ap : Option (ℕ → JsonValue)) (tokens : Option (List JsonToken)) :
    JsonResult JsonValue :=
  match tokens with
  | none | some [] => .null ⟨[], 0, none⟩
  | some tokens => parseValue ap (tokens.length + 1) ⟨tokens, 0, none⟩

end QemuArm
