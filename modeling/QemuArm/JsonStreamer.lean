import QemuArm.JsonParser

/-!
# The JSON lexer and streamer

`qobject/json-lexer.c` and `qobject/json-streamer.c` : the lexer goes through a table of
states one byte at a time, and the streamer collects its tokens until braces and brackets are
balanced, each counted for itself, or a limit is passed; then it emits the list. The callback
parses the list with `json_parser_parse_err`.

The position of a token in the input is left out, since nothing reads it.
-/

namespace QemuArm

open JsonChar

/-! ## The table of the lexer -/

def isLower (c : UInt8) : Bool := 0x61 ≤ c && c ≤ 0x7A

def isSpace (c : UInt8) : Bool := c == 0x20 || c == 0x09 || c == 0x0D || c == 0x0A

/-- A byte that may stand in a string, quotes and backslashes apart -/
def isStringChar (c : UInt8) : Bool := 1 ≤ c && c ≤ 0xBF || 0xC2 ≤ c && c ≤ 0xF4

/-- `TERMINAL` -/
def terminal (type : JsonTokenType) (c : UInt8) : JsonTokenType :=
  if c ≤ 0x7F then type else .state .inError

/-- The state `next` after a byte of a kind, and an error after any other -/
def onlyOn (kind : UInt8 → Bool) (next : JsonLexerState) (c : UInt8) : JsonTokenType :=
  if kind c then .state next else .state .inError

/-- After a backslash in a string : `plain` after most, `solidus` after a slash or backslash -/
def stringEscape (plain solidus ucode : JsonLexerState) (c : UInt8) : JsonTokenType :=
  if c = 0x62 ∨ c = 0x66 ∨ c = 0x6E ∨ c = 0x72 ∨ c = 0x74 ∨ c = apostrophe ∨ c = quote then
    .state plain
  else if c = slash ∨ c = backslash then .state solidus
  else if c = 0x75 then .state ucode
  else .state .inError

def inString (close : UInt8) (self escape : JsonLexerState) (c : UInt8) : JsonTokenType :=
  if c = close then .string
  else if c = backslash then .state escape
  else onlyOn isStringChar self c

def expE (c : UInt8) : Bool := c == 0x65 || c == 0x45

/-- `json_lexer` -/
def jsonLexer (state : JsonLexerState) (c : UInt8) : JsonTokenType :=
  match state with
  | .inError => .state .inError
  | .inDqUcode3 => onlyOn isHex .inDqString c
  | .inDqUcode2 => onlyOn isHex .inDqUcode3 c
  | .inDqUcode1 => onlyOn isHex .inDqUcode2 c
  | .inDqUcode0 => onlyOn isHex .inDqUcode1 c
  | .inDqStringEscape => stringEscape .inDqString .inDqString .inDqUcode0 c
  | .inDqString => inString quote .inDqString .inDqStringEscape c
  | .inSqUcode3 => onlyOn isHex .inSqString c
  | .inSqUcode2 => onlyOn isHex .inSqUcode3 c
  | .inSqUcode1 => onlyOn isHex .inSqUcode2 c
  | .inSqUcode0 => onlyOn isHex .inSqUcode1 c
  -- a slash or backslash leads into the strings with the other quote
  | .inSqStringEscape => stringEscape .inSqString .inDqString .inSqUcode0 c
  | .inSqString => inString apostrophe .inSqString .inSqStringEscape c
  | .inZero =>
    if isDigit c then .state .inError
    else if c = 0x2E then .state .inMantissa
    else terminal .integer c
  | .inDigits => if isDigit c then .state .inDigits else terminal .float c
  | .inDigit => onlyOn isDigit .inDigits c
  | .inExpE => if c = 0x2D ∨ c = 0x2B then .state .inDigit else onlyOn isDigit .inDigits c
  | .inMantissaDigits =>
    if isDigit c then .state .inMantissaDigits
    else if expE c then .state .inExpE
    else terminal .float c
  | .inMantissa => onlyOn isDigit .inMantissaDigits c
  | .inNonzeroNumber =>
    if isDigit c then .state .inNonzeroNumber
    else if expE c then .state .inExpE
    else if c = 0x2E then .state .inMantissa
    else terminal .integer c
  | .inNegNonzeroNumber => if c = 0x30 then .state .inZero else onlyOn isDigit .inNonzeroNumber c
  | .inKeyword => if isLower c then .state .inKeyword else terminal .keyword c
  | .inWhitespace => if isSpace c then .state .inWhitespace else terminal .skip c
  | .inEscapeLl | .inEscapeI64 => if c = 0x64 then .escape else .state .inError
  | .inEscapeL =>
    if c = 0x64 then .escape else if c = 0x6C then .state .inEscapeLl else .state .inError
  | .inEscapeI6 => if c = 0x34 then .state .inEscapeI64 else .state .inError
  | .inEscapeI => if c = 0x36 then .state .inEscapeI6 else .state .inError
  | .inEscape =>
    if c = 0x64 ∨ c = 0x69 ∨ c = 0x70 ∨ c = 0x73 ∨ c = 0x66 then .escape
    else if c = 0x6C then .state .inEscapeL
    else if c = 0x49 then .state .inEscapeI
    else .state .inError
  | .inStart =>
    if c = quote then .state .inDqString
    else if c = apostrophe then .state .inSqString
    else if c = 0x30 then .state .inZero
    else if isDigit c then .state .inNonzeroNumber
    else if c = 0x2D then .state .inNegNonzeroNumber
    else if c ∈ [leftBrace, rightBrace, leftBracket, rightBracket, comma, colon] then .operator
    else if isLower c then .state .inKeyword
    else if c = percent then .state .inEscape
    else onlyOn isSpace .inWhitespace c

/-! ## The streamer -/

/-- The limit of the lexer for a token, and of the streamer for a message -/
def jsonMaxTokenSize : ℕ := 64 * 2 ^ 20

def jsonMaxNesting : ℤ := 1024

/-- What the streamer keeps between tokens -/
structure JsonNesting where
  braceCount : ℤ
  bracketCount : ℤ
  tokens : List JsonToken
  tokenSize : ℕ

def JsonNesting.init : JsonNesting := ⟨0, 0, [], 0⟩

/-- History : a list that was emitted (`none` for `NULL`), what the callback made of it, and
the streamer after it. -/
structure JsonEmission where
  tokens : Option (List JsonToken)
  result : JsonResult JsonValue
  after : JsonNesting

structure JsonMessageParser where
  state : JsonLexerState
  token : List UInt8
  nesting : JsonNesting
  emitted : List JsonEmission
  aborted : Bool

def JsonMessageParser.init : JsonMessageParser := ⟨.inStart, [], .init, [], false⟩

def JsonResult.isAbort {β : Type} : JsonResult β → Bool
  | .abort => true
  | _ => false

/-- By how much a token changes `brace_count` and `bracket_count` -/
def JsonToken.brace (tok : JsonToken) : ℤ :=
  if tok.type = .operator then
    if tok.token.head? = some leftBrace then 1
    else if tok.token.head? = some rightBrace then -1 else 0
  else 0

def JsonToken.bracket (tok : JsonToken) : ℤ :=
  if tok.type = .operator then
    if tok.token.head? = some leftBracket then 1
    else if tok.token.head? = some rightBracket then -1 else 0
  else 0

/-- The streamer has counted and stored a token. -/
def JsonNesting.add (n : JsonNesting) (tok : JsonToken) : JsonNesting where
  braceCount := n.braceCount + tok.brace
  bracketCount := n.bracketCount + tok.bracket
  tokens := n.tokens ++ [tok]
  tokenSize := n.tokenSize + tok.token.length

/-- A message has ended, with balanced braces and brackets or one too many. -/
def JsonNesting.closed (n : JsonNesting) : Bool :=
  n.braceCount < 0 || n.bracketCount < 0 || n.braceCount == 0 && n.bracketCount == 0

def JsonNesting.overLimit (n : JsonNesting) : Bool :=
  jsonMaxTokenSize < n.tokenSize || jsonMaxNesting < n.bracketCount || jsonMaxNesting < n.braceCount

section Feed

variable (ap : Option (ℕ → JsonValue))

/-- The label `out_emit`, with the callback -/
def jsonEmit (tokens : Option (List JsonToken)) (p : JsonMessageParser) : JsonMessageParser :=
  let result := jsonParserParseErr ap tokens
  { p with
    nesting := .init
    emitted := p.emitted ++ [⟨tokens, result, .init⟩]
    aborted := result.isAbort }

/-- Nothing happens any more after a failed assertion. -/
def jsonMessageProcessToken (tok : JsonToken) (p : JsonMessageParser) : JsonMessageParser :=
  if p.aborted then p
  else
    let nesting := p.nesting.add tok
    if tok.type = .error then jsonEmit ap none p
    else if nesting.closed || nesting.overLimit then jsonEmit ap (some nesting.tokens) p
    else { p with nesting := nesting }

/-- `char_consumed` : the byte is part of the token, and was no `TERMINAL_NEEDED_LOOKAHEAD`. -/
def charConsumed (state : JsonLexerState) (ch : UInt8) : Bool :=
  jsonLexer state 0 ≠ jsonLexer state ch

/-- The body of the `do` loop of `json_lexer_feed_char` -/
def jsonLexerStep (ch : UInt8) (p : JsonMessageParser) : JsonMessageParser :=
  let token := if charConsumed p.state ch then p.token ++ [ch] else p.token
  match jsonLexer p.state ch with
  | .skip => { p with state := .inStart, token := [] }
  | .state .inError =>
    { jsonMessageProcessToken ap ⟨.error, token⟩ p with state := .inStart, token := [] }
  | .state s => { p with state := s, token := token }
  | type => { jsonMessageProcessToken ap ⟨type, token⟩ p with state := .inStart, token := [] }

/-- The loop. An error returns at once. -/
def jsonLexerLoop (flush : Bool) (ch : UInt8) : ℕ → JsonMessageParser → JsonMessageParser
  | 0, p => p
  | fuel + 1, p =>
    if charConsumed p.state ch || flush || jsonLexer p.state ch == .state .inError then
      jsonLexerStep ap ch p
    else jsonLexerLoop flush ch fuel (jsonLexerStep ap ch p)

/-- A byte is looked at twice at most. -/
def jsonLexerFeedChar (flush : Bool) (ch : UInt8) (p : JsonMessageParser) : JsonMessageParser :=
  let p := jsonLexerLoop ap flush ch 2 p
  if jsonMaxTokenSize < p.token.length then
    { jsonMessageProcessToken ap ⟨.state p.state, p.token⟩ p with state := .inStart, token := [] }
  else p

def jsonMessageParserFeed (buffer : List UInt8) (p : JsonMessageParser) : JsonMessageParser :=
  buffer.foldl (fun p ch => jsonLexerFeedChar ap false ch p) p

def jsonMessageParserFlush (p : JsonMessageParser) : JsonMessageParser :=
  if p.state = .inStart then p else jsonLexerFeedChar ap true 0 p

end Feed

/-- The table has no state at the byte zero but the error. -/
theorem jsonLexer_zero (state s : JsonLexerState) (h : jsonLexer state 0 = .state s) :
    s = .inError := by
  cases state <;> cases h <;> rfl

/-- What needs a look at the next byte ends a token, and the next byte starts a new one : two
rounds of the loop are all that there are. -/
theorem jsonLexerLoop_fuel (ap : Option (ℕ → JsonValue)) (flush : Bool) (ch : UInt8) (fuel : ℕ)
    (p : JsonMessageParser) :
    jsonLexerLoop ap flush ch (fuel + 2) p = jsonLexerLoop ap flush ch 2 p := by
  have hstart : ∀ fuel (q : JsonMessageParser), q.state = .inStart →
      jsonLexerLoop ap flush ch (fuel + 1) q = jsonLexerStep ap ch q := by
    intro fuel q hq
    have hzero : jsonLexer .inStart 0 = .state .inError := by decide
    rw [jsonLexerLoop]
    by_cases h : jsonLexer .inStart ch = .state .inError
    · simp [hq, h]
    · have h' : ¬JsonTokenType.state .inError = jsonLexer .inStart ch := fun heq => h heq.symm
      simp [hq, charConsumed, hzero, h']
  have hround : ∀ n, jsonLexerLoop ap flush ch (n + 2) p =
      if charConsumed p.state ch || flush || jsonLexer p.state ch == .state .inError then
        jsonLexerStep ap ch p
      else jsonLexerLoop ap flush ch (n + 1) (jsonLexerStep ap ch p) := fun _ => rfl
  rw [hround fuel, hround 0]
  split_ifs with h
  · rfl
  · have hstate : (jsonLexerStep ap ch p).state = .inStart := by
      simp only [Bool.or_eq_true, not_or, charConsumed, decide_eq_true_eq, not_not, beq_iff_eq] at h
      obtain ⟨⟨h1, -⟩, h3⟩ := h
      unfold jsonLexerStep
      dsimp only
      split
      · rfl
      · rfl
      · rename_i s hne hs
        exact absurd (jsonLexer_zero p.state s (h1.trans hs) ▸ hs) h3
      · rfl
    rw [hstart fuel _ hstate, hstart 0 _ hstate]

/-- What is fed to the parser -/
inductive JsonOp where
  | feed (buffer : List UInt8)
  | flush

def jsonRun (ap : Option (ℕ → JsonValue)) (ops : List JsonOp) : JsonMessageParser :=
  ops.foldl (fun p op => match op with
    | .feed buffer => jsonMessageParserFeed ap buffer p
    | .flush => jsonMessageParserFlush ap p) .init

end QemuArm
