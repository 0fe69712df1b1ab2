import QemuArm.JsonGrammar
import QemuArm.JsonStreamer

/-!
# The streamer and the parser together

The streamer emits a list as soon as braces and brackets are balanced or a count is negative.
A list that breaks off inside of a value has positive counts, and a value is balanced. So the
parser finds all its tokens, and uses them all, in every list that was not emitted because of
a limit. A list that was can end inside of a value, and then the assertion fails
(`json_messages_iff`) : it takes no more than 1025 opening brackets (`json_messages_fail`).
-/

namespace QemuArm

open List JsonNesting

open JsonChar

variable {ap : Option (ℕ → JsonValue)}

/-! ## Braces and brackets -/

/-- What a token adds to `brace_count` and to `bracket_count` -/
def JsonToken.depth (tok : JsonToken) : ℤ × ℤ := (tok.brace, tok.bracket)

/-- `brace_count` and `bracket_count` after the tokens -/
def depth (ts : List JsonToken) : ℤ × ℤ := (ts.map JsonToken.depth).sum

def tokenBytes (ts : List JsonToken) : ℕ := (ts.map fun tok => tok.token.length).sum

@[simp] theorem depth_nil : depth [] = 0 := rfl

@[simp] theorem depth_cons (t : JsonToken) (ts : List JsonToken) :
    depth (t :: ts) = t.depth + depth ts := by
  simp [depth]

@[simp] theorem depth_append (ts us : List JsonToken) : depth (ts ++ us) = depth ts + depth us := by
  simp [depth]

@[simp] theorem depth_leftBrace : (opToken leftBrace).depth = (1, 0) := rfl

@[simp] theorem depth_rightBrace : (opToken rightBrace).depth = (-1, 0) := rfl

@[simp] theorem depth_leftBracket : (opToken leftBracket).depth = (0, 1) := rfl

@[simp] theorem depth_rightBracket : (opToken rightBracket).depth = (0, -1) := rfl

@[simp] theorem depth_colon : (opToken colon).depth = 0 := rfl

@[simp] theorem depth_comma : (opToken comma).depth = 0 := rfl

/-- A token that is no operator counts for nothing. -/
theorem JsonToken.depth_of_type {tok : JsonToken} (h : tok.type ≠ .operator) : tok.depth = 0 := by
  simp [JsonToken.depth, JsonToken.brace, JsonToken.bracket, h]

variable {ts : List JsonToken} {v : JsonValue}

theorem Denotes.balanced {rule : JsonRule} {a b : ℕ} (h : Denotes ap rule a ts v b) :
    depth ts = 0 := by
  induction h with
  | @literal a tok v h =>
    have htype : tok.type ≠ .operator := by
      intro htype
      simp [htype] at h
    simp [tok.depth_of_type htype]
  | @escape a tok arg hap htype =>
    simp [tok.depth_of_type (by rw [htype]; nofun)]
  | emptyObject | emptyArray => simp
  | object h ih | array h ih => simp [ih]
  | pair hk hv ihk ihv => simp [ihk, ihv]
  | pairCons hk hv h ihk ihv ih => simp [ihk, ihv, ih]
  | item hv ih => exact ih
  | itemCons hv h ihv ih => simp [ihv, ih]

/-- Inside of a value the counts are those of the braces and brackets around. -/
theorem BreaksOff.depth_nonneg {part a} (h : BreaksOff ap part a ts) :
    0 ≤ depth ts ∧ (part = .value → ts ≠ [] → depth ts ≠ 0) := by
  induction h with
  | nothing => exact ⟨le_rfl, fun _ hne => absurd rfl hne⟩
  | @object a ts h ih =>
    obtain ⟨h1, h2⟩ := Prod.le_def.1 ih.1
    simp only [depth_cons, depth_leftBrace, Prod.le_def, ne_eq, Prod.ext_iff, Prod.fst_add,
      Prod.snd_add, Prod.fst_zero, Prod.snd_zero] at h1 h2 ⊢
    omega
  | @array a ts h ih =>
    obtain ⟨h1, h2⟩ := Prod.le_def.1 ih.1
    simp only [depth_cons, depth_leftBracket, Prod.le_def, ne_eq, Prod.ext_iff, Prod.fst_add,
      Prod.snd_add, Prod.fst_zero, Prod.snd_zero] at h1 h2 ⊢
    omega
  | key h ih | item h ih => exact ⟨ih.1, nofun⟩
  | afterKey hk => exact ⟨hk.balanced.ge, nofun⟩
  | afterItem hv => exact ⟨hv.balanced.ge, nofun⟩
  | pairValue hk h ih => exact ⟨by simpa [hk.balanced] using ih.1, nofun⟩
  | afterPair hk hv => exact ⟨by simp [hk.balanced, hv.balanced], nofun⟩
  | nextPair hk hv h ih => exact ⟨by simpa [hk.balanced, hv.balanced] using ih.1, nofun⟩
  | nextItem hv h ih => exact ⟨by simpa [hv.balanced] using ih.1, nofun⟩

/-! ## What the streamer emits -/

/-- After these tokens the streamer waits for more. -/
def StillOpen (ts : List JsonToken) : Prop := 0 ≤ depth ts ∧ depth ts ≠ 0

/-- The streamer emits these tokens because of a limit, if it has not emitted them before. -/
def PastLimit (ts : List JsonToken) : Prop :=
  jsonMaxTokenSize < tokenBytes ts ∨ jsonMaxNesting < (depth ts).2 ∨ jsonMaxNesting < (depth ts).1

/-- A list that the streamer emits : it has waited for more at each earlier token. -/
structure Emitted (ts : List JsonToken) : Prop where
  ne_nil : ts ≠ []
  before : ∀ us vs, ts = us ++ vs → us ≠ [] → vs ≠ [] → StillOpen us
  cause : ¬StillOpen ts ∨ PastLimit ts

/-- A list with a value at its start is that value. -/
theorem Emitted.eq_of_denotes {us vs} (h : Emitted ts) (hts : ts = us ++ vs)
    (hus : us ≠ []) {a b} (hden : Denotes ap .value a us v b) : vs = [] := by
  by_contra hvs
  exact (h.before us vs hts hus hvs).2 hden.balanced

theorem Emitted.pastLimit (h : Emitted ts) {a} (hbr : BreaksOff ap .value a ts) : PastLimit ts := by
  refine h.cause.resolve_left fun hopen => hopen ?_
  exact ⟨hbr.depth_nonneg.1, hbr.depth_nonneg.2 rfl h.ne_nil⟩

structure JsonStreamInv (ap : Option (ℕ → JsonValue)) (p : JsonMessageParser) : Prop where
  counts : (p.nesting.braceCount, p.nesting.bracketCount) = depth p.nesting.tokens
  size : p.nesting.tokenSize = tokenBytes p.nesting.tokens
  waits : ∀ us vs, p.nesting.tokens = us ++ vs → us ≠ [] → StillOpen us
  emitted : ∀ e ∈ p.emitted, e.after = .init ∧ e.result = jsonParserParseErr ap e.tokens ∧
    ∀ ts, e.tokens = some ts → Emitted ts

open JsonStreamInv

theorem jsonStreamInv_init : JsonStreamInv ap .init where
  counts := rfl
  size := rfl
  waits _ _ h hus := absurd (append_eq_nil_iff.1 h.symm).1 hus
  emitted := nofun

variable {p : JsonMessageParser}

/-- Nothing of the lexer matters for the streamer. -/
theorem JsonStreamInv.congr (h : JsonStreamInv ap p) {p'}
    (hnest : p'.nesting = p.nesting) (hemit : p'.emitted = p.emitted) : JsonStreamInv ap p' := by
  obtain ⟨h1, h2, h3, h4⟩ := h
  rw [← hnest] at h1 h2 h3
  rw [← hemit] at h4
  exact ⟨h1, h2, h3, h4⟩

theorem JsonStreamInv.emit (h : JsonStreamInv ap p) {tokens}
    (htokens : ∀ ts, tokens = some ts → Emitted ts) : JsonStreamInv ap (jsonEmit ap tokens p) where
  counts := rfl
  size := rfl
  waits us vs hts hus := absurd (append_eq_nil_iff.1 (show [] = us ++ vs from hts).symm).1 hus
  emitted e he := by
    rcases mem_append.1 he with he | he
    · exact h.emitted e he
    · obtain rfl := mem_singleton.1 he
      exact ⟨rfl, rfl, htokens⟩

variable {n : JsonNesting}

theorem JsonNesting.add_counts (tok : JsonToken)
    (h : (n.braceCount, n.bracketCount) = depth n.tokens) :
    ((n.add tok).braceCount, (n.add tok).bracketCount) = depth (n.add tok).tokens := by
  simp only [add, depth_append, depth_cons, depth_nil, ← h, JsonToken.depth]
  simp

theorem JsonNesting.closed_iff (h : (n.braceCount, n.bracketCount) = depth n.tokens) :
    n.closed = true ↔ ¬StillOpen n.tokens := by
  rw [StillOpen, ← h]
  simp only [closed, Prod.le_def, Prod.fst_zero, Prod.snd_zero, ne_eq, Prod.ext_iff,
    Bool.or_eq_true, Bool.and_eq_true, decide_eq_true_eq, beq_iff_eq]
  omega

theorem JsonNesting.overLimit_iff (h : (n.braceCount, n.bracketCount) = depth n.tokens)
    (hsize : n.tokenSize = tokenBytes n.tokens) : n.overLimit = true ↔ PastLimit n.tokens := by
  simp [overLimit, PastLimit, ← h, hsize, or_assoc]

namespace JsonStreamInv

theorem processToken (h : JsonStreamInv ap p) (tok : JsonToken) :
    JsonStreamInv ap (jsonMessageProcessToken ap tok p) := by
  unfold jsonMessageProcessToken
  dsimp only
  have hcounts := add_counts tok h.counts
  have hsize : (p.nesting.add tok).tokenSize = tokenBytes (p.nesting.add tok).tokens := by
    simp [add, h.size, tokenBytes]
  -- a part of the new list that is not all of it was there before
  have hbefore : ∀ us vs, (p.nesting.add tok).tokens = us ++ vs → us ≠ [] → vs ≠ [] →
      StillOpen us := by
    intro us vs hts hus hvs
    obtain ⟨vs', t, rfl⟩ := (eq_nil_or_concat' vs).resolve_left hvs
    rw [← append_assoc] at hts
    exact h.waits us vs' (append_inj' hts rfl).1 hus
  split_ifs with h1 h2 h3
  · exact h
  · exact h.emit nofun
  · refine h.emit fun ts hts => ?_
    cases hts
    refine ⟨?_, hbefore, ?_⟩
    · simp [add]
    · rw [← closed_iff hcounts, ← overLimit_iff hcounts hsize]
      simpa using h3
  · refine ⟨hcounts, hsize, fun us vs hts hus => ?_, h.emitted⟩
    by_cases hvs : vs = []
    · rw [hvs, append_nil] at hts
      rw [Bool.or_eq_true, not_or, closed_iff hcounts] at h3
      exact hts ▸ not_not.1 h3.1
    · exact hbefore us vs hts hus hvs

theorem lexerStep (h : JsonStreamInv ap p) (ch : UInt8) :
    JsonStreamInv ap (jsonLexerStep ap ch p) := by
  unfold jsonLexerStep
  dsimp only
  split
  · exact h.congr rfl rfl
  · exact (h.processToken _).congr rfl rfl
  · exact h.congr rfl rfl
  · exact (h.processToken _).congr rfl rfl

theorem lexerLoop (flush : Bool) (ch : UInt8) :
    ∀ (fuel : ℕ) {p : JsonMessageParser},
    JsonStreamInv ap p → JsonStreamInv ap (jsonLexerLoop ap flush ch fuel p)
  | 0, _, h => h
  | fuel + 1, _, h => by
    rw [jsonLexerLoop]
    split_ifs
    · exact h.lexerStep ch
    · exact lexerLoop flush ch fuel (h.lexerStep ch)

theorem feedChar (h : JsonStreamInv ap p) (flush : Bool) (ch : UInt8) :
    JsonStreamInv ap (jsonLexerFeedChar ap flush ch p) := by
  have hloop := lexerLoop flush ch 2 h
  unfold jsonLexerFeedChar
  dsimp only
  split_ifs
  · exact (hloop.processToken _).congr rfl rfl
  · exact hloop

theorem feed : ∀ (buffer : List UInt8) {p : JsonMessageParser}, JsonStreamInv ap p →
    JsonStreamInv ap (jsonMessageParserFeed ap buffer p)
  | [], _, h => h
  | ch :: buffer, _, h => feed buffer (h.feedChar false ch)

theorem flush (h : JsonStreamInv ap p) : JsonStreamInv ap (jsonMessageParserFlush ap p) := by
  unfold jsonMessageParserFlush
  split_ifs
  · exact h
  · exact h.feedChar true 0

end JsonStreamInv

theorem jsonStreamInv_run (ap : Option (ℕ → JsonValue)) (ops : List JsonOp) :
    JsonStreamInv ap (jsonRun ap ops) := by
  refine List.foldlRecOn ops _ jsonStreamInv_init fun p h op _ => ?_
  cases op with
  | feed buffer => exact feed buffer h
  | flush => exact h.flush

/-! ## The parser on what the streamer emits -/

/-- The fuel is enough. -/
theorem jsonParserParseErr_ne_outOfFuel (ap : Option (ℕ → JsonValue))
    (tokens : Option (List JsonToken)) : jsonParserParseErr ap tokens ≠ .outOfFuel := by
  unfold jsonParserParseErr
  split
  · nofun
  · nofun
  · rename_i ts _
    intro h
    have := (parserSpec ap (ts.length + 1)).le_of_outOfFuel h
    exact absurd this (Nat.not_succ_le_self _)

theorem jsonParserParseErr_some (hne : ts ≠ []) :
    jsonParserParseErr ap (some ts) = parseValue ap (ts.length + 1) ⟨ts, 0, none⟩ := by
  cases ts with
  | nil => exact absurd rfl hne
  | cons t ts => rfl

/-- The assertion fails exactly on lists that break off. -/
theorem jsonParserParseErr_abort_iff (hne : ts ≠ []) :
    jsonParserParseErr ap (some ts) = .abort ↔ BreaksOff ap .value 0 ts := by
  have hspec := parserSpec ap (ts.length + 1)
  rw [jsonParserParseErr_some hne]
  exact ⟨fun h => hspec.abort h, fun h => hspec.breaks ⟨ts, 0, none⟩ (Nat.lt_succ_self _) h⟩

/-- A value is made of all tokens of an emitted list. -/
theorem Emitted.denotes (h : Emitted ts) {c} (hv : jsonParserParseErr ap (some ts) = .value v c) :
    c.rest = [] ∧ Denotes ap .value 0 ts v c.args := by
  rw [jsonParserParseErr_some h.ne_nil] at hv
  obtain ⟨us, hus, hts, hden⟩ := (parserSpec ap (ts.length + 1)).sound hv
  have hrest := h.eq_of_denotes hts hus hden
  obtain rfl : ts = us := by simpa [hrest] using hts
  exact ⟨hrest, hden⟩

/-- No assertion has failed and every list was parsed to the end, the streamer was back in its
first state after each, and every value is that of all tokens of its list. -/
structure JsonSafe (ap : Option (ℕ → JsonValue)) (p : JsonMessageParser) : Prop where
  noAbort : ∀ e ∈ p.emitted, e.result ≠ .abort ∧ e.result ≠ .outOfFuel
  reset : ∀ e ∈ p.emitted, e.after = .init
  whole : ∀ e ∈ p.emitted, ∀ v c, e.result = .value v c →
    ∃ ts, e.tokens = some ts ∧ c.rest = [] ∧ Denotes ap .value 0 ts v c.args

/-- The lexer looks at a byte twice at most, and the parser is safe exactly on inputs of which no
list that the limits cut off ends inside of a value. -/
theorem json_messages_iff (ap : Option (ℕ → JsonValue)) (ops : List JsonOp) :
    (∀ flush ch fuel p, jsonLexerLoop ap flush ch (fuel + 2) p = jsonLexerLoop ap flush ch 2 p) ∧
    (JsonSafe ap (jsonRun ap ops) ↔ ∀ e ∈ (jsonRun ap ops).emitted, ∀ ts, e.tokens = some ts →
      PastLimit ts → ¬BreaksOff ap .value 0 ts) := by
  have hinv := jsonStreamInv_run ap ops
  refine ⟨jsonLexerLoop_fuel ap, ?_, ?_⟩
  · intro hsafe e he ts hts _ hbr
    obtain ⟨-, hresult, hemit⟩ := hinv.emitted e he
    refine (hsafe.noAbort e he).1 ?_
    rw [hresult, hts, jsonParserParseErr_abort_iff (hemit ts hts).ne_nil]
    exact hbr
  · intro hok
    refine ⟨fun e he => ?_, fun e he => (hinv.emitted e he).1, fun e he v c hv => ?_⟩
    · obtain ⟨-, hresult, hemit⟩ := hinv.emitted e he
      refine ⟨fun habort => ?_, hresult ▸ jsonParserParseErr_ne_outOfFuel ap e.tokens⟩
      cases hts : e.tokens with
      | none =>
        rw [hresult, hts] at habort
        cases habort
      | some ts =>
        rw [hresult, hts, jsonParserParseErr_abort_iff (hemit ts hts).ne_nil] at habort
        exact hok e he ts hts ((hemit ts hts).pastLimit habort) habort
    · obtain ⟨-, hresult, hemit⟩ := hinv.emitted e he
      cases hts : e.tokens with
      | none =>
        rw [hresult, hts] at hv
        cases hv
      | some ts =>
        rw [hresult, hts] at hv
        exact ⟨ts, rfl, (hemit ts hts).denotes hv⟩

/-! ## Too many brackets -/

theorem feedChar_leftBracket (hstate : p.state = .inStart) (htoken : p.token = []) :
    jsonLexerFeedChar ap false leftBracket p =
      { jsonMessageProcessToken ap (opToken leftBracket) p with
        state := .inStart, token := [] } := by
  obtain ⟨state, token, nesting, emitted, aborted⟩ := p
  obtain rfl : state = .inStart := hstate
  obtain rfl : token = [] := htoken
  rfl

/-- The streamer after `n` opening brackets -/
def openBrackets (n : ℕ) : JsonMessageParser :=
  ⟨.inStart, [], ⟨0, n, List.replicate n (opToken leftBracket), n⟩, [], false⟩

theorem openBrackets_add (n : ℕ) : (openBrackets n).nesting.add (opToken leftBracket) =
    (openBrackets (n + 1)).nesting := by
  have h1 : (opToken leftBracket).brace = 0 := rfl
  have h2 : (opToken leftBracket).bracket = 1 := rfl
  have h3 : (opToken leftBracket).token.length = 1 := rfl
  simp [openBrackets, add, h1, h2, h3, replicate_succ']

theorem openBrackets_succ {n} (hn : n < 1024) :
    jsonLexerFeedChar ap false leftBracket (openBrackets n) = openBrackets (n + 1) := by
  have hwait : ¬((openBrackets (n + 1)).nesting.closed ||
      (openBrackets (n + 1)).nesting.overLimit) =
      true := by
    simp [openBrackets, closed, overLimit, jsonMaxTokenSize, jsonMaxNesting]
    omega
  have htype : (opToken leftBracket).type ≠ .error := by decide
  rw [feedChar_leftBracket rfl rfl, jsonMessageProcessToken]
  dsimp only
  rw [openBrackets_add, if_neg hwait]
  rfl

/-- The bracket after the 1024th is past the limit. -/
theorem openBrackets_emit (ap : Option (ℕ → JsonValue)) {n} (hn : 1024 ≤ n) :
    (jsonLexerFeedChar ap false leftBracket (openBrackets n)).emitted =
      [⟨some (List.replicate (n + 1) (opToken leftBracket)),
        jsonParserParseErr ap (some (List.replicate (n + 1) (opToken leftBracket))), .init⟩] := by
  have hlimit : ((openBrackets (n + 1)).nesting.closed ||
      (openBrackets (n + 1)).nesting.overLimit) =
      true := by
    simp [openBrackets, overLimit, jsonMaxNesting]
    omega
  have htype : (opToken leftBracket).type ≠ .error := by decide
  rw [feedChar_leftBracket rfl rfl, jsonMessageProcessToken]
  dsimp only
  rw [openBrackets_add, if_pos hlimit]
  rfl

theorem feed_openBrackets (ap : Option (ℕ → JsonValue)) : ∀ k n, n + k ≤ 1024 →
    jsonMessageParserFeed ap (List.replicate k leftBracket) (openBrackets n) = openBrackets (n + k)
  | 0, n, _ => rfl
  | k + 1, n, h => by
    have hnext := feed_openBrackets ap k (n + 1) (by omega)
    rw [replicate_succ, jsonMessageParserFeed, foldl_cons, openBrackets_succ (by omega)]
    rw [add_right_comm] at hnext
    exact hnext

theorem breaksOff_brackets (ap : Option (ℕ → JsonValue)) :
    ∀ n, BreaksOff ap .value 0 (List.replicate n (opToken leftBracket))
  | 0 => .nothing
  | n + 1 => .array (.item (breaksOff_brackets ap n))

theorem not_jsonSafe_brackets {n} (hn : n = 1024) :
    ¬JsonSafe ap (jsonRun ap [.feed (List.replicate (n + 1) leftBracket)]) := by
  intro hsafe
  have hopen := feed_openBrackets ap n 0 (by omega)
  have hrun : jsonRun ap [.feed (List.replicate (n + 1) leftBracket)] =
      jsonLexerFeedChar ap false leftBracket (openBrackets n) := by
    rw [zero_add] at hopen
    rw [replicate_succ', ← hopen]
    exact foldl_append
  have hemit := openBrackets_emit ap hn.ge
  rw [← hrun] at hemit
  have hmem := mem_singleton_self (⟨some (List.replicate (n + 1) (opToken leftBracket)),
    jsonParserParseErr ap (some (List.replicate (n + 1) (opToken leftBracket))), .init⟩ :
      JsonEmission)
  rw [← hemit] at hmem
  refine (hsafe.noAbort _ hmem).1 ?_
  have hbreaks := breaksOff_brackets ap (n + 1)
  exact (jsonParserParseErr_abort_iff (cons_ne_nil _ _)).2 hbreaks

/-- 1025 opening brackets in one buffer bring the parser down. -/
theorem json_messages_fail :
    ¬JsonSafe none (jsonRun none [.feed (List.replicate 1025 leftBracket)]) :=
  not_jsonSafe_brackets rfl

end QemuArm
