import QemuArm.JsonParser

/-!
# The grammar that the JSON parser follows

`Denotes` gives the lists of tokens that stand for a value, and `BreaksOff` the lists that
end inside of one, where the parser would want another token. The parser returns a value
exactly for a list that starts with the tokens of one (`ParserSpec.sound`, `.complete`), and
it runs into its assertion exactly on the lists that break off (`.abort`, `.breaks`).

A key that is not finished can be any value : `parse_pair` looks at its type only after it.
-/

namespace QemuArm

open List JsonResult Nat

open JsonChar

/-! ## The grammar -/

def opToken (op : UInt8) : JsonToken := ⟨.operator, [op]⟩

@[simp] theorem tokenIsOperator_iff {tok op} :
    tokenIsOperator tok op = true ↔ tok = opToken op := by
  cases tok
  simp [tokenIsOperator, opToken]

/-- The value of a token that is one by itself -/
@[simp] def literalValue (tok : JsonToken) : Option JsonValue :=
  match tok.type with
  | .keyword =>
    if tok.token = asciiBytes "true" then some (.bool true)
    else if tok.token = asciiBytes "false" then some (.bool false)
    else none
  | .string => (qstringFromEscapedStr tok.token).toOption.map .string
  | .integer =>
    match strtoll tok.token with
    | some n => some (.int n)
    | none => some (.float tok.token)
  | .float => some (.float tok.token)
  | _ => none

/-- A value, or the inside of an object or array after some entries -/
inductive JsonRule where
  | value
  | pairs (before : List (List UInt8 × JsonValue))
  | items (before : List JsonValue)

/-- `Denotes ap rule a ts v b` : the tokens `ts` stand for the value `v`, and take the
arguments from the `a`-th up to the `b`-th. -/
inductive Denotes (ap : Option (ℕ → JsonValue)) :
    JsonRule → ℕ → List JsonToken → JsonValue → ℕ → Prop where
  | literal {a : ℕ} {tok : JsonToken} {v : JsonValue} (h : literalValue tok = some v) :
      Denotes ap .value a [tok] v a
  | escape {a : ℕ} {tok : JsonToken} {arg : ℕ → JsonValue} (hap : ap = some arg)
      (htype : tok.type = .escape) (htoken : tok.token ∈ escapeTokens) :
      Denotes ap .value a [tok] (arg a) (a + 1)
  | emptyObject {a : ℕ} :
      Denotes ap .value a [opToken leftBrace, opToken rightBrace] (.dict []) a
  | object {a b : ℕ} {ts : List JsonToken} {v : JsonValue} (h : Denotes ap (.pairs []) a ts v b) :
      Denotes ap .value a (opToken leftBrace :: (ts ++ [opToken rightBrace])) v b
  | emptyArray {a : ℕ} :
      Denotes ap .value a [opToken leftBracket, opToken rightBracket] (.list []) a
  | array {a b : ℕ} {ts : List JsonToken} {v : JsonValue} (h : Denotes ap (.items []) a ts v b) :
      Denotes ap .value a (opToken leftBracket :: (ts ++ [opToken rightBracket])) v b
  | pair {a b c : ℕ} {ks vs : List JsonToken} {k : List UInt8} {v : JsonValue}
      {d : List (List UInt8 × JsonValue)} (hk : Denotes ap .value a ks (.string k) b)
      (hv : Denotes ap .value b vs v c) :
      Denotes ap (.pairs d) a (ks ++ opToken colon :: vs) (.dict (qdictPutObj k v d)) c
  | pairCons {a b c e : ℕ} {ks vs us : List JsonToken} {k : List UInt8} {v w : JsonValue}
      {d : List (List UInt8 × JsonValue)} (hk : Denotes ap .value a ks (.string k) b)
      (hv : Denotes ap .value b vs v c) (h : Denotes ap (.pairs (qdictPutObj k v d)) c us w e) :
      Denotes ap (.pairs d) a (ks ++ opToken colon :: (vs ++ opToken comma :: us)) w e
  | item {a b : ℕ} {ts : List JsonToken} {v : JsonValue} {l : List JsonValue}
      (hv : Denotes ap .value a ts v b) : Denotes ap (.items l) a ts (.list (l ++ [v])) b
  | itemCons {a b c : ℕ} {ts us : List JsonToken} {v w : JsonValue} {l : List JsonValue}
      (hv : Denotes ap .value a ts v b) (h : Denotes ap (.items (l ++ [v])) b us w c) :
      Denotes ap (.items l) a (ts ++ opToken comma :: us) w c

inductive JsonPart where
  | value
  | pairs
  | items

/-- `BreaksOff ap part a ts` : the tokens end where the part is not complete. -/
inductive BreaksOff (ap : Option (ℕ → JsonValue)) : JsonPart → ℕ → List JsonToken → Prop where
  | nothing {a : ℕ} : BreaksOff ap .value a []
  | object {a : ℕ} {ts : List JsonToken} (h : BreaksOff ap .pairs a ts) :
      BreaksOff ap .value a (opToken leftBrace :: ts)
  | array {a : ℕ} {ts : List JsonToken} (h : BreaksOff ap .items a ts) :
      BreaksOff ap .value a (opToken leftBracket :: ts)
  | key {a : ℕ} {ts : List JsonToken} (h : BreaksOff ap .value a ts) : BreaksOff ap .pairs a ts
  | afterKey {a b : ℕ} {ks : List JsonToken} {k : List UInt8}
      (hk : Denotes ap .value a ks (.string k) b) : BreaksOff ap .pairs a ks
  | pairValue {a b : ℕ} {ks ts : List JsonToken} {k : List UInt8}
      (hk : Denotes ap .value a ks (.string k) b) (h : BreaksOff ap .value b ts) :
      BreaksOff ap .pairs a (ks ++ opToken colon :: ts)
  | afterPair {a b c : ℕ} {ks vs : List JsonToken} {k : List UInt8} {v : JsonValue}
      (hk : Denotes ap .value a ks (.string k) b) (hv : Denotes ap .value b vs v c) :
      BreaksOff ap .pairs a (ks ++ opToken colon :: vs)
  | nextPair {a b c : ℕ} {ks vs ts : List JsonToken} {k : List UInt8} {v : JsonValue}
      (hk : Denotes ap .value a ks (.string k) b) (hv : Denotes ap .value b vs v c)
      (h : BreaksOff ap .pairs c ts) :
      BreaksOff ap .pairs a (ks ++ opToken colon :: (vs ++ opToken comma :: ts))
  | item {a : ℕ} {ts : List JsonToken} (h : BreaksOff ap .value a ts) : BreaksOff ap .items a ts
  | afterItem {a b : ℕ} {vs : List JsonToken} {v : JsonValue} (hv : Denotes ap .value a vs v b) :
      BreaksOff ap .items a vs
  | nextItem {a b : ℕ} {vs ts : List JsonToken} {v : JsonValue} (hv : Denotes ap .value a vs v b)
      (h : BreaksOff ap .items b ts) : BreaksOff ap .items a (vs ++ opToken comma :: ts)

/-! ## Tokens that are values by themselves -/

section Scalar

variable (ap : Option (ℕ → JsonValue))

/-- The rules of `parse_value` after those for objects and arrays -/
def parseScalar (ctx : JsonCtx) : JsonResult JsonValue :=
  ((parseEscape ap ctx).orElse parseKeyword).orElse parseLiteral

variable {ap} {ctx ctx' : JsonCtx} {tok : JsonToken} {rest : List JsonToken} {v : JsonValue}

section

variable (h : ctx.rest = tok :: rest)
include h

/-- What `parse_escape`, `parse_keyword` and `parse_literal` make of a token together -/
theorem parseScalar_eq : parseScalar ap ctx =
    if tok.type = .escape ∧ tok.token ∈ escapeTokens then
      match ap with
      | some arg => .value (arg ctx.args) ⟨rest, ctx.args + 1, ctx.err⟩
      | none => .null ctx
    else match literalValue tok with
      | some v => .value v ⟨rest, ctx.args, ctx.err⟩
      | none =>
        if tok.type = .keyword then .null { ctx with err := some (.invalidKeyword tok.token) }
        else match tok.type, qstringFromEscapedStr tok.token with
          | .string, .error e => .null ⟨rest, ctx.args, some e⟩
          | _, _ => .null ctx := by
  obtain ⟨r, args, err⟩ := ctx
  obtain rfl : r = tok :: rest := h
  obtain ⟨type, token⟩ := tok
  cases type
  case escape =>
    by_cases ht : token ∈ escapeTokens <;> cases ap <;>
      simp [parseScalar, parseEscape, parseKeyword, parseLiteral, parserContextPopToken, orElse, ht]
  case keyword =>
    cases ap <;> simp only [parseScalar, parseEscape, parseKeyword, parseLiteral,
      parserContextPopToken, orElse, literalValue] <;> split_ifs <;> simp_all
  case string =>
    cases hs : qstringFromEscapedStr token <;> cases ap <;>
      simp [parseScalar, parseEscape, parseKeyword, parseLiteral, parserContextPopToken, orElse, hs,
        Except.toOption]
  case integer =>
    cases hs : strtoll token <;> cases ap <;>
      simp [parseScalar, parseEscape, parseKeyword, parseLiteral, parserContextPopToken, orElse, hs]
  all_goals
    cases ap <;>
      simp [parseScalar, parseEscape, parseKeyword, parseLiteral, parserContextPopToken, orElse]

/-- The rules for one token find a token, and have no loop. -/
theorem parseScalar_outcome : match parseScalar ap ctx with
    | .value v c => c.rest = rest ∧ Denotes ap .value ctx.args [tok] v c.args
    | .null _ => True
    | .abort | .outOfFuel => False := by
  rw [parseScalar_eq h]
  by_cases hesc : tok.type = .escape ∧ tok.token ∈ escapeTokens
  · rw [if_pos hesc]
    cases ap with
    | none => trivial
    | some arg => exact ⟨rfl, .escape rfl hesc.1 hesc.2⟩
  · rw [if_neg hesc]
    cases hlit : literalValue tok with
    | some w => exact ⟨rfl, .literal hlit⟩
    | none =>
      dsimp only
      split_ifs
      · trivial
      · cases tok.type <;> cases qstringFromEscapedStr tok.token <;> trivial

theorem parseScalar_of_literal (hv : literalValue tok = some v) :
    parseScalar ap ctx = .value v ⟨rest, ctx.args, ctx.err⟩ := by
  have hesc : ¬(tok.type = .escape ∧ tok.token ∈ escapeTokens) := by
    rintro ⟨htype, -⟩
    simp [htype] at hv
  rw [parseScalar_eq h, if_neg hesc, hv]

theorem parseScalar_of_escape {arg} (htype : tok.type = .escape)
    (htoken : tok.token ∈ escapeTokens) :
    parseScalar (some arg) ctx = .value (arg ctx.args) ⟨rest, ctx.args + 1, ctx.err⟩ := by
  rw [parseScalar_eq h, if_pos ⟨htype, htoken⟩]

end

end Scalar

/-! ## Which rule applies -/

section Rules

variable {ap : Option (ℕ → JsonValue)} {pv : JsonCtx → JsonResult JsonValue} {n fuel : ℕ}
  {ctx ctx' : JsonCtx} {tok : JsonToken} {rest : List JsonToken}

/-- The inside of an object, from a pair on -/
def objectPairs (pv : JsonCtx → JsonResult JsonValue) (fuel : ℕ)
    (dict : List (List UInt8 × JsonValue)) (ctx : JsonCtx) : JsonResult JsonValue :=
  (parsePair pv dict ctx).andThen fun dict ctx => parseObjectLoop pv fuel dict ctx

/-- The inside of an array, from a value on -/
def arrayItems (pv : JsonCtx → JsonResult JsonValue) (fuel : ℕ) (list : List JsonValue)
    (ctx : JsonCtx) : JsonResult JsonValue :=
  ((pv ctx).orError .expectingValue).andThen fun obj ctx =>
    parseArrayLoop pv fuel (list ++ [obj]) ctx

theorem parseObject_other (h : ctx.rest = tok :: rest) (hne : tok ≠ opToken leftBrace) :
    parseObject pv fuel ctx = .null ctx := by
  obtain ⟨r, args, err⟩ := ctx
  obtain rfl : r = tok :: rest := h
  simp [parseObject, parserContextPopToken, hne, restore]

theorem parseArray_other (h : ctx.rest = tok :: rest) (hne : tok ≠ opToken leftBracket) :
    parseArray pv fuel ctx = .null ctx := by
  obtain ⟨r, args, err⟩ := ctx
  obtain rfl : r = tok :: rest := h
  simp [parseArray, parserContextPopToken, hne, restore]

theorem parseScalar_operator {op} (h : ctx.rest = opToken op :: rest) :
    parseScalar ap ctx = .null ctx := by
  rw [parseScalar_eq h]
  simp [opToken]

theorem parseValue_eq (ctx : JsonCtx) : parseValue ap (fuel + 1) ctx =
    ((parseObject (parseValue ap fuel) fuel ctx).orElse
      (parseArray (parseValue ap fuel) fuel)).orElse (parseScalar ap) := by
  rw [parseValue]
  cases (parseObject (parseValue ap fuel) fuel ctx).orElse
    (parseArray (parseValue ap fuel) fuel) <;>
    rfl

theorem parseValue_nil (h : ctx.rest = []) : parseValue ap (fuel + 1) ctx = .abort := by
  rw [parseValue_eq]
  simp [parseObject, parserContextPopToken, h, restore, orElse]

theorem parseValue_other (h : ctx.rest = tok :: rest) (h1 : tok ≠ opToken leftBrace)
    (h2 : tok ≠ opToken leftBracket) : parseValue ap (fuel + 1) ctx = parseScalar ap ctx := by
  rw [parseValue_eq, parseObject_other h h1]
  show ((parseArray (parseValue ap fuel) fuel) ctx).orElse (parseScalar ap) = _
  rw [parseArray_other h h2]
  rfl

theorem rest_of_restore {r : JsonResult JsonValue} (h : r.restore rest = .null ctx) :
    ctx.rest = rest := by
  cases r <;> cases h
  rfl

/-- A failed object is no array and no other value. -/
theorem parseValue_brace (h : ctx.rest = opToken leftBrace :: rest) :
    parseValue ap (fuel + 1) ctx = parseObject (parseValue ap fuel) fuel ctx := by
  rw [parseValue_eq]
  cases hr : parseObject (parseValue ap fuel) fuel ctx with
  | null c =>
    have hc := (rest_of_restore hr).trans h
    show ((parseArray (parseValue ap fuel) fuel) c).orElse (parseScalar ap) = _
    rw [parseArray_other hc (by decide)]
    exact parseScalar_operator hc
  | value | abort | outOfFuel => rfl

theorem parseValue_bracket (h : ctx.rest = opToken leftBracket :: rest) :
    parseValue ap (fuel + 1) ctx = parseArray (parseValue ap fuel) fuel ctx := by
  rw [parseValue_eq, parseObject_other h (by decide)]
  show ((parseArray (parseValue ap fuel) fuel) ctx).orElse (parseScalar ap) = _
  cases hr : parseArray (parseValue ap fuel) fuel ctx with
  | null c => exact parseScalar_operator ((rest_of_restore hr).trans h)
  | value | abort | outOfFuel => rfl

/-- `parse_object` after its brace -/
def objectBody (pv : JsonCtx → JsonResult JsonValue) (fuel : ℕ) (ctx : JsonCtx) :
    List JsonToken → JsonResult JsonValue
  | [] => .abort
  | peek :: rest =>
    if peek = opToken rightBrace then .value (.dict []) { ctx with rest := rest }
    else (objectPairs pv fuel [] { ctx with rest := peek :: rest }).restore ctx.rest

/-- `parse_array` after its bracket -/
def arrayBody (pv : JsonCtx → JsonResult JsonValue) (fuel : ℕ) (ctx : JsonCtx) :
    List JsonToken → JsonResult JsonValue
  | [] => .abort
  | peek :: rest =>
    if peek = opToken rightBracket then .value (.list []) { ctx with rest := rest }
    else (arrayItems pv fuel [] { ctx with rest := peek :: rest }).restore ctx.rest

theorem parseObject_brace (h : ctx.rest = opToken leftBrace :: rest) :
    parseObject pv fuel ctx = objectBody pv fuel ctx rest := by
  obtain ⟨r, args, err⟩ := ctx
  obtain rfl : r = opToken leftBrace :: rest := h
  cases rest with
  | nil => rfl
  | cons peek rest' =>
    simp only [parseObject, parserContextPopToken, parserContextPeekToken, tokenIsOperator_iff,
      if_true, objectBody]
    split_ifs <;> rfl

theorem parseArray_bracket (h : ctx.rest = opToken leftBracket :: rest) :
    parseArray pv fuel ctx = arrayBody pv fuel ctx rest := by
  obtain ⟨r, args, err⟩ := ctx
  obtain rfl : r = opToken leftBracket :: rest := h
  cases rest with
  | nil => rfl
  | cons peek rest' =>
    simp only [parseArray, parserContextPopToken, parserContextPeekToken, tokenIsOperator_iff,
      if_true, arrayBody]
    split_ifs <;> rfl

variable {dict : List (List UInt8 × JsonValue)}

/-- A round of the loop of `parse_object` -/
theorem parseObjectLoop_cons (hf : fuel ≠ 0) (h : ctx.rest = tok :: rest) :
    parseObjectLoop pv fuel dict ctx =
      if tok = opToken rightBrace then .value (.dict dict) { ctx with rest := rest }
      else if tok = opToken comma then objectPairs pv (fuel - 1) dict { ctx with rest := rest }
      else .null { ctx with rest := rest, err := some .dictSeparator } := by
  obtain ⟨f, rfl⟩ := Nat.exists_eq_add_one_of_ne_zero hf
  obtain ⟨r, args, err⟩ := ctx
  obtain rfl : r = tok :: rest := h
  simp only [parseObjectLoop, parserContextPopToken, tokenIsOperator_iff, objectPairs,
    Nat.add_sub_cancel]

theorem parseArrayLoop_cons {list} (hf : fuel ≠ 0) (h : ctx.rest = tok :: rest) :
    parseArrayLoop pv fuel list ctx =
      if tok = opToken rightBracket then .value (.list list) { ctx with rest := rest }
      else if tok = opToken comma then arrayItems pv (fuel - 1) list { ctx with rest := rest }
      else .null { ctx with rest := rest, err := some .listSeparator } := by
  obtain ⟨f, rfl⟩ := Nat.exists_eq_add_one_of_ne_zero hf
  obtain ⟨r, args, err⟩ := ctx
  obtain rfl : r = tok :: rest := h
  simp only [parseArrayLoop, parserContextPopToken, tokenIsOperator_iff, arrayItems,
    Nat.add_sub_cancel]

theorem parseObjectLoop_nil (hf : fuel ≠ 0) (h : ctx.rest = []) :
    parseObjectLoop pv fuel dict ctx = .abort := by
  obtain ⟨f, rfl⟩ := exists_eq_add_one_of_ne_zero hf
  rw [parseObjectLoop, parserContextPopToken, h]

theorem parseArrayLoop_nil {list} (hf : fuel ≠ 0) (h : ctx.rest = []) :
    parseArrayLoop pv fuel list ctx = .abort := by
  obtain ⟨f, rfl⟩ := exists_eq_add_one_of_ne_zero hf
  rw [parseArrayLoop, parserContextPopToken, h]

/-- A pair whose key is a string and is followed by more -/
theorem parsePair_string {k} (hne : ctx.rest ≠ []) (hk : pv ctx = .value (.string k) ctx') :
    parsePair pv dict ctx = match ctx'.rest with
      | [] => .abort
      | tok :: rest =>
        if tok = opToken colon then
          (((pv { ctx' with rest := rest }).orError .missingValue).andThen fun v c =>
            .value (qdictPutObj k v dict) c).restore ctx.rest
        else .null ⟨ctx.rest, ctx'.args, some .missingColon⟩ := by
  unfold parsePair parserContextPeekToken
  cases hrest : ctx.rest with
  | nil => exact absurd hrest hne
  | cons t ts =>
    simp only [hk, orError, andThen, parserContextPopToken, tokenIsOperator_iff]
    cases ctx'.rest with
    | nil => rfl
    | cons tok rest =>
      dsimp only
      split_ifs <;> rfl

/-- A pair that ends with its key -/
theorem parsePair_key (hk : ∀ k c, pv ctx ≠ .value (.string k) c) : parsePair pv dict ctx =
      match ctx.rest, pv ctx with
      | [], _ => .abort
      | _, .abort => .abort
      | _, .outOfFuel => .outOfFuel
      | rest, .null c => .null ⟨rest, c.args, some .keyNotString⟩
      | rest, .value _ c => .null ⟨rest, c.args, some .keyNotString⟩ := by
  unfold parsePair parserContextPeekToken
  cases hrest : ctx.rest with
  | nil => rfl
  | cons t ts =>
    cases hpv : pv ctx with
    | value v c =>
      cases v with
      | string k => exact absurd hpv (hk k c)
      | int | float | bool | dict | list => rfl
    | null | abort | outOfFuel => rfl

end Rules

/-! ## What the parser does with a list -/

section Spec

variable {ap : Option (ℕ → JsonValue)} {pv : JsonCtx → JsonResult JsonValue} {n fuel : ℕ}
  {ctx : JsonCtx}

/-- A value comes from the first tokens, the assertion fails on a list that breaks off, and
`n` tokens or more are needed to use up the fuel. -/
def ValueOutcome (ap : Option (ℕ → JsonValue)) (n : ℕ) (ctx : JsonCtx) : JsonResult JsonValue → Prop
  | .value v c => ∃ ts, ts ≠ [] ∧ ctx.rest = ts ++ c.rest ∧ Denotes ap .value ctx.args ts v c.args
  | .null _ => True
  | .abort => BreaksOff ap .value ctx.args ctx.rest
  | .outOfFuel => n ≤ ctx.rest.length

/-- The same for the inside of an object or array, up to the token that closes it -/
def InsideOutcome (ap : Option (ℕ → JsonValue)) (n : ℕ) (close : UInt8) (rule : JsonRule)
    (part : JsonPart) (ctx : JsonCtx) : JsonResult JsonValue → Prop
  | .value v c => ∃ ts, ctx.rest = ts ++ opToken close :: c.rest ∧
      Denotes ap rule ctx.args ts v c.args
  | .null _ => True
  | .abort => BreaksOff ap part ctx.args ctx.rest
  | .outOfFuel => n ≤ ctx.rest.length

abbrev PairsOutcome (ap : Option (ℕ → JsonValue)) (n : ℕ) (d : List (List UInt8 × JsonValue)) :
    JsonCtx → JsonResult JsonValue → Prop :=
  InsideOutcome ap n rightBrace (.pairs d) .pairs

abbrev ItemsOutcome (ap : Option (ℕ → JsonValue)) (n : ℕ) (l : List JsonValue) :
    JsonCtx → JsonResult JsonValue → Prop :=
  InsideOutcome ap n rightBracket (.items l) .items

/-- The recursive call does what it should on lists of less than `n` tokens. -/
structure ParserSpec (ap : Option (ℕ → JsonValue)) (n : ℕ) (pv : JsonCtx → JsonResult JsonValue) :
    Prop where
  outcome : ∀ ctx, ValueOutcome ap n ctx (pv ctx)
  complete : ∀ (ctx : JsonCtx) (ts r : List JsonToken) (v : JsonValue) (b : ℕ),
    ctx.rest = ts ++ r → ts.length < n → Denotes ap .value ctx.args ts v b →
      pv ctx = .value v ⟨r, b, ctx.err⟩
  breaks : ∀ ctx : JsonCtx, ctx.rest.length < n → BreaksOff ap .value ctx.args ctx.rest →
    pv ctx = .abort

variable {v : JsonValue} {b a : ℕ} {ts : List JsonToken} {rule : JsonRule} {part : JsonPart}

theorem length_lt_of_append {l ts rest : List JsonToken} {tok : JsonToken}
    (h : l = ts ++ tok :: rest) : rest.length < l.length := by
  rw [h, length_append, length_cons]
  omega

namespace InsideOutcome

variable {close : UInt8} {c : JsonCtx} {r : JsonResult JsonValue}

/-- What follows a comma is joined to the entry before it. -/
theorem comma {rule'} (h : InsideOutcome ap n close rule' part c r)
    (hrest : ctx.rest = ts ++ opToken comma :: c.rest)
    (hden : ∀ {us w e}, Denotes ap rule' c.args us w e →
      Denotes ap rule ctx.args (ts ++ opToken comma :: us) w e)
    (hbr : ∀ {us}, BreaksOff ap part c.args us →
      BreaksOff ap part ctx.args (ts ++ opToken comma :: us)) :
    InsideOutcome ap (n + 1) close rule part ctx r := by
  cases r with
  | value w c' =>
    obtain ⟨us, hus, hd⟩ := h
    exact ⟨_, by simp [hrest, hus], hden hd⟩
  | null c' => trivial
  | abort =>
    show BreaksOff ap part ctx.args ctx.rest
    rw [hrest]
    exact hbr h
  | outOfFuel => exact lt_of_le_of_lt h (length_lt_of_append hrest)

/-- What follows the opening token makes a value with it. -/
theorem value {op} (h : InsideOutcome ap n close rule part c r)
    (hrest : ctx.rest = opToken op :: c.rest) (hargs : ctx.args = c.args)
    (hden : ∀ {us w e}, Denotes ap rule c.args us w e →
      Denotes ap .value c.args (opToken op :: (us ++ [opToken close])) w e)
    (hbr : ∀ {us}, BreaksOff ap part c.args us → BreaksOff ap .value c.args (opToken op :: us))
    (saved : List JsonToken) : ValueOutcome ap (n + 1) ctx (r.restore saved) := by
  cases r with
  | value v c' =>
    obtain ⟨us, hus, hd⟩ := h
    exact ⟨_, cons_ne_nil _ _, by simp [hrest, hus], hargs ▸ hden hd⟩
  | null c' => trivial
  | abort =>
    show BreaksOff ap .value ctx.args ctx.rest
    rw [hrest, hargs]
    exact hbr h
  | outOfFuel =>
    show n + 1 ≤ ctx.rest.length
    rw [hrest, length_cons]
    exact succ_le_succ h

end InsideOutcome

namespace ParserSpec

theorem sound (h : ParserSpec ap n pv) {c} (hv : pv ctx = .value v c) :
    ∃ ts, ts ≠ [] ∧ ctx.rest = ts ++ c.rest ∧ Denotes ap .value ctx.args ts v c.args := by
  have := h.outcome ctx
  rwa [hv] at this

theorem abort (h : ParserSpec ap n pv) (hv : pv ctx = .abort) :
    BreaksOff ap .value ctx.args ctx.rest := by
  have := h.outcome ctx
  rwa [hv] at this

theorem le_of_outOfFuel (h : ParserSpec ap n pv) (hv : pv ctx = .outOfFuel) :
    n ≤ ctx.rest.length := by
  have := h.outcome ctx
  rwa [hv] at this

section

variable (h : ParserSpec ap n pv)
include h

/-- A pair and what the loop makes of the rest -/
theorem objectPairs_of_loop (hfuel : fuel ≤ n) (d : List (List UInt8 × JsonValue)) (ctx : JsonCtx)
    (hloop : ∀ (ks vs : List JsonToken) (k : List UInt8) (v : JsonValue) (b : ℕ) (c : JsonCtx),
      ctx.rest = ks ++ opToken colon :: vs ++ c.rest →
      Denotes ap .value ctx.args ks (.string k) b → Denotes ap .value b vs v c.args →
      PairsOutcome ap fuel d ctx (parseObjectLoop pv fuel (qdictPutObj k v d) c)) :
    PairsOutcome ap fuel d ctx (objectPairs pv fuel d ctx) := by
  unfold objectPairs
  by_cases hk : ∃ k c, pv ctx = .value (.string k) c
  · obtain ⟨k, c, hk⟩ := hk
    obtain ⟨ks, hne, hks, hden⟩ := h.sound hk
    have hrest : ctx.rest ≠ [] := by
      rw [hks]
      exact append_ne_nil_of_left_ne_nil hne _
    rw [parsePair_string hrest hk]
    cases hc : c.rest with
    | nil =>
      rw [hc, append_nil] at hks
      show BreaksOff ap .pairs ctx.args ctx.rest
      rw [hks]
      exact .afterKey hden
    | cons tok rest =>
      rw [hc] at hks
      dsimp only
      split_ifs with htok
      · subst htok
        cases hv : pv { c with rest := rest } with
        | value v c' =>
          obtain ⟨vs, -, hvs, hdenv⟩ := h.sound hv
          exact hloop ks vs k v c.args c' (hks.trans (by simp [← hvs])) hden hdenv
        | null c' => trivial
        | abort =>
          show BreaksOff ap .pairs ctx.args ctx.rest
          rw [hks]
          exact .pairValue hden (h.abort hv)
        | outOfFuel =>
          exact (hfuel.trans (h.le_of_outOfFuel hv)).trans (length_lt_of_append hks).le
      · trivial
  · rw [parsePair_key fun k c hv => hk ⟨k, c, hv⟩]
    cases hrest : ctx.rest with
    | nil =>
      show BreaksOff ap .pairs ctx.args ctx.rest
      rw [hrest]
      exact .key .nothing
    | cons tok rest =>
      cases hv : pv ctx with
      | value v c | null c => trivial
      | abort => exact BreaksOff.key (h.abort hv)
      | outOfFuel => exact hfuel.trans (h.le_of_outOfFuel hv)

theorem objectPairs_outcome : ∀ fuel ≤ n,
    ∀ (d : List (List UInt8 × JsonValue)) (ctx : JsonCtx),
      PairsOutcome ap fuel d ctx (objectPairs pv fuel d ctx) := by
  intro fuel
  induction fuel with
  | zero => exact fun hfuel d ctx =>
      h.objectPairs_of_loop hfuel d ctx fun _ _ _ _ _ _ _ _ _ => zero_le _
  | succ fuel ih =>
    refine fun hfuel d ctx => h.objectPairs_of_loop hfuel d ctx fun ks vs k v b c hrest hk hv => ?_
    cases hc : c.rest with
    | nil =>
      rw [parseObjectLoop_nil fuel.succ_ne_zero hc]
      rw [hc, append_nil] at hrest
      show BreaksOff ap .pairs ctx.args ctx.rest
      rw [hrest]
      exact .afterPair hk hv
    | cons tok rest =>
      rw [parseObjectLoop_cons fuel.succ_ne_zero hc, succ_sub_one]
      rw [hc] at hrest
      split_ifs with h1 h2
      · exact ⟨_, by rw [hrest, h1], .pair hk hv⟩
      · refine (ih (le_of_succ_le hfuel) (qdictPutObj k v d) { c with rest := rest }).comma
          (h2 ▸ hrest) (fun hd => ?_) fun hbr => ?_
        · simpa using Denotes.pairCons hk hv hd
        · simpa using BreaksOff.nextPair hk hv hbr
      · trivial

/-- An item and what the loop makes of the rest -/
theorem arrayItems_of_loop (hfuel : fuel ≤ n) (l : List JsonValue) (ctx : JsonCtx)
    (hloop : ∀ ts v (c : JsonCtx), ctx.rest = ts ++ c.rest →
      Denotes ap .value ctx.args ts v c.args →
      ItemsOutcome ap fuel l ctx (parseArrayLoop pv fuel (l ++ [v]) c)) :
    ItemsOutcome ap fuel l ctx (arrayItems pv fuel l ctx) := by
  unfold arrayItems
  cases hv : pv ctx with
  | value v c =>
    obtain ⟨ts, -, hts, hden⟩ := h.sound hv
    exact hloop ts v c hts hden
  | null c => trivial
  | abort => exact BreaksOff.item (h.abort hv)
  | outOfFuel => exact hfuel.trans (h.le_of_outOfFuel hv)

theorem arrayItems_outcome : ∀ fuel ≤ n,
    ∀ (l : List JsonValue) (ctx : JsonCtx),
      ItemsOutcome ap fuel l ctx (arrayItems pv fuel l ctx) := by
  intro fuel
  induction fuel with
  | zero => exact fun hfuel l ctx =>
      h.arrayItems_of_loop hfuel l ctx fun _ _ _ _ _ => zero_le _
  | succ fuel ih =>
    refine fun hfuel l ctx => h.arrayItems_of_loop hfuel l ctx fun ts v c hrest hv => ?_
    cases hc : c.rest with
    | nil =>
      rw [parseArrayLoop_nil fuel.succ_ne_zero hc]
      rw [hc, append_nil] at hrest
      show BreaksOff ap .items ctx.args ctx.rest
      rw [hrest]
      exact .afterItem hv
    | cons tok rest =>
      rw [parseArrayLoop_cons fuel.succ_ne_zero hc, succ_sub_one]
      rw [hc] at hrest
      split_ifs with h1 h2
      · exact ⟨ts, by rw [hrest, h1], .item hv⟩
      · exact (ih (le_of_succ_le hfuel) (l ++ [v]) { c with rest := rest }).comma (h2 ▸ hrest)
          (.itemCons hv) (.nextItem hv)
      · trivial

/-- A complete pair is taken, and the loop goes on after it. -/
theorem objectPairs_pair {d ks vs r k} {c} (hrest : ctx.rest = ks ++ opToken colon :: (vs ++ r))
    (hks : ks.length < n) (hvs : vs.length < n) (hk : Denotes ap .value ctx.args ks (.string k) b)
    (hv : Denotes ap .value b vs v c) :
    objectPairs pv fuel d ctx = parseObjectLoop pv fuel (qdictPutObj k v d) ⟨r, c, ctx.err⟩ := by
  have hkey := h.complete ctx ks _ _ _ hrest hks hk
  have hval := h.complete ⟨vs ++ r, b, ctx.err⟩ vs r v c rfl hvs hv
  have hne : ctx.rest ≠ [] := by simp [hrest]
  rw [objectPairs, parsePair_string hne hkey]
  dsimp only
  rw [if_pos rfl, hval]
  rfl

theorem arrayItems_item {l r} (hrest : ctx.rest = ts ++ r)
    (hts : ts.length < n) (hv : Denotes ap .value ctx.args ts v b) :
    arrayItems pv fuel l ctx = parseArrayLoop pv fuel (l ++ [v]) ⟨r, b, ctx.err⟩ := by
  rw [arrayItems, h.complete ctx ts r v b hrest hts hv]
  rfl

/-- Each list of pairs is parsed. -/
theorem objectPairs_complete (hden : Denotes ap rule a ts v b) :
    ∀ d, rule = .pairs d → ∀ fuel ≤ n, ∀ (ctx : JsonCtx) r,
      ctx.rest = ts ++ opToken rightBrace :: r → ctx.args = a → ts.length < fuel →
      objectPairs pv fuel d ctx = .value v ⟨r, b, ctx.err⟩ := by
  induction hden with
  | literal | escape | emptyObject | object | emptyArray | array | item | itemCons => nofun
  | @pair a b c ks vs k v d hk hv =>
    rintro d' ⟨⟩ fuel hfuel ctx r hrest rfl hlen
    simp only [length_append, length_cons] at hlen
    rw [h.objectPairs_pair (r := opToken rightBrace :: r) (hrest.trans (by simp)) (by omega)
        (by omega) hk hv,
      parseObjectLoop_cons (by omega) rfl, if_pos rfl]
  | @pairCons a b c e ks vs us k v w d hk hv _ _ _ ih =>
    rintro d' ⟨⟩ fuel hfuel ctx r hrest rfl hlen
    simp only [length_append, length_cons] at hlen
    rw [h.objectPairs_pair (r := opToken comma :: (us ++ opToken rightBrace :: r))
        (hrest.trans (by simp)) (by omega) (by omega) hk hv,
      parseObjectLoop_cons (by omega) rfl, if_neg (by decide), if_pos rfl]
    exact ih _ rfl (fuel - 1) (by omega) _ r rfl rfl (by omega)

/-- Each list of items is parsed. -/
theorem arrayItems_complete (hden : Denotes ap rule a ts v b) :
    ∀ l, rule = .items l → ∀ fuel ≤ n, ∀ (ctx : JsonCtx) r,
      ctx.rest = ts ++ opToken rightBracket :: r → ctx.args = a → ts.length < fuel →
      arrayItems pv fuel l ctx = .value v ⟨r, b, ctx.err⟩ := by
  induction hden with
  | literal | escape | emptyObject | object | emptyArray | array | pair | pairCons => nofun
  | @item a b ts v l hv =>
    rintro l' ⟨⟩ fuel hfuel ctx r hrest rfl hlen
    rw [h.arrayItems_item hrest (by omega) hv, parseArrayLoop_cons (by omega) rfl, if_pos rfl]
  | @itemCons a b c ts us v w l hv _ _ ih =>
    rintro l' ⟨⟩ fuel hfuel ctx r hrest rfl hlen
    simp only [length_append, length_cons] at hlen
    rw [h.arrayItems_item (r := opToken comma :: (us ++ opToken rightBracket :: r))
        (hrest.trans (by simp)) (by omega) hv,
      parseArrayLoop_cons (by omega) rfl, if_neg (by decide), if_pos rfl]
    exact ih _ rfl (fuel - 1) (by omega) _ r rfl rfl (by omega)

/-- The parser fails where the pairs of an object break off. -/
theorem objectPairs_breaks (hbr : BreaksOff ap part a ts) :
    part = .pairs → ∀ fuel ≤ n,
      ∀ d (ctx : JsonCtx), ctx.rest = ts → ctx.args = a →
      ts.length < fuel → objectPairs pv fuel d ctx = .abort := by
  induction hbr with
  | nothing | object | array | item | afterItem | nextItem => nofun
  | @key a ts hv =>
    rintro - fuel hfuel d ctx rfl rfl hlen
    have hab := h.breaks ctx (by omega) hv
    have hkey : ∀ k c, pv ctx ≠ .value (.string k) c := fun k c => by
      rw [hab]
      nofun
    rw [objectPairs, parsePair_key hkey, hab]
    cases ctx.rest <;> rfl
  | @afterKey a b ks k hk =>
    rintro - fuel hfuel d ctx hrest rfl hlen
    have hkey := h.complete ctx ks [] _ _ (hrest.trans (by simp)) (by omega) hk
    obtain ⟨ts, hne, hts, -⟩ := h.sound hkey
    have hctx : ctx.rest ≠ [] := by
      rw [hts]
      exact append_ne_nil_of_left_ne_nil hne _
    rw [objectPairs, parsePair_string hctx hkey]
    rfl
  | @pairValue a b ks ts k hk hv =>
    rintro - fuel hfuel d ctx hrest rfl hlen
    simp only [length_append, length_cons] at hlen
    have hkey := h.complete ctx ks _ _ _ hrest (by omega) hk
    have hab := h.breaks ⟨ts, b, ctx.err⟩ (show ts.length < n by omega) hv
    rw [objectPairs, parsePair_string (by simp [hrest]) hkey]
    dsimp only
    rw [if_pos rfl, hab]
    rfl
  | @afterPair a b c ks vs k v hk hv =>
    rintro - fuel hfuel d ctx hrest rfl hlen
    simp only [length_append, length_cons] at hlen
    rw [h.objectPairs_pair (r := []) (hrest.trans (by simp)) (by omega) (by omega) hk hv,
      parseObjectLoop_nil (by omega) rfl]
  | @nextPair a b c ks vs ts k v hk hv _ ih =>
    rintro - fuel hfuel d ctx hrest rfl hlen
    simp only [length_append, length_cons] at hlen
    rw [h.objectPairs_pair hrest (by omega) (by omega) hk hv, parseObjectLoop_cons (by omega) rfl,
      if_neg (by decide), if_pos rfl]
    exact ih rfl (fuel - 1) (by omega) _ _ rfl rfl (by omega)

/-- The same for an array. -/
theorem arrayItems_breaks (hbr : BreaksOff ap part a ts) :
    part = .items → ∀ fuel ≤ n,
      ∀ l (ctx : JsonCtx), ctx.rest = ts → ctx.args = a →
      ts.length < fuel → arrayItems pv fuel l ctx = .abort := by
  induction hbr with
  | nothing | object | array | key | afterKey | pairValue | afterPair | nextPair => nofun
  | @item a ts hv =>
    rintro - fuel hfuel l ctx rfl rfl hlen
    rw [arrayItems, h.breaks ctx (by omega) hv]
    rfl
  | @afterItem a b vs v hv =>
    rintro - fuel hfuel l ctx hrest rfl hlen
    rw [h.arrayItems_item (r := []) (hrest.trans (by simp)) (by omega) hv,
      parseArrayLoop_nil (by omega) rfl]
  | @nextItem a b vs ts v hv _ ih =>
    rintro - fuel hfuel l ctx hrest rfl hlen
    simp only [length_append, length_cons] at hlen
    rw [h.arrayItems_item hrest (by omega) hv, parseArrayLoop_cons (by omega) rfl,
      if_neg (by decide), if_pos rfl]
    exact ih rfl (fuel - 1) (by omega) _ _ rfl rfl (by omega)

end

end ParserSpec

/-- The inside of an object does not start with its end. -/
theorem Denotes.head_ne (h : Denotes ap rule a ts v b) :
    ∃ t ts', ts = t :: ts' ∧ t ≠ opToken rightBrace ∧ t ≠ opToken rightBracket := by
  induction h with
  | @literal a tok v h =>
    refine ⟨tok, [], rfl, ?_, ?_⟩ <;> rintro rfl <;> cases h
  | @escape a tok arg hap htype =>
    refine ⟨tok, [], rfl, ?_, ?_⟩ <;> rintro rfl <;> cases htype
  | emptyObject | emptyArray | object | array => exact ⟨_, _, rfl, by decide, by decide⟩
  | pair hk hv ihk | pairCons hk hv h ihk =>
    obtain ⟨t, ts', rfl, h1, h2⟩ := ihk
    exact ⟨t, _, rfl, h1, h2⟩
  | item hv ih => exact ih
  | itemCons hv h ih =>
    obtain ⟨t, ts', rfl, h1, h2⟩ := ih
    exact ⟨t, _, rfl, h1, h2⟩

theorem BreaksOff.head_ne (h : BreaksOff ap part a ts) :
    ∀ t ts', ts = t :: ts' → t ≠ opToken rightBrace ∧ t ≠ opToken rightBracket := by
  have hden : ∀ {a b : ℕ} {ks : List JsonToken} {v : JsonValue}, Denotes ap .value a ks v b →
      ∀ us t ts', ks ++ us = t :: ts' → t ≠ opToken rightBrace ∧ t ≠ opToken rightBracket := by
    intro a b ks v hk us t ts' hts
    obtain ⟨t', us', rfl, h1, h2⟩ := hk.head_ne
    obtain ⟨rfl, -⟩ := List.cons.inj hts
    exact ⟨h1, h2⟩
  induction h with
  | nothing => nofun
  | object | array =>
    rintro t ts' ⟨⟩
    exact ⟨by decide, by decide⟩
  | key h ih | item h ih => exact ih
  | @afterKey a b ks k hk => exact fun t ts' hts => hden hk [] t ts' (by simpa using hts)
  | @afterItem a b vs v hv => exact fun t ts' hts => hden hv [] t ts' (by simpa using hts)
  | pairValue hk | afterPair hk | nextPair hk => exact hden hk _
  | nextItem hv => exact hden hv _

section

variable (h : ParserSpec ap n (parseValue ap n))
include h

/-- What the parser makes of any tokens. -/
theorem parseValue_outcome (ctx : JsonCtx) :
    ValueOutcome ap (n + 1) ctx (parseValue ap (n + 1) ctx) := by
  cases hrest : ctx.rest with
  | nil =>
    rw [parseValue_nil hrest]
    show BreaksOff ap .value ctx.args ctx.rest
    rw [hrest]
    exact .nothing
  | cons tok rest =>
    by_cases h1 : tok = opToken leftBrace
    · subst h1
      rw [parseValue_brace hrest, parseObject_brace hrest]
      cases rest with
      | nil =>
        show BreaksOff ap .value ctx.args ctx.rest
        rw [hrest]
        exact .object (.key .nothing)
      | cons peek rest =>
        rw [objectBody]
        split_ifs with hpeek
        · subst hpeek
          exact ⟨[_, _], cons_ne_nil _ _, hrest, .emptyObject⟩
        · exact
            (h.objectPairs_outcome n le_rfl [] { ctx with rest := peek :: rest }).value hrest rfl
            .object .object _
    · by_cases h2 : tok = opToken leftBracket
      · subst h2
        rw [parseValue_bracket hrest, parseArray_bracket hrest]
        cases rest with
        | nil =>
          show BreaksOff ap .value ctx.args ctx.rest
          rw [hrest]
          exact .array (.item .nothing)
        | cons peek rest =>
          rw [arrayBody]
          split_ifs with hpeek
          · subst hpeek
            exact ⟨[_, _], cons_ne_nil _ _, hrest, .emptyArray⟩
          · exact (h.arrayItems_outcome n le_rfl [] { ctx with rest := peek :: rest }).value hrest
              rfl .array .array _
      · rw [parseValue_other hrest h1 h2]
        have hout := @parseScalar_outcome ap ctx tok rest hrest
        cases hs : parseScalar ap ctx with
        | value v c =>
          rw [hs] at hout
          exact ⟨[tok], cons_ne_nil _ _, by rw [hrest, hout.1]; rfl, hout.2⟩
        | null c => trivial
        | abort | outOfFuel =>
          rw [hs] at hout
          exact hout.elim

/-- Each value that the tokens denote is parsed. -/
theorem parseValue_complete (ctx : JsonCtx)
    {r} (hrest : ctx.rest = ts ++ r) (hlen : ts.length < n + 1)
    (hden : Denotes ap .value ctx.args ts v b) :
    parseValue ap (n + 1) ctx = .value v ⟨r, b, ctx.err⟩ := by
  generalize hrule : JsonRule.value = rule at hden
  cases hden with
  | pair | pairCons | item | itemCons => cases hrule
  | @literal _ tok _ hv =>
    have h1 : tok ≠ opToken leftBrace := by rintro rfl; cases hv
    have h2 : tok ≠ opToken leftBracket := by rintro rfl; cases hv
    rw [parseValue_other hrest h1 h2, parseScalar_of_literal hrest hv]
    rfl
  | @escape _ tok arg hap htype htoken =>
    subst hap
    have h1 : tok ≠ opToken leftBrace := by rintro rfl; cases htype
    have h2 : tok ≠ opToken leftBracket := by rintro rfl; cases htype
    rw [parseValue_other hrest h1 h2, parseScalar_of_escape hrest htype htoken]
    rfl
  | emptyObject =>
    have hrest' : ctx.rest = opToken leftBrace :: opToken rightBrace :: r := hrest
    rw [parseValue_brace hrest', parseObject_brace hrest', objectBody, if_pos rfl]
  | @object _ _ ts _ hpairs =>
    have hrest' : ctx.rest = opToken leftBrace :: (ts ++ opToken rightBrace :: r) :=
      hrest.trans (by simp)
    obtain ⟨t, ts', rfl, hne, -⟩ := hpairs.head_ne
    simp only [length_append, length_cons, length_nil] at hlen
    rw [parseValue_brace hrest', parseObject_brace hrest']
    have hpv := h.objectPairs_complete hpairs [] rfl n le_rfl
      ⟨t :: (ts' ++ opToken rightBrace :: r), ctx.args, ctx.err⟩ r rfl rfl
      (by simp only [length_cons]; omega)
    rw [cons_append, objectBody, if_neg hne, hpv]
    rfl
  | emptyArray =>
    have hrest' : ctx.rest = opToken leftBracket :: opToken rightBracket :: r := hrest
    rw [parseValue_bracket hrest', parseArray_bracket hrest', arrayBody, if_pos rfl]
  | @array _ _ ts _ hitems =>
    have hrest' : ctx.rest = opToken leftBracket :: (ts ++ opToken rightBracket :: r) :=
      hrest.trans (by simp)
    obtain ⟨t, ts', rfl, -, hne⟩ := hitems.head_ne
    simp only [length_append, length_cons, length_nil] at hlen
    rw [parseValue_bracket hrest', parseArray_bracket hrest']
    have hpv := h.arrayItems_complete hitems [] rfl n le_rfl
      ⟨t :: (ts' ++ opToken rightBracket :: r), ctx.args, ctx.err⟩ r rfl rfl
      (by simp only [length_cons]; omega)
    rw [cons_append, arrayBody, if_neg hne, hpv]
    rfl

theorem parseValue_breaks (ctx : JsonCtx)
    (hlen : ctx.rest.length < n + 1) (hbr : BreaksOff ap .value ctx.args ctx.rest) :
    parseValue ap (n + 1) ctx = .abort := by
  generalize hpart : JsonPart.value = part at hbr
  generalize hts : ctx.rest = ts at hbr
  cases hbr with
  | key | afterKey | pairValue | afterPair | nextPair | item | afterItem | nextItem => cases hpart
  | nothing => exact parseValue_nil hts
  | @object _ ts hpairs =>
    rw [parseValue_brace hts, parseObject_brace hts]
    rw [hts, length_cons] at hlen
    cases ts with
    | nil => rfl
    | cons t ts =>
      have hpv := h.objectPairs_breaks hpairs rfl n le_rfl [] ⟨t :: ts, ctx.args, ctx.err⟩ rfl rfl
        (by omega)
      rw [objectBody, if_neg (hpairs.head_ne t ts rfl).1, hpv]
      rfl
  | @array _ ts hitems =>
    rw [parseValue_bracket hts, parseArray_bracket hts]
    rw [hts, length_cons] at hlen
    cases ts with
    | nil => rfl
    | cons t ts =>
      have hpv := h.arrayItems_breaks hitems rfl n le_rfl [] ⟨t :: ts, ctx.args, ctx.err⟩ rfl rfl
        (by omega)
      rw [arrayBody, if_neg (hitems.head_ne t ts rfl).2, hpv]
      rfl

end

/-- The parser with fuel `n` follows the grammar on less than `n` tokens. -/
theorem parserSpec (ap : Option (ℕ → JsonValue)) (n : ℕ) : ParserSpec ap n (parseValue ap n) := by
  induction n with
  | zero => exact ⟨fun _ => zero_le _, fun _ _ _ _ _ _ h => absurd h (not_lt_zero _),
      fun _ h => absurd h (not_lt_zero _)⟩
  | succ n ih => exact ⟨parseValue_outcome ih,
      fun ctx _ _ _ _ hrest hlen hden => parseValue_complete ih ctx hrest hlen hden,
      parseValue_breaks ih⟩

end Spec

end QemuArm
