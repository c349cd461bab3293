import Qemu.Json.Literals
import Qemu.Json.Number

/-! The parser on arbitrary tokens: it answers with a value or an error, a value takes as many
closing as opening tokens, and calls are nested no deeper than braces and brackets. -/

namespace Qemu.Json

open List Checked

/-- What the parser relies on. -/
structure Token.Valid (token : Token) : Prop where
  string : token.type = .token .string → StringText token.str
  integer : token.type = .token .integer → NumberOf .integer token.str
  noInterp : token.type ≠ .token .interp

theorem interp_of_terminal (entry : jsonLexer s c = .terminal .interp) : s = .interp := by
  cases s with
  | interp => rfl
  | start => exact absurd (.inl rfl) (not_start_of_terminal entry)
  | startInterp => exact absurd (.inr rfl) (not_start_of_terminal entry)
  | _ =>
    simp only [jsonLexer, escapeRow, stringRow] at entry
    split_ifs at entry <;> cases entry

theorem scan_ne_interp : scan .start text ≠ some .interp := by
  intro read
  obtain ⟨c, rest, next, -, beginning, -, same⟩ := begins_of_scan (.inl rfl) (by decide) read
  cases beginning with
  | interp interpolates => cases interpolates
  | _ => cases same

theorem emit_kind (entry : jsonLexer s c = .emit t) (good : t ≠ .error) : t = .string ∨
    structural c = some t := by
  have kind := entryKind s c
  rw [entry] at kind
  generalize found : Entry.emit t = e at kind
  cases kind with
  | error =>
    cases found
    exact absurd rfl good
  | _ =>
    cases found
    try assumption

/-- The tokens of a lexer without interpolation. -/
theorem Emitted.valid (emitted : Emitted .start ⟨.token t, text⟩) (good : t ≠ .error) :
    Token.Valid ⟨.token t, text⟩ := by
  cases emitted with
  | @terminal s c _ _ read entry =>
    refine ⟨fun isString => ?_, fun isInteger => ?_, fun isInterp => ?_⟩
    · obtain rfl : t = .string := Code.token.inj isString
      have kind := entryKind s c
      rw [entry] at kind
      cases kind with
      | terminal kinds => simp at kinds
    · obtain rfl : t = .integer := Code.token.inj isInteger
      exact numberOf_of_scan (kindOf_of_terminal (.inl rfl) entry) (.inl rfl) read
    · obtain rfl : t = .interp := Code.token.inj isInterp
      rw [interp_of_terminal entry] at read
      exact scan_ne_interp read
  | @consumed s c _ text read entry =>
    refine ⟨fun isString => ?_, fun isInteger => ?_, fun isInterp => ?_⟩
    · obtain rfl : t = .string := Code.token.inj isString
      exact stringText_of_emit (.inl rfl) read entry
    · exact absurd (.inl (Code.token.inj isInteger)) (not_number_of_emit entry)
    obtain rfl : t = .interp := Code.token.inj isInterp
    rcases emit_kind entry good with other | found
    · cases other
    · have kinds := structural_mem found
      simp at kinds
  | error => exact absurd rfl good

def brace : Code → Int
  | .token .lcurly => 1
  | .token .rcurly => -1
  | _ => 0

def bracket : Code → Int
  | .token .lsquare => 1
  | .token .rsquare => -1
  | _ => 0

/-- Opening minus closing braces. -/
def braces (tokens : List Token) : Int := (tokens.map fun token => brace token.type).sum

/-- Opening minus closing brackets. -/
def brackets (tokens : List Token) : Int := (tokens.map fun token => bracket token.type).sum

@[simp]
theorem braces_nil : braces [] = 0 := rfl

@[simp]
theorem brackets_nil : brackets [] = 0 := rfl

@[simp]
theorem braces_cons (token : Token) (tokens : List Token) :
    braces (token :: tokens) = brace token.type + braces tokens :=
  sum_cons

@[simp]
theorem brackets_cons (token : Token) (tokens : List Token) :
    brackets (token :: tokens) = bracket token.type + brackets tokens := sum_cons

@[simp]
theorem braces_append (first second : List Token) :
    braces (first ++ second) = braces first + braces second := by
  rw [braces, map_append, sum_append]
  rfl

@[simp]
theorem brackets_append (first second : List Token) :
    brackets (first ++ second) = brackets first + brackets second := by
  rw [brackets, map_append, sum_append]
  rfl

/-- Tokens that open at most `depth` braces and brackets. -/
structure Nested (depth : Int) (buf : List Token) : Prop where
  valid : ∀ token ∈ buf, token.Valid
  depth : ∀ used, used <+: buf → braces used + brackets used ≤ depth

variable {rest : List Token}

theorem Nested.drop {depth : Int} (nested : Nested depth (used ++ rest)) :
    Nested (depth - braces used - brackets used) rest := by
  refine ⟨fun token member => nested.valid token (mem_append_right _ member), fun more within => ?_⟩
  have bound := nested.depth (used ++ more) ((prefix_append_right_inj used).mpr within)
  rw [braces_append, brackets_append] at bound
  omega

theorem Nested.cons {depth : Int} {token : Token} {rest : List Token}
    (nested : Nested depth (token :: rest)) :
    Nested (depth - brace token.type - bracket token.type) rest := by
  have dropped : Nested (depth - braces [token] - brackets [token]) rest := Nested.drop nested
  rwa [braces_cons, brackets_cons, braces_nil, brackets_nil, add_zero, add_zero] at dropped

/-- A value and what is left of the tokens, or an error. -/
inductive Parses {α : Type} (buf : List Token) (braceCount bracketCount : Int) :
    Except Assertion (Option α × JSONParserContext) → Prop
  | value {result : α} {used rest : List Token} (split : buf = used ++ rest) (progress : used ≠ [])
      (braceSum : braces used = braceCount) (bracketSum : brackets used = bracketCount) :
      Parses buf braceCount bracketCount (.ok (some result, ⟨none, rest⟩))
  | failed {ctxt : JSONParserContext} (error : ctxt.err.isSome = true) :
    Parses buf braceCount bracketCount (.ok (none, ctxt))

/-- `parse_value` below `depth` braces and brackets. -/
def ParsesValues (depth : Int)
    (value : JSONParserContext → Except Assertion (Option QObject × JSONParserContext)) : Prop :=
  ∀ buf, Nested depth buf → Parses buf 0 0 (value ⟨none, buf⟩)

theorem parseError_isSome (ctxt : JSONParserContext) (message : List UInt8) :
    (ctxt.parseError message).err.isSome = true := by
  rw [JSONParserContext.parseError]
  split_ifs with failed
  · exact failed
  · rfl

variable {α : Type} {buf : List Token} {braceCount bracketCount : Int}

theorem Parses.error (ctxt : JSONParserContext) (message : List UInt8) :
    @Parses α buf braceCount bracketCount (.ok (none, ctxt.parseError message)) :=
  .failed (parseError_isSome ctxt message)

/-- Tokens before what is parsed. -/
theorem Parses.after {used rest : List Token} {run : Except Assertion (Option α × JSONParserContext)}
    (parses : Parses rest braceCount bracketCount run) :
    Parses (used ++ rest) (braces used + braceCount) (brackets used + bracketCount) run := by
  cases parses with
  | @value result more last split progress braceSum bracketSum =>
    subst split braceSum bracketSum
    refine .value (append_assoc _ _ _).symm ?_ (braces_append _ _) (brackets_append _ _)
    exact fun empty => progress (List.append_eq_nil_iff.mp empty).2
  | failed error => exact .failed error

variable {token : Token} {code : Code}

theorem Parses.single (type : token.type = code) (result : α) :
    Parses (token :: rest) (brace code) (bracket code) (.ok (some result, ⟨none, rest⟩)) := by
  subst type
  exact @Parses.value _ _ _ _ result [token] rest rfl (cons_ne_nil _ _) (by simp) (by simp)

theorem Parses.cons {run : Except Assertion (Option α × JSONParserContext)}
    (type : token.type = code) (parses : Parses rest braceCount bracketCount run) :
    Parses (token :: rest) (brace code + braceCount) (bracket code + bracketCount) run := by
  subst type
  have moved := @Parses.after _ _ _ [token] _ _ parses
  simpa using moved

theorem parseLiteral_parses (valid : token.Valid)
    (literal : token.type = .token .integer ∨ token.type = .token .float ∨ token.type = .token .string) :
    Parses (token :: rest) 0 0 (parseLiteral ⟨none, token :: rest⟩) := by
  obtain ⟨type, str⟩ := token
  rw [parseLiteral]
  rcases literal with rfl | rfl | rfl
  · obtain ⟨value, parsed⟩ := parseInteger_ok (valid.integer rfl)
    dsimp only
    rw [parsed]
    exact .single rfl _
  · exact .single rfl _
  obtain ⟨result, message, parsed⟩ := parseString_ok (valid.string rfl) (.token .string) ⟨none, rest⟩
  dsimp only
  rw [parsed]
  cases result with
  | none => exact .failed (parseError_isSome ⟨none, rest⟩ message)
  | some str => exact .single rfl _

theorem parseKeyword_parses (keyword : token.type = .token .keyword) :
    Parses (token :: rest) 0 0 (parseKeyword ⟨none, token :: rest⟩) := by
  rw [parseKeyword, popToken]
  dsimp only
  rw [if_pos keyword, ok_bind]
  split_ifs
  case neg => exact .error _ _
  all_goals exact .single keyword _

section Containers

variable {depth : Int} {value : JSONParserContext → Except Assertion (Option QObject × JSONParserContext)}

theorem Nested.after {used rest : List Token} (nested : Nested depth (used ++ rest))
    (braceSum : braces used = 0) (bracketSum : brackets used = 0) : Nested depth rest := by
  have dropped := nested.drop
  rwa [braceSum, bracketSum, sub_zero, sub_zero] at dropped

theorem Nested.separator (nested : Nested depth (token :: rest))
    (separates : token.type = .token .comma ∨ token.type = .token .colon) : Nested depth rest := by
  refine @Nested.after depth [token] rest nested ?_ ?_ <;> rcases separates with type |
    type <;> simp [type, brace, bracket]

theorem parsePair_parses (spec : ParsesValues depth value) (dict : List (List UInt8 × QObject))
    (nested : Nested depth buf) : Parses buf 0 0 (parsePair value dict ⟨none, buf⟩) := by
  rw [parsePair]
  by_cases empty : buf = []
  · rw [if_pos empty]
    exact .error _ _
  rw [if_neg empty]
  have keys := spec buf nested
  generalize value ⟨none, buf⟩ = run at keys
  cases keys with
  | failed error => exact .error _ _
  | @value key used rest split progress braceSum bracketSum => ?_
  subst split
  rw [ok_bind]
  cases key with
  | string key =>
    cases rest with
    | nil => exact .error _ _
    | cons token rest => ?_
    dsimp only
    by_cases colon : token.type = .token .colon
    · rw [if_neg (not_not.mpr colon)]
      have values := spec rest ((nested.after braceSum bracketSum).separator (.inr colon))
      generalize value ⟨none, rest⟩ = run at values
      cases values with
      | failed error => exact .error _ _
      | @value obj more last split progress' braceSum' bracketSum' => ?_
      subst split
      split_ifs
      · exact .error _ _
      refine @Parses.value _ _ _ _ (dict ++ [(key, obj)]) (used ++ token :: more) last ?_ ?_ ?_ ?_
      · rw [append_assoc, cons_append]
      · simp
      · simp [braceSum, braceSum', colon, brace]
      · simp [bracketSum, bracketSum', colon, bracket]
    · rw [if_pos colon]
      exact .error _ _
  | _ => exact .error _ _

theorem Nested.opened (nested : Nested (depth + 1) (token :: rest))
    (opens : brace token.type + bracket token.type = 1) : Nested depth rest := by
  have dropped := nested.cons
  rwa [sub_sub, opens, add_sub_cancel_right] at dropped

/-- An element, and what comes after it unless it is an error. -/
theorem Parses.next {β : Type} {first : Except Assertion (Option β × JSONParserContext)}
    {next : Option β × JSONParserContext → Except Assertion (Option α × JSONParserContext)}
    (parses : Parses buf 0 0 first) (nested : Nested depth buf)
    (fails : ∀ ctxt, next (none, ctxt) = .ok (none, ctxt))
    (more : ∀ element rest, rest.length < buf.length → Nested depth rest →
      Parses rest braceCount bracketCount (next (some element, ⟨none, rest⟩))) :
    Parses buf braceCount bracketCount (first >>= next) := by
  cases parses with
  | @failed ctxt error =>
    rw [ok_bind, fails]
    exact .failed error
  | @value element used rest split progress braceSum bracketSum => ?_
  subst split
  have shorter : rest.length < (used ++ rest).length := by
    rw [length_append]
    exact Nat.lt_add_of_pos_left (length_pos_iff.mpr progress)
  have moved := @Parses.after _ _ _ used _ _ (more element rest shorter (nested.after braceSum bracketSum))
  rwa [braceSum, bracketSum, zero_add, zero_add] at moved

section

variable (spec : ParsesValues depth value)
include spec

theorem parsePairs_parses (dict : List (List UInt8 × QObject))
    (nested : Nested depth buf) (enough : buf.length < fuel) :
    Parses buf (-1) 0 (parsePairs value fuel dict ⟨none, buf⟩) := by
  induction fuel generalizing buf dict with
  | zero => omega
  | succ fuel ih => ?_
  rw [parsePairs]
  cases buf with
  | nil => exact .error _ _
  | cons token rest => ?_
  dsimp only
  by_cases closing : token.type = .token .rcurly
  · rw [if_pos closing]
    exact .single closing _
  rw [if_neg closing]
  by_cases comma : token.type = .token .comma
  · rw [if_neg (not_not.mpr comma)]
    have below := nested.separator (.inl comma)
    refine @Parses.cons _ _ (-1) 0 _ _ _ comma ?_
    refine (parsePair_parses spec dict below).next below (fun _ => rfl) fun dict last shorter below => ?_
    exact ih dict below (shorter.trans (Nat.lt_of_succ_lt_succ enough))
  · rw [if_pos comma]
    exact .error _ _

theorem parseItem_parses (list : List QObject) (nested : Nested depth buf) :
    Parses buf 0 0 (parseItem value list ⟨none, buf⟩) := by
  rw [parseItem]
  have items := spec buf nested
  generalize value ⟨none, buf⟩ = run at items
  cases items with
  | failed error => exact .error _ _
  | value split progress braceSum bracketSum => exact .value split progress braceSum bracketSum

theorem parseItems_parses (list : List QObject)
    (nested : Nested depth buf) (enough : buf.length < fuel) :
    Parses buf 0 (-1) (parseItems value fuel list ⟨none, buf⟩) := by
  induction fuel generalizing buf list with
  | zero => omega
  | succ fuel ih => ?_
  rw [parseItems]
  cases buf with
  | nil => exact .error _ _
  | cons token rest => ?_
  dsimp only
  by_cases closing : token.type = .token .rsquare
  · rw [if_pos closing]
    exact .single closing _
  rw [if_neg closing]
  by_cases comma : token.type = .token .comma
  · rw [if_neg (not_not.mpr comma)]
    have below := nested.separator (.inl comma)
    refine @Parses.cons _ _ 0 (-1) _ _ _ comma ?_
    refine (parseItem_parses spec list below).next below (fun _ => rfl) fun list last shorter below => ?_
    exact ih list below (shorter.trans (Nat.lt_of_succ_lt_succ enough))
  · rw [if_pos comma]
    exact .error _ _

end

/-- Between the opening and the closing token one brace or bracket less is left. -/
theorem parseObject_parses (opening : token.type = .token .lcurly)
    (nested : Nested (depth + 1) (token :: rest)) (spec : ParsesValues depth value) :
    Parses (token :: rest) 0 0 (parseObject value ⟨none, token :: rest⟩) := by
  have below := nested.opened (by rw [opening]; rfl)
  rw [parseObject, popToken]
  dsimp only
  rw [if_pos opening, ok_bind]
  cases rest with
  | nil => exact .error _ _
  | cons peek rest => ?_
  refine @Parses.cons _ _ (-1) 0 _ _ _ opening ?_
  dsimp only
  by_cases closing : peek.type = .token .rcurly
  · rw [if_neg (not_not.mpr closing)]
    exact .single closing _
  · rw [if_pos closing]
    refine (parsePair_parses spec [] below).next below (fun _ => rfl) fun dict last _ below => ?_
    exact parsePairs_parses spec dict below (Nat.lt_succ_self _)

theorem parseArray_parses (opening : token.type = .token .lsquare)
    (nested : Nested (depth + 1) (token :: rest)) (spec : ParsesValues depth value) :
    Parses (token :: rest) 0 0 (parseArray value ⟨none, token :: rest⟩) := by
  have below := nested.opened (by rw [opening]; rfl)
  rw [parseArray, popToken]
  dsimp only
  rw [if_pos opening, ok_bind]
  cases rest with
  | nil => exact .error _ _
  | cons peek rest => ?_
  refine @Parses.cons _ _ 0 (-1) _ _ _ opening ?_
  dsimp only
  by_cases closing : peek.type = .token .rsquare
  · rw [if_neg (not_not.mpr closing)]
    exact .single closing _
  · rw [if_pos closing]
    refine (parseItem_parses spec [] below).next below (fun _ => rfl) fun list last _ below => ?_
    exact parseItems_parses spec list below (Nat.lt_succ_self _)

/-- One call, where the calls inside are right whenever something is open. -/
theorem parseValueWith_parses (spec : 0 < depth → ParsesValues (depth - 1) value)
    (nested : Nested depth buf) : Parses buf 0 0 (parseValueWith value ⟨none, buf⟩) := by
  rw [parseValueWith]
  cases buf with
  | nil => exact .error _ _
  | cons token rest => ?_
  have valid := nested.valid token mem_cons_self
  have first : brace token.type + bracket token.type ≤ depth := by
    have bound := nested.depth [token] (prefix_append [token] rest)
    simpa using bound
  have below : Nested (depth - 1 + 1) (token :: rest) := by rwa [sub_add_cancel]
  dsimp only
  split
  next isType =>
    rw [isType] at first
    exact parseObject_parses isType below (spec first)
  next isType =>
    rw [isType] at first
    exact parseArray_parses isType below (spec first)
  next isType => exact absurd isType valid.noInterp
  next isType => exact parseLiteral_parses valid (.inl isType)
  next isType => exact parseLiteral_parses valid (.inr (.inl isType))
  next isType => exact parseLiteral_parses valid (.inr (.inr isType))
  next isType => exact parseKeyword_parses isType
  · exact .error _ _

end Containers

/-- Calls are nested no deeper than what is open. -/
theorem parseValue_parses (depth : Nat) : ParsesValues depth (parseValue depth) := by
  induction depth with
  | zero =>
    intro buf nested
    exact parseValueWith_parses (fun opened => absurd opened (lt_irrefl 0)) nested
  | succ depth ih =>
    intro buf nested
    refine parseValueWith_parses (fun _ => ?_) nested
    rwa [Nat.cast_succ, add_sub_cancel_right]

/-- Tokens of which no proper part is closed give a value or an error. -/
theorem jsonParserParse_ok (nested : Nested maxNesting tokens)
    (whole : ∀ used, used <+: tokens → used ≠ [] → braces used = 0 → brackets used = 0 → used = tokens) :
    ∃ json err, jsonParserParse tokens = .ok (json, err) ∧ json.isSome = !err.isSome := by
  have parses := parseValue_parses maxNesting tokens nested
  rw [jsonParserParse]
  generalize parseValue maxNesting ⟨none, tokens⟩ = run at parses
  cases parses with
  | @value result used rest split progress braceSum bracketSum =>
    have all := whole used ⟨rest, split.symm⟩ progress braceSum bracketSum
    obtain rfl : rest = [] := List.append_right_eq_self.mp (split.symm.trans all.symm)
    exact ⟨some result, none, rfl, rfl⟩
  | @failed ctxt error => ?_
  refine ⟨none, ctxt.err, ?_, by rw [error]; rfl⟩
  rw [ok_bind]
  dsimp only
  rw [if_pos (.inl error)]
  rfl

end Qemu.Json
