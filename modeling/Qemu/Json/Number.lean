import Qemu.Json.NumberGrammar

namespace Qemu.Json

open List Nat Lexer

/-- Whitespace and the structural characters. -/
inductive Delimiter where
  | space
  | tab
  | lineFeed
  | carriageReturn
  | beginArray
  | beginObject
  | endArray
  | endObject
  | nameSeparator
  | valueSeparator
  deriving DecidableEq, Repr

namespace Delimiter

def byte : Delimiter → UInt8
  | .space => 0x20
  | .tab => 0x09
  | .lineFeed => 0x0A
  | .carriageReturn => 0x0D
  | .beginArray => 0x5B
  | .beginObject => 0x7B
  | .endArray => 0x5D
  | .endObject => 0x7D
  | .nameSeparator => 0x3A
  | .valueSeparator => 0x2C

/-- A structural character is a token of its own. -/
def calls (d : Delimiter) : List Call :=
  match structural d.byte with
  | some t => [⟨.token t, [d.byte]⟩]
  | none => []

end Delimiter

/-- The text and a delimiter give one token with the whole text, and that of the delimiter. -/
def TokenisedAs (interpolation : Bool) (text : List UInt8) (d : Delimiter) (kind : TokenType) : Prop :=
  ∃ lexer, jsonLexerFeed (text ++ [d.byte]) (jsonLexerInit interpolation) =
    .ok (lexer, ⟨.token kind, text⟩ :: d.calls)

variable {initial : LexerState}

theorem Delimiter.feed (d : Delimiter) (starts : initial.IsStart) :
    jsonLexerFeedChar d.byte false (ready initial) = .ok (ready initial, d.calls) := by
  rcases starts with rfl | rfl <;> cases d <;> rfl

/-- A delimiter ends a number. -/
theorem Delimiter.terminal {last : LexerState} {kind : TokenType} (d : Delimiter)
    (ends : kindOf last = some kind) : jsonLexer last d.byte = .terminal kind := by
  cases last with
  | zero | digits | mantissaDigits | expDigits =>
    obtain rfl := Option.some.inj ends
    cases d <;> rfl
  | _ => cases ends

variable {text : List UInt8}

theorem feed_text (read : scan initial text = some last) (fits : text.length ≤ maxTokenSize) :
    jsonLexerFeed text (ready initial) = .ok (⟨initial, .state last, text⟩, []) :=
  jsonLexerFeed_scan rfl read (by simpa [ready] using fits)

variable {kind : TokenType}

theorem feed_pending {d : Delimiter} (starts : initial.IsStart)
    (good : kind = .integer ∨ kind = .float ∨ kind = .keyword ∨ kind = .interp)
    (read : scan initial text = some last)
    (fits : text.length ≤ maxTokenSize) (row : jsonLexer last d.byte = .terminal kind) :
    jsonLexerFeed (text ++ [d.byte]) (ready initial) =
    .ok (ready initial, ⟨.token kind, text⟩ :: d.calls) := by
  have entered : enter ⟨initial, .state last, text⟩ (jsonLexer last d.byte).next =
      (ready initial, [⟨.token kind, text⟩]) := by
    rw [row]
    exact enter_terminal good
  have ahead : (jsonLexer last d.byte).lookahead = true := by
    rw [row]
    rfl
  have feedChar : jsonLexerFeedChar d.byte false ⟨initial, .state last, text⟩ =
      (jsonLexerFeedChar d.byte false (ready initial)).map fun result =>
        (result.1, [⟨.token kind, text⟩] ++ result.2) :=
    jsonLexerFeedChar_ahead starts rfl ahead entered
  rw [jsonLexerFeed_append, feed_text read fits, Checked.ok_bind, jsonLexerFeed, feedChar, d.feed starts]
  simp [jsonLexerFeed, Except.map, Checked.ok_bind]

/-- A text whose characters do not all go into one token. -/
structure Broken (text : List UInt8) (lexer : Lexer) (calls : List Call) : Prop where
  shorter : lexer.token.length < text.length
  numbers : ∀ call ∈ calls, call.type.IsNumber → call.input.length < text.length

/-- A text between tokens is read into one token, or it is broken. -/
theorem feed_or_broken (starts : initial.IsStart) (text : List UInt8) :
    ∃ lexer calls, jsonLexerFeed text (ready initial) = .ok (lexer, calls) ∧
    lexer.startState = initial ∧ lexer.Sound ∧
      (calls = [] ∧ lexer.token = text ∧ lexer.token.length ≤ maxTokenSize ∧
      (∃ s, lexer.state = .state s ∧ scan initial text = some s) ∨
        Broken text lexer calls) := by
  induction text using reverseRecOn with
  | nil => exact ⟨_, _, rfl, rfl, sound_ready starts, .inl ⟨rfl, rfl, zero_le _, initial, rfl, rfl⟩⟩
  | append_singleton text c ih => ?_
  obtain ⟨lexer, calls, fed, start, sound, outcome⟩ := ih
  obtain ⟨lexer', calls', fed', start', sound', outcome'⟩ := feedChar_spec sound c
  refine ⟨lexer', calls ++ calls', ?_, start'.trans start, sound', ?_⟩
  · rw [jsonLexerFeed_append, fed, Checked.ok_bind, jsonLexerFeed, fed']
    simp [jsonLexerFeed, Checked.ok_bind, Except.map]
  rcases outcome with ⟨rfl, token, -, s, here, read⟩ | broken
  · rcases outcome' with advanced | restarted
    · refine .inl ⟨by rw [advanced.silent]; rfl, by rw [advanced.token, token], ?_, ?_⟩
      · have fits := advanced.fits
        rw [advanced.token, length_append]
        exact fits
      · obtain ⟨s', next, -, here', step, last⟩ := advanced.step
        obtain rfl : s = s' := Code.state.inj (here.symm.trans here')
        exact ⟨next, last, scan_concat read step⟩
    refine .inr ⟨?_, fun call member number => ?_⟩
    · rw [length_append, ← token]
      rcases restarted.shorter with less | ⟨recovering, short⟩
      · exact lt_succ_of_le less
      cases text with
      | nil =>
        obtain rfl := Option.some.inj read
        have same := Code.state.inj (here.symm.trans recovering)
        rw [same] at starts
        exact absurd starts (by decide)
      | cons first rest =>
        rw [token]
        exact lt_succ_of_le (short.trans (succ_le_succ (zero_le _)))
    · rw [restarted.numbers call member number, token, length_append]
      exact lt_succ_self _
  · have shorter := broken.shorter
    rcases outcome' with advanced | restarted
    · refine .inr ⟨?_, fun call member number => ?_⟩
      · rw [advanced.token, length_append, length_append]
        exact succ_lt_succ shorter
      · rw [advanced.silent, append_nil] at member
        rw [length_append]
        exact lt_succ_of_lt (broken.numbers call member number)
    · refine .inr ⟨?_, fun call member number => ?_⟩
      · have less := restarted.shorter
        rw [length_append, length_singleton]
        omega
      rw [length_append]
      rcases List.mem_append.mp member with old | new
      · exact lt_succ_of_lt (broken.numbers call old number)
      · rw [restarted.numbers call new number]
        exact lt_succ_of_lt shorter

theorem kindOf_of_terminal (number : kind = .integer ∨ kind = .float)
    (entry : jsonLexer s c = .terminal kind) : kindOf s = some kind := by
  cases s with
  | start => exact absurd (.inl rfl) (not_start_of_terminal entry)
  | startInterp => exact absurd (.inr rfl) (not_start_of_terminal entry)
  | _ =>
    simp only [jsonLexer, escapeRow, stringRow] at entry
    split_ifs at entry <;> cases entry <;> simp [kindOf] at number ⊢

theorem not_number_of_emit (entry : jsonLexer s c = .emit kind) : ¬ (kind = .integer ∨ kind = .float) := by
  have emits := entryKind s c
  rw [entry] at emits
  generalize same : Entry.emit kind = e at emits
  cases emits with
  | error =>
    cases same
    simp
  | emit good =>
    cases same
    have member := emit_mem good
    rintro (rfl | rfl) <;> simp at member
  | _ => cases same

theorem tokenisedAs_iff (interpolation : Bool) (text : List UInt8) (d : Delimiter)
    (number : kind = .integer ∨ kind = .float) :
    TokenisedAs interpolation text d kind ↔ text.length ≤ maxTokenSize ∧
      ∃ last, scan (jsonLexerInit interpolation).startState text = some last ∧
      kindOf last = some kind := by
  have starts := (jsonLexerInit_sound interpolation).starts
  have isReady : jsonLexerInit interpolation = ready (jsonLexerInit interpolation).startState := rfl
  have isNumber : (Code.token kind).IsNumber := by
    rcases number with rfl | rfl
    · exact .inl rfl
    · exact .inr rfl
  rw [TokenisedAs, isReady]
  generalize (jsonLexerInit interpolation).startState = initial at starts
  constructor
  · rintro ⟨last, fed⟩
    obtain ⟨lexer, calls, fedText, start, sound, outcome⟩ := feed_or_broken starts text
    obtain ⟨lexer', calls', fedChar, -, -, outcome'⟩ := feedChar_spec sound d.byte
    rw [jsonLexerFeed_append, fedText, Checked.ok_bind, jsonLexerFeed, fedChar] at fed
    have both : calls ++ calls' = ⟨.token kind, text⟩ :: d.calls := by
      have inner := Except.ok.inj fed
      simpa using congrArg Prod.snd inner
    have first : (⟨.token kind, text⟩ : Call) ∈ calls ++ calls' := both ▸ mem_cons_self
    rcases outcome with ⟨rfl, token, fits, -⟩ | broken
    · refine ⟨token ▸ fits, ?_⟩
      rcases outcome' with advanced | restarted
      · rw [advanced.silent] at first
        cases first
      have emitted := restarted.emitted _ first
      rw [start] at emitted
      cases emitted with
      | terminal read entry => exact ⟨_, read, kindOf_of_terminal number entry⟩
      | consumed _ entry => exact absurd number (not_number_of_emit entry)
      | error => simp at number
    · rcases List.mem_append.mp first with old | new
      · exact absurd (broken.numbers _ old isNumber) (lt_irrefl _)
      rcases outcome' with advanced | restarted
      · rw [advanced.silent] at new
        cases new
      · have same := restarted.numbers _ new isNumber
        have shorter := broken.shorter
        rw [← same] at shorter
        exact absurd shorter (lt_irrefl _)
  · rintro ⟨fits, last, read, ends⟩
    exact ⟨_, feed_pending starts (number.imp_right .inl) read fits (d.terminal ends)⟩

/-- The tokens of numbers are those of the grammar, but for numbers that are too long and for a zero
with an exponent and no fraction. -/
theorem tokenised_number_iff (interpolation : Bool) (text : List UInt8) (d : Delimiter) :
    (∀ kind, kind = .integer ∨ kind = .float →
    (TokenisedAs interpolation text d kind ↔ NumberOf kind text)) ↔
      (Number text → text.length ≤ maxTokenSize ∧ ¬ ZeroExponent text) := by
  have starts := (jsonLexerInit_sound interpolation).starts
  constructor
  · rintro exact_ ⟨number⟩
    have isNumber : tailKind number.frac number.exp = .integer ∨
      tailKind number.frac number.exp = .float := by
      rw [tailKind]
      split_ifs <;> simp
    have tokenised := (exact_ _ isNumber).mpr ⟨number, rfl⟩
    obtain ⟨fits, last, read, -⟩ := (tokenisedAs_iff interpolation text d isNumber).mp tokenised
    refine ⟨fits, fun zeroExponent => ?_⟩
    rw [scan_zeroExponent starts zeroExponent] at read
    cases read
  · intro fine kind isNumber
    rw [tokenisedAs_iff interpolation text d isNumber]
    constructor
    · rintro ⟨-, last, read, ends⟩
      exact numberOf_of_scan ends starts read
    · rintro ⟨number, rfl⟩
      obtain ⟨fits, allowed⟩ := fine ⟨number⟩
      exact ⟨fits, scan_of_number starts number fun zeroExponent => allowed ⟨number, zeroExponent⟩⟩

/-- `0e1` is a number of the grammar, but the lexer makes three tokens of it. -/
theorem zeroExponent_tokens :
    NumberOf .float ['0'.toUInt8, 'e'.toUInt8, '1'.toUInt8] ∧
      (jsonLexerFeed ['0'.toUInt8, 'e'.toUInt8, '1'.toUInt8, ' '.toUInt8] (jsonLexerInit false)).map
      Prod.snd =
        .ok [⟨.token .integer, ['0'.toUInt8]⟩, ⟨.token .keyword, ['e'.toUInt8]⟩,
        ⟨.token .integer, ['1'.toUInt8]⟩] := by
  have digits : Digits ['1'.toUInt8] := ⟨cons_ne_nil _ _, List.forall_mem_singleton.mpr rfl⟩
  refine ⟨⟨⟨[], ['0'.toUInt8], [], ['e'.toUInt8, '1'.toUInt8], rfl, .inl rfl, .zero, .inl rfl,
    .inr ?_⟩, rfl⟩, rfl⟩
  have part : ExpPart ('e'.toUInt8 :: [] ++ ['1'.toUInt8]) := .exponent (.inl rfl) (.inl rfl) digits
  exact part

end Qemu.Json
