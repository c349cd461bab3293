import Qemu.Json.ParserSafety
import Qemu.Json.Streamer

/-! The message parser on arbitrary input: lexer, streamer and parser together fail no assertion,
and the messages do not depend on the chunks. -/

namespace Qemu.Json

open List Checked

/-- Something is open, and nothing was closed that was not open. -/
def Open (tokens : List Token) : Prop :=
  (0 < braces tokens ∨ 0 < brackets tokens) ∧ 0 ≤ braces tokens ∧ 0 ≤ brackets tokens

/-- A message has a value or an error, and not both. -/
def Message.Exclusive (message : Message) : Prop := message.json.isSome = !message.err.isSome

namespace Streamer

/-- A streamer in the middle of a message. -/
structure Collecting (parser : Streamer) : Prop where
  braceCount : parser.braceCount = braces parser.tokens
  bracketCount : parser.bracketCount = brackets parser.tokens
  valid : ∀ token ∈ parser.tokens, token.Valid
  opened : ∀ used, used <+: parser.tokens → used ≠ [] → Open used
  depth : ∀ used, used <+: parser.tokens → braces used + brackets used ≤ maxNesting

theorem collecting_init : init.Collecting := by
  refine ⟨rfl, rfl, nofun, fun used within some => absurd (prefix_nil.mp within) some,
    fun used within => ?_⟩
  rw [prefix_nil.mp within]
  decide

variable {parser : Streamer}

/-- The tokens of a message, complete or cut off, are parsed. -/
theorem parse_ok {tokens : List Token} (nested : Nested maxNesting tokens)
    (opened : ∀ used, used <+: tokens → used ≠ [] → used ≠ tokens → Open used) :
    ∃ message, parse tokens = .ok message ∧ message.Exclusive := by
  have whole : ∀ used, used <+: tokens → used ≠ [] → braces used = 0 → brackets used = 0 →
    used = tokens := by
    intro used within progress braceSum bracketSum
    by_contra more
    obtain ⟨some, -⟩ := opened used within progress more
    omega
  obtain ⟨json, err, parsed, exclusive⟩ := jsonParserParse_ok nested whole
  refine ⟨⟨json, err⟩, ?_, exclusive⟩
  rw [parse, parsed]
  rfl

theorem count_eq (parser : Streamer) (type : Code) : parser.count type =
    ⟨parser.braceCount + brace type, parser.bracketCount + bracket type, parser.tokens,
    parser.tokenSize⟩ := by
  cases type with
  | state s => simp [count, brace, bracket]
  | token t => cases t <;> simp [count, brace, bracket, sub_eq_add_neg]

theorem push_spec (collecting : parser.Collecting) (valid : Token.Valid ⟨type, str⟩) :
    (∃ err, (parser.count type).push ⟨type, str⟩ = .error err) ∨
      ∃ parser' : Streamer, (parser.count type).push ⟨type, str⟩ = .ok parser' ∧
        parser'.tokens = parser.tokens ++ [⟨type, str⟩] ∧ parser'.braceCount = braces parser'.tokens ∧
        parser'.bracketCount = brackets parser'.tokens ∧ Nested maxNesting parser'.tokens := by
  rw [count_eq, push]
  dsimp only
  split_ifs with size number nesting
  case neg =>
    refine .inr ⟨_, rfl, rfl, ?_, ?_, ?_, ?_⟩
    · simp [collecting.braceCount]
    · simp [collecting.bracketCount]
    · exact forall_mem_append.mpr ⟨collecting.valid, forall_mem_singleton.mpr valid⟩
    intro used within
    rcases prefix_concat_iff.mp within with rfl | earlier
    · simp only [braces_append, brackets_append, braces_cons, brackets_cons, braces_nil, brackets_nil]
      rw [collecting.braceCount, collecting.bracketCount] at nesting
      omega
    · exact collecting.depth used earlier
  all_goals exact .inl ⟨_, rfl⟩

/-- What becomes of a call. -/
structure Handled (parser' : Streamer) (message : Option Message) : Prop where
  collecting : parser'.Collecting
  exclusive : ∀ m ∈ message, m.Exclusive

theorem handled_message (exclusive : message.Exclusive) : Handled init (some message) := by
  refine ⟨collecting_init, fun m member => ?_⟩
  obtain rfl := Option.some.inj member
  exact exclusive

theorem handled_error (err : List UInt8) : Handled init (some ⟨none, some err⟩) := handled_message rfl

section

variable (collecting : parser.Collecting)
include collecting

theorem endOfInput_spec (input : List UInt8) :
    ∃ parser' message, parser.jsonMessageProcessToken ⟨.token .endOfInput, input⟩ =
      .ok (parser', message) ∧ Handled parser' message ∧ parser'.tokens = [] := by
  rw [jsonMessageProcessToken]
  by_cases empty : parser.tokens = []
  · rw [if_pos empty]
    exact ⟨_, _, rfl, ⟨collecting, nofun⟩, empty⟩
  rw [if_neg empty]
  obtain ⟨message, parsed, exclusive⟩ :=
    parse_ok ⟨collecting.valid, collecting.depth⟩ fun used within some _ =>
      collecting.opened used within some
  rw [parsed]
  exact ⟨_, _, rfl, handled_message exclusive, rfl⟩

theorem token_spec (valid : Token.Valid ⟨type, input⟩)
    (noError : type ≠ .token .error) (noEnd : type ≠ .token .endOfInput) :
    ∃ parser' message, parser.jsonMessageProcessToken ⟨type, input⟩ = .ok (parser', message) ∧
    Handled parser' message := by
  rw [jsonMessageProcessToken]
  split
  · exact absurd ‹_› noError
  · exact absurd ‹_› noEnd
  rcases push_spec collecting valid with ⟨err, pushed⟩ |
    ⟨parser', pushed, added, braceCount, bracketCount, nested⟩
  · rw [pushed]
    exact ⟨_, _, rfl, handled_error err⟩
  rw [pushed]
  dsimp only
  have earlier : ∀ used, used <+: parser'.tokens → used ≠ [] → used ≠ parser'.tokens → Open used := by
    intro used within some proper
    rw [added] at within proper
    exact collecting.opened used ((prefix_concat_iff.mp within).resolve_left proper) some
  split_ifs with opened
  · refine ⟨_, _, rfl, ⟨⟨braceCount, bracketCount, nested.valid, fun used within some => ?_,
      nested.depth⟩, nofun⟩⟩
    by_cases whole : used = parser'.tokens
    · rw [braceCount, bracketCount, ← whole] at opened
      exact opened
    · exact earlier used within some whole
  · obtain ⟨message, parsed, exclusive⟩ := parse_ok nested earlier
    rw [parsed]
    exact ⟨_, _, rfl, handled_message exclusive⟩

/-- The streamer takes every call of the lexer. -/
theorem jsonMessageProcessToken_spec (emitted : Emitted .start call) :
    ∃ parser' message, parser.jsonMessageProcessToken call = .ok (parser', message) ∧
    Handled parser' message := by
  obtain ⟨type, input⟩ := call
  cases type with
  | state s =>
    -- what has no token type is too large for the streamer too
    cases emitted with
    | oversize large =>
      have full : parser.tokenSize + input.length + 1 > maxTokenSize := by omega
      rw [jsonMessageProcessToken]
      dsimp only
      rw [count_eq, push, if_pos full]
      exact ⟨_, _, rfl, handled_error _⟩
  | token t =>
    by_cases isError : t = .error
    · subst isError
      exact ⟨_, _, rfl, handled_error _⟩
    by_cases isEnd : t = .endOfInput
    · subst isEnd
      obtain ⟨parser', message, processed, handled, -⟩ := endOfInput_spec collecting input
      exact ⟨parser', message, processed, handled⟩
    · exact token_spec collecting (emitted.valid isError)
        (fun same => isError (Code.token.inj same)) fun same => isEnd (Code.token.inj same)

end

theorem processCalls_append
    (first : parser.processCalls calls = .ok (parser', messages))
    (second : parser'.processCalls more = .ok (parser'', later)) :
    parser.processCalls (calls ++ more) = .ok (parser'', messages ++ later) := by
  induction calls generalizing parser messages with
  | nil =>
    cases first
    exact second
  | cons call rest ih =>
    obtain ⟨⟨next, message⟩, processed, first⟩ := bind_ok.mp first
    obtain ⟨⟨last, messages'⟩, processedRest, ⟨⟩⟩ := bind_ok.mp first
    rw [append_assoc]
    exact bind_ok.mpr ⟨_, processed, bind_ok.mpr ⟨_, ih processedRest, rfl⟩⟩

theorem processCalls_spec (collecting : parser.Collecting)
    (emitted : ∀ call ∈ calls, Emitted .start call) :
    ∃ parser' messages, parser.processCalls calls = .ok (parser', messages) ∧ parser'.Collecting ∧
      ∀ m ∈ messages, m.Exclusive := by
  induction calls generalizing parser with
  | nil => exact ⟨_, _, rfl, collecting, nofun⟩
  | cons call rest ih => ?_
  obtain ⟨next, message, processed, handled⟩ :=
    jsonMessageProcessToken_spec collecting (emitted call mem_cons_self)
  obtain ⟨last, messages, processedRest, collecting', exclusive⟩ :=
    ih handled.collecting fun call member => emitted call (mem_cons_of_mem _ member)
  refine ⟨last, message.toList ++ messages, ?_, collecting', forall_mem_append.mpr ⟨?_, exclusive⟩⟩
  · exact bind_ok.mpr ⟨_, processed, bind_ok.mpr ⟨_, processedRest, rfl⟩⟩
  · exact fun m now => handled.exclusive m (Option.mem_toList.mp now)

end Streamer

namespace JSONMessageParser

open Streamer

/-- A parser between chunks. -/
structure Sound (parser : JSONMessageParser) : Prop where
  lexer : parser.lexer.Sound
  starts : parser.lexer.startState = .start
  streamer : parser.streamer.Collecting

theorem sound_init : init.Sound := ⟨jsonLexerInit_sound false, rfl, collecting_init⟩

variable {parser : JSONMessageParser}

theorem feed_iff {messages : List Message} :
    parser.jsonMessageParserFeed buffer = .ok (parser', messages) ↔
      ∃ calls, jsonLexerFeed buffer parser.lexer = .ok (parser'.lexer, calls) ∧
        parser.streamer.processCalls calls = .ok (parser'.streamer, messages) := by
  rw [jsonMessageParserFeed]
  constructor
  · intro fed
    obtain ⟨⟨lexer, calls⟩, lexed, fed⟩ := bind_ok.mp fed
    obtain ⟨⟨streamer, messages'⟩, processed, ⟨⟩⟩ := bind_ok.mp fed
    generalize jsonLexerFeed buffer parser.lexer = run at lexed
    cases run with
    | error cause => cases lexed
    | ok result =>
      cases lexed
      exact ⟨calls, rfl, processed⟩
  · rintro ⟨calls, lexed, processed⟩
    rw [lexed]
    exact bind_ok.mpr ⟨_, rfl, bind_ok.mpr ⟨_, processed, rfl⟩⟩

theorem jsonMessageParserFeed_spec (sound : parser.Sound) (buffer : List UInt8) :
    ∃ parser' messages, parser.jsonMessageParserFeed buffer = .ok (parser', messages) ∧
      parser'.Sound ∧ ∀ m ∈ messages, m.Exclusive := by
  obtain ⟨lexer, calls, fed, start, lexerSound, emitted⟩ := jsonLexerFeed_spec sound.lexer buffer
  rw [sound.starts] at emitted
  obtain ⟨streamer, messages, processed, collecting, exclusive⟩ := processCalls_spec sound.streamer emitted
  exact ⟨⟨lexer, streamer⟩, messages, feed_iff.mpr ⟨calls, fed, processed⟩,
    ⟨lexerSound, start.trans sound.starts, collecting⟩, exclusive⟩

theorem jsonMessageParserFlush_spec (sound : parser.Sound) :
    ∃ parser' messages, parser.jsonMessageParserFlush = .ok (parser', messages) ∧ parser'.Sound ∧
      ∀ m ∈ messages, m.Exclusive := by
  obtain ⟨calls, flushed, emitted⟩ := jsonLexerFlush_spec sound.lexer
  rw [sound.starts] at emitted
  obtain ⟨streamer, messages, processed, collecting, exclusive⟩ := processCalls_spec sound.streamer emitted
  obtain ⟨last, message, ended, handled, empty⟩ := endOfInput_spec collecting []
  have endOfInput : streamer.processCalls [⟨.token .endOfInput, []⟩] = .ok (last, message.toList) := by
    rw [processCalls, ended, ok_bind]
    simp [processCalls]
  refine ⟨⟨Lexer.ready parser.lexer.startState, last⟩, messages ++ message.toList, ?_,
    ⟨Lexer.sound_ready sound.lexer.starts, sound.starts, handled.collecting⟩,
    forall_mem_append.mpr ⟨exclusive, ?_⟩⟩
  · rw [jsonMessageParserFlush, flushed, Except.mapError, ok_bind]
    dsimp only
    rw [processCalls_append processed endOfInput, ok_bind]
    rw [if_pos empty]
    rfl
  · exact fun m now => handled.exclusive m (Option.mem_toList.mp now)

theorem jsonMessageParserFeed_append
    {messages more : List Message} (fed : parser.jsonMessageParserFeed first = .ok (parser', messages))
    (fed' : parser'.jsonMessageParserFeed second = .ok (parser'', more)) :
    parser.jsonMessageParserFeed (first ++ second) = .ok (parser'', messages ++ more) := by
  obtain ⟨calls, lexed, processed⟩ := feed_iff.mp fed
  obtain ⟨calls', lexed', processed'⟩ := feed_iff.mp fed'
  refine feed_iff.mpr ⟨calls ++ calls', ?_, processCalls_append processed processed'⟩
  rw [jsonLexerFeed_append, lexed, ok_bind]
  rw [lexed']
  rfl

theorem messages_spec (sound : parser.Sound) (chunks : List (List UInt8)) :
    ∃ messages, parser.messages chunks = .ok messages ∧ ∀ m ∈ messages, m.Exclusive := by
  induction chunks generalizing parser with
  | nil =>
    obtain ⟨parser', messages, flushed, -, exclusive⟩ := jsonMessageParserFlush_spec sound
    exact ⟨messages, bind_ok.mpr ⟨_, flushed, rfl⟩, exclusive⟩
  | cons chunk rest ih =>
    obtain ⟨parser', messages, fed, sound', exclusive⟩ := jsonMessageParserFeed_spec sound chunk
    obtain ⟨more, done, exclusive'⟩ := ih sound'
    exact ⟨messages ++ more, bind_ok.mpr ⟨_, fed, bind_ok.mpr ⟨_, done, rfl⟩⟩,
      forall_mem_append.mpr ⟨exclusive, exclusive'⟩⟩

/-- The chunks do not matter, only what they add up to. -/
theorem messages_flatten (sound : parser.Sound) (chunks : List (List UInt8)) :
    parser.messages chunks = parser.messages [chunks.flatten] := by
  induction chunks generalizing parser with
  | nil =>
    have nothing : parser.jsonMessageParserFeed [] = .ok (parser, []) := feed_iff.mpr ⟨[], rfl, rfl⟩
    obtain ⟨parser', messages, flushed, -, -⟩ := jsonMessageParserFlush_spec sound
    rw [flatten_nil, JSONMessageParser.messages, JSONMessageParser.messages, nothing, ok_bind]
    dsimp only
    rw [JSONMessageParser.messages, flushed]
    rfl
  | cons chunk rest ih =>
    obtain ⟨parser', messages, fed, sound', -⟩ := jsonMessageParserFeed_spec sound chunk
    obtain ⟨parser'', more, fed', sound'', -⟩ := jsonMessageParserFeed_spec sound' rest.flatten
    obtain ⟨last, done, -⟩ := messages_spec sound'' []
    rw [JSONMessageParser.messages, fed, ok_bind]
    dsimp only
    rw [ih sound', flatten_cons, JSONMessageParser.messages, JSONMessageParser.messages, fed',
      jsonMessageParserFeed_append fed fed']
    simp [ok_bind, done]

/-- For every input in every division into chunks, no assertion fails and `parse_value` calls itself
at most `maxNesting` times inside each other; each message has either a value or an error. -/
theorem messages_robust (chunks : List (List UInt8)) :
    ∃ messages, init.messages chunks = .ok messages ∧ (∀ m ∈ messages, m.json.isSome = !m.err.isSome) ∧
      ∀ chunks' : List (List UInt8), chunks'.flatten = chunks.flatten →
      init.messages chunks' = .ok messages := by
  obtain ⟨messages, done, exclusive⟩ := messages_spec sound_init chunks
  refine ⟨messages, done, exclusive, fun chunks' same => ?_⟩
  rw [messages_flatten sound_init chunks', same, ← messages_flatten sound_init chunks, done]

/-- What feeding and flushing lead to. -/
inductive Reachable : JSONMessageParser → Prop
  | init : Reachable init
  | feed {parser parser' : JSONMessageParser} {buffer : List UInt8} {messages : List Message}
      (reached : Reachable parser)
      (fed : parser.jsonMessageParserFeed buffer = .ok (parser', messages)) : Reachable parser'
  | flush {parser parser' : JSONMessageParser} {messages : List Message} (reached : Reachable parser)
      (flushed : parser.jsonMessageParserFlush = .ok (parser', messages)) : Reachable parser'

theorem Reachable.sound (reachable : Reachable parser) : parser.Sound := by
  induction reachable with
  | init => exact sound_init
  | feed _ fed ih =>
    obtain ⟨_, _, fed', sound, -⟩ := jsonMessageParserFeed_spec ih _
    cases fed.symm.trans fed'
    exact sound
  | flush _ flushed ih =>
    obtain ⟨_, _, flushed', sound, -⟩ := jsonMessageParserFlush_spec ih
    cases flushed.symm.trans flushed'
    exact sound

/-- An error makes every streamer start anew, whatever was collected. -/
theorem processCalls_error {streamer streamer' : Streamer} {messages : List Message}
    (done : streamer.processCalls (before ++ [⟨.token .error, text⟩]) = .ok (streamer', messages)) :
    streamer' = .init := by
  induction before generalizing streamer messages with
  | nil =>
    cases done
    rfl
  | cons call rest ih =>
    obtain ⟨_, -, done⟩ := bind_ok.mp done
    obtain ⟨⟨last, _⟩, processed, ⟨⟩⟩ := bind_ok.mp done
    exact ih processed

theorem feed_resync (sound : parser.Sound) :
    ∃ messages, parser.jsonMessageParserFeed [0xFF, 0x0A] = .ok (init, messages) := by
  obtain ⟨⟨lexer, streamer⟩, messages, fed, -, -⟩ := jsonMessageParserFeed_spec sound [0xFF, 0x0A]
  obtain ⟨calls, lexed, processed⟩ := feed_iff.mp fed
  obtain ⟨before, text, resync⟩ := sound.lexer.resync
  cases lexed.symm.trans resync
  obtain rfl := processCalls_error processed
  rw [sound.starts] at fed
  exact ⟨messages, fed⟩

/-- `0xFF` and a newline bring the parser back to its initial state from wherever it is, so that
what follows is parsed as by a fresh one. With interpolation the lexer ends in its own initial state
and its last call is the error, on which the streamer starts anew. -/
theorem resynchronises (reachable : Reachable parser) :
    (∃ messages, parser.jsonMessageParserFeed [0xFF, 0x0A] = .ok (init, messages) ∧
      ∀ bytes, parser.jsonMessageParserFeed ([0xFF, 0x0A] ++ bytes) =
        (init.jsonMessageParserFeed bytes).map fun result => (result.1, messages ++ result.2)) ∧
    ∀ buffer, ∃ lexer calls before text, jsonLexerFeed buffer (jsonLexerInit true) = .ok (lexer, calls) ∧
      jsonLexerFeed [0xFF, 0x0A] lexer = .ok (jsonLexerInit true, before ++ [⟨.token .error, text⟩]) ∧
      ∀ streamer, ∃ message, jsonMessageProcessToken streamer ⟨.token .error, text⟩ =
      .ok (.init, some message) := by
  constructor
  · obtain ⟨messages, fed⟩ := feed_resync reachable.sound
    refine ⟨messages, fed, fun bytes => ?_⟩
    obtain ⟨parser', more, fed', -, -⟩ := jsonMessageParserFeed_spec sound_init bytes
    rw [jsonMessageParserFeed_append fed fed', fed']
    rfl
  · intro buffer
    obtain ⟨lexer, calls, fed, start, sound, -⟩ := jsonLexerFeed_spec (jsonLexerInit_sound true) buffer
    obtain ⟨before, text, resync⟩ := sound.resync
    rw [start] at resync
    exact ⟨lexer, calls, before, text, fed, resync, fun streamer => ⟨_, rfl⟩⟩

theorem resynchronises_inString : ∃ messages,
    jsonMessageParserFeed [0xFF, 0x0A] ⟨⟨.start, .state .dqString, [0x22]⟩,
    ⟨0, 1, [⟨.token .lsquare, [0x5B]⟩], 1⟩⟩ =
      .ok (init, messages) :=
  (resynchronises (@Reachable.feed init _ [0x5B, 0x22] _ .init rfl)).1.imp fun _ fed => fed.1

end JSONMessageParser

end Qemu.Json
