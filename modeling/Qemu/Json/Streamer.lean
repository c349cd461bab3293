import Qemu.Json.Parser

/-! The JSON message parser: it collects tokens until braces and brackets are closed, then parses
them and emits the result. -/

namespace Qemu.Json

/-- What `emit` is called with. -/
structure Message where
  json : Option QObject
  err : Option (List UInt8)

/-- The parser without its lexer, which does not look at it. -/
structure Streamer where
  braceCount : Int
  bracketCount : Int
  tokens : List Token
  tokenSize : Nat

namespace Streamer

def init : Streamer := ⟨0, 0, [], 0⟩

def maxTokenCount : Nat := 2 <<< 20

/-- The counts after a token. -/
def count (parser : Streamer) (type : Code) : Streamer :=
  match type with
  | .token .lcurly => { parser with braceCount := parser.braceCount + 1 }
  | .token .rcurly => { parser with braceCount := parser.braceCount - 1 }
  | .token .lsquare => { parser with bracketCount := parser.bracketCount + 1 }
  | .token .rsquare => { parser with bracketCount := parser.bracketCount - 1 }
  | _ => parser

/-- Parses what was collected. -/
def parse (tokens : List Token) : Except Assertion Message := do
  let (json, err) ← jsonParserParse tokens
  return ⟨json, err⟩

/-- Adds a token, or says which limit it exceeds. -/
def push (parser : Streamer) (token : Token) : Except (List UInt8) Streamer :=
  if parser.tokenSize + token.str.length + 1 > maxTokenSize then
    .error (ascii "JSON token size limit exceeded")
  else if parser.tokens.length + 1 > maxTokenCount then .error (ascii "JSON token count limit exceeded")
  else if parser.bracketCount + parser.braceCount > maxNesting then
    .error (ascii "JSON nesting depth limit exceeded")
  else .ok { parser with
    tokens := parser.tokens ++ [token], tokenSize := parser.tokenSize + token.str.length }

/-- A call from the lexer: the parser starts anew after each message. -/
def jsonMessageProcessToken (parser : Streamer) (call : Call) :
    Except Assertion (Streamer × Option Message) :=
  match call.type with
  | .token .error =>
    .ok (init, some ⟨none, some (ascii "JSON parse error, stray '" ++ printed call.input ++ ascii "'")⟩)
  | .token .endOfInput =>
    if parser.tokens = [] then .ok (parser, none)
    else do
      let message ← parse parser.tokens
      return (init, some message)
  | type =>
    match (parser.count type).push ⟨type, call.input⟩ with
    | .error err => .ok (init, some ⟨none, some err⟩)
    | .ok parser =>
      if (parser.braceCount > 0 ∨ parser.bracketCount > 0) ∧ parser.braceCount ≥ 0 ∧
        parser.bracketCount ≥ 0 then
        .ok (parser, none)
      else do
        let message ← parse parser.tokens
        return (init, some message)

def processCalls (parser : Streamer) : List Call → Except Assertion (Streamer × List Message)
  | [] => .ok (parser, [])
  | call :: rest => do
    let (parser, message) ← parser.jsonMessageProcessToken call
    let (parser, more) ← processCalls parser rest
    return (parser, message.toList ++ more)

end Streamer

structure JSONMessageParser where
  lexer : Lexer
  streamer : Streamer

namespace JSONMessageParser

/-- A parser without interpolation. -/
def init : JSONMessageParser := ⟨jsonLexerInit false, .init⟩

def jsonMessageParserFeed (buffer : List UInt8) (parser : JSONMessageParser) :
    Except Assertion (JSONMessageParser × List Message) := do
  let (lexer, calls) ← (jsonLexerFeed buffer parser.lexer).mapError .lexer
  let (streamer, messages) ← parser.streamer.processCalls calls
  return (⟨lexer, streamer⟩, messages)

def jsonMessageParserFlush (parser : JSONMessageParser) :
    Except Assertion (JSONMessageParser × List Message) := do
  let (lexer, calls) ← (jsonLexerFlush parser.lexer).mapError .lexer
  let (streamer, messages) ← parser.streamer.processCalls calls
  if streamer.tokens = [] then return (⟨lexer, streamer⟩, messages)
  else .error .flushTokens

/-- The messages for chunks of input, with a flush at the end. -/
def messages (parser : JSONMessageParser) : List (List UInt8) → Except Assertion (List Message)
  | [] => do
    let (_, messages) ← parser.jsonMessageParserFlush
    return messages
  | chunk :: rest => do
    let (parser, messages) ← parser.jsonMessageParserFeed chunk
    let more ← parser.messages rest
    return messages ++ more

end JSONMessageParser

end Qemu.Json
