import Mathlib.Tactic

/-! The JSON lexer: a table of states and characters, and the loop that feeds characters to it. -/

namespace Qemu.Json

inductive TokenType where
  | error
  | lcurly
  | rcurly
  | lsquare
  | rsquare
  | colon
  | comma
  | integer
  | float
  | keyword
  | string
  | interp
  | endOfInput
  deriving DecidableEq, Repr

inductive LexerState where
  | recovery
  | dqStringEscape
  | dqString
  | sqStringEscape
  | sqString
  | zero
  | expDigits
  | expSign
  | expE
  | mantissa
  | mantissaDigits
  | digits
  | sign
  | keyword
  | interp
  | start
  | startInterp
  deriving DecidableEq, Repr

/-- States and tokens share one numbering, with `JSON_ERROR` below the states. -/
inductive Code where
  | state (s : LexerState)
  | token (t : TokenType)
  deriving DecidableEq, Repr

/-- The assertions of the lexer. -/
inductive LexerAssertion where
  | state
  | consumedInFlush
  | flushState
  | loops
  deriving DecidableEq, Repr

structure Entry where
  next : Code
  lookahead : Bool
  deriving DecidableEq, Repr

namespace Entry

def goto (s : LexerState) : Entry := ⟨.state s, false⟩

def emit (t : TokenType) : Entry := ⟨.token t, false⟩

def terminal (t : TokenType) : Entry := ⟨.token t, true⟩

/-- What the table is initialised to. -/
def error : Entry := emit .error

end Entry

def between (low high : Char) (c : UInt8) : Bool := low.toUInt8 ≤ c && c ≤ high.toUInt8

def digit (c : UInt8) : Bool := between '0' '9' c

def quotationMark : UInt8 := 0x22

def apostrophe : UInt8 := 0x27

def reverseSolidus : UInt8 := 0x5C

/-- The structural characters, with their tokens. -/
def structural (c : UInt8) : Option TokenType :=
  if c = '['.toUInt8 then some .lsquare
  else if c = ']'.toUInt8 then some .rsquare
  else if c = 0x7B then some .lcurly
  else if c = 0x7D then some .rcurly
  else if c = ':'.toUInt8 then some .colon
  else if c = ','.toUInt8 then some .comma
  else none

def whitespace (c : UInt8) : Bool := c = 0x20 || c = 0x09 || c = 0x0D || c = 0x0A

/-- What may stand in a string. -/
def inString (c : UInt8) : Bool := 0x20 ≤ c && c ≤ 0xFD

/-- `"` and `'` strings differ in the quote. -/
def stringRow (quote : UInt8) (string escape : LexerState) (c : UInt8) : Entry :=
  if c = quote then .emit .string
  else if c = reverseSolidus then .goto escape
  else if inString c then .goto string
  else .error

def escapeRow (string : LexerState) (c : UInt8) : Entry := if inString c then .goto string else .error

def startRow (c : UInt8) : Entry :=
  if c = quotationMark then .goto .dqString
  else if c = apostrophe then .goto .sqString
  else if c = '0'.toUInt8 then .goto .zero
  else if between '1' '9' c then .goto .digits
  else if c = '-'.toUInt8 then .goto .sign
  else if between 'a' 'z' c then .goto .keyword
  else if whitespace c then .goto .start
  else match structural c with
    | some t => .emit t
    | none => .error

def jsonLexer : LexerState → UInt8 → Entry
  | .recovery, c =>
    if c = 0x09 then .goto .recovery
    else if c ≤ 0x1F ∨ 0xFE ≤ c ∨ (structural c).isSome then ⟨.state .start, true⟩
    else .goto .recovery
  | .dqStringEscape, c => escapeRow .dqString c
  | .dqString, c => stringRow quotationMark .dqString .dqStringEscape c
  | .sqStringEscape, c => escapeRow .sqString c
  | .sqString, c => stringRow apostrophe .sqString .sqStringEscape c
  | .zero, c =>
    if digit c then .error
    else if c = '.'.toUInt8 then .goto .mantissa
    else .terminal .integer
  | .expDigits, c => if digit c then .goto .expDigits else .terminal .float
  | .expSign, c => if digit c then .goto .expDigits else .error
  | .expE, c =>
    if c = '-'.toUInt8 ∨ c = '+'.toUInt8 then .goto .expSign
    else if digit c then .goto .expDigits
    else .error
  | .mantissaDigits, c =>
    if digit c then .goto .mantissaDigits
    else if c = 'e'.toUInt8 ∨ c = 'E'.toUInt8 then .goto .expE
    else .terminal .float
  | .mantissa, c => if digit c then .goto .mantissaDigits else .error
  | .digits, c =>
    if digit c then .goto .digits
    else if c = 'e'.toUInt8 ∨ c = 'E'.toUInt8 then .goto .expE
    else if c = '.'.toUInt8 then .goto .mantissa
    else .terminal .integer
  | .sign, c =>
    if c = '0'.toUInt8 then .goto .zero
    else if between '1' '9' c then .goto .digits
    else .error
  | .keyword, c => if between 'a' 'z' c then .goto .keyword else .terminal .keyword
  | .interp, c =>
    if between 'A' 'Z' c ∨ between 'a' 'z' c ∨ digit c then .goto .interp else .terminal .interp
  | .start, c => startRow c
  | .startInterp, c => if c = '%'.toUInt8 then .goto .interp else startRow c

structure Lexer where
  startState : LexerState
  state : Code
  token : List UInt8
  deriving DecidableEq, Repr

/-- A call of `json_message_process_token`. -/
structure Call where
  type : Code
  input : List UInt8
  deriving DecidableEq, Repr

def jsonLexerInit (enableInterpolation : Bool) : Lexer :=
  let initial := if enableInterpolation then LexerState.startInterp else .start
  ⟨initial, .state initial, []⟩

/-- The row of a state; the one of `JSON_ERROR` has no entries, tokens have none. -/
def nextState (state : Code) (ch : UInt8) (flush : Bool) : Except LexerAssertion (Code × Bool) :=
  match state with
  | .state s => .ok ((jsonLexer s ch).next, !flush && !(jsonLexer s ch).lookahead)
  | .token .error => .ok (Entry.error.next, !flush && !Entry.error.lookahead)
  | .token _ => .error .state

def Lexer.truncated (lexer : Lexer) (state : Code) : Lexer := { lexer with state := state, token := [] }

/-- What the loop does in a new state. -/
def Lexer.enter (lexer : Lexer) (newState : Code) : Lexer × List Call :=
  match newState with
  | .token .error => (lexer.truncated (.state .recovery), [⟨.token .error, lexer.token⟩])
  | .token .endOfInput => ({ lexer with state := newState }, [])
  | .token t => (lexer.truncated (.state lexer.startState), [⟨.token t, lexer.token⟩])
  | .state .start => (lexer.truncated (.state lexer.startState), [])
  | .state .recovery => (lexer.truncated newState, [])
  | .state _ => ({ lexer with state := newState }, [])

/-- The loop over one character; `consumed` says that an earlier round took it. -/
def feedLoop (ch : UInt8) (flush : Bool) : Nat → Bool → Lexer → Except LexerAssertion (Lexer × List Call)
  | 0, _, _ => .error .loops
  | fuel + 1, consumed, lexer =>
    if (if flush then lexer.state ≠ .state lexer.startState else consumed = false) then do
      let (newState, consumed) ← nextState lexer.state ch flush
      if consumed ∧ flush then .error .consumedInFlush
      else
        let (lexer, calls) :=
          { lexer with token := if consumed then lexer.token ++ [ch] else lexer.token }.enter newState
        let (lexer, more) ← feedLoop ch flush fuel consumed lexer
        return (lexer, calls ++ more)
    else .ok (lexer, [])

def maxTokenSize : Nat := 64 <<< 20

/-- A token that has grown too large is handed on as it is, with the state for a type. -/
def Lexer.limit (lexer : Lexer) : Lexer × List Call :=
  if lexer.token.length > maxTokenSize then
    (lexer.truncated (.state lexer.startState), [⟨lexer.state, lexer.token⟩])
  else (lexer, [])

def jsonLexerFeedChar (ch : UInt8) (flush : Bool) (lexer : Lexer) :
    Except LexerAssertion (Lexer × List Call) := do
  let (lexer, calls) ← feedLoop ch flush 3 false lexer
  return (lexer.limit.1, calls ++ lexer.limit.2)

def jsonLexerFeed : List UInt8 → Lexer → Except LexerAssertion (Lexer × List Call)
  | [], lexer => .ok (lexer, [])
  | ch :: buffer, lexer => do
    let (lexer, calls) ← jsonLexerFeedChar ch false lexer
    let (lexer, more) ← jsonLexerFeed buffer lexer
    return (lexer, calls ++ more)

def jsonLexerFlush (lexer : Lexer) : Except LexerAssertion (Lexer × List Call) := do
  let (lexer, calls) ← jsonLexerFeedChar 0 true lexer
  if lexer.state = .state lexer.startState then
    return (lexer, calls ++ [⟨.token .endOfInput, lexer.token⟩])
  else .error .flushState

end Qemu.Json
