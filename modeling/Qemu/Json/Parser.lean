import Qemu.Json.Lexer
import Qemu.Util.Unicode

/-! The JSON parser: recursive descent over a queue of tokens. -/

namespace Qemu.Json

open Unicode

/-- A double stands for the text that `strtod` converts. -/
inductive QNum where
  | i64 (value : BitVec 64)
  | u64 (value : BitVec 64)
  | double (text : List UInt8)
  deriving DecidableEq, Repr

/-- Objects; the entries of a dictionary are in some order. -/
inductive QObject where
  | null
  | num (value : QNum)
  | string (value : List UInt8)
  | dict (entries : List (List UInt8 × QObject))
  | list (items : List QObject)
  | bool (value : Bool)

structure Token where
  type : Code
  str : List UInt8
  deriving DecidableEq, Repr

/-- The assertions of the parser; `recursion` stands for a call of `parse_value` that is too deep,
`loops` for a loop that does not end. -/
inductive Assertion where
  | lexer (cause : LexerAssertion)
  | unicode (cause : Unicode.Assertion)
  | quote
  | endOfString
  | encode
  | tokenType
  | interpolation
  | strtoi64
  | strtou64
  | literal
  | recursion
  | leftover
  | flushTokens
  | loops
  deriving DecidableEq, Repr

def ascii (text : String) : List UInt8 := text.toList.map Char.toUInt8

/-- What `%s` prints of a string. -/
def printed (text : List UInt8) : List UInt8 := text.takeWhile (· ≠ 0)

structure JSONParserContext where
  err : Option (List UInt8)
  buf : List Token

namespace JSONParserContext

/-- The first error is kept; a message has at most 1023 characters. -/
def parseError (ctxt : JSONParserContext) (message : List UInt8) : JSONParserContext :=
  if ctxt.err.isSome then ctxt
  else { ctxt with err := some (ascii "JSON parse error, " ++ message.take 1023) }

end JSONParserContext

open JSONParserContext

/-- The value of a hexadecimal digit. -/
def hexDigit (c : UInt8) : Option Nat :=
  if between '0' '9' c then some (c.toNat - '0'.toNat)
  else if between 'a' 'f' c then some (10 + c.toNat - 'a'.toNat)
  else if between 'A' 'F' c then some (10 + c.toNat - 'A'.toNat)
  else none

/-- The loop over the last `k` of four digits. -/
def cvtHex : Nat → Nat → List UInt8 → Option Nat
  | 0, cp, _ => some cp
  | k + 1, cp, s =>
    match hexDigit (s.headD 0) with
    | some digit => cvtHex k (cp <<< 4 ||| digit) s.tail
    | none => none

def cvt4hex (s : List UInt8) : Option Nat := cvtHex 4 0 s

/-- The characters that stand for themselves or for a control character after a backslash. -/
def simpleEscape (c : UInt8) : Option UInt8 :=
  if c = quotationMark then some quotationMark
  else if c = apostrophe then some apostrophe
  else if c = reverseSolidus then some reverseSolidus
  else if c = '/'.toUInt8 then some '/'.toUInt8
  else if c = 'b'.toUInt8 then some 0x08
  else if c = 'f'.toUInt8 then some 0x0C
  else if c = 'n'.toUInt8 then some 0x0A
  else if c = 'r'.toUInt8 then some 0x0D
  else if c = 't'.toUInt8 then some 0x09
  else none

/-- The codepoint of `\u` with what follows it, where `ptr` is after the `u`. -/
def unicodeEscape (ptr : List UInt8) : Option Nat × List UInt8 :=
  let cp := cvt4hex ptr
  let ptr := ptr.drop 4
  match cp with
  | none => (none, ptr)
  | some cp =>
    if 0xD800 ≤ cp ∧ cp ≤ 0xDBFF ∧ ptr.headD 0 = reverseSolidus ∧ ptr.tail.headD 0 = 'u'.toUInt8 then
      match cvt4hex (ptr.drop 2) with
      | some trailing =>
        if 0xDC00 ≤ trailing ∧ trailing ≤ 0xDFFF then
          (some (0x10000 + (cp &&& 0x3FF) <<< 10 ||| trailing &&& 0x3FF), ptr.drop 6)
        else (none, ptr)
      | none => (none, ptr)
    else (some cp, ptr)

/-- The loop of `parse_string`: `none` after an error, whose message is the second component. -/
def parseChars (quote : UInt8) : Nat → List UInt8 → List UInt8 →
    Except Assertion (Option (List UInt8) × List UInt8)
  | 0, _, _ => .error .loops
  | fuel + 1, ptr, str =>
    if ptr.headD 0 = quote then .ok (some str, [])
    else if ptr.headD 0 = 0 then .error .endOfString
    else if ptr.headD 0 = reverseSolidus then
      let c := ptr.tail.headD 0
      match simpleEscape c with
      | some plain => parseChars quote fuel (ptr.drop 2) (str ++ [plain])
      | none =>
        if c = 'u'.toUInt8 then
          let (cp, rest) := unicodeEscape (ptr.drop 2)
          match modUtf8Encode cp with
          | some bytes => parseChars quote fuel rest (str ++ bytes)
          | none =>
            .ok (none, printed (ptr.take (ptr.length - rest.length)) ++
              ascii " is not a valid Unicode character")
        else .ok (none, ascii "invalid escape sequence in string")
    else
      match modUtf8Codepoint ptr 6 with
      | .error cause => .error (.unicode cause)
      | .ok (none, _) => .ok (none, ascii "invalid UTF-8 sequence in string")
      | .ok (some cp, rest) =>
        match modUtf8Encode (some cp) with
        | some bytes => parseChars quote fuel rest (str ++ bytes)
        | none => .error .encode

/-- Parses a string token, without interpolation. -/
def parseString (token : Token) (ctxt : JSONParserContext) :
    Except Assertion (Option (List UInt8) × JSONParserContext) :=
  let quote := token.str.headD 0
  if quote = quotationMark ∨ quote = apostrophe then do
    let (str, message) ← parseChars quote (token.str.length + 1) token.str.tail []
    match str with
    | some str => return (some str, ctxt)
    | none => return (none, ctxt.parseError message)
  else .error .quote

inductive Errno where
  | einval
  | erange
  deriving DecidableEq, Repr

def isSpace (c : UInt8) : Bool := c = 0x20 || (0x09 ≤ c && c ≤ 0x0D)

def decimal (digits : List UInt8) : Nat :=
  digits.foldl (fun value c => value * 10 + (c.toNat - '0'.toNat)) 0

/-- What `strtoll` and `strtoull` read in base 10: sign, value and rest, unless there are no
digits. -/
def strtoDecimal (nptr : List UInt8) : Option (Bool × Nat × List UInt8) :=
  let unspaced := nptr.dropWhile isSpace
  let negative := unspaced.headD 0 = '-'.toUInt8
  let unsigned := if negative ∨ unspaced.headD 0 = '+'.toUInt8 then unspaced.tail else unspaced
  if unsigned.takeWhile digit = [] then none
  else some (negative, decimal (unsigned.takeWhile digit), unsigned.dropWhile digit)

def qemuStrtoi64 (nptr : List UInt8) : Except Errno (BitVec 64) :=
  match strtoDecimal nptr with
  | none => .error .einval
  | some (negative, value, rest) =>
    if rest ≠ [] then .error .einval
    else if negative then
      if value ≤ 2 ^ 63 then .ok (-(BitVec.ofNat 64 value)) else .error .erange
    else if value < 2 ^ 63 then .ok (BitVec.ofNat 64 value)
    else .error .erange

/-- For numbers without a minus. -/
def qemuStrtou64 (nptr : List UInt8) : Except Errno (BitVec 64) :=
  match strtoDecimal nptr with
  | none => .error .einval
  | some (_, value, rest) =>
    if rest ≠ [] then .error .einval
    else if value < 2 ^ 64 then .ok (BitVec.ofNat 64 value)
    else .error .erange

/-- The smallest of the three kinds of numbers that an integer token fits in. -/
def parseInteger (str : List UInt8) : Except Assertion QNum :=
  match qemuStrtoi64 str with
  | .ok value => .ok (.i64 value)
  | .error .einval => .error .strtoi64
  | .error .erange =>
    if str.headD 0 ≠ '-'.toUInt8 then
      match qemuStrtou64 str with
      | .ok value => .ok (.u64 value)
      | .error .einval => .error .strtou64
      | .error .erange => .ok (.double str)
    else .ok (.double str)

/-- The next token is of the type that the caller has seen. -/
def popToken (type : TokenType) (ctxt : JSONParserContext) :
    Except Assertion (Token × JSONParserContext) :=
  match ctxt.buf with
  | token :: rest => if token.type = .token type then .ok (token, { ctxt with buf := rest })
    else .error .tokenType
  | [] => .error .tokenType

def parseLiteral (ctxt : JSONParserContext) : Except Assertion (Option QObject × JSONParserContext) :=
  match ctxt.buf with
  | [] => .error .tokenType
  | token :: rest =>
    let ctxt := { ctxt with buf := rest }
    match token.type with
    | .token .string => do
      let (str, ctxt) ← parseString token ctxt
      return (str.map QObject.string, ctxt)
    | .token .integer => do
      let value ← parseInteger token.str
      return (some (.num value), ctxt)
    | .token .float => return (some (.num (.double token.str)), ctxt)
    | _ => .error .literal

def parseKeyword (ctxt : JSONParserContext) : Except Assertion (Option QObject × JSONParserContext) := do
  let (token, ctxt) ← popToken .keyword ctxt
  if token.str = ascii "true" then return (some (.bool true), ctxt)
  else if token.str = ascii "false" then return (some (.bool false), ctxt)
  else if token.str = ascii "null" then return (some .null, ctxt)
  else return (none, ctxt.parseError (ascii "invalid keyword '" ++ token.str ++ ascii "'"))

section Containers

variable (value : JSONParserContext → Except Assertion (Option QObject × JSONParserContext))

/-- A pair is added to the dictionary, `none` after an error. -/
def parsePair (dict : List (List UInt8 × QObject)) (ctxt : JSONParserContext) :
    Except Assertion (Option (List (List UInt8 × QObject)) × JSONParserContext) :=
  if ctxt.buf = [] then return (none, ctxt.parseError (ascii "premature EOI"))
  else do
    let (key, ctxt) ← value ctxt
    match key with
    | some (.string key) =>
      match ctxt.buf with
      | [] => return (none, ctxt.parseError (ascii "premature EOI"))
      | token :: rest =>
        let ctxt := { ctxt with buf := rest }
        if token.type ≠ .token .colon then
          return (none, ctxt.parseError (ascii "missing : in object pair"))
        else do
          let (obj, ctxt) ← value ctxt
          match obj with
          | none => return (none, ctxt.parseError (ascii "Missing value in dict"))
          | some obj =>
            if (dict.lookup key).isSome then return (none, ctxt.parseError (ascii "duplicate key"))
            else return (some (dict ++ [(key, obj)]), ctxt)
    | _ => return (none, ctxt.parseError (ascii "key is not a string in object"))

/-- The loop after a pair. -/
def parsePairs : Nat → List (List UInt8 × QObject) → JSONParserContext →
    Except Assertion (Option QObject × JSONParserContext)
  | 0, _, _ => .error .loops
  | fuel + 1, dict, ctxt =>
    match ctxt.buf with
    | [] => return (none, ctxt.parseError (ascii "premature EOI"))
    | token :: rest =>
      let ctxt := { ctxt with buf := rest }
      if token.type = .token .rcurly then return (some (.dict dict), ctxt)
      else if token.type ≠ .token .comma then
        return (none, ctxt.parseError (ascii "expected separator in dict"))
      else do
        let (dict, ctxt) ← parsePair value dict ctxt
        match dict with
        | none => return (none, ctxt)
        | some dict => parsePairs fuel dict ctxt

def parseObject (ctxt : JSONParserContext) : Except Assertion (Option QObject × JSONParserContext) := do
  let (_, ctxt) ← popToken .lcurly ctxt
  match ctxt.buf with
  | [] => return (none, ctxt.parseError (ascii "premature EOI"))
  | peek :: rest =>
    if peek.type ≠ .token .rcurly then do
      let (dict, ctxt) ← parsePair value [] ctxt
      match dict with
      | none => return (none, ctxt)
      | some dict => parsePairs value (ctxt.buf.length + 1) dict ctxt
    else return (some (.dict []), { ctxt with buf := rest })

/-- An item is added to the list, `none` after an error. -/
def parseItem (list : List QObject) (ctxt : JSONParserContext) :
    Except Assertion (Option (List QObject) × JSONParserContext) := do
  let (obj, ctxt) ← value ctxt
  match obj with
  | none => return (none, ctxt.parseError (ascii "expecting value"))
  | some obj => return (some (list ++ [obj]), ctxt)

/-- The loop after an item. -/
def parseItems : Nat → List QObject → JSONParserContext →
    Except Assertion (Option QObject × JSONParserContext)
  | 0, _, _ => .error .loops
  | fuel + 1, list, ctxt =>
    match ctxt.buf with
    | [] => return (none, ctxt.parseError (ascii "premature EOI"))
    | token :: rest =>
      let ctxt := { ctxt with buf := rest }
      if token.type = .token .rsquare then return (some (.list list), ctxt)
      else if token.type ≠ .token .comma then
        return (none, ctxt.parseError (ascii "expected separator in list"))
      else do
        let (list, ctxt) ← parseItem value list ctxt
        match list with
        | none => return (none, ctxt)
        | some list => parseItems fuel list ctxt

def parseArray (ctxt : JSONParserContext) : Except Assertion (Option QObject × JSONParserContext) := do
  let (_, ctxt) ← popToken .lsquare ctxt
  match ctxt.buf with
  | [] => return (none, ctxt.parseError (ascii "premature EOI"))
  | peek :: rest =>
    if peek.type ≠ .token .rsquare then do
      let (list, ctxt) ← parseItem value [] ctxt
      match list with
      | none => return (none, ctxt)
      | some list => parseItems value (ctxt.buf.length + 1) list ctxt
    else return (some (.list []), { ctxt with buf := rest })

/-- `parse_value`, where `value` is its next call. -/
def parseValueWith (ctxt : JSONParserContext) : Except Assertion (Option QObject × JSONParserContext) :=
  match ctxt.buf with
  | [] => return (none, ctxt.parseError (ascii "premature EOI"))
  | token :: _ =>
    match token.type with
    | .token .lcurly => parseObject value ctxt
    | .token .lsquare => parseArray value ctxt
    | .token .interp => .error .interpolation
    | .token .integer => parseLiteral ctxt
    | .token .float => parseLiteral ctxt
    | .token .string => parseLiteral ctxt
    | .token .keyword => parseKeyword ctxt
    | _ => return (none, ctxt.parseError (ascii "expecting value"))

end Containers

/-- `parse_value` with at most `depth` calls of itself inside each other. -/
def parseValue : Nat → JSONParserContext → Except Assertion (Option QObject × JSONParserContext)
  | 0 => parseValueWith fun _ => .error .recursion
  | depth + 1 => parseValueWith (parseValue depth)

def maxNesting : Nat := 1 <<< 10

/-- The value and the error. -/
def jsonParserParse (tokens : List Token) : Except Assertion (Option QObject × Option (List UInt8)) := do
  let (result, ctxt) ← parseValue maxNesting ⟨none, tokens⟩
  if ctxt.err.isSome ∨ ctxt.buf = [] then return (result, ctxt.err)
  else .error .leftover

end Qemu.Json
