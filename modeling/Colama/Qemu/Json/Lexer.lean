import Mathlib.Data.Int.Notation
import Mathlib.Data.List.Basic

namespace Colama.Qemu.Json

abbrev Byte := UInt8

def chr (c : Char) : Byte := UInt8.ofNat c.toNat

def inRange (low high : Char) (ch : Byte) : Bool := decide (chr low ≤ ch) && decide (ch ≤ chr high)

def isDigit (ch : Byte) : Bool := inRange '0' '9' ch
def isHex (ch : Byte) : Bool := isDigit ch || inRange 'a' 'f' ch || inRange 'A' 'F' ch
def isLower (ch : Byte) : Bool := inRange 'a' 'z' ch
def isSpace (ch : Byte) : Bool := [' ', '\t', '\r', '\n'].any fun c => ch == chr c

/-- The range of `TERMINAL`. -/
def isAscii (ch : Byte) : Bool := decide (ch ≤ 0x7F)

inductive JsonTokenType
  | operator | integer | float | keyword | string | escape | skip
  deriving DecidableEq

inductive LexerState
  | dqUcode3 | dqUcode2 | dqUcode1 | dqUcode0 | dqStringEscape | dqString
  | sqUcode3 | sqUcode2 | sqUcode1 | sqUcode0 | sqStringEscape | sqString
  | zero | digits | digit | expE | mantissa | mantissaDigits | nonzeroNumber | negNonzeroNumber
  | keyword | escape | escapeL | escapeLL | escapeI | escapeI6 | escapeI64 | whitespace | start
  deriving DecidableEq

/-- The entries of the table. What has no entry is an error. -/
inductive Entry
  | error
  | state (s : LexerState)
  | token (t : JsonTokenType)
  deriving DecidableEq

def hexTo (s : LexerState) (ch : Byte) : Entry := if isHex ch then .state s else .error

/-- The table. -/
@[grind] def jsonLexer : LexerState → Byte → Entry
  | .dqUcode3, ch => hexTo .dqString ch
  | .dqUcode2, ch => hexTo .dqUcode3 ch
  | .dqUcode1, ch => hexTo .dqUcode2 ch
  | .dqUcode0, ch => hexTo .dqUcode1 ch
  | .dqStringEscape, ch =>
    if ch = chr 'u' then .state .dqUcode0
    else if ['b', 'f', 'n', 'r', 't', '/', '\\', '\'', '"'].any fun c => ch == chr c then .state .dqString
    else .error
  | .dqString, ch =>
    if ch = chr '"' then .token .string
    else if ch = chr '\\' then .state .dqStringEscape
    else if ch = 0 then .error
    else .state .dqString
  | .sqUcode3, ch => hexTo .sqString ch
  | .sqUcode2, ch => hexTo .sqUcode3 ch
  | .sqUcode1, ch => hexTo .sqUcode2 ch
  | .sqUcode0, ch => hexTo .sqUcode1 ch
  | .sqStringEscape, ch =>
    if ch = chr 'u' then .state .sqUcode0
    else if ['b', 'f', 'n', 'r', 't', '\'', '"'].any fun c => ch == chr c then .state .sqString
    else if ['/', '\\'].any fun c => ch == chr c then .state .dqString
    else .error
  | .sqString, ch =>
    if ch = chr '\'' then .token .string
    else if ch = chr '\\' then .state .sqStringEscape
    else if ch = 0 then .error
    else .state .sqString
  | .zero, ch =>
    if isDigit ch then .error
    else if ch = chr '.' then .state .mantissa
    else if isAscii ch then .token .integer
    else .error
  | .digits, ch =>
    if isDigit ch then .state .digits
    else if isAscii ch then .token .float
    else .error
  | .digit, ch => if isDigit ch then .state .digits else .error
  | .expE, ch =>
    if isDigit ch then .state .digits
    else if ch = chr '-' ∨ ch = chr '+' then .state .digit
    else .error
  | .mantissa, ch => if isDigit ch then .state .mantissaDigits else .error
  | .mantissaDigits, ch =>
    if isDigit ch then .state .mantissaDigits
    else if ch = chr 'e' ∨ ch = chr 'E' then .state .expE
    else if isAscii ch then .token .float
    else .error
  | .nonzeroNumber, ch =>
    if isDigit ch then .state .nonzeroNumber
    else if ch = chr 'e' ∨ ch = chr 'E' then .state .expE
    else if ch = chr '.' then .state .mantissa
    else if isAscii ch then .token .integer
    else .error
  | .negNonzeroNumber, ch =>
    if ch = chr '0' then .state .zero
    else if isDigit ch then .state .nonzeroNumber
    else .error
  | .keyword, ch =>
    if isLower ch then .state .keyword
    else if isAscii ch then .token .keyword
    else .error
  | .whitespace, ch =>
    if isSpace ch then .state .whitespace
    else if isAscii ch then .token .skip
    else .error
  | .escapeLL, ch => if ch = chr 'd' then .token .escape else .error
  | .escapeL, ch =>
    if ch = chr 'd' then .token .escape
    else if ch = chr 'l' then .state .escapeLL
    else .error
  | .escapeI64, ch => if ch = chr 'd' then .token .escape else .error
  | .escapeI6, ch => if ch = chr '4' then .state .escapeI64 else .error
  | .escapeI, ch => if ch = chr '6' then .state .escapeI6 else .error
  | .escape, ch =>
    if ['d', 'i', 'p', 's', 'f'].any fun c => ch == chr c then .token .escape
    else if ch = chr 'l' then .state .escapeL
    else if ch = chr 'I' then .state .escapeI
    else .error
  | .start, ch =>
    if ch = chr '"' then .state .dqString
    else if ch = chr '\'' then .state .sqString
    else if ch = chr '0' then .state .zero
    else if isDigit ch then .state .nonzeroNumber
    else if ch = chr '-' then .state .negNonzeroNumber
    else if ['{', '}', '[', ']', ',', ':'].any fun c => ch == chr c then .token .operator
    else if isLower ch then .state .keyword
    else if ch = chr '%' then .state .escape
    else if isSpace ch then .state .whitespace
    else .error

def terminalNeededLookahead (oldState : LexerState) (terminal : Entry) : Bool :=
  decide (jsonLexer oldState 0 = terminal)

structure JsonLexer where
  state : LexerState
  token : List Byte
  x : ℕ
  y : ℕ

/-- The dictionary that is made for a token. -/
structure Token where
  type : JsonTokenType
  token : List Byte
  x : ℕ
  y : ℕ
  deriving DecidableEq

/-- The lexer after some bytes, with the tokens that it emits and whether there was no error. -/
structure Fed where
  lexer : JsonLexer
  emits : List Token
  ok : Bool

def JsonLexer.init : JsonLexer := ⟨.start, [], 0, 0⟩

def JsonLexer.count (lexer : JsonLexer) (ch : Byte) : JsonLexer :=
  if ch = chr '\n' then { lexer with x := 0, y := lexer.y + 1 } else { lexer with x := lexer.x + 1 }

/-- One pass of the loop of `json_lexer_feed_char`, with `char_consumed`. -/
@[grind] def JsonLexer.pass (lexer : JsonLexer) (ch : Byte) : Fed × Bool :=
  let newState := jsonLexer lexer.state ch
  let charConsumed := !terminalNeededLookahead lexer.state newState
  let token := if charConsumed then lexer.token ++ [ch] else lexer.token
  match newState with
  | .error => (⟨{ lexer with token }, [], false⟩, charConsumed)
  | .state s => (⟨{ lexer with token, state := s }, [], true⟩, charConsumed)
  | .token .skip => (⟨{ lexer with token := [], state := .start }, [], true⟩, charConsumed)
  | .token t =>
    (⟨{ lexer with token := [], state := .start }, [⟨t, token, lexer.x, lexer.y⟩], true⟩, charConsumed)

/-- There are at most two passes, as a second one begins in `start`, which has no look-ahead. -/
def JsonLexer.feedChar (lexer : JsonLexer) (ch : Byte) : Fed :=
  let (first, consumed) := (lexer.count ch).pass ch
  if first.ok && !consumed then
    let second := (first.lexer.pass ch).1
    { second with emits := first.emits ++ second.emits }
  else first

/-- What follows an error in the buffer is left out. -/
@[grind] def JsonLexer.feed (lexer : JsonLexer) : List Byte → Fed
  | [] => ⟨lexer, [], true⟩
  | ch :: rest =>
    let fed := lexer.feedChar ch
    if fed.ok then
      let later := feed fed.lexer rest
      { later with emits := fed.emits ++ later.emits }
    else fed

def JsonLexer.flush (lexer : JsonLexer) : Fed :=
  if lexer.state = .start then ⟨lexer, [], true⟩ else lexer.feedChar 0

structure JsonMessageParser where
  lexer : JsonLexer
  braceCount : ℤ
  bracketCount : ℤ
  tokens : List Token
  emitted : List (List Token)

def JsonMessageParser.init : JsonMessageParser := ⟨.init, 0, 0, [], []⟩

def JsonMessageParser.count (parser : JsonMessageParser) (t : Token) : JsonMessageParser :=
  if t.type ≠ .operator then parser
  else if t.token.head? = some (chr '{') then { parser with braceCount := parser.braceCount + 1 }
  else if t.token.head? = some (chr '}') then { parser with braceCount := parser.braceCount - 1 }
  else if t.token.head? = some (chr '[') then { parser with bracketCount := parser.bracketCount + 1 }
  else if t.token.head? = some (chr ']') then { parser with bracketCount := parser.bracketCount - 1 }
  else parser

/-- Emits the tokens when no brace and no bracket is open. -/
def JsonMessageParser.append (parser : JsonMessageParser) (t : Token) : JsonMessageParser :=
  if parser.braceCount = 0 ∧ parser.bracketCount = 0 then
    { parser with tokens := [], emitted := parser.emitted ++ [parser.tokens ++ [t]] }
  else { parser with tokens := parser.tokens ++ [t] }

/-- `json_message_process_token`. -/
def JsonMessageParser.processToken (parser : JsonMessageParser) (t : Token) : JsonMessageParser :=
  (parser.count t).append t

/-- The parser after its lexer has been fed. -/
def JsonMessageParser.after (parser : JsonMessageParser) (fed : Fed) : JsonMessageParser :=
  { fed.emits.foldl processToken parser with lexer := fed.lexer }

/-- `json_message_parser_feed`, whose result is ignored. -/
def JsonMessageParser.feed (parser : JsonMessageParser) (buffer : List Byte) : JsonMessageParser :=
  parser.after (parser.lexer.feed buffer)

def JsonMessageParser.flush (parser : JsonMessageParser) : JsonMessageParser :=
  parser.after parser.lexer.flush

/-- The parser after some buffers. -/
def JsonMessageParser.feeds (parser : JsonMessageParser) (buffers : List (List Byte)) : JsonMessageParser :=
  buffers.foldl feed parser

/-- The lists of tokens that are emitted for a stream that comes in these buffers. -/
def emitted (buffers : List (List Byte)) : List (List Token) := (JsonMessageParser.init.feeds buffers).emitted

/-- The stream cut into single bytes. -/
def bytewise (stream : List Byte) : List (List Byte) := stream.map ([·])

end Colama.Qemu.Json
