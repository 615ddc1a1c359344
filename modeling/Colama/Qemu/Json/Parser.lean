import Mathlib.Data.Nat.Notation
import Colama.Qemu.Json.Lexer

namespace Colama.Qemu.Json

mutual

/-- `F` are the values of a `double`. -/
inductive QObject (F : Type)
  | int (value : Int64)
  | bool (value : Bool)
  | float (value : F)
  | string (value : List Byte)
  | list (items : QList F)
  | dict (entries : QDict F)

inductive QList (F : Type)
  | nil
  | cons (head : QObject F) (tail : QList F)

/-- A dictionary as its entries, in the order of `qdict_iter`. -/
inductive QDict (F : Type)
  | nil
  | cons (key : List Byte) (value : QObject F) (tail : QDict F)

end

variable {F : Type}

@[grind] def QList.append : QList F → QObject F → QList F
  | .nil, obj => .cons obj .nil
  | .cons head tail, obj => .cons head (tail.append obj)

/-- `qdict_put_obj`. Where a new entry comes in the order of the table plays no part. -/
@[grind] def QDict.put : QDict F → List Byte → QObject F → QDict F
  | .nil, key, value => .cons key value .nil
  | .cons k v tail, key, value => if k = key then .cons k value tail else .cons k v (tail.put key value)

@[grind] def QDict.get? : QDict F → List Byte → Option (QObject F)
  | .nil, _ => none
  | .cons k v tail, key => if k = key then some v else tail.get? key

/-- What the parser reads of a token. -/
abbrev Kind := JsonTokenType × List Byte

def Token.kind (t : Token) : Kind := (t.type, t.token)

def text (s : String) : List Byte := s.toList.map chr

def isOperator (t : Kind) (op : Char) : Bool := t.1 == .operator && t.2 == [chr op]

def isKeyword (t : Kind) (value : String) : Bool := t.1 == .keyword && t.2 == text value

/-- The part of a buffer before its terminator. -/
def cString (buffer : List Byte) : List Byte := buffer.takeWhile (· ≠ 0)

def wcharToUtf8 (wchar : ℕ) : List Byte :=
  if wchar ≤ 0x007F then [UInt8.ofNat (wchar &&& 0x7F)]
  else if wchar ≤ 0x07FF then
    [UInt8.ofNat (0xC0 ||| wchar >>> 6 &&& 0x1F), UInt8.ofNat (0x80 ||| wchar &&& 0x3F)]
  else
    [UInt8.ofNat (0xE0 ||| wchar >>> 12 &&& 0x0F), UInt8.ofNat (0x80 ||| wchar >>> 6 &&& 0x3F),
      UInt8.ofNat (0x80 ||| wchar &&& 0x3F)]

def hex2decimal (ch : Byte) : ℕ :=
  if isDigit ch then ch.toNat - '0'.toNat
  else if inRange 'a' 'f' ch then 10 + (ch.toNat - 'a'.toNat)
  else 10 + (ch.toNat - 'A'.toNat)

def unicodeChar (a b c d : Byte) : ℕ :=
  hex2decimal a <<< 12 ||| hex2decimal b <<< 8 ||| hex2decimal c <<< 4 ||| hex2decimal d

/-- The escapes of one character. -/
def simpleEscape (ch : Byte) : Option Byte :=
  if ch = chr '"' then some (chr '"')
  else if ch = chr '\'' then some (chr '\'')
  else if ch = chr '\\' then some (chr '\\')
  else if ch = chr '/' then some (chr '/')
  else if ch = chr 'b' then some 0x08
  else if ch = chr 'f' then some 0x0C
  else if ch = chr 'n' then some (chr '\n')
  else if ch = chr 'r' then some (chr '\r')
  else if ch = chr 't' then some (chr '\t')
  else none

/-- The loop of `qstring_from_escaped_str`. -/
@[grind] def unescape (quote : Byte) : List Byte → Option (List Byte)
  | [] => some []
  | ch :: rest =>
    if ch = 0 ∨ ch = quote then some []
    else if ch = chr '\\' then
      match rest with
      | [] => none
      | e :: rest =>
        if e = chr 'u' then
          match rest with
          | a :: b :: c :: d :: rest =>
            if isHex a && isHex b && isHex c && isHex d then
              (unescape quote rest).map (cString (wcharToUtf8 (unicodeChar a b c d)) ++ ·)
            else none
          | _ => none
        else
          match simpleEscape e with
          | some c => (unescape quote rest).map (c :: ·)
          | none => none
    else (unescape quote rest).map (ch :: ·)

def qstringFromEscapedStr : List Byte → Option (List Byte)
  | [] => none
  | quote :: rest => unescape (if quote = chr '"' then chr '"' else chr '\'') rest

def strtolDigits : List Byte → ℕ → ℕ
  | [], acc => acc
  | ch :: rest, acc => if isDigit ch then strtolDigits rest (acc * 10 + (ch.toNat - '0'.toNat)) else acc

/-- `strtoll` in base 10, for the text of an integer. -/
def strtoll : List Byte → Int64
  | [] => 0
  | ch :: rest =>
    if ch = chr '-' then Int64.ofIntClamp (-(strtolDigits rest 0 : ℕ))
    else Int64.ofIntClamp (strtolDigits (ch :: rest) 0 : ℕ)

variable (strtod : List Byte → F)

def parseKeyword : List Kind → Option (QObject F × List Kind)
  | [] => none
  | token :: working =>
    if isKeyword token "true" then some (.bool true, working)
    else if isKeyword token "false" then some (.bool false, working)
    else none

def parseLiteral : List Kind → Option (QObject F × List Kind)
  | [] => none
  | token :: working =>
    match token.1 with
    | .string => (qstringFromEscapedStr token.2).map fun s => (.string s, working)
    | .integer => some (.int (strtoll token.2), working)
    | .float => some (.float (strtod token.2), working)
    | _ => none

mutual

/-- There is no `parse_escape`, as there are no arguments for it. The fuel goes down with every call. -/
def parseValue : ℕ → List Kind → Option (QObject F × List Kind)
  | 0, _ => none
  | n + 1, tokens =>
    ((parseObject n tokens).map fun r => (.dict r.1, r.2)) <|> ((parseArray n tokens).map fun r => (.list r.1, r.2)) <|>
      parseKeyword tokens <|> parseLiteral strtod tokens

def parsePair : ℕ → QDict F → List Kind → Option (QDict F × List Kind)
  | 0, _, _ => none
  | n + 1, dict, tokens =>
    match parseValue n tokens with
    | some (.string key, token :: working) =>
      if isOperator token ':' then (parseValue n working).map fun r => (dict.put key r.1, r.2) else none
    | _ => none

/-- The loop over the pairs after the first one. -/
def parsePairs : ℕ → QDict F → List Kind → Option (QDict F × List Kind)
  | 0, _, _ => none
  | _ + 1, _, [] => none
  | n + 1, dict, token :: working =>
    if isOperator token '}' then some (dict, working)
    else if isOperator token ',' then (parsePair n dict working).bind fun r => parsePairs n r.1 r.2
    else none

def parseObject : ℕ → List Kind → Option (QDict F × List Kind)
  | n + 1, token :: peek :: working =>
    if isOperator token '{' then
      if isOperator peek '}' then some (.nil, working)
      else (parsePair n .nil (peek :: working)).bind fun r => parsePairs n r.1 r.2
    else none
  | _, _ => none

/-- The loop over the items after the first one. -/
def parseItems : ℕ → QList F → List Kind → Option (QList F × List Kind)
  | 0, _, _ => none
  | _ + 1, _, [] => none
  | n + 1, list, token :: working =>
    if isOperator token ']' then some (list, working)
    else if isOperator token ',' then (parseValue n working).bind fun r => parseItems n (list.append r.1) r.2
    else none

def parseArray : ℕ → List Kind → Option (QList F × List Kind)
  | n + 1, token :: peek :: working =>
    if isOperator token '[' then
      if isOperator peek ']' then some (.nil, working)
      else (parseValue n (peek :: working)).bind fun r => parseItems n (.cons r.1 .nil) r.2
    else none
  | _, _ => none

end

def jsonParserParse (tokens : List Token) : Option (QObject F) :=
  (parseValue strtod (3 * tokens.length) (tokens.map Token.kind)).map Prod.fst

/-- `s->result` is that of the last list of tokens. -/
def qobjectFromJson (string : List Byte) : Option (QObject F) :=
  (((JsonMessageParser.init.feed string).flush).emitted.getLast?).bind (jsonParserParse strtod)

end Colama.Qemu.Json
