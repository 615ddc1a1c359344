import Mathlib.Data.Nat.Digits.Defs
import Mathlib.Data.Nat.Log
import Colama.Qemu.Json.Parser

namespace Colama.Qemu.Json

def hexDigit (n : ℕ) : Byte := if n < 10 then UInt8.ofNat ('0'.toNat + n) else UInt8.ofNat ('A'.toNat + (n - 10))

/-- `%04X`. -/
def format04X (v : ℕ) : List Byte :=
  (List.range (max 4 (Nat.log 16 v + 1))).reverse.map fun i => hexDigit (v / 16 ^ i % 16)

/-- `\u%04X` in a buffer of seven characters. -/
def escapeU (v : ℕ) : List Byte := (text "\\u" ++ format04X v).take 6

/-- A `char` as an `int`. -/
def signed (b : Byte) : ℤ := b.toInt8.toInt

def escapeByte (b : Byte) : List Byte :=
  if b = chr '"' then text "\\\""
  else if b = chr '\\' then text "\\\\"
  else if b = 0x08 then text "\\b"
  else if b = 0x0C then text "\\f"
  else if b = chr '\n' then text "\\n"
  else if b = chr '\r' then text "\\r"
  else if b = chr '\t' then text "\\t"
  else if signed b ≤ 0x1F then escapeU (signed b % 2 ^ 32).toNat
  else [b]

def wchar3 (b₀ b₁ b₂ : Byte) : ℕ :=
  (b₀.toNat &&& 0x0F) <<< 12 ||| (b₁.toNat &&& 0x3F) <<< 6 ||| b₂.toNat &&& 0x3F

def wchar2 (b₀ b₁ : Byte) : ℕ := (b₀.toNat &&& 0x1F) <<< 6 ||| b₁.toNat &&& 0x3F

def isLead3 (b₀ b₁ b₂ : Byte) : Bool := b₀ &&& 0xE0 == 0xE0 && b₁ &&& 0x80 != 0 && b₂ &&& 0x80 != 0

def isLead2 (b₀ b₁ : Byte) : Bool := b₀ &&& 0xE0 == 0xC0 && b₁ &&& 0x80 != 0

/-- The characters of a string, without its quotes. -/
def escapeString : List Byte → List Byte
  | [] => []
  | [b] => escapeByte b
  | [b₀, b₁] => if isLead2 b₀ b₁ then escapeU (wchar2 b₀ b₁) else escapeByte b₀ ++ escapeString [b₁]
  | b₀ :: b₁ :: b₂ :: rest =>
    if isLead3 b₀ b₁ b₂ then escapeU (wchar3 b₀ b₁ b₂) ++ escapeString rest
    else if isLead2 b₀ b₁ then escapeU (wchar2 b₀ b₁) ++ escapeString (b₂ :: rest)
    else escapeByte b₀ ++ escapeString (b₁ :: b₂ :: rest)

def quoted (s : List Byte) : List Byte := text "\"" ++ escapeString s ++ text "\""

def formatNat (n : ℕ) : List Byte :=
  if n = 0 then text "0" else (Nat.digits 10 n).reverse.map fun d => UInt8.ofNat ('0'.toNat + d)

/-- `%PRId64`. -/
def formatInt (v : Int64) : List Byte :=
  if v.toInt < 0 then text "-" ++ formatNat v.toInt.natAbs else formatNat v.toInt.natAbs

def formatBool (b : Bool) : List Byte := if b then text "true" else text "false"

def separator (count : ℕ) : List Byte := if count = 0 then [] else text ", "

variable {F : Type} (formatDouble : F → List Byte)

mutual

/-- `to_json`. -/
@[grind] def QObject.toJson : QObject F → List Byte
  | .int value => formatInt value
  | .bool value => formatBool value
  | .float value => formatDouble value
  | .string value => quoted value
  | .list items => text "[" ++ items.toJson 0 ++ text "]"
  | .dict entries => text "\x7b" ++ entries.toJson 0 ++ text "\x7d"

/-- `to_json_list_iter` for the items, after some others. -/
def QList.toJson : QList F → ℕ → List Byte
  | .nil, _ => []
  | .cons head tail, count => separator count ++ head.toJson ++ tail.toJson (count + 1)

/-- `to_json_dict_iter`. -/
def QDict.toJson : QDict F → ℕ → List Byte
  | .nil, _ => []
  | .cons key value tail, count =>
    separator count ++ quoted key ++ text ": " ++ value.toJson ++ tail.toJson (count + 1)

end

end Colama.Qemu.Json
