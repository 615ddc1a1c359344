import Colama.Qemu.Json.StringSpec

namespace Colama.Qemu.Json

variable {F : Type}

mutual

/-- The objects of the round trip: no floating point, valid strings without NUL, and no key twice. -/
def QObject.Valid : QObject F → Prop
  | .int _ => True
  | .bool _ => True
  | .float _ => False
  | .string s => Utf8 s
  | .list items => items.Valid
  | .dict entries => entries.Valid

def QList.Valid : QList F → Prop
  | .nil => True
  | .cons head tail => head.Valid ∧ tail.Valid

def QDict.Valid : QDict F → Prop
  | .nil => True
  | .cons key value tail => Utf8 key ∧ tail.get? key = none ∧ value.Valid ∧ tail.Valid

end

mutual

/-- No string and no key has a character beyond U+FFFF. -/
def QObject.Basic : QObject F → Prop
  | .string s => Narrow s
  | .list items => items.Basic
  | .dict entries => entries.Basic
  | _ => True

def QList.Basic : QList F → Prop
  | .nil => True
  | .cons head tail => head.Basic ∧ tail.Basic

def QDict.Basic : QDict F → Prop
  | .nil => True
  | .cons key value tail => Narrow key ∧ value.Basic ∧ tail.Basic

end

mutual

/-- Equality of objects. Dictionaries are equal if they have the same keys with equal values. -/
def QObject.Equal : QObject F → QObject F → Prop
  | .int a, .int b => a = b
  | .bool a, .bool b => a = b
  | .float a, .float b => a = b
  | .string a, .string b => a = b
  | .list a, .list b => a.Equal b
  | .dict a, .dict b => a.Within b ∧ ∀ key, b.get? key ≠ none → a.get? key ≠ none
  | _, _ => False

def QList.Equal : QList F → QList F → Prop
  | .nil, .nil => True
  | .cons a as, .cons b bs => a.Equal b ∧ as.Equal bs
  | _, _ => False

/-- Every key is also one of the other dictionary, with an equal value. -/
def QDict.Within : QDict F → QDict F → Prop
  | .nil, _ => True
  | .cons key value tail, b => (∃ v, b.get? key = some v ∧ value.Equal v) ∧ tail.Within b

end

mutual

/-- The tokens of the text of an object. -/
@[grind] def QObject.kinds : QObject F → List Kind
  | .int value => [(.integer, formatInt value)]
  | .bool value => [(.keyword, formatBool value)]
  | .float _ => []
  | .string value => [(.string, quoted value)]
  | .list items => (.operator, [chr '[']) :: (items.kinds 0 ++ [(.operator, [chr ']'])])
  | .dict entries => (.operator, [chr '{']) :: (entries.kinds 0 ++ [(.operator, [chr '}'])])

def QList.kinds : QList F → ℕ → List Kind
  | .nil, _ => []
  | .cons head tail, count => separatorKinds count ++ head.kinds ++ tail.kinds (count + 1)

def QDict.kinds : QDict F → ℕ → List Kind
  | .nil, _ => []
  | .cons key value tail, count =>
    separatorKinds count ++ (.string, quoted key) :: (.operator, [chr ':']) :: value.kinds ++ tail.kinds (count + 1)

end

variable {formatDouble : F → List Byte} {rest : List Byte}

theorem utf8EncodeChar_ne_zero {c : Char} (h : c ≠ '\x00') : 0 ∉ String.utf8EncodeChar c := by
  have hlead2 : ∀ x < 32, (0 : Byte) ≠ UInt8.ofNat (x + 0xC0) := by decide
  have hlead3 : ∀ x < 16, (0 : Byte) ≠ UInt8.ofNat (x + 0xE0) := by decide
  have hlead4 : ∀ x < 8, (0 : Byte) ≠ UInt8.ofNat (x + 0xF0) := by decide
  have hnext : ∀ n, (0 : Byte) ≠ UInt8.ofNat (n % 64 + 0x80) := fun n =>
    (next_byte _ (Nat.mod_lt n (by decide))).2.symm
  have hmod : ∀ {n k : ℕ}, 0 < k → n % k < k := fun h => Nat.mod_lt _ h
  rw [String.utf8EncodeChar]
  split_ifs with hone htwo hthree
  · rw [List.mem_singleton]
    exact (ofNat_ne_zero h hone).symm
  · simp only [List.mem_cons, List.not_mem_nil, or_false, not_or]
    exact ⟨hlead2 _ (hmod (by decide)), hnext _⟩
  · simp only [List.mem_cons, List.not_mem_nil, or_false, not_or]
    exact ⟨hlead3 _ (hmod (by decide)), hnext _, hnext _⟩
  · simp only [List.mem_cons, List.not_mem_nil, or_false, not_or]
    exact ⟨hlead4 _ (hmod (by decide)), hnext _, hnext _, hnext _⟩

theorem Utf8.zero_notMem {s : List Byte} (h : Utf8 s) : 0 ∉ s := by
  obtain ⟨cs, hzero, rfl⟩ := h
  rw [List.mem_flatMap]
  rintro ⟨c, hc, hmem⟩
  exact utf8EncodeChar_ne_zero (fun heq => hzero (heq ▸ hc)) hmem

theorem begins_formatNat (n : ℕ) : Begins (formatNat n ++ rest) := by
  by_cases hn : n = 0
  · exact ⟨chr '0', rest, by rw [formatNat, if_pos hn]; rfl, by decide⟩
  · obtain ⟨d, ds, -, hlt, -, hformat⟩ := formatNat_cons hn
    refine ⟨UInt8.ofNat ('0'.toNat + d), ds ++ rest, by rw [hformat, List.cons_append], ?_⟩
    interval_cases d <;> decide

theorem begins_formatInt (v : Int64) : Begins (formatInt v ++ rest) := by
  unfold formatInt
  split
  · exact ⟨chr '-', formatNat v.toInt.natAbs ++ rest, rfl, by decide⟩
  · exact begins_formatNat _

theorem QObject.begins_toJson {obj : QObject F} (h : obj.Valid) (rest : List Byte) :
    Begins (obj.toJson formatDouble ++ rest) := by
  cases obj with
  | int value => exact begins_formatInt value
  | bool value =>
    cases value with
    | true => exact ⟨chr 't', text "rue" ++ rest, rfl, by decide⟩
    | false => exact ⟨chr 'f', text "alse" ++ rest, rfl, by decide⟩
  | float value => exact absurd h id
  | string value => exact ⟨chr '"', escapeString value ++ text "\"" ++ rest, by simp [toJson, quoted, text], by decide⟩
  | list items => exact ⟨chr '[', items.toJson formatDouble 0 ++ text "]" ++ rest, by simp [toJson, text], by decide⟩
  | dict entries =>
    exact ⟨chr '{', entries.toJson formatDouble 0 ++ text "\x7d" ++ rest, by simp [toJson, text], by decide⟩

theorem QList.delimited_toJson (items : QList F) (count : ℕ) (h : Delimited rest) :
    Delimited (items.toJson formatDouble (count + 1) ++ rest) := by
  cases items with
  | nil => exact h
  | cons head tail =>
    exact ⟨chr ',', chr ' ' :: (head.toJson formatDouble ++ tail.toJson formatDouble (count + 2) ++ rest),
      by simp [QList.toJson, separator, text], by decide⟩

theorem QDict.delimited_toJson (entries : QDict F) (count : ℕ) (h : Delimited rest) :
    Delimited (entries.toJson formatDouble (count + 1) ++ rest) := by
  cases entries with
  | nil => exact h
  | cons key value tail =>
    exact ⟨chr ',', chr ' ' :: (quoted key ++ text ": " ++ value.toJson formatDouble ++
      tail.toJson formatDouble (count + 2) ++ rest), by simp [QDict.toJson, separator, text], by decide⟩

mutual

/-- The text of an object lexes into its tokens. -/
theorem QObject.lex_toJson (obj : QObject F) {rest : List Byte} (h : obj.Valid) (hrest : Delimited rest) :
    lex .start [] (obj.toJson formatDouble ++ rest) = (lex .start [] rest).prepend obj.kinds := by
  cases obj with
  | int value => exact lex_formatInt value hrest
  | bool value => exact lex_formatBool value hrest
  | float value => exact absurd h id
  | string value => exact lex_quoted (Utf8.zero_notMem h) rest
  | list items =>
    have hopen : QObject.toJson formatDouble (.list items) ++ rest =
        chr '[' :: (items.toJson formatDouble 0 ++ chr ']' :: rest) := by simp [QObject.toJson, text]
    rw [hopen, lex_operator (by decide), QList.lex_toJson items 0 h ⟨chr ']', rest, rfl, by decide⟩,
      lex_operator (by decide)]
    simp [QObject.kinds]
  | dict entries =>
    have hopen : QObject.toJson formatDouble (.dict entries) ++ rest =
        chr '{' :: (entries.toJson formatDouble 0 ++ chr '}' :: rest) := by simp [QObject.toJson, text]
    rw [hopen, lex_operator (by decide), QDict.lex_toJson entries 0 h ⟨chr '}', rest, rfl, by decide⟩,
      lex_operator (by decide)]
    simp [QObject.kinds]

theorem QList.lex_toJson (items : QList F) (count : ℕ) {rest : List Byte} (h : items.Valid)
    (hrest : Delimited rest) :
    lex .start [] (items.toJson formatDouble count ++ rest) = (lex .start [] rest).prepend (items.kinds count) := by
  cases items with
  | nil => rfl
  | cons head tail =>
    rw [QList.toJson, List.append_assoc, List.append_assoc, lex_separator count (head.begins_toJson h.1 _),
      head.lex_toJson h.1 (tail.delimited_toJson count hrest), tail.lex_toJson (count + 1) h.2 hrest]
    simp [QList.kinds]

theorem QDict.lex_toJson (entries : QDict F) (count : ℕ) {rest : List Byte} (h : entries.Valid)
    (hrest : Delimited rest) :
    lex .start [] (entries.toJson formatDouble count ++ rest) =
      (lex .start [] rest).prepend (entries.kinds count) := by
  cases entries with
  | nil => rfl
  | cons key value tail =>
    have hcolon : ∀ u : List Byte, text ": " ++ u = chr ':' :: chr ' ' :: u := fun u => rfl
    rw [QDict.toJson, List.append_assoc, List.append_assoc, List.append_assoc, List.append_assoc,
      lex_separator count ⟨chr '"', _, by simp [quoted, text]; rfl, by decide⟩, lex_quoted (Utf8.zero_notMem h.1),
      hcolon, lex_operator (by decide), lex_space (value.begins_toJson h.2.2.1 _),
      value.lex_toJson h.2.2.1 (tail.delimited_toJson count hrest), tail.lex_toJson (count + 1) h.2.2.2 hrest]
    simp [QDict.kinds]

end

end Colama.Qemu.Json
