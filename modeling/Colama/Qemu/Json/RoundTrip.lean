import Colama.Qemu.Json.ObjectSpec

namespace Colama.Qemu.Json

variable {F : Type} (strtod : List Byte → F) (formatDouble : F → List Byte)

/-- What the reader makes of a string that is written. -/
def rereadString (s : List Byte) : List Byte := (unescape (chr '"') (escapeString s)).getD []

mutual

/-- What the reader makes of an object that is written. -/
def QObject.reread : QObject F → QObject F
  | .string s => .string (rereadString s)
  | .list items => .list (items.rereadInto .nil)
  | .dict entries => .dict (entries.rereadInto .nil)
  | obj => obj

@[grind] def QList.rereadInto : QList F → QList F → QList F
  | .nil, list => list
  | .cons head tail, list => tail.rereadInto (list.append head.reread)

def QDict.rereadInto : QDict F → QDict F → QDict F
  | .nil, dict => dict
  | .cons key value tail, dict => tail.rereadInto (dict.put (rereadString key) value.reread)

end

theorem rereadString_eq {s out : List Byte} (h : Reads (escapeString s) out) : rereadString s = out := by
  have hread := h []
  rw [List.append_nil, unescape] at hread
  rw [rereadString, hread]
  simp

/-- The parser reads the token of a string. -/
theorem qstring_quoted {s : List Byte} (h : 0 ∉ s) : qstringFromEscapedStr (quoted s) = some (rereadString s) := by
  obtain ⟨out, hreads, -⟩ := exists_reads_escapeString h
  have hquoted : quoted s = chr '"' :: (escapeString s ++ [chr '"']) := by simp [quoted, text]
  have hend : unescape (chr '"') [chr '"'] = some [] := by simp [unescape]
  rw [hquoted, qstringFromEscapedStr, if_pos rfl, hreads, hend, rereadString_eq hreads]
  simp

theorem isDigit_toNat {d : ℕ} (h : d < 10) : (UInt8.ofNat ('0'.toNat + d)).toNat - '0'.toNat = d := by
  interval_cases d <;> decide

theorem strtolDigits_append {u v : List Byte} (h : ∀ b ∈ u, isDigit b = true) (acc : ℕ) :
    strtolDigits (u ++ v) acc = strtolDigits v (strtolDigits u acc) := by
  induction u generalizing acc with
  | nil => rfl
  | cons b u ih =>
    rw [List.forall_mem_cons] at h
    rw [List.cons_append, strtolDigits, if_pos h.1, ih h.2, strtolDigits, if_pos h.1]

theorem strtolDigits_digits {l : List ℕ} (h : ∀ d ∈ l, d < 10) :
    strtolDigits (l.reverse.map fun d => UInt8.ofNat ('0'.toNat + d)) 0 = Nat.ofDigits 10 l := by
  induction l with
  | nil => rfl
  | cons d l ih =>
    rw [List.forall_mem_cons] at h
    have hdigits : ∀ b ∈ l.reverse.map fun d => UInt8.ofNat ('0'.toNat + d), isDigit b = true := by
      intro b hb
      obtain ⟨e, he, rfl⟩ := List.mem_map.mp hb
      exact isDigit_ofNat (h.2 e (List.mem_reverse.mp he))
    rw [List.reverse_cons, List.map_append, strtolDigits_append hdigits, ih h.2, List.map_singleton, strtolDigits,
      if_pos (isDigit_ofNat h.1), isDigit_toNat h.1, strtolDigits, Nat.ofDigits_cons]
    ring

theorem strtolDigits_formatNat (n : ℕ) : strtolDigits (formatNat n) 0 = n := by
  by_cases hn : n = 0
  · rw [formatNat, if_pos hn, hn]
    decide
  · rw [formatNat, if_neg hn, strtolDigits_digits fun d hd => Nat.digits_lt_base (by decide) hd, Nat.ofDigits_digits]

theorem formatNat_ne_minus (n : ℕ) : ∃ c u, formatNat n = c :: u ∧ c ≠ chr '-' := by
  by_cases hn : n = 0
  · exact ⟨chr '0', [], by rw [formatNat, if_pos hn]; rfl, by decide⟩
  · obtain ⟨d, ds, -, hlt, -, hformat⟩ := formatNat_cons hn
    refine ⟨_, ds, hformat, ?_⟩
    interval_cases d <;> decide

theorem strtoll_formatInt (v : Int64) : strtoll (formatInt v) = v := by
  unfold formatInt
  split
  · rename_i hneg
    have hminus : text "-" ++ formatNat v.toInt.natAbs = chr '-' :: formatNat v.toInt.natAbs := rfl
    have habs : -(v.toInt.natAbs : ℤ) = v.toInt := by omega
    rw [hminus, strtoll, if_pos rfl, strtolDigits_formatNat, habs, Int64.ofIntClamp_toInt]
  · rename_i hpos
    obtain ⟨c, u, hformat, hne⟩ := formatNat_ne_minus v.toInt.natAbs
    have habs : (v.toInt.natAbs : ℤ) = v.toInt := by omega
    rw [hformat, strtoll, if_neg hne, ← hformat, strtolDigits_formatNat, habs, Int64.ofIntClamp_toInt]

theorem parseObject_none {k : Kind} (h : isOperator k '{' = false) (n : ℕ) (rest : List Kind) :
    parseObject strtod n (k :: rest) = none := by
  rcases n with _ | n <;> rcases rest with _ | ⟨peek, rest⟩ <;> simp [parseObject, h]

theorem parseArray_none {k : Kind} (h : isOperator k '[' = false) (n : ℕ) (rest : List Kind) :
    parseArray strtod n (k :: rest) = none := by
  rcases n with _ | n <;> rcases rest with _ | ⟨peek, rest⟩ <;> simp [parseArray, h]

/-- A token that is a value of its own. -/
theorem parseValue_token {ty : JsonTokenType} {u : List Byte} {obj : QObject F} (hop : ty ≠ .operator) {n : ℕ}
    (hn : 1 ≤ n) (rest : List Kind)
    (h : (parseKeyword ((ty, u) :: rest) <|> parseLiteral strtod ((ty, u) :: rest)) = some (obj, rest)) :
    parseValue strtod n ((ty, u) :: rest) = some (obj, rest) := by
  obtain ⟨m, rfl⟩ := Nat.exists_eq_add_of_le' hn
  have hnone : ∀ op, isOperator (ty, u) op = false := fun op => by simp [isOperator, hop]
  rw [parseValue, parseObject_none strtod (hnone _), parseArray_none strtod (hnone _)]
  simpa using h

theorem parseValue_string {s : List Byte} (hs : 0 ∉ s) {n : ℕ} (hn : 1 ≤ n) (rest : List Kind) :
    parseValue strtod n ((.string, quoted s) :: rest) = some (.string (rereadString s), rest) := by
  apply parseValue_token strtod (by decide) hn
  simp [parseKeyword, isKeyword, parseLiteral, qstring_quoted hs]

/-- The first token of a value is no separator. -/
theorem QObject.kinds_cons (obj : QObject F) (h : obj.Valid) :
    ∃ k ks, obj.kinds = k :: ks ∧ isOperator k ']' = false ∧ isOperator k '}' = false := by
  cases obj with
  | int value => exact ⟨_, [], rfl, by simp [isOperator], by simp [isOperator]⟩
  | bool value => exact ⟨_, [], rfl, by simp [isOperator], by simp [isOperator]⟩
  | float value => exact absurd h id
  | string value => exact ⟨_, [], rfl, by simp [isOperator], by simp [isOperator]⟩
  | list items => exact ⟨_, _, rfl, by decide, by decide⟩
  | dict entries => exact ⟨_, _, rfl, by decide, by decide⟩

theorem parseValue_list {n : ℕ} {working rest : List Kind} {list : QList F}
    (h : parseArray strtod n ((.operator, [chr '[']) :: working) = some (list, rest)) :
    parseValue strtod (n + 1) ((.operator, [chr '[']) :: working) = some (.list list, rest) := by
  rw [parseValue, parseObject_none strtod (by decide), h]
  rfl

theorem parseValue_dict {n : ℕ} {working rest : List Kind} {dict : QDict F}
    (h : parseObject strtod n ((.operator, [chr '{']) :: working) = some (dict, rest)) :
    parseValue strtod (n + 1) ((.operator, [chr '{']) :: working) = some (.dict dict, rest) := by
  rw [parseValue, h]
  rfl

theorem parsePair_value {n : ℕ} {key : List Byte} (hkey : 0 ∉ key) (hn : 1 ≤ n) {working rest : List Kind}
    {value : QObject F} (h : parseValue strtod n working = some (value, rest)) (dict : QDict F) :
    parsePair strtod (n + 1) dict ((.string, quoted key) :: (.operator, [chr ':']) :: working) =
      some (dict.put (rereadString key) value, rest) := by
  have hcolon : isOperator (.operator, [chr ':']) ':' = true := by decide
  simp [parsePair, parseValue_string strtod hkey hn, hcolon, h]

mutual

/-- The tokens of an object parse into what is read again, whatever follows. -/
theorem QObject.parseValue_kinds (obj : QObject F) (h : obj.Valid) {n : ℕ} (hn : 3 * obj.kinds.length ≤ n)
    (rest : List Kind) : parseValue strtod n (obj.kinds ++ rest) = some (obj.reread, rest) := by
  cases obj with
  | int value =>
    apply parseValue_token strtod (by decide) (by simp [QObject.kinds] at hn; omega)
    simp [parseKeyword, isKeyword, parseLiteral, strtoll_formatInt, QObject.reread]
  | bool value =>
    apply parseValue_token strtod (by decide) (by simp [QObject.kinds] at hn; omega)
    cases value <;> simp [parseKeyword, isKeyword, formatBool, QObject.reread, text]
  | float value => exact absurd h id
  | string value =>
    exact parseValue_string strtod (Utf8.zero_notMem h) (by simp [QObject.kinds] at hn; omega) rest
  | list items =>
    have hopen : isOperator (.operator, [chr '[']) '[' = true := by decide
    cases items with
    | nil =>
      obtain ⟨m, rfl⟩ := Nat.exists_eq_add_of_le' (le_trans (by simp [QObject.kinds, QList.kinds] : 2 ≤ _) hn)
      have hclose : isOperator (.operator, [chr ']']) ']' = true := by decide
      apply parseValue_list
      simp [QList.kinds, parseArray, hopen, hclose, QList.rereadInto]
    | cons head tail =>
      obtain ⟨k, ks, hkinds, hitem, -⟩ := head.kinds_cons h.1
      have hlength : 3 * (head.kinds.length + (tail.kinds 1).length) + 6 ≤ n := by
        simp [QObject.kinds, QList.kinds, separatorKinds] at hn
        omega
      obtain ⟨m, rfl⟩ := Nat.exists_eq_add_of_le' (le_trans (Nat.le_add_left 6 _) hlength)
      have htokens : QObject.kinds (.list (.cons head tail)) ++ rest =
          (.operator, [chr '[']) :: (head.kinds ++ (tail.kinds 1 ++ (.operator, [chr ']']) :: rest)) := by
        simp [QObject.kinds, QList.kinds, separatorKinds]
      have hhead := head.parseValue_kinds h.1 (n := m + 4) (by omega) (tail.kinds 1 ++ (.operator, [chr ']']) :: rest)
      have htail := tail.parseItems_kinds 0 h.2 (n := m + 4)
        (show 3 * (tail.kinds 1).length + 1 ≤ m + 4 by omega) (.cons head.reread .nil) rest
      rw [htokens]
      apply parseValue_list
      rw [hkinds, List.cons_append] at hhead ⊢
      rw [parseArray, if_pos hopen, hitem, if_neg Bool.false_ne_true, hhead, Option.bind_some, htail]
      simp [QList.rereadInto, QList.append]
  | dict entries =>
    have hopen : isOperator (.operator, [chr '{']) '{' = true := by decide
    cases entries with
    | nil =>
      obtain ⟨m, rfl⟩ := Nat.exists_eq_add_of_le' (le_trans (by simp [QObject.kinds, QDict.kinds] : 2 ≤ _) hn)
      have hclose : isOperator (.operator, [chr '}']) '}' = true := by decide
      apply parseValue_dict
      simp [QDict.kinds, parseObject, hopen, hclose, QDict.rereadInto]
    | cons key value tail =>
      have hkey : isOperator (.string, quoted key) '}' = false := by simp [isOperator]
      have hlength : 3 * (value.kinds.length + (tail.kinds 1).length) + 12 ≤ n := by
        simp [QObject.kinds, QDict.kinds, separatorKinds] at hn
        omega
      obtain ⟨m, rfl⟩ := Nat.exists_eq_add_of_le' (le_trans (Nat.le_add_left 12 _) hlength)
      have htokens : QObject.kinds (.dict (.cons key value tail)) ++ rest =
          (.operator, [chr '{']) :: (.string, quoted key) :: (.operator, [chr ':']) ::
            (value.kinds ++ (tail.kinds 1 ++ (.operator, [chr '}']) :: rest)) := by
        simp [QObject.kinds, QDict.kinds, separatorKinds]
      have hvalue := value.parseValue_kinds h.2.2.1 (n := m + 9) (by omega)
        (tail.kinds 1 ++ (.operator, [chr '}']) :: rest)
      have hpair := parsePair_value strtod (Utf8.zero_notMem h.1) (by omega) hvalue .nil
      have htail := tail.parsePairs_kinds 0 h.2.2.2 (n := m + 10)
        (show 3 * (tail.kinds 1).length + 1 ≤ m + 10 by omega)
        (QDict.nil.put (rereadString key) value.reread) rest
      rw [htokens]
      apply parseValue_dict
      rw [parseObject, if_pos hopen, hkey, if_neg Bool.false_ne_true, hpair, Option.bind_some, htail]
      simp [QDict.rereadInto]

theorem QList.parseItems_kinds (items : QList F) (count : ℕ) (h : items.Valid) {n : ℕ}
    (hn : 3 * (items.kinds (count + 1)).length + 1 ≤ n) (list : QList F) (rest : List Kind) :
    parseItems strtod n list (items.kinds (count + 1) ++ (.operator, [chr ']']) :: rest) =
      some (items.rereadInto list, rest) := by
  cases items with
  | nil =>
    obtain ⟨m, rfl⟩ := Nat.exists_eq_add_of_le' (le_trans (Nat.le_add_left 1 _) hn)
    have hclose : isOperator (.operator, [chr ']']) ']' = true := by decide
    simp [QList.kinds, parseItems, hclose, QList.rereadInto]
  | cons head tail =>
    have hlength : 3 * (head.kinds.length + (tail.kinds (count + 1 + 1)).length) + 4 ≤ n := by
      simp [QList.kinds, separatorKinds] at hn
      omega
    obtain ⟨m, rfl⟩ := Nat.exists_eq_add_of_le' (le_trans (Nat.le_add_left 4 _) hlength)
    have htokens : QList.kinds (.cons head tail) (count + 1) ++ (.operator, [chr ']']) :: rest =
        (.operator, [chr ',']) :: (head.kinds ++ (tail.kinds (count + 1 + 1) ++ (.operator, [chr ']']) :: rest)) := by
      simp [QList.kinds, separatorKinds]
    have hclose : isOperator (.operator, [chr ',']) ']' = false := by decide
    have hcomma : isOperator (.operator, [chr ',']) ',' = true := by decide
    have hhead := head.parseValue_kinds h.1 (n := m + 3) (by omega)
      (tail.kinds (count + 1 + 1) ++ (.operator, [chr ']']) :: rest)
    have htail := tail.parseItems_kinds (count + 1) h.2 (n := m + 3) (by omega) (list.append head.reread) rest
    rw [htokens, parseItems, hclose, if_neg Bool.false_ne_true, if_pos hcomma, hhead, Option.bind_some, htail,
      QList.rereadInto]

theorem QDict.parsePairs_kinds (entries : QDict F) (count : ℕ) (h : entries.Valid) {n : ℕ}
    (hn : 3 * (entries.kinds (count + 1)).length + 1 ≤ n) (dict : QDict F) (rest : List Kind) :
    parsePairs strtod n dict (entries.kinds (count + 1) ++ (.operator, [chr '}']) :: rest) =
      some (entries.rereadInto dict, rest) := by
  cases entries with
  | nil =>
    obtain ⟨m, rfl⟩ := Nat.exists_eq_add_of_le' (le_trans (Nat.le_add_left 1 _) hn)
    have hclose : isOperator (.operator, [chr '}']) '}' = true := by decide
    simp [QDict.kinds, parsePairs, hclose, QDict.rereadInto]
  | cons key value tail =>
    have hlength : 3 * (value.kinds.length + (tail.kinds (count + 1 + 1)).length) + 10 ≤ n := by
      simp [QDict.kinds, separatorKinds] at hn
      omega
    obtain ⟨m, rfl⟩ := Nat.exists_eq_add_of_le' (le_trans (Nat.le_add_left 10 _) hlength)
    have htokens : QDict.kinds (.cons key value tail) (count + 1) ++ (.operator, [chr '}']) :: rest =
        (.operator, [chr ',']) :: (.string, quoted key) :: (.operator, [chr ':']) ::
          (value.kinds ++ (tail.kinds (count + 1 + 1) ++ (.operator, [chr '}']) :: rest)) := by
      simp [QDict.kinds, separatorKinds]
    have hclose : isOperator (.operator, [chr ',']) '}' = false := by decide
    have hcomma : isOperator (.operator, [chr ',']) ',' = true := by decide
    have hvalue := value.parseValue_kinds h.2.2.1 (n := m + 8) (by omega)
      (tail.kinds (count + 1 + 1) ++ (.operator, [chr '}']) :: rest)
    have hpair := parsePair_value strtod (Utf8.zero_notMem h.1) (by omega) hvalue dict
    have htail := tail.parsePairs_kinds (count + 1) h.2.2.2 (n := m + 9) (by omega)
      (dict.put (rereadString key) value.reread) rest
    rw [htokens, parsePairs, hclose, if_neg Bool.false_ne_true, if_pos hcomma, hpair, Option.bind_some, htail,
      QDict.rereadInto]

end

/-- What a token adds to the counts of open braces and brackets. -/
def depth (k : Kind) : ℤ × ℤ :=
  if k.1 ≠ .operator then (0, 0)
  else if k.2.head? = some (chr '{') then (1, 0)
  else if k.2.head? = some (chr '}') then (-1, 0)
  else if k.2.head? = some (chr '[') then (0, 1)
  else if k.2.head? = some (chr ']') then (0, -1)
  else (0, 0)

/-- The counts after some tokens, if something is open after each of them. -/
@[grind] def stays (counts : ℤ × ℤ) : List Kind → Option (ℤ × ℤ)
  | [] => some counts
  | k :: ks => if counts + depth k = 0 then none else stays (counts + depth k) ks

theorem count_depth (parser : JsonMessageParser) (t : Token) :
    parser.count t =
      { parser with
        braceCount := parser.braceCount + (depth t.kind).1
        bracketCount := parser.bracketCount + (depth t.kind).2 } := by
  unfold JsonMessageParser.count depth Token.kind
  split_ifs <;> simp [sub_eq_add_neg]

theorem processToken_depth (parser : JsonMessageParser) (t : Token) :
    parser.processToken t =
      if (parser.braceCount, parser.bracketCount) + depth t.kind = 0 then
        { parser with
          braceCount := 0
          bracketCount := 0
          tokens := []
          emitted := parser.emitted ++ [parser.tokens ++ [t]] }
      else
        { parser with
          braceCount := parser.braceCount + (depth t.kind).1
          bracketCount := parser.bracketCount + (depth t.kind).2
          tokens := parser.tokens ++ [t] } := by
  rw [JsonMessageParser.processToken, count_depth, JsonMessageParser.append]
  by_cases h : (parser.braceCount, parser.bracketCount) + depth t.kind = 0
  · have hparts : parser.braceCount + (depth t.kind).1 = 0 ∧ parser.bracketCount + (depth t.kind).2 = 0 :=
      Prod.ext_iff.mp h
    rw [if_pos h, if_pos hparts, hparts.1, hparts.2]
  · have hparts : ¬ (parser.braceCount + (depth t.kind).1 = 0 ∧ parser.bracketCount + (depth t.kind).2 = 0) :=
      fun hparts => h (Prod.ext_iff.mpr hparts)
    rw [if_neg h, if_neg hparts]

theorem foldl_stays {ts : List Token} {parser : JsonMessageParser} {counts : ℤ × ℤ}
    (h : stays (parser.braceCount, parser.bracketCount) (ts.map Token.kind) = some counts) :
    ts.foldl JsonMessageParser.processToken parser =
      { parser with tokens := parser.tokens ++ ts, braceCount := counts.1, bracketCount := counts.2 } := by
  induction ts generalizing parser with
  | nil =>
    cases h
    simp
  | cons t ts ih =>
    rw [List.map_cons, stays] at h
    split at h
    · cases h
    · rename_i hopen
      rw [List.foldl_cons, processToken_depth, if_neg hopen, ih h]
      simp

theorem stays_flat {counts : ℤ × ℤ} (hopen : counts ≠ 0) {k : Kind} (h : depth k = 0) (ks : List Kind) :
    stays counts (k :: ks) = stays counts ks := by
  rw [stays, h, add_zero, if_neg hopen]

theorem stays_separator {counts : ℤ × ℤ} (hopen : counts ≠ 0) (count : ℕ) (ks : List Kind) :
    stays counts (separatorKinds count ++ ks) = stays counts ks := by
  unfold separatorKinds
  split
  · rfl
  · exact stays_flat hopen (by decide) ks

/-- What is between an opening token and its closing one leaves something open. -/
theorem stays_enclosed {counts : ℤ × ℤ} (hbrace : 0 ≤ counts.1) (hbracket : 0 ≤ counts.2) (hopen : counts ≠ 0)
    {first last : Kind} {inner rest : List Kind} (hpair : depth first + depth last = 0)
    (hfirst : depth first = (1, 0) ∨ depth first = (0, 1))
    (hinner : ∀ inside : ℤ × ℤ, 0 ≤ inside.1 → 0 ≤ inside.2 → inside ≠ 0 → ∀ ks,
      stays inside (inner ++ ks) = stays inside ks) :
    stays counts (first :: (inner ++ last :: rest)) = stays counts rest := by
  obtain ⟨a, b⟩ := counts
  have hne : (a, b) + depth first ≠ 0 := by
    rcases hfirst with h | h <;> rw [h] <;> simp only [Prod.mk_add_mk, ne_eq, Prod.mk_eq_zero] <;> omega
  have hbounds : 0 ≤ ((a, b) + depth first).1 ∧ 0 ≤ ((a, b) + depth first).2 := by
    rcases hfirst with h | h <;> rw [h] <;> simp only [Prod.mk_add_mk] <;> omega
  rw [stays, if_neg hne, hinner _ hbounds.1 hbounds.2 hne, stays, add_assoc, hpair, add_zero, if_neg hopen]

mutual

theorem QObject.stays_kinds (obj : QObject F) {counts : ℤ × ℤ} (hbrace : 0 ≤ counts.1) (hbracket : 0 ≤ counts.2)
    (hopen : counts ≠ 0) (rest : List Kind) : stays counts (obj.kinds ++ rest) = stays counts rest := by
  cases obj with
  | int value => exact stays_flat hopen rfl rest
  | bool value => exact stays_flat hopen rfl rest
  | float value => rfl
  | string value => exact stays_flat hopen rfl rest
  | list items =>
    have htokens : QObject.kinds (.list items) ++ rest =
        (.operator, [chr '[']) :: (items.kinds 0 ++ (.operator, [chr ']']) :: rest) := by simp [QObject.kinds]
    rw [htokens]
    apply stays_enclosed hbrace hbracket hopen (by decide) (.inr (by decide))
    exact fun inside ha hb hne ks => items.stays_kinds 0 ha hb hne ks
  | dict entries =>
    have htokens : QObject.kinds (.dict entries) ++ rest =
        (.operator, [chr '{']) :: (entries.kinds 0 ++ (.operator, [chr '}']) :: rest) := by simp [QObject.kinds]
    rw [htokens]
    apply stays_enclosed hbrace hbracket hopen (by decide) (.inl (by decide))
    exact fun inside ha hb hne ks => entries.stays_kinds 0 ha hb hne ks

theorem QList.stays_kinds (items : QList F) (count : ℕ) {counts : ℤ × ℤ} (hbrace : 0 ≤ counts.1)
    (hbracket : 0 ≤ counts.2) (hopen : counts ≠ 0) (rest : List Kind) :
    stays counts (items.kinds count ++ rest) = stays counts rest := by
  cases items with
  | nil => rfl
  | cons head tail =>
    rw [QList.kinds, List.append_assoc, List.append_assoc, stays_separator hopen,
      head.stays_kinds hbrace hbracket hopen, tail.stays_kinds (count + 1) hbrace hbracket hopen]

theorem QDict.stays_kinds (entries : QDict F) (count : ℕ) {counts : ℤ × ℤ} (hbrace : 0 ≤ counts.1)
    (hbracket : 0 ≤ counts.2) (hopen : counts ≠ 0) (rest : List Kind) :
    stays counts (entries.kinds count ++ rest) = stays counts rest := by
  cases entries with
  | nil => rfl
  | cons key value tail =>
    have htokens : QDict.kinds (.cons key value tail) count ++ rest = separatorKinds count ++
        (.string, quoted key) :: (.operator, [chr ':']) :: (value.kinds ++ (tail.kinds (count + 1) ++ rest)) := by
      simp [QDict.kinds]
    rw [htokens, stays_separator hopen, stays_flat hopen rfl, stays_flat hopen (by decide),
      value.stays_kinds hbrace hbracket hopen, tail.stays_kinds (count + 1) hbrace hbracket hopen]

end

/-- Nothing is open after the last token of an object, and something after every other one. -/
theorem QObject.kinds_last (obj : QObject F) (h : obj.Valid) :
    ∃ ks k counts, obj.kinds = ks ++ [k] ∧ stays 0 ks = some counts ∧ counts + depth k = 0 := by
  cases obj with
  | int value => exact ⟨[], _, 0, rfl, rfl, rfl⟩
  | bool value => exact ⟨[], _, 0, rfl, rfl, rfl⟩
  | float value => exact absurd h id
  | string value => exact ⟨[], _, 0, rfl, rfl, rfl⟩
  | list items =>
    refine ⟨(.operator, [chr '[']) :: items.kinds 0, (.operator, [chr ']']), (0, 1), by simp [QObject.kinds], ?_,
      by decide⟩
    have hopen : (0 : ℤ × ℤ) + depth (.operator, [chr '[']) = (0, 1) := by decide
    rw [stays, hopen, if_neg (by decide), ← List.append_nil (items.kinds 0),
      items.stays_kinds 0 (by decide) (by decide) (by decide), stays]
  | dict entries =>
    refine ⟨(.operator, [chr '{']) :: entries.kinds 0, (.operator, [chr '}']), (1, 0), by simp [QObject.kinds], ?_,
      by decide⟩
    have hopen : (0 : ℤ × ℤ) + depth (.operator, [chr '{']) = (1, 0) := by decide
    rw [stays, hopen, if_neg (by decide), ← List.append_nil (entries.kinds 0),
      entries.stays_kinds 0 (by decide) (by decide) (by decide), stays]

/-- The tokens of an object are emitted in one list. -/
theorem foldl_kinds {obj : QObject F} (h : obj.Valid) {ts : List Token} (hts : ts.map Token.kind = obj.kinds)
    {parser : JsonMessageParser} (hbrace : parser.braceCount = 0) (hbracket : parser.bracketCount = 0)
    (htokens : parser.tokens = []) :
    ts.foldl JsonMessageParser.processToken parser = { parser with emitted := parser.emitted ++ [ts] } := by
  obtain ⟨ks, k, counts, hkinds, hstays, hzero⟩ := obj.kinds_last h
  rw [hkinds, List.map_eq_append_iff] at hts
  obtain ⟨us, vs, rfl, rfl, hlast⟩ := hts
  obtain ⟨t, rfl, rfl⟩ := List.map_eq_singleton_iff.mp hlast
  have hcounts : (parser.braceCount, parser.bracketCount) = 0 := by rw [hbrace, hbracket]; rfl
  have hfirst := @foldl_stays _ parser _ (hcounts.symm ▸ hstays)
  rw [List.foldl_append, hfirst, List.foldl_cons, List.foldl_nil, processToken_depth, if_pos hzero]
  simp [htokens, hbrace, hbracket]

/-- What is written is read without an error. -/
theorem qobjectFromJson_toJson {obj : QObject F} (h : obj.Valid) :
    qobjectFromJson strtod (obj.toJson formatDouble) = some obj.reread := by
  have hlex := fun (c : Byte) (hc : c ∈ delimiters) =>
    @QObject.lex_toJson _ formatDouble obj _ h ⟨c, [], rfl, hc⟩
  have hok : (JsonLexer.init.feed (obj.toJson formatDouble)).ok = true := by
    apply feed_ok_of_append (b := [chr ' '])
    have hspace := congrArg Lexed.ok (hlex (chr ' ') (by decide))
    rw [← lex_init] at hspace
    exact hspace.trans rfl
  have hkinds : (JsonLexer.init.feed (obj.toJson formatDouble)).emits.map Token.kind ++
      (JsonLexer.init.feed (obj.toJson formatDouble)).lexer.flush.emits.map Token.kind = obj.kinds := by
    have hnul := congrArg Lexed.kinds (hlex 0 (by decide))
    rw [← lex_init, feed_append_lexed hok] at hnul
    rw [flush_kinds]
    refine hnul.trans ?_
    have hend : (lex .start [] [0]).kinds = [] := rfl
    simp [Lexed.prepend, hend]
  rw [← List.map_append] at hkinds
  have hemitted := congrArg JsonMessageParser.emitted (@foldl_kinds _ _ h _ hkinds .init rfl rfl rfl)
  have hparser : (JsonMessageParser.init.feed (obj.toJson formatDouble)).flush.emitted =
      [(JsonLexer.init.feed (obj.toJson formatDouble)).emits ++
        (JsonLexer.init.feed (obj.toJson formatDouble)).lexer.flush.emits] := by
    rw [JsonMessageParser.flush, JsonMessageParser.feed, after_after]
    exact hemitted
  have hlength := congrArg List.length hkinds
  rw [List.length_map] at hlength
  have hparse := obj.parseValue_kinds strtod h (le_refl _) []
  rw [List.append_nil] at hparse
  rw [qobjectFromJson, hparser, List.getLast?_singleton, Option.bind_some, jsonParserParse, hkinds, hlength, hparse]
  rfl

/-- A list, and another one after it. -/
@[grind] def QList.appendAll : QList F → QList F → QList F
  | .nil, later => later
  | .cons head tail, later => .cons head (tail.appendAll later)

def QDict.appendAll : QDict F → QDict F → QDict F
  | .nil, later => later
  | .cons key value tail, later => .cons key value (tail.appendAll later)

@[simp] theorem QList.nil_appendAll (later : QList F) : QList.nil.appendAll later = later := rfl

theorem QList.appendAll_nil : ∀ list : QList F, list.appendAll .nil = list
  | .nil => rfl
  | .cons head tail => by rw [QList.appendAll, tail.appendAll_nil]

theorem QDict.appendAll_nil : ∀ dict : QDict F, dict.appendAll .nil = dict
  | .nil => rfl
  | .cons key value tail => by rw [QDict.appendAll, tail.appendAll_nil]

@[simp] theorem QDict.nil_appendAll (later : QDict F) : QDict.nil.appendAll later = later := rfl

theorem QList.append_appendAll : ∀ (list : QList F) (obj : QObject F) (later : QList F),
    (list.append obj).appendAll later = list.appendAll (.cons obj later)
  | .nil, _, _ => rfl
  | .cons head tail, obj, later => by
    rw [QList.append, QList.appendAll, QList.appendAll, tail.append_appendAll obj later]

theorem QDict.put_appendAll : ∀ (dict : QDict F) {key : List Byte} (value : QObject F) (later : QDict F),
    dict.get? key = none → (dict.put key value).appendAll later = dict.appendAll (.cons key value later)
  | .nil, _, _, _, _ => rfl
  | .cons k v tail, key, value, later, h => by
    rw [QDict.get?] at h
    split at h
    · cases h
    · rename_i hne
      rw [QDict.put, if_neg hne, QDict.appendAll, QDict.appendAll, tail.put_appendAll value later h]

theorem QDict.get?_put_ne : ∀ (dict : QDict F) {key other : List Byte} (value : QObject F), key ≠ other →
    (dict.put key value).get? other = dict.get? other
  | .nil, key, other, value, hne => by simp [QDict.put, QDict.get?, hne]
  | .cons k v tail, key, other, value, hne => by
    rw [QDict.put]
    split
    · rename_i hkey
      have hother : k ≠ other := hkey ▸ hne
      simp [QDict.get?, hother]
    · rw [QDict.get?, QDict.get?, tail.get?_put_ne value hne]

theorem rereadString_basic {s : List Byte} (h : Utf8 s) (hbasic : Narrow s) : rereadString s = s :=
  rereadString_eq (reads_utf8 h hbasic)

mutual

/-- An object without characters beyond U+FFFF is read as it was. -/
theorem QObject.reread_basic (obj : QObject F) (h : obj.Valid) (hbasic : obj.Basic) : obj.reread = obj := by
  cases obj with
  | int value => rfl
  | bool value => rfl
  | float value => rfl
  | string value => rw [QObject.reread, rereadString_basic h hbasic]
  | list items => rw [QObject.reread, items.rereadInto_basic h hbasic, QList.nil_appendAll]
  | dict entries =>
    rw [QObject.reread, entries.rereadInto_basic h hbasic .nil fun key _ => rfl, QDict.nil_appendAll]

theorem QList.rereadInto_basic (items : QList F) (h : items.Valid) (hbasic : items.Basic) (list : QList F) :
    items.rereadInto list = list.appendAll items := by
  cases items with
  | nil => exact list.appendAll_nil.symm
  | cons head tail =>
    rw [QList.rereadInto, head.reread_basic h.1 hbasic.1, tail.rereadInto_basic h.2 hbasic.2, QList.append_appendAll]

theorem QDict.rereadInto_basic (entries : QDict F) (h : entries.Valid) (hbasic : entries.Basic) (dict : QDict F)
    (hnew : ∀ key, entries.get? key ≠ none → dict.get? key = none) :
    entries.rereadInto dict = dict.appendAll entries := by
  cases entries with
  | nil => exact dict.appendAll_nil.symm
  | cons key value tail =>
    have hkey : dict.get? key = none := hnew key (by simp [QDict.get?])
    rw [QDict.rereadInto, rereadString_basic h.1 hbasic.1, value.reread_basic h.2.2.1 hbasic.2.1,
      tail.rereadInto_basic h.2.2.2 hbasic.2.2, QDict.put_appendAll _ _ _ hkey]
    intro other hother
    have hne : key ≠ other := by
      rintro rfl
      exact hother h.2.1
    rw [QDict.get?_put_ne _ _ hne]
    exact hnew other (by rwa [QDict.get?, if_neg hne])

end

theorem narrow_rereadString {s : List Byte} (h : 0 ∉ s) : Narrow (rereadString s) := by
  obtain ⟨out, hreads, hnarrow⟩ := exists_reads_escapeString h
  rwa [rereadString_eq hreads]

theorem QList.Basic.append : ∀ {list : QList F} {obj : QObject F}, list.Basic → obj.Basic → (list.append obj).Basic
  | .nil, _, _, hobj => ⟨hobj, trivial⟩
  | .cons _ _, _, hlist, hobj => ⟨hlist.1, QList.Basic.append hlist.2 hobj⟩

theorem QDict.Basic.put : ∀ {dict : QDict F} {key : List Byte} {value : QObject F}, dict.Basic → Narrow key →
    value.Basic → (dict.put key value).Basic
  | .nil, _, _, _, hkey, hvalue => ⟨hkey, hvalue, trivial⟩
  | .cons k v tail, key, value, hdict, hkey, hvalue => by
    rw [QDict.put]
    split
    · exact ⟨hdict.1, hvalue, hdict.2.2⟩
    · exact ⟨hdict.1, hdict.2.1, QDict.Basic.put hdict.2.2 hkey hvalue⟩

mutual

/-- What is read has no character beyond U+FFFF. -/
theorem QObject.basic_reread (obj : QObject F) (h : obj.Valid) : obj.reread.Basic := by
  cases obj with
  | int value => trivial
  | bool value => trivial
  | float value => trivial
  | string value => exact narrow_rereadString (Utf8.zero_notMem h)
  | list items => exact items.basic_rereadInto h trivial
  | dict entries => exact entries.basic_rereadInto h trivial

theorem QList.basic_rereadInto (items : QList F) (h : items.Valid) {list : QList F} (hlist : list.Basic) :
    (items.rereadInto list).Basic := by
  cases items with
  | nil => exact hlist
  | cons head tail =>
    exact tail.basic_rereadInto h.2 (hlist.append (head.basic_reread h.1))

theorem QDict.basic_rereadInto (entries : QDict F) (h : entries.Valid) {dict : QDict F} (hdict : dict.Basic) :
    (entries.rereadInto dict).Basic := by
  cases entries with
  | nil => exact hdict
  | cons key value tail =>
    apply tail.basic_rereadInto h.2.2.2
    exact hdict.put (narrow_rereadString (Utf8.zero_notMem h.1)) (value.basic_reread h.2.2.1)

end

theorem QDict.get?_tail {key other : List Byte} {value v : QObject F} {tail : QDict F} (hnew : tail.get? key = none)
    (h : tail.get? other = some v) : (QDict.cons key value tail).get? other = some v := by
  have hne : key ≠ other := by
    rintro rfl
    rw [hnew] at h
    cases h
  rw [QDict.get?, if_neg hne, h]

mutual

theorem QObject.equal_refl (obj : QObject F) (h : obj.Valid) : obj.Equal obj := by
  cases obj with
  | int value => exact rfl
  | bool value => exact rfl
  | float value => exact rfl
  | string value => exact rfl
  | list items => exact items.equal_refl h
  | dict entries => exact ⟨entries.within_of h fun key v hv => hv, fun key hkey => hkey⟩

theorem QList.equal_refl (items : QList F) (h : items.Valid) : items.Equal items := by
  cases items with
  | nil => trivial
  | cons head tail => exact ⟨head.equal_refl h.1, tail.equal_refl h.2⟩

theorem QDict.within_of (entries : QDict F) (h : entries.Valid) {dict : QDict F}
    (hsub : ∀ key v, entries.get? key = some v → dict.get? key = some v) : entries.Within dict := by
  cases entries with
  | nil => trivial
  | cons key value tail =>
    refine ⟨⟨value, hsub key value (by simp [QDict.get?]), value.equal_refl h.2.2.1⟩, ?_⟩
    exact tail.within_of h.2.2.2 fun other v hv => hsub other v (QDict.get?_tail h.2.1 hv)

end

theorem QDict.Basic.get? : ∀ {dict : QDict F} {key : List Byte} {value : QObject F}, dict.Basic →
    dict.get? key = some value → Narrow key ∧ value.Basic
  | .nil, _, _, _, hget => by cases hget
  | .cons k v tail, key, value, h, hget => by
    rw [QDict.get?] at hget
    split at hget
    · rename_i hkey
      cases hget
      exact ⟨hkey ▸ h.1, h.2.1⟩
    · exact QDict.Basic.get? h.2.2 hget

mutual

/-- What is equal to an object without characters beyond U+FFFF has none either. -/
theorem QObject.basic_of_equal (obj : QObject F) {other : QObject F} (h : obj.Equal other) (hother : other.Basic) :
    obj.Basic := by
  cases obj with
  | int value => trivial
  | bool value => trivial
  | float value => trivial
  | string value =>
    cases other with
    | string s =>
      have hsame : value = s := h
      exact hsame ▸ hother
    | _ => exact absurd h id
  | list items =>
    cases other with
    | list others => exact items.basic_of_equal h hother
    | _ => exact absurd h id
  | dict entries =>
    cases other with
    | dict others => exact entries.basic_of_within h.1 hother
    | _ => exact absurd h id

theorem QList.basic_of_equal (items : QList F) {others : QList F} (h : items.Equal others) (hothers : others.Basic) :
    items.Basic := by
  cases items with
  | nil => trivial
  | cons head tail =>
    cases others with
    | nil => exact absurd h id
    | cons a as => exact ⟨head.basic_of_equal h.1 hothers.1, tail.basic_of_equal h.2 hothers.2⟩

theorem QDict.basic_of_within (entries : QDict F) {dict : QDict F} (h : entries.Within dict) (hdict : dict.Basic) :
    entries.Basic := by
  cases entries with
  | nil => trivial
  | cons key value tail =>
    obtain ⟨⟨v, hget, hequal⟩, htail⟩ := h
    have hparts := hdict.get? hget
    exact ⟨hparts.1, value.basic_of_equal hequal hparts.2, tail.basic_of_within htail hdict⟩

end

/-- An object is written and read again as an equal one if and only if it has no character beyond U+FFFF. -/
theorem json_roundTrip (obj : QObject F) (h : obj.Valid) :
    (∃ r, qobjectFromJson strtod (obj.toJson formatDouble) = some r ∧ obj.Equal r) ↔ obj.Basic := by
  rw [qobjectFromJson_toJson strtod formatDouble h]
  constructor
  · rintro ⟨r, hr, hequal⟩
    cases hr
    exact obj.basic_of_equal hequal (obj.basic_reread h)
  · intro hbasic
    exact ⟨obj, congrArg some (obj.reread_basic h hbasic), obj.equal_refl h⟩

theorem json_roundTrip_euro :
    ∃ r : QObject Unit, qobjectFromJson (fun _ => ())
        (QObject.toJson (F := Unit) (fun _ => []) (.string [0xE2, 0x82, 0xAC])) = some r ∧
      (QObject.string [0xE2, 0x82, 0xAC]).Equal r := by
  have hvalid : (QObject.string [0xE2, 0x82, 0xAC] : QObject Unit).Valid := ⟨['€'], by decide, by decide⟩
  exact (json_roundTrip (fun _ => ()) (fun _ => []) _ hvalid).mpr (by unfold QObject.Basic Narrow; simp)

/-- A character of four bytes comes back as two others. -/
theorem json_emoji_lost :
    ¬ ∀ obj : QObject Unit, obj.Valid →
      ∃ r, qobjectFromJson (fun _ => ()) (obj.toJson fun _ => []) = some r ∧ obj.Equal r := by
  intro h
  have hvalid : (QObject.string [0xF0, 0x9F, 0x98, 0x80] : QObject Unit).Valid := ⟨['😀'], by decide, by decide⟩
  obtain ⟨r, hr, hequal⟩ := h _ hvalid
  rw [qobjectFromJson_toJson _ _ hvalid] at hr
  cases hr
  have hbasic := QObject.basic_of_equal _ hequal (QObject.basic_reread _ hvalid)
  exact absurd hbasic (by unfold QObject.Basic Narrow; simp)

end Colama.Qemu.Json
