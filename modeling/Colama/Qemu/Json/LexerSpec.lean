import Mathlib.Data.Nat.Digits.Lemmas
import Mathlib.Tactic.IntervalCases
import Colama.Qemu.Json.Qjson
import Colama.Qemu.Json.StreamerSpec

namespace Colama.Qemu.Json

/-- What the lexer gives for some bytes, without the positions. -/
structure Lexed where
  kinds : List Kind
  state : LexerState
  token : List Byte
  ok : Bool

def Lexed.prepend (kinds : List Kind) (lexed : Lexed) : Lexed := { lexed with kinds := kinds ++ lexed.kinds }

@[simp] theorem prepend_prepend (a b : List Kind) (lexed : Lexed) :
    (lexed.prepend b).prepend a = lexed.prepend (a ++ b) := by
  simp [Lexed.prepend]

@[simp] theorem prepend_nil (lexed : Lexed) : lexed.prepend [] = lexed := rfl

def Fed.lexed (fed : Fed) : Lexed := ⟨fed.emits.map Token.kind, fed.lexer.state, fed.lexer.token, fed.ok⟩

def lex (s : LexerState) (token : List Byte) (input : List Byte) : Lexed :=
  ((⟨s, token, 0, 0⟩ : JsonLexer).feed input).lexed

/-- One pass, without the positions. -/
theorem pass_lexed {l m : JsonLexer} (hs : l.state = m.state) (ht : l.token = m.token) (ch : Byte) :
    (l.pass ch).1.lexed = (m.pass ch).1.lexed ∧ (l.pass ch).2 = (m.pass ch).2 := by
  simp only [JsonLexer.pass, hs, ht]
  cases jsonLexer m.state ch with
  | error => exact ⟨rfl, rfl⟩
  | state t => exact ⟨rfl, rfl⟩
  | token t => cases t <;> exact ⟨rfl, rfl⟩

theorem feedChar_lexed {l m : JsonLexer} (hs : l.state = m.state) (ht : l.token = m.token) (ch : Byte) :
    (l.feedChar ch).lexed = (m.feedChar ch).lexed := by
  obtain ⟨hfirst, hconsumed⟩ := pass_lexed (l := l.count ch) (m := m.count ch) (by simpa) (by simpa) ch
  have hok := congrArg Lexed.ok hfirst
  have hstate := congrArg Lexed.state hfirst
  have htoken := congrArg Lexed.token hfirst
  have hkinds := congrArg Lexed.kinds hfirst
  simp only [Fed.lexed] at hok hstate htoken hkinds
  simp only [JsonLexer.feedChar, hok, hconsumed]
  split
  · have hsecond := (pass_lexed hstate htoken ch).1
    simp only [Fed.lexed, Lexed.mk.injEq] at hsecond ⊢
    simp [hsecond, hkinds]
  · exact hfirst

theorem feed_lexed {l m : JsonLexer} (hs : l.state = m.state) (ht : l.token = m.token) (input : List Byte) :
    (l.feed input).lexed = (m.feed input).lexed := by
  induction input generalizing l m with
  | nil => simp [JsonLexer.feed, Fed.lexed, hs, ht]
  | cons ch rest ih =>
    have hchar := feedChar_lexed hs ht ch
    have hparts := hchar
    simp only [Fed.lexed, Lexed.mk.injEq] at hparts
    obtain ⟨hkinds, hstate, htoken, hok⟩ := hparts
    simp only [JsonLexer.feed, hok]
    split
    · have hrest := ih hstate htoken
      simp only [Fed.lexed, Lexed.mk.injEq] at hrest ⊢
      simp [hrest, hkinds]
    · exact hchar

theorem lex_eq (l : JsonLexer) (input : List Byte) : (l.feed input).lexed = lex l.state l.token input :=
  feed_lexed (l := l) (m := ⟨l.state, l.token, 0, 0⟩) rfl rfl input

theorem lex_init (input : List Byte) : (JsonLexer.init.feed input).lexed = lex .start [] input := rfl

variable {s t : LexerState} {token rest : List Byte} {ch : Byte} {ty : JsonTokenType}

theorem lex_cons (h : (s.next ch).2 = true) :
    lex s token (ch :: rest) =
      (lex (((⟨s, token, 0, 0⟩ : JsonLexer).feedChar ch).lexer.state)
        (((⟨s, token, 0, 0⟩ : JsonLexer).feedChar ch).lexer.token) rest).prepend
          (((⟨s, token, 0, 0⟩ : JsonLexer).feedChar ch).emits.map Token.kind) := by
  have hok : ((⟨s, token, 0, 0⟩ : JsonLexer).feedChar ch).ok = true :=
    (congrArg Prod.snd (feedChar_state ⟨s, token, 0, 0⟩ ch)).trans h
  rw [← lex_eq, lex, JsonLexer.feed, hok]
  simp [Fed.lexed, Lexed.prepend]

theorem lex_state (h : jsonLexer s ch = .state t) : lex s token (ch :: rest) = lex t (token ++ [ch]) rest := by
  have hnext : (s.next ch).2 = true := by simp [LexerState.next, h]
  rw [lex_cons hnext, JsonLexer.feedChar]
  simp [JsonLexer.pass, h, lookahead_state]

/-- A token that ends with this byte. -/
theorem lex_token (h : jsonLexer s ch = .token ty) (hlook : jsonLexer s 0 ≠ .token ty) (hskip : ty ≠ .skip) :
    lex s token (ch :: rest) = (lex .start [] rest).prepend [(ty, token ++ [ch])] := by
  have hneeds : terminalNeededLookahead s (.token ty) = false := by simp [terminalNeededLookahead, hlook]
  have hnext : (s.next ch).2 = true := by simp [LexerState.next, h, hneeds]
  rw [lex_cons hnext, JsonLexer.feedChar]
  cases ty <;> first | exact absurd rfl hskip | simp [JsonLexer.pass, h, hneeds, Token.kind]

theorem feed_prepend {l m : JsonLexer} {kinds : List Kind}
    (h : (l.feedChar ch).lexed = (m.feedChar ch).lexed.prepend kinds) :
    (l.feed (ch :: rest)).lexed = (m.feed (ch :: rest)).lexed.prepend kinds := by
  have hparts := h
  simp only [Fed.lexed, Lexed.prepend, Lexed.mk.injEq] at hparts
  obtain ⟨hkinds, hstate, htoken, hok⟩ := hparts
  simp only [JsonLexer.feed, hok]
  split
  · have hrest := feed_lexed hstate htoken rest
    simp only [Fed.lexed, Lexed.prepend, Lexed.mk.injEq] at hrest ⊢
    simp [hrest, hkinds]
  · exact h

theorem start_consumed {l : JsonLexer} (hs : l.state = .start) (hok : (l.pass ch).1.ok = true) :
    (l.pass ch).2 = true := by
  have hpass := pass_state l ch
  rw [hs] at hpass
  cases hentry : jsonLexer .start ch with
  | error =>
    simp only [hentry, Prod.mk.injEq] at hpass
    rw [hpass.2.1] at hok
    cases hok
  | state t =>
    simp only [hentry, lookahead_state, Prod.mk.injEq] at hpass
    exact hpass.2.2
  | token t =>
    simp only [hentry, lookahead_start, Prod.mk.injEq] at hpass
    exact hpass.2.2

theorem feedChar_start {l : JsonLexer} (hs : l.state = .start) : l.feedChar ch = ((l.count ch).pass ch).1 := by
  simp only [JsonLexer.feedChar]
  split
  · rename_i h
    rw [Bool.and_eq_true] at h
    have hconsumed := start_consumed (l := l.count ch) (by simpa) h.1
    rw [hconsumed] at h
    cases h.2
  · rfl

/-- A token that ends before this byte. -/
theorem lex_look (h : jsonLexer s ch = .token ty) (hlook : jsonLexer s 0 = .token ty) :
    lex s token (ch :: rest) = (lex .start [] (ch :: rest)).prepend (if ty = .skip then [] else [(ty, token)]) := by
  apply feed_prepend
  have hneeds : terminalNeededLookahead s (.token ty) = true := by simp [terminalNeededLookahead, hlook]
  let l : JsonLexer := (⟨s, token, 0, 0⟩ : JsonLexer).count ch
  have hsecond := (pass_lexed (l := ⟨.start, [], l.x, l.y⟩) (m := (⟨.start, [], 0, 0⟩ : JsonLexer).count ch)
    (by simp) (by simp) ch).1
  rw [feedChar_start (l := ⟨.start, [], 0, 0⟩) rfl, ← hsecond, JsonLexer.feedChar]
  cases ty <;> simp [JsonLexer.pass, h, hneeds, Fed.lexed, Lexed.prepend, Token.kind, l]

/-- Bytes that stay within a string. -/
def InString (u : List Byte) : Prop :=
  ∀ token rest, lex .dqString token (u ++ rest) = lex .dqString (token ++ u) rest

theorem InString.nil : InString [] := fun token rest => by simp

theorem InString.append {u v : List Byte} (hu : InString u) (hv : InString v) : InString (u ++ v) := by
  intro token rest
  rw [List.append_assoc, hu, hv, List.append_assoc]

theorem hexDigit_isHex {n : ℕ} (h : n < 16) : isHex (hexDigit n) = true := by
  interval_cases n <;> decide

/-- An escape is that of the four digits of the highest places, from the fourth on. -/
theorem escapeU_eq (v : ℕ) : ∃ m, (v < 2 ^ 16 → m = 0) ∧
    escapeU v = [chr '\\', chr 'u', hexDigit (v / 16 ^ (m + 3) % 16), hexDigit (v / 16 ^ (m + 2) % 16),
      hexDigit (v / 16 ^ (m + 1) % 16), hexDigit (v / 16 ^ m % 16)] := by
  have hwidth : 4 ≤ max 4 (Nat.log 16 v + 1) := le_max_left ..
  obtain ⟨m, hm⟩ := Nat.exists_eq_add_of_le' hwidth
  refine ⟨m, fun hv => ?_, ?_⟩
  · have hlog : Nat.log 16 v < 4 := Nat.log_lt_of_lt_pow' (by decide) (by simpa using hv)
    omega
  · rw [escapeU, format04X, hm, List.range_succ, List.range_succ, List.range_succ, List.range_succ]
    simp [text]

theorem inString_escapeU (v : ℕ) : InString (escapeU v) := by
  obtain ⟨m, -, h⟩ := escapeU_eq v
  intro token rest
  have hhex : ∀ n, isHex (hexDigit (n % 16)) = true := fun n => hexDigit_isHex (Nat.mod_lt n (by decide))
  rw [h]
  simp only [List.cons_append, List.nil_append]
  rw [lex_state (t := .dqStringEscape) (by decide), lex_state (t := .dqUcode0) (by decide),
    lex_state (t := .dqUcode1) (by simp [jsonLexer, hexTo, hhex]),
    lex_state (t := .dqUcode2) (by simp [jsonLexer, hexTo, hhex]),
    lex_state (t := .dqUcode3) (by simp [jsonLexer, hexTo, hhex]),
    lex_state (t := .dqString) (by simp [jsonLexer, hexTo, hhex])]
  simp

theorem inString_escape {e : Byte} (he : jsonLexer .dqStringEscape e = .state .dqString) :
    InString [chr '\\', e] := by
  intro token rest
  simp only [List.cons_append, List.nil_append]
  rw [lex_state (t := .dqStringEscape) (by decide), lex_state he]
  simp

theorem inString_byte {b : Byte} (h : jsonLexer .dqString b = .state .dqString) : InString [b] := by
  intro token rest
  rw [List.singleton_append, lex_state h]

theorem inString_escapeByte {b : Byte} (h : b ≠ 0) : InString (escapeByte b) := by
  unfold escapeByte
  split_ifs with hquote hback
  · exact inString_escape (e := chr '"') (by decide)
  · exact inString_escape (e := chr '\\') (by decide)
  · exact inString_escape (e := chr 'b') (by decide)
  · exact inString_escape (e := chr 'f') (by decide)
  · exact inString_escape (e := chr 'n') (by decide)
  · exact inString_escape (e := chr 'r') (by decide)
  · exact inString_escape (e := chr 't') (by decide)
  · exact inString_escapeU _
  · apply inString_byte
    simp [jsonLexer, hquote, hback, h]

theorem inString_escapeString {s : List Byte} (h : 0 ∉ s) : InString (escapeString s) := by
  induction s using escapeString.induct with
  | case1 => exact .nil
  | case2 b =>
    rw [escapeString]
    exact inString_escapeByte (by simpa [eq_comm] using h)
  | case3 b₀ b₁ hlead =>
    rw [escapeString, if_pos hlead]
    exact inString_escapeU _
  | case4 b₀ b₁ hlead ih =>
    rw [escapeString, if_neg hlead]
    simp only [List.mem_cons, List.not_mem_nil, or_false, not_or] at h
    exact (inString_escapeByte (Ne.symm h.1)).append (ih (by simpa using h.2))
  | case5 b₀ b₁ b₂ rest hlead ih =>
    rw [escapeString, if_pos hlead]
    simp only [List.mem_cons, not_or] at h
    exact (inString_escapeU _).append (ih h.2.2.2)
  | case6 b₀ b₁ b₂ rest hlead hlead₂ ih =>
    rw [escapeString, if_neg hlead, if_pos hlead₂]
    simp only [List.mem_cons, not_or] at h
    exact (inString_escapeU _).append (ih (by simpa using h.2.2))
  | case7 b₀ b₁ b₂ rest hlead hlead₂ ih =>
    rw [escapeString, if_neg hlead, if_neg hlead₂]
    simp only [List.mem_cons, not_or] at h
    exact (inString_escapeByte (Ne.symm h.1)).append (ih (by simpa using h.2))

/-- A string that is written is one token. -/
theorem lex_quoted {s : List Byte} (h : 0 ∉ s) (rest : List Byte) :
    lex .start [] (quoted s ++ rest) = (lex .start [] rest).prepend [(.string, quoted s)] := by
  have hquote : text "\"" = [chr '"'] := rfl
  rw [quoted, hquote, List.append_assoc, List.append_assoc, List.singleton_append, lex_state (t := .dqString) (by decide),
    inString_escapeString h, List.singleton_append, @lex_token _ _ _ _ .string (by decide) (by decide) (by decide)]
  simp

/-- The bytes that may follow a value in the text, and the end of the text. -/
def delimiters : List Byte := [0, chr ' ', chr ',', chr ']', chr '}']

/-- The text goes on after a value. -/
def Delimited (rest : List Byte) : Prop := ∃ c tail, rest = c :: tail ∧ c ∈ delimiters

/-- A token that has ended where the text goes on. -/
theorem lex_delimited (hrest : Delimited rest) (h : delimiters.all fun c => jsonLexer s c = .token ty)
    (hskip : ty ≠ .skip) : lex s token rest = (lex .start [] rest).prepend [(ty, token)] := by
  obtain ⟨c, tail, rfl, hc⟩ := hrest
  have hends : ∀ c ∈ delimiters, jsonLexer s c = .token ty := by simpa using h
  rw [lex_look (hends c hc) (hends 0 (by decide)), if_neg hskip]

theorem lex_digits {ds : List Byte} (h : ∀ d ∈ ds, isDigit d = true) :
    lex .nonzeroNumber token (ds ++ rest) = lex .nonzeroNumber (token ++ ds) rest := by
  induction ds generalizing token with
  | nil => simp
  | cons d ds ih =>
    rw [List.forall_mem_cons] at h
    rw [List.cons_append, lex_state (t := .nonzeroNumber) (by simp [jsonLexer, h.1]), ih h.2]
    simp

theorem isDigit_ofNat {d : ℕ} (h : d < 10) : isDigit (UInt8.ofNat ('0'.toNat + d)) = true := by
  interval_cases d <;> decide

/-- The digits of a number begin with one that is not 0. -/
theorem formatNat_cons {n : ℕ} (h : n ≠ 0) :
    ∃ d ds, d ≠ 0 ∧ d < 10 ∧ (∀ b ∈ ds, isDigit b = true) ∧ formatNat n = UInt8.ofNat ('0'.toNat + d) :: ds := by
  have hne : Nat.digits 10 n ≠ [] := Nat.digits_ne_nil_iff_ne_zero.mpr h
  refine ⟨(Nat.digits 10 n).getLast hne, (Nat.digits 10 n).dropLast.reverse.map fun d => UInt8.ofNat ('0'.toNat + d),
    Nat.getLast_digit_ne_zero 10 h, Nat.digits_lt_base (by decide) (List.getLast_mem hne), ?_, ?_⟩
  · intro b hb
    obtain ⟨d, hd, rfl⟩ := List.mem_map.mp hb
    exact isDigit_ofNat (Nat.digits_lt_base (by decide) (List.dropLast_subset _ (List.mem_reverse.mp hd)))
  · have hsplit : (Nat.digits 10 n).reverse =
        (Nat.digits 10 n).getLast hne :: (Nat.digits 10 n).dropLast.reverse := by
      conv_lhs => rw [← List.dropLast_append_getLast hne]
      simp
    rw [formatNat, if_neg h, hsplit, List.map_cons]

theorem lex_formatNat {n : ℕ} (hzero : jsonLexer s (chr '0') = .state .zero)
    (hdigit : ∀ d < 10, d ≠ 0 → jsonLexer s (UInt8.ofNat ('0'.toNat + d)) = .state .nonzeroNumber)
    (hrest : Delimited rest) :
    lex s token (formatNat n ++ rest) = (lex .start [] rest).prepend [(.integer, token ++ formatNat n)] := by
  by_cases hn : n = 0
  · have hformat : formatNat n = [chr '0'] := by rw [formatNat, if_pos hn]; rfl
    rw [hformat, List.singleton_append, lex_state hzero,
      @lex_delimited _ _ _ .integer hrest (by decide) (by decide)]
  · obtain ⟨d, ds, hne, hlt, hds, hformat⟩ := formatNat_cons hn
    rw [hformat, List.cons_append, lex_state (hdigit d hlt hne), lex_digits hds,
      @lex_delimited _ _ _ .integer hrest (by decide) (by decide)]
    simp

theorem lex_formatInt (v : Int64) (hrest : Delimited rest) :
    lex .start [] (formatInt v ++ rest) = (lex .start [] rest).prepend [(.integer, formatInt v)] := by
  unfold formatInt
  split
  · have hminus : text "-" = [chr '-'] := rfl
    rw [hminus, List.append_assoc, List.singleton_append, lex_state (t := .negNonzeroNumber) (by decide),
      lex_formatNat (by decide) (by decide) hrest]
    simp
  · rw [lex_formatNat (by decide) (by decide) hrest, List.nil_append]

theorem lex_lower {u : List Byte} (h : ∀ c ∈ u, isLower c = true) :
    lex .keyword token (u ++ rest) = lex .keyword (token ++ u) rest := by
  induction u generalizing token with
  | nil => simp
  | cons c u ih =>
    rw [List.forall_mem_cons] at h
    rw [List.cons_append, lex_state (t := .keyword) (by simp [jsonLexer, h.1]), ih h.2]
    simp

theorem lex_keyword {c : Byte} {u : List Byte} (hc : jsonLexer .start c = .state .keyword)
    (hu : u.all isLower) (hrest : Delimited rest) :
    lex .start [] (c :: u ++ rest) = (lex .start [] rest).prepend [(.keyword, c :: u)] := by
  rw [List.cons_append, lex_state hc, lex_lower (List.all_eq_true.mp hu), @lex_delimited _ _ _ .keyword hrest (by decide) (by decide)]
  rfl

theorem lex_formatBool (b : Bool) (hrest : Delimited rest) :
    lex .start [] (formatBool b ++ rest) = (lex .start [] rest).prepend [(.keyword, formatBool b)] := by
  cases b with
  | true => exact lex_keyword (c := chr 't') (u := text "rue") (by decide) (by decide) hrest
  | false => exact lex_keyword (c := chr 'f') (u := text "alse") (by decide) (by decide) hrest

theorem lex_operator {op : Byte} (h : jsonLexer .start op = .token .operator) :
    lex .start [] (op :: rest) = (lex .start [] rest).prepend [(.operator, [op])] := by
  rw [lex_token h (by decide) (by decide), List.nil_append]

/-- The text goes on with a value. -/
def Begins (rest : List Byte) : Prop := ∃ c tail, rest = c :: tail ∧ jsonLexer .whitespace c = .token .skip

theorem lex_space (h : Begins rest) : lex .start [] (chr ' ' :: rest) = lex .start [] rest := by
  obtain ⟨c, tail, rfl, hc⟩ := h
  rw [lex_state (t := .whitespace) (by decide), lex_look hc (by decide)]
  simp

/-- The tokens of a separator. -/
def separatorKinds (count : ℕ) : List Kind := if count = 0 then [] else [(.operator, [chr ','])]

theorem lex_separator (count : ℕ) (h : Begins rest) :
    lex .start [] (separator count ++ rest) = (lex .start [] rest).prepend (separatorKinds count) := by
  unfold separator separatorKinds
  split
  · simp
  · have htext : text ", " ++ rest = chr ',' :: chr ' ' :: rest := rfl
    rw [htext, lex_operator (by decide), lex_space h]

theorem feed_ok_of_append {l : JsonLexer} {a b : List Byte} (h : (l.feed (a ++ b)).ok = true) :
    (l.feed a).ok = true := by
  induction a generalizing l with
  | nil => rfl
  | cons ch a ih =>
    rw [List.cons_append, JsonLexer.feed] at h
    rw [JsonLexer.feed]
    split_ifs at h ⊢ with hok
    · exact ih h
    · exact absurd h hok

theorem feed_append (l : JsonLexer) {a : List Byte} (h : (l.feed a).ok = true) (b : List Byte) :
    l.feed (a ++ b) =
      { (l.feed a).lexer.feed b with emits := (l.feed a).emits ++ ((l.feed a).lexer.feed b).emits } := by
  induction a generalizing l with
  | nil => rfl
  | cons ch a ih =>
    rw [JsonLexer.feed] at h
    rw [List.cons_append, JsonLexer.feed, JsonLexer.feed]
    split_ifs at h ⊢ with hok
    · simp [ih _ h]
    · exact absurd h hok

theorem feed_append_lexed {l : JsonLexer} {a : List Byte} (h : (l.feed a).ok = true) (b : List Byte) :
    (l.feed (a ++ b)).lexed = ((l.feed a).lexer.feed b).lexed.prepend ((l.feed a).emits.map Token.kind) := by
  rw [feed_append l h]
  simp [Fed.lexed, Lexed.prepend]

/-- A flush is like a NUL byte at the end. -/
theorem flush_kinds (l : JsonLexer) : l.flush.emits.map Token.kind = ((l.feed [0]).emits).map Token.kind := by
  rw [JsonLexer.flush]
  split
  · rename_i hs
    have hnul : (lex l.state l.token [0]).kinds = [] := by rw [hs]; rfl
    rw [← lex_eq] at hnul
    exact hnul.symm
  · simp only [JsonLexer.feed, List.append_nil]
    split <;> rfl

end Colama.Qemu.Json
