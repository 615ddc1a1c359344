import Mathlib.Data.Prod.Lex
import Colama.Qemu.Json.Lexer

namespace Colama.Qemu.Json

variable {lexer m : JsonLexer} {parser : JsonMessageParser} {ch : Byte}

/-- The state of the lexer after a byte, and whether the byte is no error. -/
def LexerState.next (s : LexerState) (ch : Byte) : LexerState × Bool :=
  match jsonLexer s ch with
  | .error => (s, false)
  | .state t => (t, true)
  | .token t =>
    if terminalNeededLookahead s (.token t) then
      match jsonLexer .start ch with
      | .error => (.start, false)
      | .state t => (t, true)
      | .token _ => (.start, true)
    else (.start, true)

def LexerState.after (s : LexerState) (bytes : List Byte) : LexerState := bytes.foldl (fun s ch => (s.next ch).1) s

/-- No byte of the buffer but the last is an error. -/
def Unbroken (s : LexerState) : List Byte → Prop
  | [] => True
  | ch :: rest => ((s.next ch).2 = true ∨ rest = []) ∧ Unbroken (s.next ch).1 rest

/-- In every buffer. -/
def AllUnbroken (s : LexerState) : List (List Byte) → Prop
  | [] => True
  | buffer :: later => Unbroken s buffer ∧ AllUnbroken (s.after buffer) later

def JsonLexer.pos (lexer : JsonLexer) : ℕ ×ₗ ℕ := toLex (lexer.y, lexer.x)

def Token.pos (t : Token) : ℕ ×ₗ ℕ := toLex (t.y, t.x)

@[simp] theorem count_state : (lexer.count ch).state = lexer.state := by
  unfold JsonLexer.count
  split <;> rfl

@[simp] theorem count_token : (lexer.count ch).token = lexer.token := by
  unfold JsonLexer.count
  split <;> rfl

theorem pos_lt_count (lexer : JsonLexer) (ch : Byte) : lexer.pos < (lexer.count ch).pos := by
  unfold JsonLexer.count
  split <;> simp [JsonLexer.pos, Prod.Lex.toLex_lt_toLex]

theorem count_lt_count (h : lexer.pos < m.pos) (hch : ch ≠ chr '\n') : (lexer.count ch).pos < (m.count ch).pos := by
  rw [JsonLexer.pos, JsonLexer.pos, Prod.Lex.toLex_lt_toLex] at h
  simp only [JsonLexer.count, if_neg hch, JsonLexer.pos, Prod.Lex.toLex_lt_toLex]
  omega

theorem pass_pos (lexer : JsonLexer) (ch : Byte) : (lexer.pass ch).1.lexer.pos = lexer.pos := by
  simp only [JsonLexer.pass]
  split <;> rfl

theorem pass_emits (lexer : JsonLexer) (ch : Byte) : ∀ t ∈ (lexer.pass ch).1.emits, t.pos = lexer.pos := by
  simp only [JsonLexer.pass]
  split <;> simp [Token.pos, JsonLexer.pos]

/-- The first pass goes over into `start`, or is the only one. -/
theorem pass_state (lexer : JsonLexer) (ch : Byte) :
    ((lexer.pass ch).1.lexer.state, (lexer.pass ch).1.ok, (lexer.pass ch).2) =
      match jsonLexer lexer.state ch with
      | .error => (lexer.state, false, !terminalNeededLookahead lexer.state .error)
      | .state t => (t, true, !terminalNeededLookahead lexer.state (.state t))
      | .token t => (.start, true, !terminalNeededLookahead lexer.state (.token t)) := by
  unfold JsonLexer.pass
  cases h : jsonLexer lexer.state ch with
  | error => rfl
  | state t => rfl
  | token t => cases t <;> rfl

/-- Look-ahead is for tokens only. -/
theorem lookahead_state (s t : LexerState) : terminalNeededLookahead s (.state t) = false := by
  have hzero : (match jsonLexer s 0 with | .state _ => false | _ => true) = true := by
    cases s <;> rfl
  rw [terminalNeededLookahead, decide_eq_false_iff_not]
  intro h
  rw [h] at hzero
  cases hzero

theorem lookahead_start (t : JsonTokenType) : terminalNeededLookahead .start (.token t) = false := by
  cases t <;> rfl

theorem feedChar_pos (lexer : JsonLexer) (ch : Byte) : (lexer.feedChar ch).lexer.pos = (lexer.count ch).pos := by
  simp only [JsonLexer.feedChar]
  split <;> simp only [pass_pos]

theorem feedChar_emits (lexer : JsonLexer) (ch : Byte) :
    ∀ t ∈ (lexer.feedChar ch).emits, t.pos = (lexer.count ch).pos := by
  simp only [JsonLexer.feedChar]
  split
  · intro t ht
    rcases List.mem_append.mp ht with ht | ht
    · exact pass_emits _ ch t ht
    · rw [pass_emits _ ch t ht, pass_pos]
  · exact pass_emits _ ch

theorem feedChar_state (lexer : JsonLexer) (ch : Byte) :
    ((lexer.feedChar ch).lexer.state, (lexer.feedChar ch).ok) = lexer.state.next ch := by
  have hfirst := pass_state (lexer.count ch) ch
  rw [count_state] at hfirst
  simp only [JsonLexer.feedChar, LexerState.next]
  cases hentry : jsonLexer lexer.state ch with
  | error =>
    simp only [hentry, Prod.mk.injEq] at hfirst
    simp [hfirst]
  | state t =>
    simp only [hentry, lookahead_state, Prod.mk.injEq] at hfirst
    simp [hfirst]
  | token t =>
    simp only [hentry, Prod.mk.injEq] at hfirst
    cases hlook : terminalNeededLookahead lexer.state (.token t) with
    | false => simp [hfirst, hlook]
    | true =>
      have hsecond := pass_state ((lexer.count ch).pass ch).1.lexer ch
      rw [hfirst.1] at hsecond
      simp only [hfirst.2.1, hfirst.2.2, hlook, Bool.not_true, Bool.not_false, Bool.and_self, if_true]
      cases hstart : jsonLexer .start ch <;> simp only [hstart, Prod.mk.injEq] at hsecond <;> simp [hsecond]

theorem after_lexer (fed : Fed) : (parser.after fed).lexer = fed.lexer := rfl

/-- A buffer of one byte. -/
theorem feed_one (parser : JsonMessageParser) (ch : Byte) : parser.feed [ch] = parser.after (parser.lexer.feedChar ch) := by
  have hone : parser.lexer.feed [ch] = parser.lexer.feedChar ch := by
    simp only [JsonLexer.feed, List.append_nil]
    split
    · rename_i hok
      rw [← hok]
    · rfl
  rw [JsonMessageParser.feed, hone]

theorem feed_one_state (parser : JsonMessageParser) (ch : Byte) :
    (parser.feed [ch]).lexer.state = (parser.lexer.state.next ch).1 := by
  rw [feed_one, after_lexer, ← feedChar_state]

theorem feed_one_pos (parser : JsonMessageParser) (ch : Byte) :
    (parser.feed [ch]).lexer.pos = (parser.lexer.count ch).pos := by
  rw [feed_one, after_lexer, feedChar_pos]

@[simp] theorem processToken_lexer (parser : JsonMessageParser) (t : Token) :
    (parser.processToken t).lexer = parser.lexer := by
  have hcount : (parser.count t).lexer = parser.lexer := by
    unfold JsonMessageParser.count
    split_ifs <;> rfl
  unfold JsonMessageParser.processToken JsonMessageParser.append
  split <;> exact hcount

theorem feed_cons_error {rest : List Byte} (h : (parser.lexer.state.next ch).2 = false) :
    parser.feed (ch :: rest) = parser.feed [ch] := by
  have hok : (parser.lexer.feedChar ch).ok = false := by rw [← h, ← feedChar_state]
  rw [feed_one, JsonMessageParser.feed, JsonLexer.feed, hok]
  rfl

theorem processToken_withLexer (parser : JsonMessageParser) (l : JsonLexer) (t : Token) :
    { parser with lexer := l }.processToken t = { parser.processToken t with lexer := l } := by
  have hcount : { parser with lexer := l }.count t = { parser.count t with lexer := l } := by
    unfold JsonMessageParser.count
    split_ifs <;> rfl
  unfold JsonMessageParser.processToken
  rw [hcount]
  unfold JsonMessageParser.append
  dsimp only
  split_ifs <;> rfl

theorem foldl_withLexer (ts : List Token) (parser : JsonMessageParser) (l : JsonLexer) :
    ts.foldl JsonMessageParser.processToken { parser with lexer := l } =
      { ts.foldl JsonMessageParser.processToken parser with lexer := l } := by
  induction ts generalizing parser with
  | nil => rfl
  | cons t ts ih => rw [List.foldl_cons, List.foldl_cons, processToken_withLexer, ih]

theorem after_after (parser : JsonMessageParser) (first second : Fed) :
    (parser.after first).after second = parser.after { second with emits := first.emits ++ second.emits } := by
  simp only [JsonMessageParser.after, foldl_withLexer, List.foldl_append]

theorem feed_cons {rest : List Byte} (h : (parser.lexer.state.next ch).2 = true) :
    parser.feed (ch :: rest) = (parser.feed [ch]).feed rest := by
  have hok : (parser.lexer.feedChar ch).ok = true := by rw [← h, ← feedChar_state]
  rw [feed_one, JsonMessageParser.feed, JsonMessageParser.feed, after_lexer, after_after, JsonLexer.feed, hok]
  rfl

theorem feeds_bytewise_cons (parser : JsonMessageParser) (ch : Byte) (rest : List Byte) :
    parser.feeds (bytewise (ch :: rest)) = (parser.feed [ch]).feeds (bytewise rest) := rfl

theorem feeds_append (parser : JsonMessageParser) (a b : List (List Byte)) :
    parser.feeds (a ++ b) = (parser.feeds a).feeds b := List.foldl_append

theorem bytewise_append (a b : List Byte) : bytewise (a ++ b) = bytewise a ++ bytewise b := List.map_append

theorem feeds_bytewise_state (parser : JsonMessageParser) (stream : List Byte) :
    (parser.feeds (bytewise stream)).lexer.state = parser.lexer.state.after stream := by
  induction stream generalizing parser with
  | nil => rfl
  | cons ch rest ih => rw [feeds_bytewise_cons, ih, feed_one_state, LexerState.after, LexerState.after, List.foldl_cons]

/-- An unbroken buffer is fed like its bytes one after another. -/
theorem feed_unbroken {buffer : List Byte} (h : Unbroken parser.lexer.state buffer) :
    parser.feed buffer = parser.feeds (bytewise buffer) := by
  induction buffer generalizing parser with
  | nil => rfl
  | cons ch rest ih =>
    rw [feeds_bytewise_cons]
    rcases h.1 with hok | rfl
    · rw [feed_cons hok]
      exact ih (feed_one_state parser ch ▸ h.2)
    · rfl

theorem feeds_unbroken {buffers : List (List Byte)} (h : AllUnbroken parser.lexer.state buffers) :
    parser.feeds buffers = parser.feeds (bytewise buffers.flatten) := by
  induction buffers generalizing parser with
  | nil => rfl
  | cons buffer later ih =>
    have hbuffer := feed_unbroken h.1
    rw [List.flatten_cons, bytewise_append, feeds_append, ← hbuffer]
    apply ih
    rw [hbuffer, feeds_bytewise_state]
    exact h.2

theorem AllUnbroken.take {s : LexerState} {buffers : List (List Byte)} (h : AllUnbroken s buffers) (n : ℕ) :
    AllUnbroken s (buffers.take n) := by
  induction buffers generalizing s n with
  | nil => simp [AllUnbroken]
  | cons buffer later ih =>
    cases n with
    | zero => trivial
    | succ n => exact ⟨h.1, ih h.2 n⟩

/-- The tokens that the parser has are from before a position. -/
def Before (parser : JsonMessageParser) (pos : ℕ ×ₗ ℕ) : Prop :=
  ∀ t ∈ parser.emitted.flatten ++ parser.tokens, t.pos ≤ pos

theorem Before.processToken {pos : ℕ ×ₗ ℕ} (h : Before parser pos) {t : Token} (ht : t.pos ≤ pos) :
    Before (parser.processToken t) pos := by
  have hcount : (parser.count t).emitted = parser.emitted ∧ (parser.count t).tokens = parser.tokens := by
    unfold JsonMessageParser.count
    split_ifs <;> exact ⟨rfl, rfl⟩
  have hall : ∀ u ∈ parser.emitted.flatten ++ parser.tokens ++ [t], u.pos ≤ pos := by
    intro u hu
    rcases List.mem_append.mp hu with hu | hu
    · exact h u hu
    · rwa [List.mem_singleton.mp hu]
  unfold JsonMessageParser.processToken JsonMessageParser.append Before
  split
  · simpa [hcount, List.append_assoc] using hall
  · simpa [hcount, List.append_assoc] using hall

theorem Before.feed_one (h : Before parser parser.lexer.pos) (ch : Byte) :
    Before (parser.feed [ch]) (parser.feed [ch]).lexer.pos := by
  rw [feed_one_pos, Json.feed_one]
  have hbefore : Before parser (parser.lexer.count ch).pos := fun t ht => (h t ht).trans (pos_lt_count _ ch).le
  have hemits := feedChar_emits parser.lexer ch
  generalize (parser.lexer.feedChar ch) = fed at hemits
  have hrun : ∀ ts : List Token, (∀ t ∈ ts, t.pos = (parser.lexer.count ch).pos) → ∀ p : JsonMessageParser,
      Before p (parser.lexer.count ch).pos →
        Before (ts.foldl JsonMessageParser.processToken p) (parser.lexer.count ch).pos := by
    intro ts hts
    induction ts with
    | nil => exact fun _ hp => hp
    | cons t ts ih =>
      intro p hp
      rw [List.forall_mem_cons] at hts
      exact ih hts.2 _ (hp.processToken hts.1.le)
  exact hrun fed.emits hemits parser hbefore

theorem Before.feeds_bytewise (h : Before parser parser.lexer.pos) (stream : List Byte) :
    Before (parser.feeds (bytewise stream)) (parser.feeds (bytewise stream)).lexer.pos := by
  induction stream generalizing parser with
  | nil => exact h
  | cons ch rest ih =>
    rw [feeds_bytewise_cons]
    exact ih (h.feed_one ch)

theorem pos_le_feeds (parser : JsonMessageParser) (stream : List Byte) :
    parser.lexer.pos ≤ (parser.feeds (bytewise stream)).lexer.pos := by
  induction stream generalizing parser with
  | nil => exact le_refl _
  | cons ch rest ih =>
    rw [feeds_bytewise_cons]
    apply le_trans _ (ih _)
    rw [feed_one_pos]
    exact (pos_lt_count _ ch).le

theorem pos_lt_feeds (parser : JsonMessageParser) {stream : List Byte} (h : stream ≠ []) :
    parser.lexer.pos < (parser.feeds (bytewise stream)).lexer.pos := by
  cases stream with
  | nil => exact absurd rfl h
  | cons ch rest =>
    rw [feeds_bytewise_cons]
    apply lt_of_lt_of_le _ (pos_le_feeds _ rest)
    rw [feed_one_pos]
    exact pos_lt_count _ ch

theorem feeds_pos_lt_feeds {behind ahead : JsonMessageParser} (h : behind.lexer.pos < ahead.lexer.pos)
    {stream : List Byte} (hline : chr '\n' ∉ stream) :
    (behind.feeds (bytewise stream)).lexer.pos < (ahead.feeds (bytewise stream)).lexer.pos := by
  induction stream generalizing behind ahead with
  | nil => exact h
  | cons ch rest ih =>
    rw [List.mem_cons, not_or] at hline
    rw [feeds_bytewise_cons, feeds_bytewise_cons]
    apply ih _ hline.2
    rw [feed_one_pos, feed_one_pos]
    exact count_lt_count h (Ne.symm hline.1)

/-- Some bytes, without a new line, that lead to `start`. -/
theorem exists_start (s : LexerState) : ∃ more : List Byte, chr '\n' ∉ more ∧ s.after more = .start := by
  cases s with
  | dqUcode3 => exact ⟨[chr '0', chr '"'], by decide, by decide⟩
  | dqUcode2 => exact ⟨[chr '0', chr '0', chr '"'], by decide, by decide⟩
  | dqUcode1 => exact ⟨[chr '0', chr '0', chr '0', chr '"'], by decide, by decide⟩
  | dqUcode0 => exact ⟨[chr '0', chr '0', chr '0', chr '0', chr '"'], by decide, by decide⟩
  | dqStringEscape => exact ⟨[chr 'n', chr '"'], by decide, by decide⟩
  | dqString => exact ⟨[chr '"'], by decide, by decide⟩
  | sqUcode3 => exact ⟨[chr '0', chr '\''], by decide, by decide⟩
  | sqUcode2 => exact ⟨[chr '0', chr '0', chr '\''], by decide, by decide⟩
  | sqUcode1 => exact ⟨[chr '0', chr '0', chr '0', chr '\''], by decide, by decide⟩
  | sqUcode0 => exact ⟨[chr '0', chr '0', chr '0', chr '0', chr '\''], by decide, by decide⟩
  | sqStringEscape => exact ⟨[chr 'n', chr '\''], by decide, by decide⟩
  | sqString => exact ⟨[chr '\''], by decide, by decide⟩
  | digit | expE | mantissa | negNonzeroNumber => exact ⟨[chr '0', chr ','], by decide, by decide⟩
  | zero | digits | mantissaDigits | nonzeroNumber | keyword | whitespace =>
    exact ⟨[chr ','], by decide, by decide⟩
  | escape | escapeL | escapeLL | escapeI64 => exact ⟨[chr 'd'], by decide, by decide⟩
  | escapeI => exact ⟨[chr '6', chr '4', chr 'd'], by decide, by decide⟩
  | escapeI6 => exact ⟨[chr '4', chr 'd'], by decide, by decide⟩
  | start => exact ⟨[], by decide, rfl⟩

/-- An operator is a token of its own. -/
theorem feed_operator (hs : parser.lexer.state = .start) (hop : jsonLexer .start ch = .token .operator) :
    parser.feed [ch] =
      { parser.processToken
          ⟨.operator, parser.lexer.token ++ [ch], (parser.lexer.count ch).x, (parser.lexer.count ch).y⟩ with
        lexer := ⟨.start, [], (parser.lexer.count ch).x, (parser.lexer.count ch).y⟩ } := by
  rw [feed_one, JsonLexer.feedChar, JsonLexer.pass, count_state, hs, hop]
  simp [lookahead_start, JsonMessageParser.after]

/-- The lexer has just emitted a token. -/
def Idle (parser : JsonMessageParser) : Prop := parser.lexer.state = .start ∧ parser.lexer.token = []

theorem processToken_counts (parser : JsonMessageParser) (t : Token) :
    (parser.processToken t).braceCount = (parser.count t).braceCount ∧
      (parser.processToken t).bracketCount = (parser.count t).bracketCount := by
  unfold JsonMessageParser.processToken JsonMessageParser.append
  split <;> exact ⟨rfl, rfl⟩

theorem feed_operator_counts (h : Idle parser) (hop : jsonLexer .start ch = .token .operator) :
    ∃ x y, Idle (parser.feed [ch]) ∧
      (parser.feed [ch]).braceCount = (parser.count ⟨.operator, [ch], x, y⟩).braceCount ∧
      (parser.feed [ch]).bracketCount = (parser.count ⟨.operator, [ch], x, y⟩).bracketCount := by
  refine ⟨(parser.lexer.count ch).x, (parser.lexer.count ch).y, ?_⟩
  rw [feed_operator h.1 hop, h.2]
  exact ⟨⟨rfl, rfl⟩, processToken_counts parser _⟩

/-- Some bytes, without a new line, that close the braces. -/
theorem exists_braces (h : Idle parser) :
    ∃ more : List Byte, chr '\n' ∉ more ∧ Idle (parser.feeds (bytewise more)) ∧
      (parser.feeds (bytewise more)).braceCount = 0 := by
  induction hn : parser.braceCount.natAbs generalizing parser with
  | zero => exact ⟨[], List.not_mem_nil, h, Int.natAbs_eq_zero.mp hn⟩
  | succ n ih =>
    have hstep : ∃ op, op ≠ chr '\n' ∧ Idle (parser.feed [op]) ∧ (parser.feed [op]).braceCount.natAbs = n := by
      by_cases hpos : 0 < parser.braceCount
      · obtain ⟨x, y, hidle, hbrace, -⟩ := @feed_operator_counts _ (chr '}') h rfl
        refine ⟨chr '}', by decide, hidle, ?_⟩
        have hcount : (parser.count ⟨.operator, [chr '}'], x, y⟩).braceCount = parser.braceCount - 1 := by
          simp [JsonMessageParser.count, chr]
        omega
      · obtain ⟨x, y, hidle, hbrace, -⟩ := @feed_operator_counts _ (chr '{') h rfl
        refine ⟨chr '{', by decide, hidle, ?_⟩
        have hcount : (parser.count ⟨.operator, [chr '{'], x, y⟩).braceCount = parser.braceCount + 1 := by
          simp [JsonMessageParser.count]
        omega
    obtain ⟨op, hline, hidle, habs⟩ := hstep
    obtain ⟨more, hmore, hend⟩ := ih hidle habs
    exact ⟨op :: more, by simp [hline.symm, hmore], hend⟩

/-- Then those that close the brackets. -/
theorem exists_brackets (h : Idle parser) (hbrace : parser.braceCount = 0) :
    ∃ more : List Byte, chr '\n' ∉ more ∧ Idle (parser.feeds (bytewise more)) ∧
      (parser.feeds (bytewise more)).braceCount = 0 ∧ (parser.feeds (bytewise more)).bracketCount = 0 := by
  induction hn : parser.bracketCount.natAbs generalizing parser with
  | zero => exact ⟨[], List.not_mem_nil, h, hbrace, Int.natAbs_eq_zero.mp hn⟩
  | succ n ih =>
    have hstep : ∃ op, op ≠ chr '\n' ∧ Idle (parser.feed [op]) ∧ (parser.feed [op]).braceCount = 0 ∧
        (parser.feed [op]).bracketCount.natAbs = n := by
      by_cases hpos : 0 < parser.bracketCount
      · obtain ⟨x, y, hidle, hsame, hbracket⟩ := @feed_operator_counts _ (chr ']') h rfl
        have hcount : (parser.count ⟨.operator, [chr ']'], x, y⟩).braceCount = parser.braceCount ∧
            (parser.count ⟨.operator, [chr ']'], x, y⟩).bracketCount = parser.bracketCount - 1 := by
          simp [JsonMessageParser.count, chr]
        exact ⟨chr ']', by decide, hidle, by omega, by omega⟩
      · obtain ⟨x, y, hidle, hsame, hbracket⟩ := @feed_operator_counts _ (chr '[') h rfl
        have hcount : (parser.count ⟨.operator, [chr '['], x, y⟩).braceCount = parser.braceCount ∧
            (parser.count ⟨.operator, [chr '['], x, y⟩).bracketCount = parser.bracketCount + 1 := by
          simp [JsonMessageParser.count, chr]
        exact ⟨chr '[', by decide, hidle, by omega, by omega⟩
    obtain ⟨op, hline, hidle, hzero, habs⟩ := hstep
    obtain ⟨more, hmore, hend⟩ := ih hidle hzero habs
    exact ⟨op :: more, by simp [hline.symm, hmore], hend⟩

theorem processToken_comma {x y : ℕ} (hbrace : parser.braceCount = 0) (hbracket : parser.bracketCount = 0) :
    (parser.processToken ⟨.operator, [chr ','], x, y⟩).emitted =
      parser.emitted ++ [parser.tokens ++ [⟨.operator, [chr ','], x, y⟩]] := by
  have hcount : parser.count ⟨.operator, [chr ','], x, y⟩ = parser := by
    simp [JsonMessageParser.count, chr]
  rw [JsonMessageParser.processToken, hcount, JsonMessageParser.append, if_pos ⟨hbrace, hbracket⟩]

/-- From every state some bytes without a new line lead to a list whose last token is at the last of them. -/
theorem exists_emitted (parser : JsonMessageParser) :
    ∃ more : List Byte, chr '\n' ∉ more ∧
      ∃ t ∈ (parser.feeds (bytewise more)).emitted.flatten, t.pos = (parser.feeds (bytewise more)).lexer.pos := by
  obtain ⟨toStart, hline₀, hstart⟩ := exists_start parser.lexer.state
  let p₀ := parser.feeds (bytewise toStart)
  have hs₀ : p₀.lexer.state = .start := (feeds_bytewise_state parser toStart).trans hstart
  let p₁ := p₀.feed [chr ',']
  have hidle₁ : Idle p₁ := by
    show Idle (p₀.feed [chr ','])
    rw [feed_operator hs₀ rfl]
    exact ⟨rfl, rfl⟩
  obtain ⟨braces, hline₁, hidle₂, hbrace₂⟩ := exists_braces hidle₁
  obtain ⟨brackets, hline₂, hidle₃, hbrace₃, hbracket₃⟩ := exists_brackets hidle₂ hbrace₂
  let p₃ := (p₁.feeds (bytewise braces)).feeds (bytewise brackets)
  refine ⟨toStart ++ chr ',' :: (braces ++ brackets ++ [chr ',']), ?_, ?_⟩
  · simp only [List.mem_append, List.mem_cons, List.not_mem_nil, or_false, not_or]
    exact ⟨hline₀, by decide, ⟨hline₁, hline₂⟩, by decide⟩
  · have hlast : parser.feeds (bytewise (toStart ++ chr ',' :: (braces ++ brackets ++ [chr ',']))) =
        p₃.feed [chr ','] := by
      simp only [bytewise_append, feeds_append, feeds_bytewise_cons]
      rfl
    rw [hlast, feed_operator hidle₃.1 rfl, hidle₃.2]
    refine ⟨⟨.operator, [chr ','], (p₃.lexer.count (chr ',')).x, (p₃.lexer.count (chr ',')).y⟩, ?_, rfl⟩
    rw [List.nil_append, processToken_comma hbrace₃ hbracket₃]
    apply List.mem_flatten_of_mem (List.mem_append_right _ (List.mem_singleton_self _))
    exact List.mem_append_right _ (List.mem_singleton_self _)

/-- A buffer that is broken leaves the parser behind the bytes of the buffer. -/
theorem feed_broken {buffer : List Byte} (h : ¬ Unbroken parser.lexer.state buffer)
    (hbefore : Before parser parser.lexer.pos) :
    Before (parser.feed buffer) (parser.feed buffer).lexer.pos ∧
      (parser.feed buffer).lexer.pos < (parser.feeds (bytewise buffer)).lexer.pos := by
  induction buffer generalizing parser with
  | nil => exact absurd trivial h
  | cons ch rest ih =>
    rw [feeds_bytewise_cons]
    cases hok : (parser.lexer.state.next ch).2 with
    | true =>
      rw [feed_cons hok]
      apply ih _ (hbefore.feed_one ch)
      rw [feed_one_state]
      exact fun hrest => h ⟨.inl hok, hrest⟩
    | false =>
      have hne : rest ≠ [] := by
        rintro rfl
        exact h ⟨.inr rfl, trivial⟩
      rw [feed_cons_error hok]
      exact ⟨hbefore.feed_one ch, pos_lt_feeds _ hne⟩

/-- What comes after a broken buffer can show the difference. -/
theorem exists_differs {behind ahead : JsonMessageParser} (hbefore : Before behind behind.lexer.pos)
    (hlt : behind.lexer.pos < ahead.lexer.pos) :
    ∃ more, (behind.feeds (bytewise more)).emitted ≠ (ahead.feeds (bytewise more)).emitted := by
  obtain ⟨more, hline, t, ht, hpos⟩ := exists_emitted ahead
  refine ⟨more, fun heq => ?_⟩
  have hle : t.pos ≤ (behind.feeds (bytewise more)).lexer.pos :=
    hbefore.feeds_bytewise more t (List.mem_append_left _ (heq ▸ ht))
  exact absurd (hpos ▸ hle) (not_le.mpr (feeds_pos_lt_feeds hlt hline))

theorem exists_differs_of_broken {buffers : List (List Byte)} (h : ¬ AllUnbroken parser.lexer.state buffers)
    (hbefore : Before parser parser.lexer.pos) :
    ∃ n more, (parser.feeds (buffers.take n ++ bytewise more)).emitted ≠
      (parser.feeds (bytewise ((buffers.take n).flatten ++ more))).emitted := by
  induction buffers generalizing parser with
  | nil => exact absurd trivial h
  | cons buffer later ih =>
    by_cases hbuffer : Unbroken parser.lexer.state buffer
    · have hsame := feed_unbroken hbuffer
      have hlater : ¬ AllUnbroken (parser.feeds (bytewise buffer)).lexer.state later := by
        rw [feeds_bytewise_state]
        exact fun hlater => h ⟨hbuffer, hlater⟩
      obtain ⟨n, more, hne⟩ := ih hlater (hbefore.feeds_bytewise buffer)
      refine ⟨n + 1, more, ?_⟩
      have hrun : ∀ rest, parser.feeds (buffer :: rest) = (parser.feeds (bytewise buffer)).feeds rest :=
        fun rest => hsame ▸ rfl
      rwa [List.take_succ_cons, List.cons_append, hrun, List.flatten_cons, List.append_assoc, bytewise_append,
        feeds_append parser (bytewise buffer)]
    · obtain ⟨hbehind, hlt⟩ := feed_broken hbuffer hbefore
      obtain ⟨more, hne⟩ := exists_differs hbehind hlt
      refine ⟨1, more, ?_⟩
      rw [List.take_succ_cons, List.take_zero, List.flatten_singleton, bytewise_append, feeds_append, feeds_append]
      exact hne

/-- A client whose stream comes in these buffers is treated like one that sends single bytes, at the end of every
buffer and whatever comes after it, if and only if no byte but the last of a buffer is an error for the lexer. -/
theorem emitted_bytewise_iff (buffers : List (List Byte)) :
    (∀ n more, emitted (buffers.take n ++ bytewise more) = emitted (bytewise ((buffers.take n).flatten ++ more))) ↔
      AllUnbroken .start buffers := by
  constructor
  · intro h
    by_contra hbroken
    have hbefore : Before .init JsonMessageParser.init.lexer.pos := by simp [Before, JsonMessageParser.init]
    obtain ⟨n, more, hne⟩ := @exists_differs_of_broken .init _ hbroken hbefore
    exact hne (h n more)
  · intro h n more
    have hsame := @feeds_unbroken .init _ (h.take n)
    rw [emitted, emitted, feeds_append, bytewise_append, feeds_append, hsame]

/-- What follows a byte that is an error in its buffer is lost. -/
theorem rest_of_buffer_lost :
    ¬ ∀ buffers : List (List Byte), emitted buffers = emitted (bytewise buffers.flatten) := by
  intro h
  have hlost := h [[0x80, chr '1', chr ',']]
  revert hlost
  decide

end Colama.Qemu.Json
