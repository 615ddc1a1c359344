import Colama.Qemu.Json.TokenBounds

namespace Colama.Qemu.Json

/-- The characters of an escape that is not one of a code unit. -/
def escapeChars : List Byte := ['b', 'f', 'n', 'r', 't', '/', '\\', '\'', '"'].map chr

theorem escapeChars_known : ∀ e ∈ escapeChars, jsonLexer .dqStringEscape e = .state .dqString ∧
    (e = chr '/' ∨ e = chr '\\' ∨ jsonLexer .sqStringEscape e = .state .sqString) ∧
    e ≠ chr 'u' ∧ (simpleEscape e).isSome = true := by
  decide +kernel

/-- A character of a string of the grammar, or an escape. -/
inductive Piece
  | char (b : Byte) (nonzero : b ≠ 0) (plain : b ≠ chr '\\')
  | escape (e : Byte) (known : e ∈ escapeChars)
  | unicode (a b c d : Byte) (hex : isHex a && isHex b && isHex c && isHex d)

/-- How a piece is written between quotes of that kind: the delimiter is escaped. -/
def Piece.written (quote : Byte) : Piece → List Byte
  | .char b _ _ => if b = quote then [chr '\\', b] else [b]
  | .escape e _ => [chr '\\', e]
  | .unicode a b c d _ => [chr '\\', chr 'u', a, b, c, d]

/-- What a piece stands for. -/
def Piece.value : Piece → List Byte
  | .char b _ _ => [b]
  | .escape e _ => (simpleEscape e).toList
  | .unicode a b c d _ => cString (wcharToUtf8 (unicodeChar a b c d))

def inQuotes (quote : Byte) (s : List Piece) : List Byte := quote :: (s.flatMap (Piece.written quote) ++ [quote])

variable {F : Type} (strtod : List Byte → F)

/-- A string between quotes is one token, and the object for it is the string. -/
structure ReadAs (quote : Byte) (s : List Piece) (value : List Byte) : Prop where
  lexed : lex .start [] (inQuotes quote s) = ⟨[(.string, inQuotes quote s)], .start, [], true⟩
  parsed : qobjectFromJson strtod (inQuotes quote s) = some (.string value)

/-- What is made of the stream by the calls for a streamer. -/
inductive StreamerCall
  | feed (buffer : List Byte)
  | flush

def JsonMessageParser.call (parser : JsonMessageParser) : StreamerCall → JsonMessageParser
  | .feed buffer => parser.feed buffer
  | .flush => parser.flush

/-- No list of tokens that is emitted makes the parser take a token from an empty list, and the string is read alike
between both kinds of quotes. -/
structure ParserRight (calls : List StreamerCall) (s : List Piece) : Prop where
  bounded : ∀ tokens ∈ (calls.foldl JsonMessageParser.call .init).emitted, ∀ ap : Option (VaList F),
    ∃ r, takeAll strtod ap tokens = .ok r
  alike : ∃ value, ReadAs strtod (chr '"') s value ∧ ReadAs strtod (chr '\'') s value

/-- A piece after which the table goes over from single quotes to double ones. -/
def Piece.Crosses : Piece → Prop
  | .escape e _ => e = chr '/' ∨ e = chr '\\'
  | _ => False

/-- Bytes that stay between the quotes. -/
def Inside (s : LexerState) (u : List Byte) : Prop :=
  ∀ token rest, lex s token (u ++ rest) = lex s (token ++ u) rest

theorem Inside.append {s : LexerState} {u v : List Byte} (hu : Inside s u) (hv : Inside s v) : Inside s (u ++ v) := by
  intro token rest
  rw [List.append_assoc, hu, hv, List.append_assoc]

theorem Inside.flatMap {s : LexerState} {f : Piece → List Byte} {pieces : List Piece}
    (h : ∀ p ∈ pieces, Inside s (f p)) : Inside s (pieces.flatMap f) := by
  induction pieces with
  | nil => exact fun token rest => by simp
  | cons p pieces ih =>
    obtain ⟨hp, hpieces⟩ := List.forall_mem_cons.mp h
    exact hp.append (ih hpieces)

/-- The tables of the two kinds of strings, but for what ends them. -/
structure StringStates (quote : Byte) (inner escaped : LexerState) : Prop where
  plain : ∀ b, b ≠ 0 → b ≠ quote → b ≠ chr '\\' → jsonLexer inner b = .state inner
  opens : jsonLexer .start quote = .state inner
  closes : jsonLexer inner quote = .token .string
  backslash : jsonLexer inner (chr '\\') = .state escaped
  delimiter : jsonLexer escaped quote = .state inner
  unicode : ∃ u₀ u₁ u₂ u₃, jsonLexer escaped (chr 'u') = .state u₀ ∧ (∀ ch, jsonLexer u₀ ch = hexTo u₁ ch) ∧
    (∀ ch, jsonLexer u₁ ch = hexTo u₂ ch) ∧ (∀ ch, jsonLexer u₂ ch = hexTo u₃ ch) ∧
    ∀ ch, jsonLexer u₃ ch = hexTo inner ch

theorem doubleStates : StringStates (chr '"') .dqString .dqStringEscape where
  plain b hzero hquote hback := by simp [jsonLexer, hzero, hquote, hback]
  opens := by decide
  closes := by decide
  backslash := by decide
  delimiter := by decide
  unicode := ⟨.dqUcode0, .dqUcode1, .dqUcode2, .dqUcode3, by decide, fun _ => rfl, fun _ => rfl, fun _ => rfl,
    fun _ => rfl⟩

theorem singleStates : StringStates (chr '\'') .sqString .sqStringEscape where
  plain b hzero hquote hback := by simp [jsonLexer, hzero, hquote, hback]
  opens := by decide
  closes := by decide
  backslash := by decide
  delimiter := by decide
  unicode := ⟨.sqUcode0, .sqUcode1, .sqUcode2, .sqUcode3, by decide, fun _ => rfl, fun _ => rfl, fun _ => rfl,
    fun _ => rfl⟩

section

variable {quote : Byte} {inner escaped : LexerState} {p : Piece} {s : List Piece}

/-- A piece whose escape, if it is one, leads back into the string. -/
theorem StringStates.inside (h : StringStates quote inner escaped)
    (hescape : ∀ e known, p = .escape e known → jsonLexer escaped e = .state inner) : Inside inner (p.written quote) := by
  intro token rest
  cases p with
  | char b hzero hback =>
    rw [Piece.written]
    split
    · next hquote =>
      rw [List.cons_append, List.singleton_append, lex_state h.backslash, hquote, lex_state h.delimiter]
      simp
    · next hquote => rw [List.singleton_append, lex_state (h.plain b hzero hquote hback)]
  | escape e known =>
    rw [Piece.written, List.cons_append, List.singleton_append, lex_state h.backslash, lex_state (hescape e known rfl)]
    simp
  | unicode a b c d hex =>
    obtain ⟨u₀, u₁, u₂, u₃, hu, h₀, h₁, h₂, h₃⟩ := h.unicode
    simp only [Bool.and_eq_true] at hex
    obtain ⟨⟨⟨ha, hb⟩, hc⟩, hd⟩ := hex
    have hhex : ∀ {t t' : LexerState} {ch : Byte}, jsonLexer t ch = hexTo t' ch → isHex ch = true →
        jsonLexer t ch = .state t' := fun heq hch => heq.trans (if_pos hch)
    simp only [Piece.written, List.cons_append, List.nil_append]
    rw [lex_state h.backslash, lex_state hu, lex_state (hhex (h₀ a) ha), lex_state (hhex (h₁ b) hb),
      lex_state (hhex (h₂ c) hc), lex_state (hhex (h₃ d) hd)]
    simp

/-- A string that stays between its quotes. -/
theorem StringStates.lex_inQuotes (h : StringStates quote inner escaped)
    (hinside : ∀ p ∈ s, Inside inner (p.written quote)) (hlook : jsonLexer inner 0 ≠ .token .string) :
    lex .start [] (inQuotes quote s) = ⟨[(.string, inQuotes quote s)], .start, [], true⟩ := by
  rw [inQuotes, lex_state h.opens, Inside.flatMap hinside, lex_token h.closes hlook (by decide)]
  rfl

theorem double_inside (p : Piece) : Inside .dqString (p.written (chr '"')) :=
  doubleStates.inside fun e known _ => by
    exact (escapeChars_known e known).1

theorem single_inside (hp : ¬p.Crosses) : Inside .sqString (p.written (chr '\'')) :=
  singleStates.inside fun e known heq => by
    subst heq
    rcases (escapeChars_known e known).2.1 with hslash | hback | hstate
    · exact absurd (.inl hslash) hp
    · exact absurd (.inr hback) hp
    · exact hstate

/-- A piece that crosses leads into the states of a string between double quotes. -/
theorem single_crosses (hp : p.Crosses) (token rest : List Byte) :
    lex .sqString token (p.written (chr '\'') ++ rest) = lex .dqString (token ++ p.written (chr '\'')) rest := by
  cases p with
  | escape e known =>
    have hstate : jsonLexer .sqStringEscape e = .state .dqString := by
      rcases hp with h | h <;> (rw [h]; decide)
    rw [Piece.written, List.cons_append, List.singleton_append, lex_state singleStates.backslash, lex_state hstate]
    simp
  | char b hzero hback => exact hp.elim
  | unicode a b c d hex => exact hp.elim

end

/-- The states of a string between double quotes. -/
def doubleFamily : List LexerState := [.dqString, .dqStringEscape, .dqUcode0, .dqUcode1, .dqUcode2, .dqUcode3]

theorem double_next {t : LexerState} (ht : t ∈ doubleFamily) (ch : Byte) :
    jsonLexer t ch = .error ∨ (∃ t' ∈ doubleFamily, jsonLexer t ch = .state t') ∨ t = .dqString ∧ ch = chr '"' := by
  have hall : ∀ t ∈ doubleFamily, ∀ n < 256, jsonLexer t (UInt8.ofNat n) = .error ∨
      (∃ t' ∈ doubleFamily, jsonLexer t (UInt8.ofNat n) = .state t') ∨ t = .dqString ∧ UInt8.ofNat n = chr '"' := by
    decide +kernel
  obtain ⟨n, hn, rfl⟩ := exists_ofNat ch
  exact hall t ht n hn

/-- What begins between double quotes ends with one. -/
theorem double_ends (input : List Byte) {t : LexerState} (ht : t ∈ doubleFamily) (token : List Byte) :
    (lex t token input).kinds = [] ∨ ∃ u kinds, (lex t token input).kinds = (.string, u ++ [chr '"']) :: kinds := by
  induction input generalizing t token with
  | nil => exact .inl rfl
  | cons ch rest ih =>
    rcases double_next ht ch with herror | ⟨t', ht', hstate⟩ | ⟨rfl, rfl⟩
    · refine .inl ?_
      simp [lex, JsonLexer.feed, JsonLexer.feedChar, JsonLexer.pass, herror, Fed.lexed]
    · rw [lex_state hstate]
      exact ih ht' _
    · refine .inr ⟨token, (lex .start [] rest).kinds, ?_⟩
      rw [lex_token doubleStates.closes (by decide) (by decide)]
      rfl

/-- A string that crosses is not one token. -/
theorem not_lexed_of_crosses {s : List Piece} (hcrosses : ∃ p ∈ s, p.Crosses) :
    lex .start [] (inQuotes (chr '\'') s) ≠ ⟨[(.string, inQuotes (chr '\'') s)], .start, [], true⟩ := by
  have hsplit : ∃ token rest, lex .start [] (inQuotes (chr '\'') s) = lex .dqString token rest := by
    rw [inQuotes, lex_state singleStates.opens]
    generalize [] ++ [chr '\''] = token
    obtain ⟨p, hmem, hp⟩ := hcrosses
    induction s generalizing token with
    | nil => cases hmem
    | cons q s ih =>
      rw [List.flatMap_cons, List.append_assoc]
      by_cases hq : q.Crosses
      · exact ⟨_, _, single_crosses hq _ _⟩
      · rw [single_inside hq]
        rcases List.mem_cons.mp hmem with rfl | hmem
        · exact absurd hp hq
        · exact ih _ hmem
  obtain ⟨token, rest, heq⟩ := hsplit
  intro h
  rw [heq] at h
  have hkinds := congrArg Lexed.kinds h
  rcases double_ends rest (by decide : LexerState.dqString ∈ doubleFamily) token with hnil | ⟨u, kinds, hcons⟩
  · rw [hnil] at hkinds
    cases hkinds
  · rw [hcons] at hkinds
    obtain ⟨htext, -⟩ := List.cons.inj hkinds
    have hlast := congrArg List.getLast? (Prod.mk.inj htext).2
    rw [List.getLast?_append, inQuotes, ← List.cons_append, List.getLast?_append] at hlast
    exact absurd (Option.some.inj (hlast : some (chr '"') = some (chr '\''))) (by decide)

/-- What the reader makes of some bytes between quotes of that kind. -/
def ReadsIn (quote : Byte) (u out : List Byte) : Prop :=
  ∀ rest, unescape quote (u ++ rest) = (unescape quote rest).map (out ++ ·)

theorem readsIn_written {quote : Byte} (hquote : quote = chr '"' ∨ quote = chr '\'') (p : Piece) :
    ReadsIn quote (p.written quote) p.value := by
  have hback : ¬(chr '\\' = 0 ∨ chr '\\' = quote) := by
    rcases hquote with rfl | rfl <;> decide
  have hescape : ∀ e c, e ≠ chr 'u' → simpleEscape e = some c → ReadsIn quote [chr '\\', e] [c] := by
    intro e c hu he rest
    rw [List.cons_append, List.singleton_append, unescape.eq_def]
    simp [hback, hu, he]
  cases p with
  | char b hzero hplain =>
    rw [Piece.written]
    split
    · next hb =>
      subst hb
      refine hescape b b ?_ ?_
      · rcases hquote with rfl | rfl <;> decide
      · rcases hquote with rfl | rfl <;> decide
    · next hb =>
      intro rest
      rw [List.singleton_append, unescape.eq_def]
      simp [hzero, hplain, hb, Piece.value]
  | escape e known =>
    obtain ⟨-, -, hu, hsome⟩ := escapeChars_known e known
    obtain ⟨c, hc⟩ := Option.isSome_iff_exists.mp hsome
    rw [Piece.value, hc]
    exact hescape e c hu hc
  | unicode a b c d hex =>
    intro rest
    rw [Piece.written, List.cons_append, unescape.eq_def]
    simp only [Bool.and_eq_true] at hex
    simp [hback, hex, Piece.value]

theorem readsIn_flatMap {quote : Byte} (hquote : quote = chr '"' ∨ quote = chr '\'') (s : List Piece) :
    ReadsIn quote (s.flatMap (Piece.written quote)) (s.flatMap Piece.value) := by
  induction s with
  | nil => exact fun rest => by simp
  | cons p s ih =>
    intro rest
    rw [List.flatMap_cons, List.append_assoc, readsIn_written hquote p, ih rest, Option.map_map, List.flatMap_cons]
    congr 1
    funext out
    rw [Function.comp_apply, List.append_assoc]

theorem qstring_inQuotes {quote : Byte} (hquote : quote = chr '"' ∨ quote = chr '\'') (s : List Piece) :
    qstringFromEscapedStr (inQuotes quote s) = some (s.flatMap Piece.value) := by
  have hsame : (if quote = chr '"' then chr '"' else chr '\'') = quote := by
    rcases hquote with rfl | rfl <;> decide
  have hend : unescape quote [quote] = some [] := by
    rw [unescape.eq_def]
    simp
  rw [inQuotes, qstringFromEscapedStr, hsame, readsIn_flatMap hquote s, hend]
  simp

/-- What is one token is parsed as its string. -/
theorem readAs_of_lexed {quote : Byte} (hquote : quote = chr '"' ∨ quote = chr '\'') {s : List Piece}
    (hlexed : lex .start [] (inQuotes quote s) = ⟨[(.string, inQuotes quote s)], .start, [], true⟩) :
    ReadAs strtod quote s (s.flatMap Piece.value) := by
  refine ⟨hlexed, ?_⟩
  have hfed := hlexed
  rw [← lex_init] at hfed
  obtain ⟨t, hemits, hkind⟩ := List.map_eq_singleton_iff.mp (congrArg Lexed.kinds hfed)
  have hstate : (JsonLexer.init.feed (inQuotes quote s)).lexer.state = .start := congrArg Lexed.state hfed
  have hparser : (JsonMessageParser.init.feed (inQuotes quote s)).flush.emitted = [[t]] := by
    have hflush : (JsonLexer.init.feed (inQuotes quote s)).lexer.flush.emits = [] := by
      rw [JsonLexer.flush, if_pos hstate]
    have hzero : depth t.kind = 0 := by rw [hkind]; rfl
    rw [JsonMessageParser.flush, JsonMessageParser.feed, after_lexer, after_after]
    show (List.foldl JsonMessageParser.processToken .init ((JsonLexer.init.feed (inQuotes quote s)).emits ++
      (JsonLexer.init.feed (inQuotes quote s)).lexer.flush.emits)).emitted = _
    rw [hflush, List.append_nil, hemits, List.foldl_cons, List.foldl_nil, processToken_depth, hzero]
    rfl
  have hparse : parseValue strtod 3 [(.string, inQuotes quote s)] = some (.string (s.flatMap Piece.value), []) := by
    apply parseValue_token strtod (by decide) (by decide)
    simp [parseKeyword, isKeyword, parseLiteral, qstring_inQuotes hquote s]
  rw [qobjectFromJson, hparser, List.getLast?_singleton, Option.bind_some, jsonParserParse, List.map_singleton, hkind]
  show (parseValue strtod 3 [(.string, inQuotes quote s)]).map Prod.fst = _
  rw [hparse]
  rfl

theorem counted_calls (calls : List StreamerCall) : Counted (calls.foldl JsonMessageParser.call .init) := by
  have hfold : ∀ (calls : List StreamerCall) (parser : JsonMessageParser), Counted parser →
      Counted (calls.foldl JsonMessageParser.call parser) := by
    intro calls
    induction calls with
    | nil => exact fun _ h => h
    | cons call calls ih =>
      intro parser h
      refine ih _ ?_
      cases call with
      | feed buffer => exact h.after _
      | flush => exact h.after _
  exact hfold calls _ ⟨rfl, nofun⟩

/-- Of every list of tokens that a stream makes the streamer emit, the parser without a test for missing tokens makes
what the one that faults there does. -/
theorem jsonParserParse_emitted (calls : List StreamerCall) :
    ∀ tokens ∈ (calls.foldl JsonMessageParser.call .init).emitted,
      takeAll strtod none tokens = .ok (jsonParserParse strtod tokens) := by
  intro tokens hmem
  obtain ⟨hne, hdepths⟩ := (counted_calls calls).emitted tokens hmem
  obtain ⟨r, hr⟩ := takeAll_ok strtod none hne hdepths
  rw [hr, jsonParserParse_eq strtod hr]

theorem jsonParserParse_emitted_comma :
    let calls : List StreamerCall := [.feed (text "[,"), .feed (text "]")]
    let tokens := (calls.foldl JsonMessageParser.call .init).emitted.headD []
    takeAll (fun _ => ()) none tokens = .ok (jsonParserParse (fun _ => ()) tokens) := by
  intro calls tokens
  exact jsonParserParse_emitted _ calls tokens (by decide)

/-- The parser is right about a stream and a string if and only if no slash and no backslash is escaped in the
string. -/
theorem parser_right_iff (calls : List StreamerCall) (s : List Piece) :
    ParserRight strtod calls s ↔ ∀ p ∈ s, ¬p.Crosses := by
  constructor
  · rintro ⟨-, value, -, hsingle⟩ p hmem hp
    exact not_lexed_of_crosses ⟨p, hmem, hp⟩ hsingle.lexed
  · intro hs
    refine ⟨fun tokens hmem ap => ?_, s.flatMap Piece.value, ?_, ?_⟩
    · obtain ⟨hne, hdepths⟩ := (counted_calls calls).emitted tokens hmem
      exact takeAll_ok strtod ap hne hdepths
    · exact readAs_of_lexed strtod (.inl rfl) (doubleStates.lex_inQuotes (fun p _ => double_inside p) (by decide))
    · exact readAs_of_lexed strtod (.inr rfl)
        (singleStates.lex_inQuotes (fun p hp => single_inside (hs p hp)) (by decide))

/-- A backslash that is escaped in a string between single quotes. -/
theorem not_parser_right_backslash :
    ¬ParserRight (fun _ => ()) [] [.escape (chr '\\') (by decide)] := by
  intro h
  obtain ⟨value, -, hsingle⟩ := h.alike
  have hlexed := congrArg Lexed.state hsingle.lexed
  revert hlexed
  decide

end Colama.Qemu.Json
