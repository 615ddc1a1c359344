import Colama.Lib.Bits

namespace Colama.Spice.Quic

open Lib

/-- `usr->error` does not return. The others are a read outside a table, and a loop that a bound on its rounds
has ended, which does not happen. -/
inductive QuicError
  | noMoreWords
  | outsideJ
  | outOfFuel
  deriving DecidableEq

theorem bind_eq_ok {α β : Type} {x : Except QuicError α} {f : α → Except QuicError β} {b : β} :
    x >>= f = .ok b ↔ ∃ a, x = .ok a ∧ f a = .ok b := by
  cases x with
  | ok a => exact ⟨fun h => ⟨a, rfl, h⟩, fun ⟨_, ha, h⟩ => Except.ok.inj ha ▸ h⟩
  | error e => exact ⟨fun h => (nomatch h), fun ⟨_, ha, _⟩ => (nomatch ha)⟩

theorem bind_eq_error {α β : Type} {x : Except QuicError α} {f : α → Except QuicError β} {err : QuicError} :
    x >>= f = .error err ↔ x = .error err ∨ ∃ a, x = .ok a ∧ f a = .error err := by
  cases x with
  | ok a => exact ⟨fun h => .inr ⟨a, rfl, h⟩, fun h => h.elim nofun fun ⟨_, ha, h⟩ => Except.ok.inj ha ▸ h⟩
  | error e => exact ⟨fun h => .inl (Except.error.inj h ▸ rfl), fun h => h.elim (fun h => Except.error.inj h ▸ rfl) nofun⟩

/-- The fields of `Encoder` for writing. `more` are the sizes of the buffers that `usr->more_space` gives. -/
structure BitWriter where
  ioAvailableBits : Nat
  ioWord : UInt32
  words : List UInt32
  room : Nat
  more : List Nat

def BitWriter.writeIoWord (e : BitWriter) : Except QuicError BitWriter :=
  match e.room, e.more with
  | room + 1, _ => .ok { e with words := e.words ++ [e.ioWord], room := room }
  | 0, (room + 1) :: more => .ok { e with words := e.words ++ [e.ioWord], room := room, more := more }
  | 0, _ => .error .noMoreWords

/-- The word is `delta` bits too long for what is available. -/
def BitWriter.spill (e : BitWriter) (word : UInt32) (delta : Nat) : Except QuicError BitWriter := do
  let e ← { e with ioWord := e.ioWord ||| (word >>> UInt32.ofNat delta) }.writeIoWord
  return { e with ioAvailableBits := 32 - delta, ioWord := word <<< UInt32.ofNat (32 - delta) }

def BitWriter.encode (e : BitWriter) (word : UInt32) (len : Nat) : Except QuicError BitWriter :=
  if len ≤ e.ioAvailableBits then
    .ok { e with
      ioAvailableBits := e.ioAvailableBits - len
      ioWord := e.ioWord ||| (word <<< UInt32.ofNat (e.ioAvailableBits - len)) }
  else e.spill word (len - e.ioAvailableBits)

/-- The fields of `Encoder` for reading. `more` are the buffers that `usr->more_space` gives. -/
structure BitReader where
  ioAvailableBits : Nat
  ioWord : UInt32
  ioNextWord : UInt32
  now : List UInt32
  more : List (List UInt32)

def BitReader.readIoWord (e : BitReader) : Except QuicError BitReader :=
  match e.now, e.more with
  | w :: now, _ => .ok { e with ioNextWord := w, now := now }
  | [], (w :: now) :: more => .ok { e with ioNextWord := w, now := now, more := more }
  | [], _ => .error .noMoreWords

/-- The next word is `delta` bits too short. -/
def BitReader.refill (e : BitReader) (word : UInt32) (delta : Nat) : Except QuicError BitReader := do
  let e ← { e with ioWord := word ||| (e.ioNextWord <<< UInt32.ofNat delta) }.readIoWord
  return { e with
    ioAvailableBits := 32 - delta
    ioWord := e.ioWord ||| (e.ioNextWord >>> UInt32.ofNat (32 - delta)) }

def BitReader.decodeEatbits (e : BitReader) (len : Nat) : Except QuicError BitReader :=
  if len ≤ e.ioAvailableBits then
    .ok { e with
      ioAvailableBits := e.ioAvailableBits - len
      ioWord := e.ioWord <<< UInt32.ofNat len ||| (e.ioNextWord >>> UInt32.ofNat (e.ioAvailableBits - len)) }
  else e.refill (e.ioWord <<< UInt32.ofNat len) (len - e.ioAvailableBits)

/-- `init_decode_io`, for a buffer whose first word is `w`. -/
def BitReader.init (w : UInt32) (now : List UInt32) (more : List (List UInt32)) : BitReader := ⟨0, w, w, now, more⟩

namespace BitWriter

/-- The bits that have been written. -/
def stream (e : BitWriter) : List Bool :=
  e.words.flatMap (fun w => bits 32 w.toNat) ++ bits (32 - e.ioAvailableBits) (e.ioWord.toNat >>> e.ioAvailableBits)

/-- The bits of the word that have not been written are zeros. -/
structure Ok (e : BitWriter) : Prop where
  available : e.ioAvailableBits ≤ 32
  clear : ∀ i < e.ioAvailableBits, e.ioWord.toNat.testBit i = false

end BitWriter

namespace BitReader

/-- The words that are still to come. -/
def left (e : BitReader) : List UInt32 := e.now ++ (e.more.takeWhile fun ws => !ws.isEmpty).flatten

/-- The bits that have not been read. -/
def stream (e : BitReader) : List Bool :=
  bits 32 e.ioWord.toNat ++ bits e.ioAvailableBits e.ioNextWord.toNat ++ e.left.flatMap fun w => bits 32 w.toNat

/-- The bits of the next word that have been taken are the lowest ones of the word. -/
structure Ok (e : BitReader) : Prop where
  available : e.ioAvailableBits < 32
  taken : ∀ i < 32 - e.ioAvailableBits, e.ioWord.toNat.testBit i = e.ioNextWord.toNat.testBit (e.ioAvailableBits + i)

end BitReader

section Shifts

variable {w : UInt32} {k : Nat}

theorem testBit_shiftLeft (hk : k < 32) (i : Nat) :
    (w <<< UInt32.ofNat k).toNat.testBit i = (decide (i < 32) && (decide (k ≤ i) && w.toNat.testBit (i - k))) := by
  have hmod : (UInt32.ofNat k).toNat % 32 = k := by
    rw [UInt32.toNat_ofNat_of_lt' (hk.trans (by decide))]
    exact Nat.mod_eq_of_lt hk
  rw [UInt32.toNat_shiftLeft, hmod, Nat.testBit_mod_two_pow, Nat.testBit_shiftLeft]

theorem testBit_shiftRight (hk : k < 32) (i : Nat) :
    (w >>> UInt32.ofNat k).toNat.testBit i = w.toNat.testBit (k + i) := by
  have hmod : (UInt32.ofNat k).toNat % 32 = k := by
    rw [UInt32.toNat_ofNat_of_lt' (hk.trans (by decide))]
    exact Nat.mod_eq_of_lt hk
  rw [UInt32.toNat_shiftRight, hmod, Nat.testBit_shiftRight]

theorem testBit_past (hk : 32 ≤ k) : w.toNat.testBit k = false := by
  apply Nat.testBit_lt_two_pow
  have hpow : 2 ^ 32 ≤ 2 ^ k := Nat.pow_le_pow_right (by decide) hk
  have hlt := w.toNat_lt
  omega

end Shifts

namespace BitWriter

variable {e e' : BitWriter} {word : UInt32} {len : Nat}

theorem writeIoWord_ok (h : e.writeIoWord = .ok e') : e'.words = e.words ++ [e.ioWord] := by
  unfold writeIoWord at h
  split at h
  · cases h
    rfl
  · cases h
    rfl
  · cases h

theorem writeIoWord_error {err : QuicError} (h : e.writeIoWord = .error err) : err = .noMoreWords := by
  unfold writeIoWord at h
  split at h
  · cases h
  · cases h
  · cases h
    rfl

theorem encode_error {err : QuicError} (h : e.encode word len = .error err) : err = .noMoreWords := by
  unfold encode at h
  split at h
  · cases h
  · obtain hw | ⟨e₁, -, h⟩ := bind_eq_error.1 h
    · exact writeIoWord_error hw
    · cases h

/-- What has been written so far stays, and the bits of the word follow. -/
theorem encode_spec (he : e.Ok) (hpos : 0 < len) (hlen : len < 32) (hword : word.toNat < 2 ^ len)
    (h : e.encode word len = .ok e') : e'.Ok ∧ e'.stream = e.stream ++ bits len word.toNat := by
  obtain ⟨havail, hclear⟩ := he
  have hhigh : ∀ i, len ≤ i → word.toNat.testBit i = false := fun i hi =>
    Nat.testBit_lt_two_pow (Nat.lt_of_lt_of_le hword (Nat.pow_le_pow_right (by decide) hi))
  unfold encode at h
  split at h
  · rename_i hle
    cases h
    refine ⟨⟨by simp only; omega, fun i hi => ?_⟩, ?_⟩
    · simp only at hi
      rw [UInt32.toNat_or, Nat.testBit_or, testBit_shiftLeft (by omega), hclear i (by omega), Bool.false_or,
        decide_eq_false (by omega : ¬e.ioAvailableBits - len ≤ i), Bool.false_and, Bool.and_false]
    · have hsplit : 32 - (e.ioAvailableBits - len) = (32 - e.ioAvailableBits) + len := by omega
      have hold : bits (32 - e.ioAvailableBits) ((e.ioWord ||| (word <<< UInt32.ofNat (e.ioAvailableBits - len))).toNat >>>
          (e.ioAvailableBits - len) >>> len) = bits (32 - e.ioAvailableBits) (e.ioWord.toNat >>> e.ioAvailableBits) := by
        apply bits_congr
        intro i hi
        rw [Nat.testBit_shiftRight, Nat.testBit_shiftRight, Nat.testBit_shiftRight, UInt32.toNat_or, Nat.testBit_or,
          testBit_shiftLeft (by omega), hhigh _ (by omega), Bool.and_false, Bool.and_false, Bool.or_false]
        congr 1
        omega
      have hnew : bits len ((e.ioWord ||| (word <<< UInt32.ofNat (e.ioAvailableBits - len))).toNat >>>
          (e.ioAvailableBits - len)) = bits len word.toNat := by
        apply bits_congr
        intro i hi
        rw [Nat.testBit_shiftRight, UInt32.toNat_or, Nat.testBit_or, testBit_shiftLeft (by omega), hclear _ (by omega),
          decide_eq_true (by omega : e.ioAvailableBits - len + i < 32), decide_eq_true (Nat.le_add_right ..),
          Nat.add_sub_cancel_left, Bool.true_and, Bool.true_and, Bool.false_or]
      rw [stream, stream, hsplit, bits_add, hold, hnew, List.append_assoc]
  · rename_i hlt
    obtain ⟨e₁, hw, h⟩ := bind_eq_ok.1 h
    cases h
    have hwords := writeIoWord_ok hw
    refine ⟨⟨by simp only; omega, fun i hi => ?_⟩, ?_⟩
    · simp only at hi
      rw [testBit_shiftLeft (by omega), decide_eq_false (by omega : ¬32 - (len - e.ioAvailableBits) ≤ i), Bool.false_and,
        Bool.and_false]
    · obtain ⟨k, hk⟩ : ∃ k, len = e.ioAvailableBits + k := ⟨len - e.ioAvailableBits, by omega⟩
      have hdelta : len - e.ioAvailableBits = k := by omega
      rw [hdelta] at hwords
      have hfull : bits 32 (e.ioWord ||| (word >>> UInt32.ofNat k)).toNat =
          bits (32 - e.ioAvailableBits) (e.ioWord.toNat >>> e.ioAvailableBits) ++
            bits e.ioAvailableBits (word.toNat >>> k) := by
        rw [bits_split (by omega : 32 = (32 - e.ioAvailableBits) + e.ioAvailableBits)]
        congr 1
        · apply bits_congr
          intro i hi
          rw [Nat.testBit_shiftRight, Nat.testBit_shiftRight, UInt32.toNat_or, Nat.testBit_or,
            testBit_shiftRight (by omega), hhigh _ (by omega), Bool.or_false]
        · apply bits_congr
          intro i hi
          rw [UInt32.toNat_or, Nat.testBit_or, testBit_shiftRight (by omega), hclear i hi, Bool.false_or,
            Nat.testBit_shiftRight]
      have hrest : bits (32 - (32 - k)) ((word <<< UInt32.ofNat (32 - k)).toNat >>> (32 - k)) = bits k word.toNat := by
        rw [show 32 - (32 - k) = k by omega]
        apply bits_congr
        intro i hi
        rw [Nat.testBit_shiftRight, testBit_shiftLeft (by omega), decide_eq_true (by omega : 32 - k + i < 32),
          decide_eq_true (Nat.le_add_right ..), Nat.add_sub_cancel_left, Bool.true_and, Bool.true_and]
      simp only [stream, hwords, hdelta, hrest]
      rw [List.flatMap_append, List.flatMap_singleton, hfull, hk, bits_add]
      simp only [List.append_assoc]

end BitWriter

namespace BitReader

variable {e e' : BitReader} {len : Nat}

theorem readIoWord_ok (h : e.readIoWord = .ok e') :
    e.left = e'.ioNextWord :: e'.left ∧ e'.ioWord = e.ioWord ∧ e'.ioAvailableBits = e.ioAvailableBits := by
  obtain ⟨avail, word, next, now, more⟩ := e
  match now, more with
  | w :: now, _ =>
    cases h
    exact ⟨rfl, rfl, rfl⟩
  | [], (w :: now) :: more =>
    cases h
    exact ⟨rfl, rfl, rfl⟩
  | [], [] => cases h
  | [], [] :: _ => cases h

theorem readIoWord_error {err : QuicError} (h : e.readIoWord = .error err) : err = .noMoreWords ∧ e.left = [] := by
  obtain ⟨avail, word, next, now, more⟩ := e
  match now, more with
  | w :: now, _ => cases h
  | [], (w :: now) :: more => cases h
  | [], [] =>
    cases h
    exact ⟨rfl, rfl⟩
  | [], [] :: _ =>
    cases h
    exact ⟨rfl, rfl⟩

theorem length_stream : e.stream.length = 32 + e.ioAvailableBits + 32 * e.left.length := by
  have hsum : (e.left.map fun w => (bits 32 w.toNat).length).sum = 32 * e.left.length := by
    simp [mul_comm]
  simp [stream, List.length_flatMap]
  omega

theorem take_stream : e.stream.take 32 = bits 32 e.ioWord.toNat := by
  rw [stream, List.append_assoc, List.take_left' length_bits]

/-- Bits are taken from the stream, unless it ends before the word is full again. -/
theorem decodeEatbits_spec (he : e.Ok) (hpos : 0 < len) (hlen : len < 32) :
    match e.decodeEatbits len with
    | .ok e' => e'.Ok ∧ e'.stream = e.stream.drop len
    | .error err => err = .noMoreWords ∧ e.stream.length < 32 + len := by
  obtain ⟨havail, htaken⟩ := he
  by_cases hle : len ≤ e.ioAvailableBits
  · rw [decodeEatbits, if_pos hle]
    refine ⟨⟨by simp only; omega, fun i hi => ?_⟩, ?_⟩
    · simp only at hi ⊢
      rw [UInt32.toNat_or, Nat.testBit_or, testBit_shiftLeft hlen, testBit_shiftRight (by omega)]
      by_cases hlow : len ≤ i
      · rw [decide_eq_true hlow, decide_eq_true (by omega : i < 32), htaken _ (by omega),
          show e.ioAvailableBits + (i - len) = e.ioAvailableBits - len + i by omega]
        simp
      · rw [decide_eq_false hlow]
        simp
    · have hword : bits 32 ((e.ioWord <<< UInt32.ofNat len) ||| (e.ioNextWord >>> UInt32.ofNat (e.ioAvailableBits - len))).toNat =
          bits (32 - len) e.ioWord.toNat ++ bits len (e.ioNextWord.toNat >>> (e.ioAvailableBits - len)) := by
        rw [bits_split (by omega : 32 = (32 - len) + len)]
        congr 1
        · apply bits_congr
          intro i hi
          rw [Nat.testBit_shiftRight, UInt32.toNat_or, Nat.testBit_or, testBit_shiftLeft hlen, testBit_shiftRight (by omega),
            decide_eq_true (by omega : len + i < 32), decide_eq_true (Nat.le_add_right ..), Nat.add_sub_cancel_left,
            Bool.true_and, Bool.true_and]
          by_cases hi' : i < 32 - e.ioAvailableBits
          · rw [htaken i hi', show e.ioAvailableBits - len + (len + i) = e.ioAvailableBits + i by omega, Bool.or_self]
          · rw [testBit_past (by omega : 32 ≤ e.ioAvailableBits - len + (len + i)), Bool.or_false]
        · apply bits_congr
          intro i hi
          rw [UInt32.toNat_or, Nat.testBit_or, testBit_shiftLeft hlen, testBit_shiftRight (by omega),
            decide_eq_false (by omega : ¬len ≤ i), Bool.false_and, Bool.and_false, Bool.false_or, Nat.testBit_shiftRight]
      have hnext : bits e.ioAvailableBits e.ioNextWord.toNat =
          bits len (e.ioNextWord.toNat >>> (e.ioAvailableBits - len)) ++ bits (e.ioAvailableBits - len) e.ioNextWord.toNat :=
        bits_split (by omega)
      have hdrop : (bits 32 e.ioWord.toNat).drop len = bits (32 - len) e.ioWord.toNat := drop_bits (by omega)
      have hleft : ∀ l, (bits 32 e.ioWord.toNat ++ l).drop len = bits (32 - len) e.ioWord.toNat ++ l := fun l => by
        rw [List.drop_append_of_le_length (by rw [length_bits]; omega), hdrop]
      simp only [stream, hword, hnext, List.append_assoc, hleft, left]
  · rw [decodeEatbits, if_neg hle, refill]
    cases hr : readIoWord { e with ioWord := (e.ioWord <<< UInt32.ofNat len) |||
        (e.ioNextWord <<< UInt32.ofNat (len - e.ioAvailableBits)) } with
    | error err =>
      obtain ⟨herr, hleft⟩ := readIoWord_error hr
      have hlength : e.left.length = 0 := by
        have hsame : e.left = [] := hleft
        rw [hsame]
        rfl
      refine ⟨herr, ?_⟩
      rw [length_stream, hlength]
      omega
    | ok e₁ =>
      obtain ⟨hleft, hword₁, -⟩ := readIoWord_ok hr
      have hleft' : e.left = e₁.ioNextWord :: e₁.left := hleft
      obtain ⟨k, hk⟩ : ∃ k, len = e.ioAvailableBits + k := ⟨len - e.ioAvailableBits, by omega⟩
      have hdelta : len - e.ioAvailableBits = k := by omega
      rw [hdelta] at hword₁
      simp only [hdelta]
      refine ⟨⟨by simp only; omega, fun i hi => ?_⟩, ?_⟩
      · simp only at hi ⊢
        rw [UInt32.toNat_or, Nat.testBit_or, testBit_shiftRight (by omega), hword₁, UInt32.toNat_or, Nat.testBit_or,
          testBit_shiftLeft hlen, testBit_shiftLeft (by omega), decide_eq_false (by omega : ¬len ≤ i),
          decide_eq_false (by omega : ¬k ≤ i)]
        simp
      · have hword : bits 32 (e₁.ioWord ||| (e₁.ioNextWord >>> UInt32.ofNat (32 - k))).toNat =
            bits (32 - len) e.ioWord.toNat ++ bits e.ioAvailableBits e.ioNextWord.toNat ++
              bits k (e₁.ioNextWord.toNat >>> (32 - k)) := by
          rw [bits_split (by omega : 32 = (32 - k) + k), bits_split (by omega : 32 - k = (32 - len) + e.ioAvailableBits)]
          congr 1
          · congr 1
            · apply bits_congr
              intro i hi
              rw [Nat.testBit_shiftRight, Nat.testBit_shiftRight, UInt32.toNat_or, Nat.testBit_or, hword₁, UInt32.toNat_or,
                Nat.testBit_or, testBit_shiftLeft hlen, testBit_shiftLeft (by omega), testBit_shiftRight (by omega),
                testBit_past (by omega : 32 ≤ 32 - k + (k + (e.ioAvailableBits + i))),
                decide_eq_true (by omega : k + (e.ioAvailableBits + i) < 32),
                decide_eq_true (by omega : len ≤ k + (e.ioAvailableBits + i)),
                decide_eq_true (by omega : k ≤ k + (e.ioAvailableBits + i)), Nat.add_sub_cancel_left,
                show k + (e.ioAvailableBits + i) - len = i by omega]
              rw [htaken i (by omega)]
              simp
            · apply bits_congr
              intro i hi
              rw [Nat.testBit_shiftRight, UInt32.toNat_or, Nat.testBit_or, hword₁, UInt32.toNat_or,
                Nat.testBit_or, testBit_shiftLeft hlen, testBit_shiftLeft (by omega), testBit_shiftRight (by omega),
                testBit_past (by omega : 32 ≤ 32 - k + (k + i)), decide_eq_true (by omega : k + i < 32),
                decide_eq_false (by omega : ¬len ≤ k + i), decide_eq_true (Nat.le_add_right ..), Nat.add_sub_cancel_left]
              simp
          · apply bits_congr
            intro i hi
            rw [UInt32.toNat_or, Nat.testBit_or, hword₁, UInt32.toNat_or, Nat.testBit_or,
              testBit_shiftLeft hlen, testBit_shiftLeft (by omega), testBit_shiftRight (by omega),
              decide_eq_false (by omega : ¬len ≤ i), decide_eq_false (by omega : ¬k ≤ i), Nat.testBit_shiftRight]
            simp
        have hfirst : bits 32 e₁.ioNextWord.toNat =
            bits k (e₁.ioNextWord.toNat >>> (32 - k)) ++ bits (32 - k) e₁.ioNextWord.toNat :=
          bits_split (by omega)
        have hdrop : (bits 32 e.ioWord.toNat).drop len = bits (32 - len) e.ioWord.toNat := drop_bits (by omega)
        have hcut : ∀ l, (bits 32 e.ioWord.toNat ++ l).drop len = bits (32 - len) e.ioWord.toNat ++ l := fun l => by
          rw [List.drop_append_of_le_length (by rw [length_bits]; omega), hdrop]
        simp only [stream, hword, hleft', List.flatMap_cons, hfirst, List.append_assoc, hcut]
        rfl

end BitReader

end Colama.Spice.Quic
