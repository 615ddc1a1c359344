import Colama.Spice.Quic.RunLength

namespace Colama.Spice.Quic

open Lib

namespace RleState

/-- The index is one of `J`, and the other fields are what `J` has there. -/
structure InRange (s : RleState) : Prop where
  lt : s.melcstate < melcStates
  len : J[s.melcstate]? = some s.melclen
  order : s.melcorder = 2 ^ s.melclen

variable {s s' : RleState}

theorem init_inRange : encoderInitRle.InRange := ⟨by decide, rfl, rfl⟩

theorem InRange.melclen_le (h : s.InRange) : s.melclen ≤ 15 := by
  have hall : ∀ l ∈ J, l ≤ 15 := by decide
  exact hall _ (List.mem_of_getElem? h.len)

theorem moveTo_of_lt {i : Nat} (h : i < melcStates) : ∃ s', moveTo i = .ok s' ∧ s'.InRange ∧ s'.melcstate = i := by
  have hget : J[i]? = some J[i] := List.getElem?_eq_getElem h
  refine ⟨⟨i, J[i], 1 <<< J[i]⟩, ?_, ⟨h, hget, Nat.one_shiftLeft _⟩, rfl⟩
  rw [moveTo, hget]

theorem hit_of_lt (h : s.melcstate + 1 < melcStates) :
    ∃ s', s.hit = .ok s' ∧ s'.InRange ∧ s'.melcstate = s.melcstate + 1 := by
  rw [hit, if_pos (by omega)]
  exact moveTo_of_lt h

/-- The comparison with the number of states lets the last of them through. -/
theorem hit_last (h : s.melcstate + 1 = melcStates) : s.hit = .error .outsideJ := by
  rw [hit, if_pos (by omega), h]
  rfl

theorem adjust_ok (h : s.InRange) : ∃ s', s.adjust = .ok s' ∧ s'.InRange ∧ s'.melcstate = s.melcstate - 1 := by
  unfold adjust
  split
  · exact moveTo_of_lt (by have := h.lt; omega)
  · exact ⟨s, rfl, h, by omega⟩

end RleState

/-- What the states from `i` on are worth, one hit each. -/
def capacity (i : Nat) : Nat := ((J.drop i).map (2 ^ ·)).sum

section Capacity

variable {s : RleState}

theorem capacity_eq (h : s.InRange) : capacity s.melcstate = s.melcorder + capacity (s.melcstate + 1) := by
  have hlen : s.melcstate < J.length := h.lt
  have hget : J[s.melcstate] = s.melclen := Option.some.inj ((List.getElem?_eq_getElem hlen).symm.trans h.len)
  rw [capacity, List.drop_eq_getElem_cons hlen, List.map_cons, List.sum_cons, hget, h.order, capacity]

theorem capacity_end : capacity melcStates = 0 := rfl

end Capacity

section Climb

variable {s : RleState} {hits : Nat}

theorem climb_ok (hs : s.InRange) (h : s.melcstate + hits < melcStates) (runlen : Nat) :
    ∃ r s', climb hits runlen s = .ok (r, s') ∧ s'.InRange ∧ s'.melcstate = s.melcstate + hits := by
  induction hits generalizing s runlen with
  | zero => exact ⟨runlen, s, rfl, hs, rfl⟩
  | succ hits ih =>
    obtain ⟨s₁, hhit, hs₁, hstate⟩ := RleState.hit_of_lt (s := s) (by omega)
    obtain ⟨r, s', hclimb, hs', hstate'⟩ := ih hs₁ (by omega) (runlen + s.melcorder)
    exact ⟨r, s', bind_eq_ok.mpr ⟨s₁, hhit, hclimb⟩, hs', by omega⟩

theorem climb_outside (hs : s.InRange) (h : melcStates ≤ s.melcstate + hits) (runlen : Nat) :
    climb hits runlen s = .error .outsideJ := by
  induction hits generalizing s runlen with
  | zero => exact absurd h (by have := hs.lt; omega)
  | succ hits ih =>
    by_cases hlast : s.melcstate + 1 = melcStates
    · exact bind_eq_error.mpr (.inl (RleState.hit_last hlast))
    · obtain ⟨s₁, hhit, hs₁, hstate⟩ := RleState.hit_of_lt (s := s) (by have := hs.lt; omega)
      exact bind_eq_error.mpr (.inr ⟨s₁, hhit, ih hs₁ (by omega) _⟩)

theorem climb_add (hits' runlen : Nat) :
    climb (hits + hits') runlen s = climb hits runlen s >>= fun a => climb hits' a.1 a.2 := by
  induction hits generalizing s runlen with
  | zero => rw [Nat.zero_add]; rfl
  | succ hits ih =>
    rw [Nat.add_right_comm, climb, climb, bind_assoc]
    exact bind_congr fun s₁ => ih _

end Climb

section EncodeHits

variable {s : RleState}

/-- The hits of the encoder are worth to the decoder what the encoder takes off the run. -/
theorem encodeHits_ok {fuel : Nat} (hs : s.InRange) (hfuel : melcStates < s.melcstate + fuel) {runlen : Nat}
    (h : runlen < capacity s.melcstate) (base : Nat) : ∃ hits s' rest,
      encodeHits fuel base s runlen = .ok (base + hits, s', rest) ∧ s'.InRange ∧ s'.melcstate = s.melcstate + hits ∧
      rest < 2 ^ s'.melclen ∧ ∀ r, climb hits r s = .ok (r + (runlen - rest), s') ∧ rest ≤ runlen := by
  induction fuel generalizing s runlen base with
  | zero => exact absurd hs.lt (by omega)
  | succ fuel ih =>
    rw [encodeHits]
    split
    · rename_i hle
      rw [capacity_eq hs] at h
      have hlast : s.melcstate + 1 ≠ melcStates := fun hlast => by
        rw [hlast, capacity_end] at h
        omega
      obtain ⟨s₁, hhit, hs₁, hstate⟩ := RleState.hit_of_lt (s := s) (by have := hs.lt; omega)
      obtain ⟨hits, s', rest, henc, hs', hstate', hrest, hclimb⟩ :=
        ih hs₁ (by omega) (by rw [hstate]; omega : runlen - s.melcorder < capacity s₁.melcstate) (base + 1)
      refine ⟨hits + 1, s', rest, bind_eq_ok.mpr ⟨s₁, hhit, ?_⟩, hs', by omega, hrest, fun r => ?_⟩
      · rw [henc, Nat.add_right_comm, Nat.add_assoc]
      · obtain ⟨hclimb, hrest'⟩ := hclimb (r + s.melcorder)
        refine ⟨bind_eq_ok.mpr ⟨s₁, hhit, ?_⟩, by omega⟩
        rw [hclimb, show r + s.melcorder + (runlen - s.melcorder - rest) = r + (runlen - rest) by omega]
    · rename_i hlt
      refine ⟨0, s, runlen, rfl, hs, rfl, ?_, fun r => ⟨?_, le_rfl⟩⟩
      · rw [← hs.order]
        omega
      · rw [Nat.sub_self]
        rfl

theorem encodeHits_outside {fuel : Nat} (hs : s.InRange) (hfuel : melcStates < s.melcstate + fuel) {runlen : Nat}
    (h : capacity s.melcstate ≤ runlen) (base : Nat) : encodeHits fuel base s runlen = .error .outsideJ := by
  induction fuel generalizing s runlen base with
  | zero => exact absurd hs.lt (by omega)
  | succ fuel ih =>
    rw [capacity_eq hs] at h
    rw [encodeHits, if_pos (by omega)]
    by_cases hlast : s.melcstate + 1 = melcStates
    · exact bind_eq_error.mpr (.inl (RleState.hit_last hlast))
    · obtain ⟨s₁, hhit, hs₁, hstate⟩ := RleState.hit_of_lt (s := s) (by have := hs.lt; omega)
      exact bind_eq_error.mpr (.inr ⟨s₁, hhit, ih hs₁ (by omega) (by rw [hstate]; omega) _⟩)

end EncodeHits

section Encode

variable {s : RleState} {e e' : BitWriter}

theorem encodeOnes_error {n : Nat} (hn : n < 32) {err : QuicError} (h : encodeOnes e n = .error err) :
    err = .noMoreWords := by
  have hcount : n >>> 5 = 0 := Nat.shiftRight_eq_zero n 5 hn
  rw [encodeOnes, hcount] at h
  obtain h | ⟨e₁, -, h⟩ := bind_eq_error.mp h
  · cases h
  · split at h
    · exact BitWriter.encode_error h
    · cases h

theorem encodeOnes_spec (he : e.Ok) {n : Nat} (hn : n < 32) (h : encodeOnes e n = .ok e') :
    e'.Ok ∧ e'.stream = e.stream ++ List.replicate n true := by
  have hcount : n >>> 5 = 0 := Nat.shiftRight_eq_zero n 5 hn
  have hmask : n &&& 0x1f = n := by
    rw [show (0x1f : Nat) = 2 ^ 5 - 1 by rfl, Nat.and_two_pow_sub_one_eq_mod]
    exact Nat.mod_eq_of_lt hn
  rw [encodeOnes, hcount, hmask] at h
  obtain ⟨e₁, h₁, h⟩ := bind_eq_ok.mp h
  cases h₁
  split at h
  · have hpow : 2 ^ n < 2 ^ 32 := Nat.pow_lt_pow_right (by decide) hn
    have hword : (UInt32.ofNat (1 <<< n - 1)).toNat = 2 ^ n - 1 := by
      rw [Nat.one_shiftLeft, UInt32.toNat_ofNat_of_lt' (by rw [UInt32.size]; omega)]
    have hpos : 0 < 2 ^ n := Nat.two_pow_pos n
    obtain ⟨hok, hstream⟩ := BitWriter.encode_spec he (by omega) hn (by omega) h
    rw [hword, bits_ones le_rfl] at hstream
    exact ⟨hok, hstream⟩
  · rename_i hzero
    cases h
    rw [not_not.mp hzero, List.replicate_zero, List.append_nil]
    exact ⟨he, rfl⟩

/-- A run on the wire: its hits, and the rest of it in `len` bits. -/
def runBits (hits len rest : Nat) : List Bool := List.replicate hits true ++ false :: bits len rest

/-- How a run is taken apart from a state on: after the hits the state is `s'`. -/
structure Splits (s : RleState) (runlen hits : Nat) (s' : RleState) (rest : Nat) : Prop where
  inRange : s'.InRange
  climbed : climb hits 0 s = .ok (runlen - rest, s')
  rest_le : rest ≤ runlen
  rest_lt : rest < 2 ^ s'.melclen

theorem bits_rest {len rest : Nat} (h : rest < 2 ^ len) : bits (len + 1) rest = false :: bits len rest := by
  have hzero : rest >>> len = 0 := Nat.shiftRight_eq_zero rest len h
  rw [bits_split (Nat.add_comm len 1), hzero]
  rfl

/-- A run that the states are worth more than. -/
theorem encodeWith_ok (hs : s.InRange) (he : e.Ok) {runlen : UInt32} (h : runlen.toNat < capacity s.melcstate) :
    ∃ hits s₁ rest, Splits s runlen.toNat hits s₁ rest ∧
      (encodeWith s e runlen = .error .noMoreWords ∨ ∃ s' e', encodeWith s e runlen = .ok (s', e') ∧
        s₁.adjust = .ok s' ∧ s'.InRange ∧ e'.Ok ∧ e'.stream = e.stream ++ runBits hits s₁.melclen rest) := by
  obtain ⟨hits, s₁, rest, henc, hs₁, hstate, hrest, hclimb⟩ :=
    encodeHits_ok hs (by omega : melcStates < s.melcstate + (melcStates + 1)) h 0
  have hlt := hs₁.lt
  have hmax := hs₁.melclen_le
  have hhits : hits < 32 := by
    rw [melcStates] at hlt
    omega
  obtain ⟨hclimb, hle⟩ := hclimb 0
  rw [Nat.zero_add] at henc hclimb
  refine ⟨hits, s₁, rest, ⟨hs₁, hclimb, hle, hrest⟩, ?_⟩
  obtain ⟨s', hadjust, hs', -⟩ := RleState.adjust_ok hs₁
  have hpow : 2 ^ s₁.melclen ≤ 2 ^ 15 := Nat.pow_le_pow_right (by decide) hmax
  have hword : (UInt32.ofNat rest).toNat = rest := UInt32.toNat_ofNat_of_lt' (by rw [UInt32.size]; omega)
  simp only [encodeWith, henc]
  cases hones : encodeOnes e hits with
  | error err =>
    rw [encodeOnes_error hhits hones] at hones
    exact .inl (bind_eq_error.mpr (.inr ⟨_, rfl, bind_eq_error.mpr (.inl hones)⟩))
  | ok e₁ =>
    obtain ⟨he₁, hstream₁⟩ := encodeOnes_spec he hhits hones
    cases hlast : e₁.encode (UInt32.ofNat rest) (s₁.melclen + 1) with
    | error err =>
      rw [BitWriter.encode_error hlast] at hlast
      refine .inl (bind_eq_error.mpr (.inr ⟨_, rfl, bind_eq_error.mpr (.inr ⟨e₁, hones, ?_⟩)⟩))
      exact bind_eq_error.mpr (.inl hlast)
    | ok e₂ =>
      have hfits : (UInt32.ofNat rest).toNat < 2 ^ (s₁.melclen + 1) := by
        rw [hword, pow_succ]
        omega
      obtain ⟨he₂, hstream₂⟩ := BitWriter.encode_spec he₁ (Nat.succ_pos _) (by omega) hfits hlast
      refine .inr ⟨s', e₂, ?_, hadjust, hs', he₂, ?_⟩
      · refine bind_eq_ok.mpr ⟨_, rfl, bind_eq_ok.mpr ⟨e₁, hones, bind_eq_ok.mpr ⟨e₂, hlast, ?_⟩⟩⟩
        exact bind_eq_ok.mpr ⟨s', hadjust, rfl⟩
      · rw [hstream₂, hstream₁, hword, bits_rest hrest, runBits, List.append_assoc]

theorem encodeWith_outside (hs : s.InRange) {runlen : UInt32} (h : capacity s.melcstate ≤ runlen.toNat) :
    encodeWith s e runlen = .error .outsideJ :=
  bind_eq_error.mpr (.inl (encodeHits_outside hs (by omega) h 0))

end Encode

section Decode

variable {s : RleState} {e e' : BitReader}

/-- The ones that `decode_run` sees. A round looks at the next eight bits, and there is one more only where the word
can be filled again. -/
def BitReader.onesAhead (e : BitReader) : Nat := leadingOnes (e.stream.take (8 * (e.stream.length / 8 - 3)))

theorem zeroLUT_eq : ∀ b < 256, zeroLUT.getD (255 - b) 0 = leadingOnes (bits 8 b) := by
  decide +kernel

theorem BitReader.lookup_eq : e.lookup = min 8 (leadingOnes e.stream) := by
  have hlt : (e.ioWord >>> 24).toNat < 256 := by
    have := e.ioWord.toNat_lt
    simp only [UInt32.toNat_shiftRight, UInt32.reduceToNat, Nat.reduceMod, Nat.shiftRight_eq_div_pow]
    omega
  have htop : (~~~(e.ioWord >>> 24)).toUInt8.toNat = 255 - (e.ioWord >>> 24).toNat := by
    rw [UInt32.toNat_toUInt8, UInt32.toNat_not, UInt32.size]
    omega
  have hbits : bits 8 (e.ioWord >>> 24).toNat = e.stream.take 8 := by
    rw [← min_eq_left (by decide : 8 ≤ 32), ← List.take_take, take_stream, take_bits (by decide)]
    simp [UInt32.toNat_shiftRight]
  rw [lookup, htop, zeroLUT_eq _ hlt, hbits, leadingOnes_take]

theorem BitReader.onesAhead_eq : e.onesAhead = min (8 * (e.stream.length / 8 - 3)) (leadingOnes e.stream) :=
  leadingOnes_take

theorem BitReader.le_length_stream : 32 ≤ e.stream.length := by
  rw [length_stream]
  omega

theorem decodeHits_full {fuel runlen r : Nat} {s₁ : RleState} (hclimb : climb e.lookup runlen s = .ok (r, s₁))
    (ht : e.lookup = 8) : decodeHits (fuel + 1) runlen s e = e.decodeEatbits 8 >>= decodeHits fuel r s₁ := by
  rw [decodeHits, hclimb]
  show (if e.lookup ≠ 8 then _ else _) = _
  rw [if_neg (not_not.mpr ht)]

theorem decodeHits_last {fuel runlen r : Nat} {s₁ : RleState} (hclimb : climb e.lookup runlen s = .ok (r, s₁))
    (ht : e.lookup ≠ 8) :
    decodeHits (fuel + 1) runlen s e = e.decodeEatbits (e.lookup + 1) >>= fun e' => .ok (r, s₁, e') := by
  rw [decodeHits, hclimb]
  show (if e.lookup ≠ 8 then _ else _) = _
  rw [if_pos ht]
  rfl

/-- The hits are the ones ahead, and one zero is taken after them. -/
theorem decodeHits_ok {fuel : Nat} (hs : s.InRange) (he : e.Ok) (hfuel : e.stream.length < 8 * fuel + 32)
    (h : s.melcstate + e.onesAhead < melcStates) (runlen : Nat) :
    decodeHits fuel runlen s e = .error .noMoreWords ∧ e.stream.length < 33 + e.onesAhead ∨
      ∃ r s' e', decodeHits fuel runlen s e = .ok (r, s', e') ∧ climb e.onesAhead runlen s = .ok (r, s') ∧
        s'.InRange ∧ e'.Ok ∧ e'.stream = e.stream.drop (e.onesAhead + 1) := by
  induction fuel generalizing s e runlen with
  | zero => exact absurd hfuel (by have := e.le_length_stream; omega)
  | succ fuel ih =>
    have hlength := e.le_length_stream
    have hlookup := e.lookup_eq
    have hahead := e.onesAhead_eq
    obtain ⟨r, s₁, hclimb, hs₁, hstate⟩ := climb_ok hs (by omega : s.melcstate + e.lookup < melcStates) runlen
    by_cases ht : e.lookup = 8
    · have heat := BitReader.decodeEatbits_spec he (by decide : 0 < 8) (by decide)
      rw [decodeHits_full hclimb ht]
      cases hr : e.decodeEatbits 8 with
      | error err =>
        rw [hr] at heat
        obtain ⟨rfl, hshort⟩ := heat
        exact .inl ⟨rfl, by omega⟩
      | ok e₁ =>
        rw [hr] at heat
        obtain ⟨he₁, hstream₁⟩ := heat
        have hlen₁ : e₁.stream.length = e.stream.length - 8 := by rw [hstream₁, List.length_drop]
        have hlength₁ := e₁.le_length_stream
        have hones₁ : leadingOnes e₁.stream = leadingOnes e.stream - 8 := by
          rw [hstream₁, leadingOnes_drop (by omega)]
        have hahead₁ := e₁.onesAhead_eq
        have hsplit : e.onesAhead = 8 + e₁.onesAhead := by omega
        obtain ⟨herr, hshort⟩ | ⟨r', s', e', hdec, hclimb', hs', he', hstream'⟩ := ih hs₁ he₁ (by omega) (by omega) r
        · exact .inl ⟨herr, by omega⟩
        · refine .inr ⟨r', s', e', hdec, ?_, hs', he', ?_⟩
          · rw [hsplit, climb_add, ← ht, hclimb]
            exact hclimb'
          · rw [hstream', hstream₁, List.drop_drop, hsplit, Nat.add_assoc]
    · have heat := BitReader.decodeEatbits_spec he (Nat.succ_pos e.lookup) (by omega)
      have hsame : e.onesAhead = e.lookup := by omega
      rw [decodeHits_last hclimb ht]
      cases hr : e.decodeEatbits (e.lookup + 1) with
      | error err =>
        rw [hr] at heat
        obtain ⟨rfl, hshort⟩ := heat
        exact .inl ⟨rfl, by omega⟩
      | ok e₁ =>
        rw [hr] at heat
        obtain ⟨he₁, hstream₁⟩ := heat
        exact .inr ⟨r, s₁, e₁, rfl, by rwa [hsame], hs₁, he₁, by rwa [hsame]⟩

theorem decodeHits_outside {fuel : Nat} (hs : s.InRange) (he : e.Ok) (hfuel : e.stream.length < 8 * fuel + 32)
    (h : melcStates ≤ s.melcstate + e.onesAhead) (runlen : Nat) :
    decodeHits fuel runlen s e = .error .outsideJ := by
  induction fuel generalizing s e runlen with
  | zero => exact absurd hfuel (by have := e.le_length_stream; omega)
  | succ fuel ih =>
    have hlength := e.le_length_stream
    have hlookup := e.lookup_eq
    have hahead := e.onesAhead_eq
    by_cases hnow : melcStates ≤ s.melcstate + e.lookup
    · exact bind_eq_error.mpr (.inl (climb_outside hs hnow runlen))
    · obtain ⟨r, s₁, hclimb, hs₁, hstate⟩ := climb_ok hs (by omega : s.melcstate + e.lookup < melcStates) runlen
      have ht : e.lookup = 8 := by omega
      have heat := BitReader.decodeEatbits_spec he (by decide : 0 < 8) (by decide)
      cases hr : e.decodeEatbits 8 with
      | error err =>
        rw [hr] at heat
        omega
      | ok e₁ =>
        rw [hr] at heat
        obtain ⟨he₁, hstream₁⟩ := heat
        have hlen₁ : e₁.stream.length = e.stream.length - 8 := by rw [hstream₁, List.length_drop]
        have hlength₁ := e₁.le_length_stream
        have hones₁ : leadingOnes e₁.stream = leadingOnes e.stream - 8 := by
          rw [hstream₁, leadingOnes_drop (by omega)]
        have hahead₁ := e₁.onesAhead_eq
        rw [decodeHits_full hclimb ht, hr]
        exact ih hs₁ he₁ (by omega) (by omega) r

/-- The rest of a run is the next `len` bits. -/
theorem decodeRest_spec (he : e.Ok) {len : Nat} (hlen : len < 32) (runlen : Nat) :
    decodeRest len runlen e = .error .noMoreWords ∧ e.stream.length < 32 + len ∨
      ∃ v e', decodeRest len runlen e = .ok (runlen + v, e') ∧ v < 2 ^ len ∧ bits len v = e.stream.take len ∧ e'.Ok ∧
        e'.stream = e.stream.drop len := by
  by_cases hzero : len = 0
  · subst hzero
    exact .inr ⟨0, e, rfl, Nat.one_pos, rfl, he, rfl⟩
  · have heat := BitReader.decodeEatbits_spec he (by omega : 0 < len) hlen
    have hshift : (e.ioWord >>> UInt32.ofNat (32 - len)).toNat = e.ioWord.toNat >>> (32 - len) := by
      rw [UInt32.toNat_shiftRight, UInt32.toNat_ofNat_of_lt' (by rw [UInt32.size]; omega), Nat.mod_eq_of_lt (by omega)]
    rw [decodeRest, if_pos hzero]
    cases hr : e.decodeEatbits len with
    | error err =>
      rw [hr] at heat
      obtain ⟨rfl, hshort⟩ := heat
      exact .inl ⟨rfl, hshort⟩
    | ok e₁ =>
      rw [hr] at heat
      refine .inr ⟨_, e₁, rfl, ?_, ?_, heat.1, heat.2⟩
      · rw [hshift, Nat.shiftRight_eq_div_pow]
        apply Nat.div_lt_of_lt_mul
        rw [← pow_add, Nat.sub_add_cancel (by omega)]
        exact e.ioWord.toNat_lt
      · rw [hshift, ← take_bits (by omega), ← e.take_stream, List.take_take, min_eq_left (by omega)]

theorem decode_fuel (he : e.Ok) : e.stream.length < 8 * (4 * (e.left.length + 2)) + 32 := by
  rw [BitReader.length_stream]
  have := he.available
  omega

theorem decodeWith_ok (hs : s.InRange) (he : e.Ok) (h : s.melcstate + e.onesAhead < melcStates) :
    decodeWith s e = .error .noMoreWords ∨
      ∃ r s' e', decodeWith s e = .ok (r, s', e') ∧ s'.InRange ∧ e'.Ok := by
  obtain ⟨herr, -⟩ | ⟨r, s₁, e₁, hdec, -, hs₁, he₁, -⟩ := decodeHits_ok hs he (decode_fuel he) h 0
  · exact .inl (bind_eq_error.mpr (.inl herr))
  · obtain ⟨s', hadjust, hs', -⟩ := RleState.adjust_ok hs₁
    obtain ⟨herr, -⟩ | ⟨v, e', hrest, -, -, he', -⟩ := decodeRest_spec he₁ (hs₁.melclen_le.trans_lt (by decide)) r
    · exact .inl (bind_eq_error.mpr (.inr ⟨_, hdec, bind_eq_error.mpr (.inl herr)⟩))
    · refine .inr ⟨r + v, s', e', bind_eq_ok.mpr ⟨_, hdec, bind_eq_ok.mpr ⟨_, hrest, ?_⟩⟩, hs', he'⟩
      exact bind_eq_ok.mpr ⟨s', hadjust, rfl⟩

theorem decodeWith_outside (hs : s.InRange) (he : e.Ok) (h : melcStates ≤ s.melcstate + e.onesAhead) :
    decodeWith s e = .error .outsideJ :=
  bind_eq_error.mpr (.inl (decodeHits_outside hs he (decode_fuel he) h 0))

/-- What was written is read back, with a word or more behind it. -/
theorem decodeWith_runBits {s₁ s' : RleState} {runlen hits rest : Nat} {tail : List Bool} (hs : s.InRange)
    (hsplit : Splits s runlen hits s₁ rest) (hadjust : s₁.adjust = .ok s') (he : e.Ok)
    (hstream : e.stream = runBits hits s₁.melclen rest ++ tail) (htail : 32 ≤ tail.length) :
    ∃ e', decodeWith s e = .ok (runlen, s', e') ∧ e'.Ok ∧ e'.stream = tail := by
  obtain ⟨hs₁, hclimb, hle, hlt⟩ := hsplit
  have hones : leadingOnes e.stream = hits := by
    rw [hstream, runBits, List.append_assoc, leadingOnes_replicate_append, List.cons_append, leadingOnes_false,
      Nat.add_zero]
  have hlength : e.stream.length = hits + 1 + s₁.melclen + tail.length := by
    rw [hstream, runBits]
    simp
    omega
  have hahead : e.onesAhead = hits := by
    have := e.onesAhead_eq
    omega
  have hstate : s.melcstate + e.onesAhead < melcStates := by
    by_contra hge
    have := climb_outside hs (not_lt.mp hge) 0
    rw [hahead, hclimb] at this
    cases this
  obtain ⟨-, hshort⟩ | ⟨r, s₂, e₁, hdec, hclimb', -, he₁, hstream₁⟩ := decodeHits_ok hs he (decode_fuel he) hstate 0
  · omega
  · rw [hahead, hclimb] at hclimb'
    cases hclimb'
    have hdrop : e₁.stream = bits s₁.melclen rest ++ tail := by
      rw [hstream₁, hahead, hstream, runBits, List.append_assoc, ← List.drop_drop, List.drop_left' List.length_replicate]
      rfl
    obtain ⟨-, hshort⟩ | ⟨v, e', hrest, hv, hbits, he', hstream'⟩ :=
      decodeRest_spec he₁ (hs₁.melclen_le.trans_lt (by decide)) (runlen - rest)
    · rw [hdrop, List.length_append, length_bits] at hshort
      omega
    · rw [hdrop, List.take_left' length_bits] at hbits
      cases eq_of_bits hbits hv hlt
      refine ⟨e', bind_eq_ok.mpr ⟨_, hdec, bind_eq_ok.mpr ⟨_, hrest, ?_⟩⟩, he', ?_⟩
      · rw [Nat.sub_add_cancel hle]
        exact bind_eq_ok.mpr ⟨s', hadjust, rfl⟩
      · rw [hstream', hdrop, List.drop_left' length_bits]

end Decode

end Colama.Spice.Quic
