import Colama.Spice.Lz.PaletteScan
import Colama.Spice.Lz.Stream

namespace Colama.Spice.Lz.Decoder

open Lib Template PltFormat

/-- The expansion of the pixels that an inclusion of the template puts, which are those of another inclusion. -/
structure Expansion (t t' : Template) where
  expand : t.Pixel → List t'.Pixel
  length : ∀ p, (expand p).length = t'.scale.toNat
  scale : t.scale = 1
  bytes : t'.bytes = t.bytes
  lenBias : t'.lenBias = t.lenBias
  put : ∀ old p, t.put old p = p
  put' : ∀ old p, t'.put old p = p
  comp : ∀ bs, ∃ p, t.comp bs = some [p] ∧ t'.comp bs = some (expand p)

/-- The pixels that have been put. -/
def DecoderState.pixels {Pixel : Type} (s : DecoderState Pixel) : List Pixel := (List.range s.op).map s.out

theorem map_range_mul {α : Type} (f : ℕ → α) (n k : ℕ) :
    (List.range (n * k)).map f = (List.range n).flatMap fun i => (List.range k).map fun j => f (i * k + j) := by
  induction n with
  | zero => rw [Nat.zero_mul]; rfl
  | succ n ih =>
    rw [Nat.succ_mul, List.range_add, List.map_append, ih, List.range_succ, List.flatMap_append, List.flatMap_singleton,
      List.map_map]
    rfl

section Loops

variable {t : Template} {size : Int} {s s₁ : DecoderState t.Pixel}

/-- Pixels are stored from `op` on. -/
structure Stored {Pixel : Type} (s s₁ : DecoderState Pixel) (ps : List Pixel) : Prop where
  input : s₁.input = s.input
  op : s₁.op = s.op + ps.length
  kept : ∀ i < s.op, s₁.out i = s.out i
  stored : ∀ j (hj : j < ps.length), s₁.out (s.op + j) = ps[j]

/-- A pixel is put at `op`. -/
structure Put {Pixel : Type} (s s₁ : DecoderState Pixel) (p : Pixel) : Prop where
  input : s₁.input = s.input
  op : s₁.op = s.op + 1
  kept : ∀ i < s.op, s₁.out i = s.out i
  new : s₁.out s.op = p

theorem put_of_store (hput : ∀ old p, t.put old p = p) (s : DecoderState t.Pixel) (p : t.Pixel) (trace : List Event) :
    Put s ⟨s.input, s.op + 1, Function.update s.out s.op (t.put (s.out s.op) p), trace⟩ p where
  input := rfl
  op := rfl
  kept _ hi := Function.update_of_ne (Nat.ne_of_lt hi) ..
  new := (Function.update_self ..).trans (hput _ _)

variable {s₀ : DecoderState t.Pixel} {p : t.Pixel}

theorem Stored.cons {ps : List t.Pixel} (hp : Put s s₀ p) (h : Stored s₀ s₁ ps) : Stored s s₁ (p :: ps) where
  input := h.input.trans hp.input
  op := by rw [h.op, hp.op, List.length_cons, Nat.add_right_comm, Nat.add_assoc]
  kept i hi := (h.kept i (by rw [hp.op]; omega)).trans (hp.kept i hi)
  stored j hj := by
    cases j with
    | zero => exact (h.kept s.op (by rw [hp.op]; exact Nat.lt_succ_self _)).trans hp.new
    | succ j =>
      have hstored := h.stored j (Nat.lt_of_succ_lt_succ hj)
      rw [hp.op, Nat.add_right_comm, Nat.add_assoc] at hstored
      exact hstored

theorem storeAll_stored (hput : ∀ old p, t.put old p = p) (ps : List t.Pixel) (s : DecoderState t.Pixel) :
    ∃ s₁, storeAll t ps s = .ok ⟨⟩ s₁ ∧ Stored s s₁ ps := by
  induction ps generalizing s with
  | nil => exact ⟨s, rfl, rfl, rfl, fun _ _ => rfl, fun j hj => absurd hj (Nat.not_lt_zero j)⟩
  | cons p ps ih =>
    obtain ⟨s₁, hrun, hstored⟩ := ih (s.stored p)
    exact ⟨s₁, hrun, hstored.cons (put_of_store hput s p _)⟩

theorem forM_store_stored (hput : ∀ old p, t.put old p = p) (ps : List t.Pixel) (s : DecoderState t.Pixel) :
    ∃ s₁, (ps.forM (store t) : Dec t PUnit) s = .ok ⟨⟩ s₁ ∧ Stored s s₁ ps := by
  induction ps generalizing s with
  | nil => exact ⟨s, rfl, rfl, rfl, fun _ _ => rfl, fun j hj => absurd hj (Nat.not_lt_zero j)⟩
  | cons p ps ih =>
    obtain ⟨s₁, hrun, hstored⟩ := ih ⟨s.input, s.op + 1, Function.update s.out s.op (t.put (s.out s.op) p), s.trace⟩
    exact ⟨s₁, hrun, hstored.cons (put_of_store hput s p _)⟩

/-- `n` pixels are the ones that are `ofs` before them. -/
structure Copied {Pixel : Type} (s s₁ : DecoderState Pixel) (n ofs : ℕ) : Prop where
  input : s₁.input = s.input
  op : s₁.op = s.op + n
  kept : ∀ i < s.op, s₁.out i = s.out i
  copied : ∀ i, s.op ≤ i → i < s.op + n → s₁.out i = s₁.out (i - ofs)

theorem Copied.succ {n ofs : ℕ} (hofs : 0 < ofs) (hback : ofs ≤ s.op) (hp : Put s s₀ p) (hold : s.out (s.op - ofs) = p)
    (h : Copied s₀ s₁ n ofs) : Copied s s₁ (n + 1) ofs where
  input := h.input.trans hp.input
  op := by rw [h.op, hp.op, Nat.add_right_comm, Nat.add_assoc]
  kept i hi := (h.kept i (by rw [hp.op]; omega)).trans (hp.kept i hi)
  copied i hi hlt := by
    obtain rfl | hgt := Nat.eq_or_lt_of_le hi
    · rw [h.kept s.op (by rw [hp.op]; omega), h.kept (s.op - ofs) (by rw [hp.op]; omega), hp.new,
        hp.kept _ (by omega), hold]
    · exact h.copied i (by rw [hp.op]; exact hgt) (by rw [hp.op]; omega)

theorem copyFrom_copied (hput : ∀ old p, t.put old p = p) (n ref : ℕ) (s : DecoderState t.Pixel) (href : ref < s.op)
    (h : (s.op : Int) + n ≤ size) : ∃ s₁, copyFrom t size n ref s = .ok ⟨⟩ s₁ ∧ Copied s s₁ n (s.op - ref) := by
  induction n generalizing s ref with
  | zero => exact ⟨s, rfl, rfl, rfl, fun _ _ => rfl, fun i hi hlt => absurd hi (by omega)⟩
  | succ n ih =>
    obtain ⟨s₁, hrun, hcopied⟩ := ih (ref + 1) (s.copied ref) (Nat.succ_lt_succ href) (stored_le _ _ h)
    refine ⟨s₁, (copyFrom_succ ref h).trans hrun, ?_⟩
    have hdist : (s.copied ref).op - (ref + 1) = s.op - ref := Nat.add_sub_add_right ..
    rw [hdist] at hcopied
    refine hcopied.succ (by omega) (Nat.sub_le ..) (put_of_store hput s _ _) ?_
    rw [Nat.sub_sub_self href.le]

theorem copyRunOf_copied (hput : ∀ old p, t.put old p = p) (b : t.Pixel) (n : ℕ) (s : DecoderState t.Pixel) (hpos : 0 < s.op)
    (hb : s.out (s.op - 1) = b) (h : (s.op : Int) + n ≤ size) :
    ∃ s₁, copyRunOf t size b n s = .ok ⟨⟩ s₁ ∧ Copied s s₁ n 1 := by
  induction n generalizing s with
  | zero => exact ⟨s, rfl, rfl, rfl, fun _ _ => rfl, fun i hi hlt => absurd hi (by omega)⟩
  | succ n ih =>
    have hlast : (s.stored b).out ((s.stored b).op - 1) = b := by
      change Function.update s.out s.op (t.put (s.out s.op) b) s.op = b
      rw [Function.update_self, hput]
    obtain ⟨s₁, hrun, hcopied⟩ := ih (s.stored b) (Nat.succ_pos _) hlast (stored_le s b h)
    refine ⟨s₁, (copyRunOf_succ b h).trans hrun, ?_⟩
    exact hcopied.succ Nat.zero_lt_one hpos (put_of_store hput s b _) hb

theorem copyMatch_copied (hput : ∀ old p, t.put old p = p) {len ofs : UInt32} (hofs : 0 < ofs.toNat)
    (hroom : (s.op : Int) + len.toNat ≤ size) (hback : ofs.toNat ≤ s.op) :
    ∃ s₁, copyMatch t size len ofs s = .ok ⟨⟩ s₁ ∧ Copied s s₁ len.toNat ofs.toNat := by
  rw [copyMatch_eq hroom hback]
  by_cases hone : (s.op : Int) - ofs.toNat = s.op - 1
  · have hofs' : ofs.toNat = 1 := by omega
    have hpos : 0 < s.op := by omega
    have hlast : s.op - 1 = ((s.op : Int) - (1 : ℕ)).toNat := by omega
    rw [if_pos hone, hofs']
    obtain ⟨s₁, hrun, hcopied⟩ := copyRunOf_copied hput (s.out ((s.op : Int) - (1 : ℕ)).toNat) len.toNat
      { s with trace := s.trace ++ [Event.read ((s.op : Int) - (1 : ℕ)).toNat] } hpos (congrArg s.out hlast) hroom
    exact ⟨s₁, hrun, hcopied.input, hcopied.op, hcopied.kept, hcopied.copied⟩
  · rw [if_neg hone]
    have href : ((s.op : Int) - ofs.toNat).toNat < s.op := by omega
    obtain ⟨s₁, hrun, hcopied⟩ := copyFrom_copied hput len.toNat ((s.op : Int) - ofs.toNat).toNat s href hroom
    have hdist : s.op - ((s.op : Int) - ofs.toNat).toNat = ofs.toNat := by omega
    rw [hdist] at hcopied
    exact ⟨s₁, hrun, hcopied⟩

end Loops

/-- The decoders are at the same place of their input, and the one has put the expansion of what the other has. -/
structure Expanded {t t' : Template} (e : Expansion t t') (s : DecoderState t.Pixel) (s' : DecoderState t'.Pixel) :
    Prop where
  input : s'.input = s.input
  op : s'.op = s.op * t'.scale.toNat
  out : ∀ i < s.op, ∀ j < t'.scale.toNat, (e.expand (s.out i))[j]? = some (s'.out (i * t'.scale.toNat + j))

namespace Expanded

variable {t t' : Template} {e : Expansion t t'} {s s₁ : DecoderState t.Pixel} {s' s₁' : DecoderState t'.Pixel}

/-- The places of a pixel's expansion are before those of a later one. -/
theorem place_lt {i j n k : ℕ} (hi : i < n) (hj : j < k) : i * k + j < n * k :=
  calc i * k + j < i * k + k := Nat.add_lt_add_left hj _
    _ = (i + 1) * k := (Nat.succ_mul i k).symm
    _ ≤ n * k := Nat.mul_le_mul_right k hi

theorem store (h : Expanded e s s') {p : t.Pixel} (hs : Stored s s₁ [p]) (hs' : Stored s' s₁' (e.expand p)) :
    Expanded e s₁ s₁' where
  input := by rw [hs'.input, h.input, hs.input]
  op := by rw [hs'.op, h.op, hs.op, e.length, List.length_singleton, Nat.succ_mul]
  out i hi j hj := by
    rw [hs.op, List.length_singleton] at hi
    obtain hlt | rfl := Nat.lt_succ_iff_lt_or_eq.mp hi
    · rw [hs.kept i hlt, h.out i hlt j hj, hs'.kept _ (by rw [h.op]; exact place_lt hlt hj)]
    · have hnew : s₁.out s.op = p := hs.stored 0 Nat.zero_lt_one
      have hj' : j < (e.expand p).length := by rwa [e.length]
      rw [hnew, ← h.op, hs'.stored j hj', List.getElem?_eq_getElem hj']

theorem copy (h : Expanded e s s') {n ofs : ℕ} (hofs : 0 < ofs) (hback : ofs ≤ s.op) (hs : Copied s s₁ n ofs)
    (hs' : Copied s' s₁' (n * t'.scale.toNat) (ofs * t'.scale.toNat)) : Expanded e s₁ s₁' where
  input := by rw [hs'.input, h.input, hs.input]
  op := by rw [hs'.op, h.op, hs.op, Nat.add_mul]
  out i := by
    -- the pixel that a pixel is copied from comes before it
    induction i using Nat.strong_induction_on with
    | _ i ih =>
      intro hi j hj
      rw [hs.op] at hi
      obtain hlt | hge := Nat.lt_or_ge i s.op
      · rw [hs.kept i hlt, h.out i hlt j hj, hs'.kept _ (by rw [h.op]; exact place_lt hlt hj)]
      · have hfrom : s'.op ≤ i * t'.scale.toNat + j := by
          rw [h.op]
          exact Nat.le_add_right_of_le (Nat.mul_le_mul_right _ hge)
        have hto : i * t'.scale.toNat + j < s'.op + n * t'.scale.toNat := by
          rw [h.op, ← Nat.add_mul]
          exact place_lt hi hj
        have hsub : i * t'.scale.toNat + j - ofs * t'.scale.toNat = (i - ofs) * t'.scale.toNat + j := by
          have hle : ofs * t'.scale.toNat ≤ i * t'.scale.toNat := Nat.mul_le_mul_right _ (by omega)
          rw [Nat.sub_mul]
          omega
        rw [hs.copied i hge hi, ih (i - ofs) (by omega) (by rw [hs.op]; omega) j hj, hs'.copied _ hfrom hto, hsub]

theorem pixels (h : Expanded e s s') : s'.pixels = s.pixels.flatMap e.expand := by
  have hunit (i : ℕ) (hi : i < s.op) :
      (List.range t'.scale.toNat).map (fun j => s'.out (i * t'.scale.toNat + j)) = e.expand (s.out i) := by
    apply List.ext_getElem?
    intro j
    by_cases hj : j < t'.scale.toNat
    · rw [h.out i hi j hj, List.getElem?_map, List.getElem?_range hj]
      rfl
    · rw [List.getElem?_eq_none (by simpa using hj), List.getElem?_eq_none (by rw [e.length]; omega)]
  rw [DecoderState.pixels, DecoderState.pixels, h.op, map_range_mul, List.flatMap_map]
  exact List.flatMap_congr fun i hi => hunit i (List.mem_range.mp hi)

end Expanded

section Mirrors

variable {t t' : Template} {e : Expansion t t'} {s : DecoderState t.Pixel} {s' : DecoderState t'.Pixel} {size : Int}

theorem decodeByte_mirrors (h : Expanded e s s') : Mirrors (Expanded e) s s' (decodeByte t) (decodeByte t') := by
  intro b s₁ hrun
  rw [decodeByte] at hrun
  cases hd : decode s.input with
  | error err =>
    rw [hd] at hrun
    cases hrun
  | ok r =>
    rw [hd] at hrun
    cases hrun
    refine ⟨{ s' with input := r.2 }, ?_, rfl, h.op, h.out⟩
    rw [decodeByte, h.input, hd]

theorem decodeMore_mirrors (h : Expanded e s s') (n : ℕ) (bs : List UInt8) :
    Mirrors (Expanded e) s s' (decodeMore t n bs) (decodeMore t' n bs) := by
  induction n generalizing s s' bs with
  | zero => exact .ret h bs
  | succ n ih => exact .seq (decodeByte_mirrors h) fun b s₁ s₁' h₁ => ih h₁ _

theorem decoderAssert_mirrors (h : Expanded e s s') {p p' : Prop} [Decidable p] [Decidable p'] (hp : p → p') :
    Mirrors (Expanded e) s s' (decoderAssert t p) (decoderAssert t' p') := by
  rw [decoderAssert, decoderAssert]
  by_cases hc : p
  · rw [if_pos hc, if_pos (hp hc)]
    exact .ret h ()
  · rw [if_neg hc]
    exact .raise

theorem touch_mirrors (h : Expanded e s s') : Mirrors (Expanded e) s s' (if t.fieldwise then touch t else pure ⟨⟩)
    (if t'.fieldwise then touch t' else pure ⟨⟩) := by
  have htouched (trace : List Event) (trace' : List Event) :
      Expanded e { s with trace := trace } { s' with trace := trace' } := ⟨h.input, h.op, h.out⟩
  rintro _ s₁ hrun
  cases hf : t.fieldwise <;> cases hf' : t'.fieldwise <;> rw [hf] at hrun <;> cases hrun
  · exact ⟨s', rfl, h⟩
  · exact ⟨_, rfl, htouched s.trace _⟩
  · exact ⟨s', rfl, htouched _ s'.trace⟩
  · exact ⟨_, rfl, htouched _ _⟩

def putUnit (t : Template) (bs : List UInt8) : Dec t Unit :=
  match t.comp bs with
  | none => throw .fault
  | some ps => if t.fieldwise then ps.forM (store t) else storeAll t ps

theorem copyCompPixel_putUnit (t : Template) : copyCompPixel t = decodeByte t >>= fun first =>
    (if t.fieldwise then touch t else pure ()) >>= fun _ => decodeMore t (t.bytes - 1) [first] >>= putUnit t := by
  unfold copyCompPixel putUnit
  cases t.fieldwise <;> rfl

theorem putUnit_run (hput : ∀ old p, t.put old p = p) {bs : List UInt8} {ps : List t.Pixel} (hcomp : t.comp bs = some ps)
    (s : DecoderState t.Pixel) : ∃ s₁, putUnit t bs s = .ok () s₁ ∧ Stored s s₁ ps := by
  rw [putUnit, hcomp]
  cases t.fieldwise with
  | true => exact forM_store_stored hput ps s
  | false => exact storeAll_stored hput ps s

theorem copyCompPixel_mirrors (h : Expanded e s s') :
    Mirrors (Expanded e) s s' (copyCompPixel t) (copyCompPixel t') := by
  rw [copyCompPixel_putUnit, copyCompPixel_putUnit, e.bytes]
  refine .seq (decodeByte_mirrors h) fun first s₁ s₁' h₁ => .seq (touch_mirrors h₁) fun _ s₂ s₂' h₂ => ?_
  refine .seq (decodeMore_mirrors h₂ _ _) fun bs s₃ s₃' h₃ => ?_
  obtain ⟨p, hcomp, hcomp'⟩ := e.comp bs
  obtain ⟨s₄, hrun, hstored⟩ := putUnit_run e.put hcomp s₃
  obtain ⟨s₄', hrun', hstored'⟩ := putUnit_run e.put' hcomp' s₃'
  rintro _ s₅ hs₅
  cases hs₅.symm.trans hrun
  exact ⟨s₄', hrun', h₃.store hstored hstored'⟩

theorem assertLimit_mirrors (h : Expanded e s s') :
    Mirrors (Expanded e) s s' (assertLimit t size) (assertLimit t' (size * t'.scale.toNat)) := by
  refine .read (decoderAssert_mirrors h fun hle => ?_)
  rw [h.op, Nat.cast_mul]
  exact Int.mul_le_mul_of_nonneg_right hle (Int.natCast_nonneg _)

theorem copyComps_mirrors (h : Expanded e s s') (n : ℕ) :
    Mirrors (Expanded e) s s' (copyComps t size n) (copyComps t' (size * t'.scale.toNat) n) := by
  induction n generalizing s s' with
  | zero => exact .ret h ()
  | succ n ih =>
    exact .seq (copyCompPixel_mirrors h) fun _ _ _ h₁ => .seq (assertLimit_mirrors h₁) fun _ _ _ h₂ => ih h₂

theorem lengthCodes_mirrors (h : Expanded e s s') (n : ℕ) (len : UInt32) :
    Mirrors (Expanded e) s s' (lengthCodes t n len) (lengthCodes t' n len) := by
  induction n generalizing s s' len with
  | zero => exact .raise
  | succ n ih =>
    exact .seq (decodeByte_mirrors h) fun code _ _ h₁ => .split Iff.rfl (fun _ => ih h₁ _) fun _ => .ret h₁ _

theorem matchLength_mirrors (h : Expanded e s s') (len : UInt32) :
    Mirrors (Expanded e) s s' (matchLength t len) (matchLength t' len) := by
  refine .read (.split Iff.rfl (fun _ => ?_) fun _ => .ret h _)
  rw [h.input]
  exact lengthCodes_mirrors h _ _

theorem matchDistance_mirrors (h : Expanded e s s') (ofs : UInt32) :
    Mirrors (Expanded e) s s' (matchDistance t ofs) (matchDistance t' ofs) := by
  refine .seq (decodeByte_mirrors h) fun code s₁ s₁' h₁ => .split Iff.rfl (fun _ => ?_) fun _ => .ret h₁ _
  exact .seq (decodeByte_mirrors h₁) fun hi _ _ h₂ => .seq (decodeByte_mirrors h₂) fun lo _ _ h₃ => .ret h₃ _

theorem decode_bind_ok {α : Type} {f : UInt8 × In → Except Error α} {i : In} {a : α} (h : (decode i >>= f) = .ok a) :
    ∃ r, f r = .ok a := by
  cases hd : decode i with
  | error err =>
    rw [hd] at h
    cases h
  | ok r =>
    rw [hd] at h
    exact ⟨r, h⟩

theorem decodeDistance_le {hi n : ℕ} (hhi : hi ≤ 31 * 256) {i i' : In} (h : decodeDistance hi i = .ok (n, i')) :
    n ≤ 73726 := by
  obtain ⟨⟨code, i₁⟩, h⟩ := decode_bind_ok h
  dsimp only at h
  split at h
  · obtain ⟨⟨a, i₂⟩, h⟩ := decode_bind_ok h
    obtain ⟨⟨b, i₃⟩, h⟩ := decode_bind_ok h
    cases h
    have ha := a.toNat_lt
    have hb := b.toNat_lt
    change a.toNat * 256 + b.toNat + maxDistance ≤ 73726
    unfold maxDistance
    omega
  · cases h
    have hcode := code.toNat_lt
    change hi + code.toNat ≤ 73726
    omega

/-- A distance stays far from where a product of it would wrap around. -/
theorem matchDistance_le {ctrl ofs : UInt32} {s₁ : DecoderState t.Pixel}
    (h : matchDistance t ((ctrl &&& 31) <<< 8) s = .ok ofs s₁) : ofs.toNat ≤ 73726 := by
  have hreads := matchDistance_readsAs (t := t) ctrl s
  rw [ReadsAs] at hreads
  cases hd : decodeDistance (ctrl.toNat % 32 * 256) s.input with
  | error err =>
    rw [hd] at hreads
    obtain ⟨err', s', hrun, -⟩ := hreads
    cases h.symm.trans hrun
  | ok r =>
    rw [hd] at hreads
    cases h.symm.trans hreads
    have hle := decodeDistance_le (by omega) hd
    rw [UInt32.toNat_ofNat_of_lt' (lt_of_le_of_lt hle (by decide))]
    exact hle

theorem copyMatch_mirrors (h : Expanded e s s') (hsize : size * t'.scale.toNat < 2 ^ 32) {len ofs : UInt32}
    (hofs : 0 < ofs.toNat) :
    Mirrors (Expanded e) s s' (copyMatch t size len ofs)
      (copyMatch t' (size * t'.scale.toNat) (len * t'.scale) (ofs * t'.scale)) := by
  rintro _ s₁ hrun
  by_cases hc : (s.op : Int) + len.toNat ≤ size ∧ ofs.toNat ≤ s.op
  · obtain ⟨hroom, hback⟩ := hc
    obtain ⟨s₂, hrun₂, hcopied⟩ := copyMatch_copied e.put hofs hroom hback
    cases hrun.symm.trans hrun₂
    have hpos := t'.scale_pos
    have hroom' : ((s.op + len.toNat : ℕ) : Int) * t'.scale.toNat ≤ size * t'.scale.toNat :=
      Int.mul_le_mul_of_nonneg_right (by push_cast; exact hroom) (Int.natCast_nonneg _)
    rw [← Nat.cast_mul, Nat.add_mul, Nat.cast_add] at hroom'
    have hback' : ofs.toNat * t'.scale.toNat ≤ s.op * t'.scale.toNat := Nat.mul_le_mul_right _ hback
    have hlen : (len * t'.scale).toNat = len.toNat * t'.scale.toNat := by
      rw [UInt32.toNat_mul, Nat.mod_eq_of_lt (by omega)]
    have hdist : (ofs * t'.scale).toNat = ofs.toNat * t'.scale.toNat := by
      rw [UInt32.toNat_mul, Nat.mod_eq_of_lt (by omega)]
    obtain ⟨s₂', hrun₂', hcopied'⟩ := @copyMatch_copied t' (size * t'.scale.toNat) s' e.put'
      (len * t'.scale) (ofs * t'.scale) (by rw [hdist]; exact Nat.mul_pos hofs hpos)
      (by rw [hlen, h.op]; exact hroom') (by rw [hdist, h.op]; exact hback')
    rw [hlen, hdist] at hcopied'
    exact ⟨s₂', hrun₂', h.copy hofs hback hcopied hcopied'⟩
  · cases hrun.symm.trans (copyMatch_stop hc)

theorem reference_mirrors (h : Expanded e s s') (hsize : size * t'.scale.toNat < 2 ^ 32) (ctrl : UInt32) :
    Mirrors (Expanded e) s s' (reference t size ctrl) (reference t' (size * t'.scale.toNat) ctrl) := by
  refine .seq (matchLength_mirrors h _) fun len s₁ s₁' h₁ => ?_
  refine .seq_of (p := fun ofs => ofs.toNat ≤ 73726) (matchDistance_mirrors h₁ _) (fun ofs s₂ hrun => matchDistance_le hrun)
    fun ofs s₂ s₂' hofs h₂ => ?_
  rw [e.scale, UInt32.mul_one, UInt32.mul_one, e.lenBias]
  refine copyMatch_mirrors h₂ hsize ?_
  have hone : (ofs + 1).toNat = ofs.toNat + 1 := by
    rw [UInt32.toNat_add]
    simp only [UInt32.reduceToNat]
    omega
  omega

theorem literals_mirrors (h : Expanded e s s') {ctrl : UInt32} (hctrl : ctrl.toNat < 32) :
    Mirrors (Expanded e) s s' (literals t size ctrl) (literals t' (size * t'.scale.toNat) ctrl) := by
  refine .read (.seq (decoderAssert_mirrors h fun hroom => ?_) fun _ _ _ h₁ => copyComps_mirrors h₁ _)
  have hone : (ctrl + 1).toNat = ctrl.toNat + 1 := by
    rw [UInt32.toNat_add]
    simp only [UInt32.reduceToNat]
    omega
  have hmul : (ctrl.toNat + 1) * t'.scale.toNat ≤ 32 * 8 := Nat.mul_le_mul (by omega) t'.scale_le
  rw [e.scale, UInt32.mul_one, hone] at hroom
  rw [UInt32.toNat_mul, hone, Nat.mod_eq_of_lt (by omega), h.op]
  have hroom' : ((s.op + (ctrl.toNat + 1) : ℕ) : Int) * t'.scale.toNat ≤ size * t'.scale.toNat :=
    Int.mul_le_mul_of_nonneg_right (by push_cast at hroom ⊢; exact hroom) (Int.natCast_nonneg _)
  rwa [← Nat.cast_mul, Nat.add_mul, Nat.cast_add] at hroom'

theorem decompressRounds_mirrors (h : Expanded e s s') (hsize : size * t'.scale.toNat < 2 ^ 32) (n : ℕ) (ctrl : UInt32) :
    Mirrors (Expanded e) s s' (decompressRounds t size n ctrl) (decompressRounds t' (size * t'.scale.toNat) n ctrl) := by
  induction n generalizing s s' ctrl with
  | zero => exact .raise
  | succ n ih =>
    have hnext {s : DecoderState t.Pixel} {s' : DecoderState t'.Pixel} (h : Expanded e s s') :
        Mirrors (Expanded e) s s'
          (do
            let s ← get
            if (s.op : Int) < size then do
              let next ← decodeByte t
              decompressRounds t size n next.toUInt32
            else pure ())
          (do
            let s ← get
            if (s.op : Int) < size * t'.scale.toNat then do
              let next ← decodeByte t'
              decompressRounds t' (size * t'.scale.toNat) n next.toUInt32
            else pure ()) := by
      have hlimit : (s.op : Int) < size ↔ (s'.op : Int) < size * t'.scale.toNat := by
        have hpos : (0 : Int) < t'.scale.toNat := Int.natCast_pos.mpr t'.scale_pos
        rw [h.op, Nat.cast_mul]
        exact (mul_lt_mul_iff_left₀ hpos).symm
      refine .read (.split hlimit (fun _ => ?_) fun _ => .ret h ())
      exact .seq (decodeByte_mirrors h) fun next _ _ h₁ => ih h₁ _
    rw [decompressRounds, decompressRounds]
    refine .split Iff.rfl (fun _ => .seq (reference_mirrors h hsize ctrl) fun _ _ _ h₁ => hnext h₁) fun hlt => ?_
    have hctrl : ctrl.toNat < 32 := by
      rw [ge_iff_le, UInt32.le_iff_toNat_le] at hlt
      simpa using hlt
    exact .seq (literals_mirrors h hctrl) fun _ _ _ h₁ => hnext h₁

end Mirrors

theorem ReadsAs.run {t : Template} {x : Dec t UInt32} {f : In → Except Error (ℕ × In)} {s : DecoderState t.Pixel}
    (h : ReadsAs x f s) {n : ℕ} {i : In} (hf : f s.input = .ok (n, i)) : x s = .ok (.ofNat n) { s with input := i } := by
  rw [ReadsAs, hf] at h
  exact h

theorem decompress_run {t : Template} {size : Int} {s s₁ : DecoderState t.Pixel} {n : ℕ}
    (h : decompress t size s = .ok n s₁) : n = s₁.op ∧
      (decodeByte t >>= fun ctrl => decompressRounds t size (s.input.bytes.length + 1) ctrl.toUInt32) s = .ok () s₁ := by
  change (decodeByte t >>= fun ctrl => decompressRounds t size (s.input.bytes.length + 1) ctrl.toUInt32 >>= fun _ =>
    get >>= fun s' => pure s'.op) s = _ at h
  simp only [bind, EStateM.bind] at h ⊢
  cases hd : decodeByte t s with
  | error e s₂ =>
    rw [hd] at h
    cases h
  | ok ctrl s₂ =>
    simp only [hd] at h ⊢
    cases hr : decompressRounds t size (s.input.bytes.length + 1) ctrl.toUInt32 s₂ with
    | error e s₃ =>
      rw [hr] at h
      cases h
    | ok u s₃ =>
      rw [hr] at h
      cases h
      exact ⟨rfl, rfl⟩

theorem decompress_of_run {t : Template} {size : Int} {s s₁ : DecoderState t.Pixel}
    (h : (decodeByte t >>= fun ctrl => decompressRounds t size (s.input.bytes.length + 1) ctrl.toUInt32) s = .ok () s₁) :
    decompress t size s = .ok s₁.op s₁ := by
  change (decodeByte t >>= fun ctrl => decompressRounds t size (s.input.bytes.length + 1) ctrl.toUInt32 >>= fun _ =>
    get >>= fun s' => pure s'.op) s = _
  rw [← bind_assoc]
  simp only [bind, EStateM.bind] at h ⊢
  rw [h]
  rfl

/-- What the one decoder accepts the other one does, and ends at the same place with the expansion of its pixels. -/
theorem decompress_expanded {t t' : Template} {e : Expansion t t'} {size : Int} {s s₁ : DecoderState t.Pixel}
    {s' : DecoderState t'.Pixel} {n : ℕ} (h : Expanded e s s') (hsize : size * t'.scale.toNat < 2 ^ 32)
    (hrun : decompress t size s = .ok n s₁) :
    ∃ s₁', decompress t' (size * t'.scale.toNat) s' = .ok s₁'.op s₁' ∧ Expanded e s₁ s₁' := by
  have hmirrors : Mirrors (Expanded e) s s'
      (decodeByte t >>= fun ctrl => decompressRounds t size (s.input.bytes.length + 1) ctrl.toUInt32)
      (decodeByte t' >>= fun ctrl =>
        decompressRounds t' (size * t'.scale.toNat) (s.input.bytes.length + 1) ctrl.toUInt32) :=
    .seq (decodeByte_mirrors h) fun ctrl _ _ h₁ => decompressRounds_mirrors h₁ hsize _ _
  obtain ⟨s₁', hrun', h₁⟩ := hmirrors () s₁ (decompress_run hrun).2
  rw [← h.input] at hrun'
  exact ⟨s₁', decompress_of_run hrun', h₁⟩

theorem initial_expanded {t t' : Template} (e : Expansion t t') (input : In) (out : ℕ → t.Pixel) (out' : ℕ → t'.Pixel) :
    Expanded e (initial t input out) (initial t' input out') :=
  ⟨rfl, (Nat.zero_mul _).symm, fun i hi => absurd hi (Nat.not_lt_zero i)⟩

/-- The decoders that store as RGB32 what the images of another type hold. -/
inductive Direct
  | plt (f : PltFormat)
  | rgb16
  | rgb24

/-- Five bits as eight, of which the lowest three repeat the highest ones. -/
def expand5 (c : ℕ) : UInt8 := .ofNat (c * 8 + c / 4)

def expand555 (p : UInt16) : Rgb32Pixel :=
  ⟨expand5 (p.toNat % 32), expand5 (p.toNat / 32 % 32), expand5 (p.toNat / 1024 % 32), 0⟩

/-- The pixels of a byte, from its entries of the palette. -/
def expandPlt (palette : Palette) (byte : UInt8) : PltFormat → List Rgb32Pixel
  | plt8 => [copyPltEntry (palette.ents byte.toNat)]
  | plt4Be => [copyPltEntry (palette.ents (byte.toNat / 16)), copyPltEntry (palette.ents (byte.toNat % 16))]
  | plt4Le => [copyPltEntry (palette.ents (byte.toNat % 16)), copyPltEntry (palette.ents (byte.toNat / 16))]
  | plt1Be => (List.range 8).map fun i => copyPltEntry (palette.ents (byte.toNat.testBit (7 - i)).toNat)
  | plt1Le => (List.range 8).map fun i => copyPltEntry (palette.ents (byte.toNat.testBit i).toNat)

namespace Direct

def plain : Direct → Template
  | plt _ => pltToPlt
  | rgb16 => rgb16ToRgb16
  | rgb24 => rgb24ToRgb24

def toRgb32 (palette : Palette) : Direct → Template
  | plt f => f.template palette
  | rgb16 => rgb16ToRgb32
  | rgb24 => rgb32ToRgb32

def expand (palette : Palette) : (d : Direct) → d.plain.Pixel → List (d.toRgb32 palette).Pixel
  | plt plt8, byte => expandPlt palette byte plt8
  | plt plt4Be, byte => expandPlt palette byte plt4Be
  | plt plt4Le, byte => expandPlt palette byte plt4Le
  | plt plt1Be, byte => expandPlt palette byte plt1Be
  | plt plt1Le, byte => expandPlt palette byte plt1Le
  | rgb16, p => [expand555 p]
  | rgb24, p => [⟨p.b, p.g, p.r, 0⟩]

/-- `size` in `lz_decode`, for the lines as they are and for the type to be RGB32. -/
def size (height rowLen : Int) : Direct → Int
  | plt f => mulInt (mulInt height rowLen) f.pixelsPerByte.toNat
  | rgb16 | rgb24 => mulInt height rowLen

end Direct

section Pixels

theorem bit_eq (byte : UInt8) (i : Fin 8) :
    (if (byte >>> UInt8.ofNat i) &&& 1 ≠ 0 then 1 else 0) = (byte.toNat.testBit i).toNat := by
  decide +revert +kernel

/-- The shifts of the macros that take a pixel of two bytes apart, at one byte. -/
theorem shifted_eq (b : UInt8) : (b <<< 3) ||| ((b >>> 2) &&& 0x07) = expand5 (b.toNat % 32) ∧
    ((b <<< 1) &&& ~~~(0x07 : UInt8)) ||| ((b >>> 4) &&& 0x07) = expand5 (b.toNat / 4 % 32) ∧
    (b <<< 6) &&& ~~~(0x07 : UInt8) = .ofNat (b.toNat % 4 * 64) ∧
    (b >>> 2) &&& ~~~(0x07 : UInt8) = .ofNat (b.toNat / 32 * 8) := by
  decide +revert +kernel

variable {palette : Palette}

theorem plt4Entry_eq (h : palette.numEnts = 256) (bits : UInt8) :
    plt4Entry palette bits = some (copyPltEntry (palette.ents bits.toNat)) := by
  have hlt : bits.toNat % 256 = bits.toNat := Nat.mod_eq_of_lt bits.toNat_lt
  rw [plt4Entry, h, if_neg (by decide)]
  exact congrArg (fun i => some (copyPltEntry (palette.ents i))) hlt

theorem high_nibble (byte : UInt8) : ((byte >>> 4) &&& 0x0f).toNat = byte.toNat / 16 := by
  rw [UInt8.toNat_and, UInt8.toNat_shiftRight]
  change byte.toNat >>> 4 &&& 15 = byte.toNat / 16
  have hlt := byte.toNat_lt
  rw [Nat.shiftRight_eq_div_pow]
  exact (Nat.and_two_pow_sub_one_eq_mod _ 4).trans (Nat.mod_eq_of_lt (by omega))

theorem low_nibble (byte : UInt8) : (byte &&& 0x0f).toNat = byte.toNat % 16 := by
  rw [UInt8.toNat_and]
  exact Nat.and_two_pow_sub_one_eq_mod _ 4

theorem plt4ToRgb32_comp (h : palette.numEnts = 256) (first second : UInt8 → UInt8) (bs : List UInt8) :
    (plt4ToRgb32 palette first second).comp bs = some [copyPltEntry (palette.ents (first (bs.getD 0 0)).toNat),
      copyPltEntry (palette.ents (second (bs.getD 0 0)).toNat)] := by
  change (plt4Entry palette (first (bs.getD 0 0))).bind (fun p =>
    (plt4Entry palette (second (bs.getD 0 0))).bind fun q => some [p, q]) = _
  rw [plt4Entry_eq h, plt4Entry_eq h]
  rfl

/-- Two bits of the green come from the one byte and three from the other. -/
theorem green_eq (r b : UInt8) : ((r <<< 6) ||| (b >>> 2)) &&& ~~~(0x07 : UInt8) = .ofNat ((r.toNat % 4 * 8 + b.toNat / 32) * 8) := by
  have hor (i : Fin 4) (j : Fin 8) : UInt8.ofNat (i * 64) ||| .ofNat (j * 8) = .ofNat ((i * 8 + j) * 8) := by
    decide +revert
  have hlt := b.toNat_lt
  have hdistrib : ((r <<< 6) ||| (b >>> 2)) &&& ~~~(0x07 : UInt8) =
      ((r <<< 6) &&& ~~~(0x07 : UInt8)) ||| ((b >>> 2) &&& ~~~(0x07 : UInt8)) :=
    UInt8.toBitVec_inj.mp BitVec.and_or_distrib_right
  rw [hdistrib, (shifted_eq r).2.2.1, (shifted_eq b).2.2.2]
  exact hor ⟨r.toNat % 4, Nat.mod_lt _ (by decide)⟩ ⟨b.toNat / 32, by omega⟩

theorem green_expand (c : Fin 32) : UInt8.ofNat (c * 8) ||| UInt8.ofNat (c * 8) >>> 5 = expand5 c := by
  decide +revert

theorem expandRgb16_eq (r b : UInt8) : expandRgb16 r b = expand555 (r.toUInt16 <<< 8 ||| b.toUInt16) := by
  have hp : (r.toUInt16 <<< 8 ||| b.toUInt16).toNat = r.toNat * 256 + b.toNat := by
    have hr := r.toNat_lt
    rw [UInt16.toNat_or, UInt16.toNat_shiftLeft, UInt8.toNat_toUInt16, UInt8.toNat_toUInt16]
    change r.toNat <<< 8 % 2 ^ 16 ||| b.toNat = _
    rw [Nat.shiftLeft_eq, Nat.mod_eq_of_lt (by omega), mul_comm]
    exact (Nat.two_pow_add_eq_or_of_lt (i := 8) b.toNat_lt r.toNat).symm
  have hlt := b.toNat_lt
  have hblue : (r.toNat * 256 + b.toNat) % 32 = b.toNat % 32 := by omega
  have hgreen : (r.toNat * 256 + b.toNat) / 32 % 32 = r.toNat % 4 * 8 + b.toNat / 32 := by omega
  have hred : (r.toNat * 256 + b.toNat) / 1024 % 32 = r.toNat / 4 % 32 := by omega
  rw [expand555, hp, hblue, hgreen, hred, ← (shifted_eq b).1, ← (shifted_eq r).2.1,
    ← green_expand ⟨r.toNat % 4 * 8 + b.toNat / 32, by omega⟩, expandRgb16, green_eq]

theorem plt1ToRgb32_comp (order : Fin 8 → UInt8) (place : ℕ → ℕ)
    (h : ∀ i : Fin 8, order i = .ofNat (place i) ∧ place i < 8) (bs : List UInt8) : (plt1ToRgb32 palette order).comp bs =
      some ((List.range 8).map fun i => copyPltEntry (palette.ents ((bs.getD 0 0).toNat.testBit (place i)).toNat)) := by
  have hrange : List.range 8 = (List.finRange 8).map Fin.val := by decide
  rw [hrange, List.map_map]
  refine congrArg some (List.map_congr_left fun i _ => congrArg (fun n => copyPltEntry (palette.ents n)) ?_)
  rw [(h i).1]
  exact bit_eq _ ⟨place i, (h i).2⟩

end Pixels

namespace Direct

variable {palette : Palette}

theorem plt_comp (h : palette.numEnts = 256) (f : PltFormat) (bs : List UInt8) :
    ((plt f).toRgb32 palette).comp bs = some (expand palette (plt f) (bs.getD 0 0 : UInt8)) := by
  cases f with
  | plt8 => rfl
  | plt4Be =>
    refine (plt4ToRgb32_comp h (fun byte => (byte >>> 4) &&& 0x0f) (· &&& 0x0f) bs).trans ?_
    rw [high_nibble, low_nibble]
    rfl
  | plt4Le =>
    refine (plt4ToRgb32_comp h (· &&& 0x0f) (fun byte => (byte >>> 4) &&& 0x0f) bs).trans ?_
    rw [high_nibble, low_nibble]
    rfl
  | plt1Be => exact plt1ToRgb32_comp (fun i => UInt8.ofNat (7 - i)) (fun i => 7 - i) (by decide) bs
  | plt1Le => exact plt1ToRgb32_comp (fun i => UInt8.ofNat i) (fun i => i) (by decide) bs

theorem rgb16_comp (bs : List UInt8) : rgb16ToRgb32.comp bs =
    some [expand555 ((bs.getD 0 0).toUInt16 <<< 8 ||| (bs.getD 1 0).toUInt16)] :=
  congrArg (fun p => some [p]) (expandRgb16_eq _ _)

theorem comp_eq (h : palette.numEnts = 256) (d : Direct) (bs : List UInt8) :
    ∃ p, d.plain.comp bs = some [p] ∧ (d.toRgb32 palette).comp bs = some (d.expand palette p) := by
  cases d with
  | plt f => exact ⟨_, rfl, plt_comp h f bs⟩
  | rgb16 => exact ⟨_, rfl, rgb16_comp bs⟩
  | rgb24 => exact ⟨_, rfl, rfl⟩

variable (palette) in
/-- Every one of the decoders to RGB32 puts what the palette or the bits of a pixel say. -/
def expansion (h : palette.numEnts = 256) (d : Direct) : Expansion d.plain (d.toRgb32 palette) where
  expand := d.expand palette
  length p := by
    cases d with
    | plt f => cases f <;> rfl
    | rgb16 | rgb24 => rfl
  scale := by cases d <;> rfl
  bytes := by
    cases d with
    | plt f => cases f <;> rfl
    | rgb16 | rgb24 => rfl
  lenBias := by
    cases d with
    | plt f => cases f <;> rfl
    | rgb16 | rgb24 => rfl
  put _ _ := by cases d <;> rfl
  put' _ _ := by
    cases d with
    | plt f => cases f <;> rfl
    | rgb16 | rgb24 => rfl
  comp := comp_eq h d

theorem mulInt_bounds (a b : Int) : -2 ^ 31 ≤ mulInt a b ∧ mulInt a b < 2 ^ 31 := by
  have hlow := Int.le_bmod (x := a * b) (m := 2 ^ 32) (by norm_num)
  have hhigh := Int.bmod_lt (x := a * b) (m := 2 ^ 32) (by norm_num)
  rw [mulInt]
  norm_num at hlow hhigh ⊢
  omega

theorem size_lt (d : Direct) (height rowLen : Int) : d.size height rowLen < 2 ^ 31 := by
  cases d with
  | plt f => exact (mulInt_bounds _ _).2
  | rgb16 | rgb24 => exact (mulInt_bounds _ _).2

variable (palette) in
theorem scale_eq (f : PltFormat) : ((plt f).toRgb32 palette).scale = f.pixelsPerByte := f.template_scale palette

/-- The size is right as long as an `int` holds it. -/
theorem size_eq {d : Direct} {height rowLen : Int} (hpos : 0 ≤ mulInt height rowLen)
    (h : mulInt height rowLen * (d.toRgb32 palette).scale.toNat < 2 ^ 31) :
    d.size height rowLen = mulInt height rowLen * (d.toRgb32 palette).scale.toNat := by
  cases d with
  | plt f =>
    rw [scale_eq] at h ⊢
    have hmul : 0 ≤ mulInt height rowLen * f.pixelsPerByte.toNat := Int.mul_nonneg hpos (Int.natCast_nonneg _)
    exact Int.bmod_eq_of_le (by norm_num; omega) (by norm_num; omega)
  | rgb16 | rgb24 => exact (Int.mul_one _).symm

section Commutes

variable {d : Direct} {height rowLen : Int} {input : In} {out : ℕ → d.plain.Pixel} {n : ℕ} {s₁ : DecoderState d.plain.Pixel}

theorem commutes (h : palette.numEnts = 256)
    (hrun : decompress d.plain (mulInt height rowLen) (initial d.plain input out) = .ok n s₁)
    (hsize : mulInt height rowLen * (d.toRgb32 palette).scale.toNat < 2 ^ 31) (out' : ℕ → (d.toRgb32 palette).Pixel) :
    ∃ s₁', decompress (d.toRgb32 palette) (d.size height rowLen) (initial _ input out') = .ok s₁'.op s₁' ∧
      s₁'.input = s₁.input ∧ s₁'.pixels = s₁.pixels.flatMap (d.expand palette) := by
  have hsafe := (decompress_safe d.plain (mulInt height rowLen) input out).complete n (by rw [hrun]; rfl)
  rw [size_eq (by omega) hsize]
  obtain ⟨s₁', hrun', hexpanded⟩ :=
    decompress_expanded (initial_expanded (expansion palette h d) input out out') (by omega) hrun
  exact ⟨s₁', hrun', hexpanded.input, hexpanded.pixels⟩

/-- The decoder to RGB32 accepts what the plain one accepts, with the same pixels, unless their number does not fit into
an `int`. -/
theorem commutes_iff (h : palette.numEnts = 256)
    (hrun : decompress d.plain (mulInt height rowLen) (initial d.plain input out) = .ok n s₁)
    (out' : ℕ → (d.toRgb32 palette).Pixel) :
    (∃ n' s₁', decompress (d.toRgb32 palette) (d.size height rowLen) (initial _ input out') = .ok n' s₁' ∧
      s₁'.input = s₁.input ∧ s₁'.pixels = s₁.pixels.flatMap (d.expand palette)) ↔
      mulInt height rowLen * (d.toRgb32 palette).scale.toNat < 2 ^ 31 := by
  constructor
  · rintro ⟨n', s₁', hrun', -, hpixels⟩
    have hplain := (decompress_safe d.plain (mulInt height rowLen) input out).complete n (by rw [hrun]; rfl)
    have hdirect := (decompress_safe _ (d.size height rowLen) input out').complete n' (by rw [hrun']; rfl)
    have hexpand : s₁'.op = s₁.op * (d.toRgb32 palette).scale.toNat := by
      have hlength := congrArg List.length hpixels
      have hunit (p : d.plain.Pixel) : (d.expand palette p).length = (d.toRgb32 palette).scale.toNat :=
        (expansion palette h d).length p
      rwa [DecoderState.pixels, DecoderState.pixels, List.length_flatMap, List.map_congr_left fun p _ => hunit p,
        List.map_const', List.sum_replicate, List.length_map, List.length_map, List.length_range, List.length_range] at hlength
    rw [← hplain.1, (decompress_run hrun).1, ← Nat.cast_mul, ← hexpand, ← (decompress_run hrun').1, hdirect.1]
    exact size_lt d height rowLen
  · intro hsize
    obtain ⟨s₁', hrun', hinput, hpixels⟩ := commutes h hrun hsize out'
    exact ⟨_, s₁', hrun', hinput, hpixels⟩

end Commutes

/-- A palette of every entry, of which the two first ones are black and white. -/
def blackWhite : Palette := ⟨256, fun i => if i = 0 then 0 else 0xffffff⟩

theorem commutes_iff_two_bytes : ∃ n s₁,
    decompress pltToPlt (mulInt 1 2) (initial pltToPlt ⟨[1, 0xa5, 0x0f], []⟩ fun _ => (0 : UInt8)) = .ok n s₁ ∧
      ∃ n' s₁', decompress (plt1BeToRgb32 blackWhite) (size 1 2 (plt plt1Be))
          (initial _ ⟨[1, 0xa5, 0x0f], []⟩ fun _ => (⟨0, 0, 0, 0⟩ : Rgb32Pixel)) = .ok n' s₁' ∧
        s₁'.input = s₁.input ∧ s₁'.pixels = s₁.pixels.flatMap (expand blackWhite (plt plt1Be)) := by
  have hok : outcome (decompress pltToPlt (mulInt 1 2) (initial pltToPlt ⟨[1, 0xa5, 0x0f], []⟩ fun _ => (0 : UInt8))) =
      .ok 2 := by decide
  cases hrun : decompress pltToPlt (mulInt 1 2) (initial pltToPlt ⟨[1, 0xa5, 0x0f], []⟩ fun _ => (0 : UInt8)) with
  | error e s =>
    rw [hrun] at hok
    cases hok
  | ok n s => exact ⟨n, s, rfl, (commutes_iff (d := plt plt1Be) rfl hrun _).mpr (by decide)⟩

section Overflow

variable {bs : List UInt8} {size : Int} {s : DecoderState UInt8}

/-- A run of the pixel before is read back as `len + 2` pixels. -/
theorem reference_matchBytes {len : ℕ} (hlen : 0 < len) (hlt : len + 2 < 2 ^ 32) {c : UInt8}
    (hm : matchBytes len 0 = c :: bs) (hf : s.input.Full) (h : s.input.bytes = bs) (hop : 1 ≤ s.op)
    (hroom : (s.op : Int) + (len + 2 : ℕ) ≤ size) :
    c.toUInt32 ≥ 32 ∧ ∃ s₁, reference pltToPlt size c.toUInt32 s = .ok ⟨⟩ s₁ ∧ s₁.op = s.op + (len + 2) := by
  rw [matchBytes_eq, List.cons_eq_cons] at hm
  obtain ⟨rfl, rfl⟩ := hm
  have hto : (UInt8.ofNat (min len 7 * 32 + distanceBits 0)).toUInt32.toNat = min len 7 * 32 :=
    toNat_ofNat_of_lt (by change min len 7 * 32 + 0 < 256; omega)
  generalize hc : (UInt8.ofNat (min len 7 * 32 + distanceBits 0)).toUInt32 = ctrl at hto
  have hge : ctrl ≥ 32 := by
    rw [ge_iff_le, UInt32.le_iff_toNat_le, hto]
    change 32 ≤ _
    omega
  obtain ⟨i₁, e₁, h₁, f₁⟩ := decodeMatchLen_lenBytes hf h
  obtain ⟨i₂, e₂, h₂, f₂⟩ := decodeDistance_distanceBytes (r := []) (by decide) f₁ (h₁.trans (List.append_nil _).symm)
  have hlength := ReadsAs.run (matchLength_readsAs (t := pltToPlt) hge s)
    (by rw [hto, Nat.mul_div_cancel _ (by decide)]; exact e₁)
  have hdistance := ReadsAs.run (matchDistance_readsAs (t := pltToPlt) ctrl { s with input := i₁ })
    (by rw [hto, Nat.mul_mod_left]; exact e₂)
  have htotal : ((UInt32.ofNat (len - 1) + 3) * 1).toNat = len + 2 := by
    rw [UInt32.mul_one, UInt32.toNat_add, UInt32.toNat_ofNat_of_lt' (lt_of_le_of_lt (Nat.sub_le _ _) (by
      change len < 2 ^ 32; omega))]
    simp only [UInt32.reduceToNat]
    omega
  obtain ⟨s₁, hrun, hplace⟩ := @copyMatch_run pltToPlt size ((UInt32.ofNat (len - 1) + 3) * 1)
    ((UInt32.ofNat 0 + 1) * 1) { s with input := i₂ } (by rw [htotal]; exact hroom) hop
  refine ⟨hge, s₁, ?_, ?_⟩
  · simp only [reference, bind, EStateM.bind, hlength, hdistance]
    exact hrun
  · have hop' := congrArg Place.op hplace
    rw [htotal] at hop'
    exact hop'

theorem decompressRounds_step {t : Template} {size : Int} {s s₁ : DecoderState t.Pixel} {ctrl : UInt32} (n : ℕ)
    (h : (if ctrl ≥ 32 then reference t size ctrl else literals t size ctrl) s = .ok () s₁) :
    decompressRounds t size (n + 1) ctrl s =
      (if (s₁.op : Int) < size then decodeByte t >>= fun next => decompressRounds t size n next.toUInt32
        else pure ()) s₁ := by
  rw [decompressRounds]
  by_cases hc : ctrl ≥ 32
  · rw [if_pos hc] at h ⊢
    simp only [bind, EStateM.bind, h]
    rfl
  · rw [if_neg hc] at h ⊢
    simp only [bind, EStateM.bind, h]
    rfl

theorem literals_one {bs : List UInt8} {out : ℕ → UInt8} (hsize : 1 ≤ size) (b : UInt8) :
    literals pltToPlt size 0 ⟨⟨b :: bs, []⟩, 0, out, []⟩ =
      .ok () ⟨⟨bs, []⟩, 1, Function.update out 0 b, [.write 0]⟩ := by
  have hroom : decoderAssert pltToPlt (((0 : ℕ) : Int) + (((0 : UInt32) + 1) * 1).toNat ≤ size) = pure () :=
    if_pos (by simpa using hsize)
  have hlimit : assertLimit pltToPlt size ⟨⟨bs, []⟩, 1, Function.update out 0 b, [.write 0]⟩ =
      .ok () ⟨⟨bs, []⟩, 1, Function.update out 0 b, [.write 0]⟩ := assertLimit_run (by simpa using hsize)
  change (decoderAssert pltToPlt (((0 : ℕ) : Int) + (((0 : UInt32) + 1) * 1).toNat ≤ size) >>= fun _ =>
    copyComps pltToPlt size 1) ⟨⟨b :: bs, []⟩, 0, out, []⟩ = _
  rw [hroom]
  change (assertLimit pltToPlt size >>= fun _ => pure ()) ⟨⟨bs, []⟩, 1, Function.update out 0 b, [.write 0]⟩ = _
  simp only [bind, EStateM.bind, hlimit]
  rfl

/-- A pixel and a run of it: the plain decoder accepts the stream, however long the run is. -/
theorem run_accepted {len : ℕ} (hlen : 0 < len) (hlt : len + 2 < 2 ^ 32) (out : ℕ → UInt8) :
    ∃ n s₁, decompress pltToPlt (len + 3 : ℕ) (initial pltToPlt ⟨0 :: 0 :: matchBytes len 0, []⟩ out) = .ok n s₁ := by
  obtain ⟨c, bs, hm⟩ : ∃ c bs, matchBytes len 0 = c :: bs := ⟨_, _, matchBytes_eq len 0⟩
  let first : DecoderState UInt8 := ⟨⟨bs, []⟩, 1, Function.update out 0 0, [.write 0]⟩
  have hroom : (first.op : Int) + (len + 2 : ℕ) ≤ (len + 3 : ℕ) := by
    dsimp only [first]
    omega
  obtain ⟨hge, s₁, hrun, hop⟩ := reference_matchBytes (s := first) hlen hlt hm (fun _ h => absurd h List.not_mem_nil)
    (List.append_nil bs) le_rfl hroom
  rw [hm]
  refine ⟨_, s₁, decompress_of_run ?_⟩
  have hfuel : (initial pltToPlt ⟨0 :: 0 :: c :: bs, []⟩ out).input.bytes.length + 1 = bs.length + 2 + 1 + 1 := by
    simp only [initial, In.bytes, List.length_append, List.length_cons, List.flatten_nil, List.length_nil]
  have hstart : decompressRounds pltToPlt (len + 3 : ℕ) (bs.length + 2 + 1 + 1) 0 ⟨⟨0 :: c :: bs, []⟩, 0, out, []⟩ =
      decompressRounds pltToPlt (len + 3 : ℕ) (bs.length + 2 + 1) c.toUInt32 first := by
    have hone : (1 : Int) ≤ (len + 3 : ℕ) := by omega
    have hmore : ((1 : ℕ) : Int) < (len + 3 : ℕ) := by omega
    refine (@decompressRounds_step pltToPlt _ _ _ 0 _ (literals_one hone 0)).trans ?_
    rw [if_pos hmore]
    rfl
  have hlast : ¬(s₁.op : Int) < (len + 3 : ℕ) := by
    rw [hop]
    dsimp only [first]
    omega
  have hstep : (if c.toUInt32 ≥ 32 then reference pltToPlt (len + 3 : ℕ) c.toUInt32
      else literals pltToPlt (len + 3 : ℕ) c.toUInt32) first = .ok () s₁ := by
    rw [if_pos hge]
    exact hrun
  have hend := decompressRounds_step (bs.length + 2) hstep
  rw [if_neg hlast] at hend
  rw [hfuel]
  exact hstart.trans hend

/-- Of an image of 2^14 lines of 2^17 pixels that are one bit each, the plain decoder accepts the stream of one run, and
there are too many pixels for the `int` that the decoder to RGB32 is called with. -/
theorem not_commutes : ¬∀ (d : Direct) (palette : Palette) (height rowLen : Int) (input : In) (out : ℕ → d.plain.Pixel)
    (n : ℕ) (s₁ : DecoderState d.plain.Pixel), palette.numEnts = 256 →
    decompress d.plain (mulInt height rowLen) (initial d.plain input out) = .ok n s₁ →
    ∀ out' : ℕ → (d.toRgb32 palette).Pixel, ∃ n' s₁',
      decompress (d.toRgb32 palette) (d.size height rowLen) (initial _ input out') = .ok n' s₁' ∧
        s₁'.input = s₁.input ∧ s₁'.pixels = s₁.pixels.flatMap (d.expand palette) := by
  intro hclaim
  have hsize : mulInt 16384 16384 = (268435453 + 3 : ℕ) := by decide
  have hdirect : Direct.size 16384 16384 (plt plt1Be) = -2 ^ 31 := by decide
  obtain ⟨n, s₁, hrun⟩ := @run_accepted 268435453 (by decide) (by decide) fun _ => (0 : UInt8)
  rw [← hsize] at hrun
  obtain ⟨n', s₁', hrun', -, -⟩ := hclaim (plt plt1Be) blackWhite 16384 16384 _ _ n s₁ rfl hrun
    fun _ => (⟨0, 0, 0, 0⟩ : Rgb32Pixel)
  have hcomplete := (decompress_safe _ _ _ _).complete n' (congrArg outcome hrun')
  rw [hdirect] at hcomplete
  have hnonneg := hcomplete.1
  omega

end Overflow

end Direct

end Colama.Spice.Lz.Decoder
