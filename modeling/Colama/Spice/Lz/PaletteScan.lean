import Colama.Spice.Lz.Decompress
import Colama.Spice.Lz.PaletteLookups

namespace Colama.Spice.Lz.Decoder

open Lib Template PltFormat

/-- What the way of a decoder through its input depends on. -/
structure Place where
  input : In
  op : Nat

def DecoderState.place {Pixel : Type} (s : DecoderState Pixel) : Place := ⟨s.input, s.op⟩

def parse {α : Type} (f : In → Except Error (α × In)) : Scan UInt8 Place α := fun u =>
  match f u.input with
  | .ok (a, i) => ([], some (a, ⟨i, u.op⟩))
  | .error _ => ([], none)

-- `scale` are the pixels of a unit
variable (scale : UInt32) (size : Int)

def forward (n : Nat) : Scan UInt8 Place PUnit := Scan.move fun u => ⟨u.input, u.op + n⟩

/-- The byte of a unit, and its pixels. -/
def scanUnit : Scan UInt8 Place PUnit := do
  let byte ← parse decode
  Scan.emit byte
  forward scale.toNat

def scanLimit : Scan UInt8 Place PUnit := do
  let u ← Scan.look
  if (u.op : Int) ≤ size then pure ⟨⟩ else Scan.stop

def scanUnits : Nat → Scan UInt8 Place PUnit
  | 0 => pure ⟨⟩
  | n + 1 => do
    scanUnit scale
    scanLimit size
    scanUnits n

def scanLiterals (ctrl : UInt32) : Scan UInt8 Place PUnit := do
  let u ← Scan.look
  if (u.op : Int) + ((ctrl + 1) * scale).toNat ≤ size then scanUnits scale size (ctrl + 1).toNat else Scan.stop

def scanMatch (len ofs : UInt32) : Scan UInt8 Place PUnit := do
  let u ← Scan.look
  if (u.op : Int) + len.toNat ≤ size ∧ ofs.toNat ≤ u.op then forward len.toNat else Scan.stop

def scanReference (ctrl : UInt32) : Scan UInt8 Place PUnit := do
  let len ← UInt32.ofNat <$> parse (decodeMatchLen (ctrl.toNat / 32 - 1))
  let ofs ← UInt32.ofNat <$> parse (decodeDistance (ctrl.toNat % 32 * 256))
  scanMatch size ((len + 3) * scale) ((ofs + 1) * scale)

def scanRounds : Nat → UInt32 → Scan UInt8 Place PUnit
  | 0, _ => Scan.stop
  | n + 1, ctrl => do
    if ctrl ≥ 32 then scanReference scale size ctrl else scanLiterals scale size ctrl
    let u ← Scan.look
    if (u.op : Int) < size then do
      let next ← parse decode
      scanRounds n next.toUInt32
    else pure ⟨⟩

def scanStream : Scan UInt8 Place Nat := do
  let u ← Scan.look
  let ctrl ← parse decode
  scanRounds scale size (u.input.bytes.length + 1) ctrl.toUInt32
  return (← Scan.look).op

/-- The bytes that the stream has for the units it does not refer to, as far as it is decoded. -/
def literalBytes (input : In) : List UInt8 := (scanStream scale size ⟨input, 0⟩).1

section Guards

variable {t : Template} {size : Int} {ok : UInt8 → Prop} [DecidablePred ok] {s : DecoderState t.Pixel}

theorem decode_fault {i : In} {e : Error} (h : decode i = .error e) : e ≠ .fault := by
  match i with
  | ⟨c :: cur, more⟩ => cases h
  | ⟨[], (c :: cur) :: more⟩ => cases h
  | ⟨[], [] :: more⟩ => cases h; nofun
  | ⟨[], []⟩ => cases h; nofun

omit [DecidablePred ok] in
theorem decodeByte_guards :
    Guards DecoderState.place ok .fault s (decodeByte t) (decodeByte t) (parse decode) := by
  cases hd : decode s.input with
  | ok r =>
    have hrun : decodeByte t s = .ok r.1 { s with input := r.2 } := by rw [decodeByte, hd]
    refine .of_ok hrun ?_
    rw [parse, DecoderState.place, hd]
    rfl
  | error e =>
    have hrun : decodeByte t s = .error e s := by rw [decodeByte, hd]
    exact .of_error hrun (decode_fault hd) (by rw [parse, DecoderState.place, hd])

/-- The state when `p` has been stored. -/
def DecoderState.stored (s : DecoderState t.Pixel) (p : t.Pixel) : DecoderState t.Pixel :=
  ⟨s.input, s.op + 1, Function.update s.out s.op (t.put (s.out s.op) p), s.trace ++ [.write s.op]⟩

def DecoderState.copied (s : DecoderState t.Pixel) (ref : Nat) : DecoderState t.Pixel :=
  DecoderState.stored { s with trace := s.trace ++ [.read ref] } (s.out ref)

theorem stored_le (s : DecoderState t.Pixel) (p : t.Pixel) {n : Nat} (h : (s.op : Int) + (n + 1 : Nat) ≤ size) :
    ((s.stored p).op : Int) + n ≤ size := by
  dsimp only [DecoderState.stored]
  omega

theorem storeAll_run (ps : List t.Pixel) (s : DecoderState t.Pixel) :
    ∃ s', storeAll t ps s = .ok ⟨⟩ s' ∧ s'.place = ⟨s.input, s.op + ps.length⟩ := by
  induction ps generalizing s with
  | nil => exact ⟨s, rfl, rfl⟩
  | cons p ps ih =>
    obtain ⟨s', hrun, hplace⟩ := ih (s.stored p)
    refine ⟨s', hrun, ?_⟩
    rw [hplace, List.length_cons, Nat.add_comm ps.length, ← Nat.add_assoc]
    rfl

omit [DecidablePred ok] in
theorem forward_guards {x : Dec t PUnit} {s' : DecoderState t.Pixel} {n : Nat} (hrun : x s = .ok ⟨⟩ s')
    (hplace : s'.place = ⟨s.input, s.op + n⟩) : Guards DecoderState.place ok .fault s x x (forward n) :=
  .of_ok hrun (by rw [hplace]; rfl)

theorem copyCompPixel_eq (h : t.bytes = 1) (hf : t.fieldwise = false) : copyCompPixel t = (do
    let byte ← decodeByte t
    match t.comp [byte] with
    | none => throw .fault
    | some ps => storeAll t ps) := by
  rw [copyCompPixel]
  simp only [hf, h, Bool.false_eq_true, if_false]
  rfl

theorem storeAll_guard (ps : List t.Pixel) : storeAll (t.guard fun bs => ok (bs.getD 0 0)) ps = storeAll t ps := by
  induction ps with
  | nil => rfl
  | cons p ps ih => exact congrArg (fun rest => touch t >>= fun _ => store t p >>= fun _ => rest) ih

/-- A unit whose byte is not good stops the checked decoder. -/
theorem copyCompPixel_guards (h : OneByte t) :
    Guards DecoderState.place ok .fault s (copyCompPixel (t.guard fun bs => ok (bs.getD 0 0))) (copyCompPixel t)
      (scanUnit t.scale) := by
  rw [copyCompPixel_eq h.bytes h.whole]
  have hguard := copyCompPixel_eq (t := t.guard fun bs => ok (bs.getD 0 0)) h.bytes h.whole
  rw [hguard]
  refine .seq decodeByte_guards fun byte s' _ => ?_
  obtain ⟨ps, hps⟩ := h.total byte
  obtain ⟨s'', hrun, hplace⟩ := storeAll_run ps s'
  rw [t.comp_length hps] at hplace
  have hcomp : (t.guard fun bs => ok (bs.getD 0 0)).comp [byte] = if ok byte then some ps else none := by
    rw [← hps]
    rfl
  rw [hps, hcomp]
  refine .check (fun hok => ?_) (fun hbad s => ?_) (forward_guards hrun hplace)
  · rw [if_pos hok]
    exact storeAll_guard ps
  · rw [if_neg hbad]
    rfl

omit [DecidablePred ok] in
theorem assertLimit_guards :
    Guards DecoderState.place ok .fault s (assertLimit t size) (assertLimit t size) (scanLimit size) := by
  refine .read (.split Iff.rfl (fun _ => .ret _) fun _ => .raise nofun)

theorem copyComps_guards (h : OneByte t) (n : Nat) : 
    Guards DecoderState.place ok .fault s (copyComps (t.guard fun bs => ok (bs.getD 0 0)) size n) (copyComps t size n)
      (scanUnits t.scale size n) := by
  induction n generalizing s with
  | zero => exact .ret _
  | succ n ih => exact .seq (copyCompPixel_guards h) fun _ _ _ => .seq assertLimit_guards fun _ _ _ => ih

omit [DecidablePred ok] in
theorem decoderAssert_guards {p : Prop} [Decidable p] {x y : Dec t PUnit} {g : Scan UInt8 Place PUnit}
    (h : p → Guards DecoderState.place ok .fault s x y g) :
    Guards DecoderState.place ok .fault s (do decoderAssert t p; x) (do decoderAssert t p; y)
      (if p then g else Scan.stop) := by
  by_cases hp : p
  · rw [decoderAssert, if_pos hp, if_pos hp]
    exact h hp
  · rw [decoderAssert, if_neg hp, if_neg hp]
    exact .raise (by rintro ⟨⟩)

theorem literals_guards (h : OneByte t) (ctrl : UInt32) :
    Guards DecoderState.place ok .fault s (literals (t.guard fun bs => ok (bs.getD 0 0)) size ctrl)
      (literals t size ctrl) (scanLiterals t.scale size ctrl) :=
  .read (decoderAssert_guards fun _ => copyComps_guards h _)

theorem assertLimit_run {s : DecoderState t.Pixel} (h : (s.op : Int) ≤ size) : assertLimit t size s = .ok ⟨⟩ s := by
  change decoderAssert t _ s = _
  rw [decoderAssert, if_pos h]
  rfl

theorem copyRunOf_succ (b : t.Pixel) {n : Nat} (h : (s.op : Int) + (n + 1 : Nat) ≤ size) :
    copyRunOf t size b (n + 1) s = copyRunOf t size b n (s.stored b) := by
  change (assertLimit t size >>= fun _ => copyRunOf t size b n) (s.stored b) = _
  simp only [bind, EStateM.bind, assertLimit_run ((Int.le_add_of_nonneg_right n.cast_nonneg).trans (stored_le s b h))]

theorem copyFrom_succ (ref : Nat) {n : Nat} (h : (s.op : Int) + (n + 1 : Nat) ≤ size) :
    copyFrom t size (n + 1) ref s = copyFrom t size n (ref + 1) (s.copied ref) := by
  have hlimit : assertLimit t size (s.copied ref) = .ok ⟨⟩ (s.copied ref) :=
    assertLimit_run ((Int.le_add_of_nonneg_right n.cast_nonneg).trans (stored_le _ _ h))
  change (assertLimit t size >>= fun _ => copyFrom t size n (ref + 1)) (s.copied ref) = _
  simp only [bind, EStateM.bind, hlimit]

theorem copyRunOf_run (b : t.Pixel) (n : Nat) (s : DecoderState t.Pixel) (h : (s.op : Int) + n ≤ size) :
    ∃ s', copyRunOf t size b n s = .ok ⟨⟩ s' ∧ s'.place = ⟨s.input, s.op + n⟩ := by
  induction n generalizing s with
  | zero => exact ⟨s, rfl, rfl⟩
  | succ n ih =>
    obtain ⟨s', hrun, hplace⟩ := ih (s.stored b) (stored_le s b h)
    refine ⟨s', (copyRunOf_succ b h).trans hrun, ?_⟩
    rw [hplace, Nat.add_comm n, ← Nat.add_assoc]
    rfl

theorem copyFrom_run (n ref : Nat) (s : DecoderState t.Pixel) (h : (s.op : Int) + n ≤ size) :
    ∃ s', copyFrom t size n ref s = .ok ⟨⟩ s' ∧ s'.place = ⟨s.input, s.op + n⟩ := by
  induction n generalizing s ref with
  | zero => exact ⟨s, rfl, rfl⟩
  | succ n ih =>
    obtain ⟨s', hrun, hplace⟩ := ih (ref + 1) (s.copied ref) (stored_le _ _ h)
    refine ⟨s', (copyFrom_succ ref h).trans hrun, ?_⟩
    rw [hplace, Nat.add_comm n, ← Nat.add_assoc]
    rfl

theorem copyMatch_eq {len ofs : UInt32} {s : DecoderState t.Pixel} (hroom : (s.op : Int) + len.toNat ≤ size)
    (hback : ofs.toNat ≤ s.op) : copyMatch t size len ofs s =
      (if (s.op : Int) - ofs.toNat = s.op - 1 then do
        let b ← readPixel t ((s.op : Int) - ofs.toNat).toNat
        copyRunOf t size b len.toNat
      else copyFrom t size len.toNat ((s.op : Int) - ofs.toNat).toNat) s := by
  have h₁ : decoderAssert t ((s.op : Int) + len.toNat ≤ size) = pure ⟨⟩ := if_pos hroom
  have h₂ : decoderAssert t ((s.op : Int) - ofs.toNat + len.toNat ≤ size) = pure ⟨⟩ := if_pos (by omega)
  have h₃ : decoderAssert t (0 ≤ (s.op : Int) - ofs.toNat) = pure ⟨⟩ := if_pos (by omega)
  change ((decoderAssert t ((s.op : Int) + len.toNat ≤ size)) >>= fun _ =>
    decoderAssert t ((s.op : Int) - ofs.toNat + len.toNat ≤ size) >>= fun _ =>
    decoderAssert t (0 ≤ (s.op : Int) - ofs.toNat) >>= fun _ => _) s = _
  rw [h₁, h₂, h₃]
  rfl

theorem copyMatch_run {len ofs : UInt32} {s : DecoderState t.Pixel} (hroom : (s.op : Int) + len.toNat ≤ size)
    (hback : ofs.toNat ≤ s.op) :
    ∃ s', copyMatch t size len ofs s = .ok ⟨⟩ s' ∧ s'.place = ⟨s.input, s.op + len.toNat⟩ := by
  rw [copyMatch_eq hroom hback]
  by_cases hone : (s.op : Int) - ofs.toNat = s.op - 1
  · rw [if_pos hone]
    exact copyRunOf_run _ _ { s with trace := s.trace ++ [Event.read _] } hroom
  · rw [if_neg hone]
    exact copyFrom_run _ _ _ hroom

theorem copyMatch_stop {len ofs : UInt32} {s : DecoderState t.Pixel}
    (h : ¬((s.op : Int) + len.toNat ≤ size ∧ ofs.toNat ≤ s.op)) :
    copyMatch t size len ofs s = .error .assertFailed s := by
  change ((decoderAssert t ((s.op : Int) + len.toNat ≤ size)) >>= fun _ =>
    decoderAssert t ((s.op : Int) - ofs.toNat + len.toNat ≤ size) >>= fun _ =>
    decoderAssert t (0 ≤ (s.op : Int) - ofs.toNat) >>= fun _ => _) s = _
  by_cases hroom : (s.op : Int) + len.toNat ≤ size
  · have h₁ : decoderAssert t ((s.op : Int) + len.toNat ≤ size) = pure ⟨⟩ := if_pos hroom
    have h₂ : decoderAssert t ((s.op : Int) - ofs.toNat + len.toNat ≤ size) = pure ⟨⟩ := if_pos (by omega)
    have h₃ : decoderAssert t (0 ≤ (s.op : Int) - ofs.toNat) = throw .assertFailed :=
      if_neg fun hle => h ⟨hroom, by omega⟩
    rw [h₁, h₂, h₃]
    rfl
  · have h₁ : decoderAssert t ((s.op : Int) + len.toNat ≤ size) = throw .assertFailed := if_neg hroom
    rw [h₁]
    rfl

omit [DecidablePred ok] in
theorem copyMatch_guards (len ofs : UInt32) :
    Guards DecoderState.place ok .fault s (copyMatch t size len ofs) (copyMatch t size len ofs)
      (scanMatch size len ofs) := by
  have hscan : scanMatch size len ofs s.place =
      (if (s.op : Int) + len.toNat ≤ size ∧ ofs.toNat ≤ s.op then forward len.toNat else Scan.stop) s.place := rfl
  by_cases h : (s.op : Int) + len.toNat ≤ size ∧ ofs.toNat ≤ s.op
  · obtain ⟨s', hrun, hplace⟩ := copyMatch_run h.1 h.2
    refine .of_ok hrun ?_
    rw [hscan, if_pos h, hplace]
    rfl
  · refine .of_error (copyMatch_stop h) nofun ?_
    rw [hscan, if_neg h]
    rfl

/-- A program that reads its input as a pure function does, and nothing else. -/
def ReadsAs (x : Dec t UInt32) (f : In → Except Error (Nat × In)) (s : DecoderState t.Pixel) : Prop :=
  match f s.input with
  | .ok (n, i) => x s = .ok (.ofNat n) { s with input := i }
  | .error _ => ∃ e s', x s = .error e s' ∧ e ≠ .fault

omit [DecidablePred ok] in
theorem ReadsAs.guards {x : Dec t UInt32} {f : In → Except Error (Nat × In)} (h : ReadsAs x f s) :
    Guards DecoderState.place ok .fault s x x (UInt32.ofNat <$> parse f) := by
  rw [ReadsAs] at h
  cases hf : f s.input with
  | ok r =>
    rw [hf] at h
    refine .of_ok h ?_
    change Scan.bind (parse f) _ _ = _
    rw [Scan.bind, parse, DecoderState.place, hf]
    rfl
  | error e =>
    rw [hf] at h
    obtain ⟨e', s', hrun, he'⟩ := h
    refine .of_error hrun he' ?_
    change Scan.bind (parse f) _ _ = _
    rw [Scan.bind, parse, DecoderState.place, hf]

namespace ReadsAs

theorem ret {n : Nat} {w : UInt32} (h : w = .ofNat n) : ReadsAs (t := t) (pure w) (fun i => .ok (n, i)) s :=
  congrArg (fun w => EStateM.Result.ok w s) h

theorem raise {f : In → Except Error (Nat × In)} {e e' : Error} (hf : f s.input = .error e) (he : e' ≠ .fault) :
    ReadsAs (t := t) (throw e') f s := by
  rw [ReadsAs, hf]
  exact ⟨e', s, rfl, he⟩

theorem byte {x : UInt8 → Dec t UInt32} {f : UInt8 → In → Except Error (Nat × In)}
    (h : ∀ b s', ReadsAs (x b) (f b) s') :
    ReadsAs (decodeByte t >>= x) (fun i => decode i >>= fun r => f r.1 r.2) s := by
  cases hd : decode s.input with
  | error e =>
    have hrun : (decodeByte t >>= x) s = .error e s := by
      simp only [bind, EStateM.bind, decodeByte, hd]
    rw [ReadsAs, hd]
    exact ⟨e, s, hrun, decode_fault hd⟩
  | ok r =>
    have hrun : (decodeByte t >>= x) s = x r.1 { s with input := r.2 } := by
      simp only [bind, EStateM.bind, decodeByte, hd]
    rw [ReadsAs, hd, hrun]
    exact h r.1 { s with input := r.2 }

theorem split {c c' : Prop} [Decidable c] [Decidable c'] {x y : Dec t UInt32} {f g : In → Except Error (Nat × In)}
    (hc : c ↔ c') (ht : c → ReadsAs x f s) (hf : ¬c → ReadsAs y g s) :
    ReadsAs (if c then x else y) (fun i => if c' then f i else g i) s := by
  by_cases h : c
  · rw [if_pos h, ReadsAs, if_pos (hc.mp h)]
    exact ht h
  · rw [if_neg h, ReadsAs, if_neg fun h' => h (hc.mpr h')]
    exact hf h

end ReadsAs

theorem lengthCodes_readsAs (m n : Nat) (s : DecoderState t.Pixel) :
    ReadsAs (lengthCodes t m (.ofNat n)) (decodeLen m n) s := by
  induction m generalizing n s with
  | zero => exact .raise rfl nofun
  | succ m ih =>
    refine .byte (f := fun code i => if code = 255 then decodeLen m (n + 255) i else .ok (n + code.toNat, i))
      fun code s' => ?_
    refine .split Iff.rfl (fun hc => ?_) fun _ => .ret ?_
    · have hnext : UInt32.ofNat n + (255 : UInt8).toUInt32 = .ofNat (n + 255) := (UInt32.ofNat_add n 255).symm
      rw [hc, hnext]
      exact ih (n + 255) s'
    · rw [UInt32.ofNat_add, UInt32.ofNat_uInt8ToNat]

theorem matchLength_readsAs {ctrl : UInt32} (h : ctrl ≥ 32) (s : DecoderState t.Pixel) :
    ReadsAs (matchLength t ((ctrl >>> 5) - 1)) (decodeMatchLen (ctrl.toNat / 32 - 1)) s := by
  have hctrl := ctrl.toNat_lt
  have hge : 32 ≤ ctrl.toNat := UInt32.le_iff_toNat_le.mp h
  have hto : ((ctrl >>> 5) - 1).toNat = ctrl.toNat / 32 - 1 := by
    have hshift : (ctrl >>> 5).toNat = ctrl.toNat / 32 := by
      rw [UInt32.toNat_shiftRight, Nat.shiftRight_eq_div_pow]
      rfl
    have hle : (1 : UInt32) ≤ ctrl >>> 5 := by
      rw [UInt32.le_iff_toNat_le, hshift]
      exact (Nat.le_div_iff_mul_le (by decide)).mpr hge
    rw [UInt32.toNat_sub_of_le _ _ hle, hshift]
    rfl
  have hlen : (ctrl >>> 5) - 1 = .ofNat (ctrl.toNat / 32 - 1) := by
    rw [← hto, UInt32.ofNat_toNat]
  have hsix : (ctrl >>> 5) - 1 = 7 - 1 ↔ ctrl.toNat / 32 - 1 = 7 - 1 := by
    rw [← UInt32.toNat_inj, hto]
    rfl
  have hrun : matchLength t ((ctrl >>> 5) - 1) s =
      (if (ctrl >>> 5) - 1 = 7 - 1 then lengthCodes t (s.input.bytes.length + 1) ((ctrl >>> 5) - 1)
        else pure ((ctrl >>> 5) - 1)) s := by
    change (if (ctrl >>> 5) - 1 = 7 - 1 then _ else _ : Dec t UInt32) s = _
    rfl
  rw [ReadsAs, hrun, decodeMatchLen]
  by_cases hc : ctrl.toNat / 32 - 1 = 7 - 1
  · rw [if_pos hc, if_pos (hsix.mpr hc), hlen]
    exact lengthCodes_readsAs _ _ s
  · rw [if_neg hc, if_neg fun h' => hc (hsix.mp h'), hlen]
    rfl

theorem matchDistance_readsAs (ctrl : UInt32) (s : DecoderState t.Pixel) :
    ReadsAs (matchDistance t ((ctrl &&& 31) <<< 8)) (decodeDistance (ctrl.toNat % 32 * 256)) s := by
  have hto : ((ctrl &&& 31) <<< 8).toNat = ctrl.toNat % 32 * 256 := by
    have hand : (ctrl &&& 31).toNat = ctrl.toNat % 32 := by
      rw [UInt32.toNat_and]
      exact Nat.and_two_pow_sub_one_eq_mod ctrl.toNat 5
    rw [toNat_shiftLeft_eight, hand]
    omega
  have hofs : (ctrl &&& 31) <<< 8 = .ofNat (ctrl.toNat % 32 * 256) := by
    rw [← hto, UInt32.ofNat_toNat]
  have hfar (code : UInt32) : (ctrl &&& 31) <<< 8 + code - code = (31 : UInt32) <<< 8 ↔ ctrl.toNat % 32 * 256 = 31 * 256 := by
    rw [UInt32.add_sub_cancel, ← UInt32.toNat_inj, hto]
    rfl
  refine .byte (f := fun code i => if code = 255 ∧ ctrl.toNat % 32 * 256 = 31 * 256 then
      decode i >>= fun hi => decode hi.2 >>= fun lo => .ok (hi.1.toNat * 256 + lo.1.toNat + maxDistance, lo.2)
    else .ok (ctrl.toNat % 32 * 256 + code.toNat, i)) fun code s' => ?_
  refine .split (and_congr_right' (hfar _)) (fun hc => ?_) fun _ => .ret ?_
  · refine .byte (f := fun hi i =>
      decode i >>= fun lo => .ok (hi.toNat * 256 + lo.1.toNat + maxDistance, lo.2)) fun hi s' => ?_
    refine .byte (f := fun b i => .ok (hi.toNat * 256 + b.toNat + maxDistance, i)) fun lo s'' => .ret ?_
    have hhi := hi.toNat_lt
    rw [← UInt32.toNat_inj, UInt32.toNat_add, UInt32.toNat_add, toNat_shiftLeft_eight, UInt32.toNat_ofNat', maxDistance]
    simp only [UInt8.toNat_toUInt32, UInt32.reduceToNat]
    omega
  · rw [UInt32.ofNat_add, ← hofs, UInt32.ofNat_uInt8ToNat]

omit [DecidablePred ok] in
theorem reference_guards (h : OneByte t) {ctrl : UInt32} (hctrl : ctrl ≥ 32) :
    Guards DecoderState.place ok .fault s (reference t size ctrl) (reference t size ctrl)
      (scanReference t.scale size ctrl) := by
  rw [reference, h.lenBias]
  refine .seq (matchLength_readsAs hctrl s).guards fun _ s' _ => ?_
  exact .seq (matchDistance_readsAs ctrl s').guards fun _ _ _ => copyMatch_guards _ _

section Same

variable (t) (size) (check : List UInt8 → Prop) [DecidablePred check]

theorem lengthCodes_guard (n : Nat) (len : UInt32) : lengthCodes (t.guard check) n len = lengthCodes t n len := by
  induction n generalizing len with
  | zero => rfl
  | succ n ih =>
    rw [lengthCodes, lengthCodes]
    simp only [ih]
    rfl

theorem copyRunOf_guard (b : t.Pixel) (n : Nat) : copyRunOf (t.guard check) size b n = copyRunOf t size b n := by
  induction n with
  | zero => rfl
  | succ n ih =>
    exact congrArg (fun rest => touch t >>= fun _ => store t b >>= fun _ => assertLimit t size >>= fun _ => rest) ih

theorem copyFrom_guard (n ref : Nat) : copyFrom (t.guard check) size n ref = copyFrom t size n ref := by
  induction n generalizing ref with
  | zero => rfl
  | succ n ih =>
    rw [copyFrom, copyFrom, ih]
    rfl

theorem copyMatch_guard (len ofs : UInt32) : copyMatch (t.guard check) size len ofs = copyMatch t size len ofs := by
  refine congrArg (get >>= ·) (funext fun s => congrArg (decoderAssert t _ >>= ·) (funext fun _ => ?_))
  refine congrArg (decoderAssert t _ >>= ·) (funext fun _ => congrArg (decoderAssert t _ >>= ·) (funext fun _ => ?_))
  refine ite_congr rfl (fun _ => ?_) fun _ => copyFrom_guard t size check _ _
  exact congrArg (readPixel t _ >>= ·) (funext fun b => copyRunOf_guard t size check b _)

theorem reference_guard (ctrl : UInt32) : reference (t.guard check) size ctrl = reference t size ctrl := by
  have hlen : matchLength (t.guard check) ((ctrl >>> 5) - 1) = matchLength t ((ctrl >>> 5) - 1) := by
    refine congrArg (get >>= ·) (funext fun s => ite_congr rfl (fun _ => ?_) fun _ => rfl)
    exact lengthCodes_guard t check _ _
  rw [reference, hlen]
  refine congrArg (matchLength t _ >>= ·) (funext fun len => congrArg (matchDistance t _ >>= ·) (funext fun ofs => ?_))
  exact copyMatch_guard t size check _ _

end Same

theorem decompressRounds_guards (h : OneByte t) (n : Nat) (ctrl : UInt32) :
    Guards DecoderState.place ok .fault s (decompressRounds (t.guard fun bs => ok (bs.getD 0 0)) size n ctrl)
      (decompressRounds t size n ctrl) (scanRounds t.scale size n ctrl) := by
  induction n generalizing ctrl s with
  | zero => exact .raise nofun
  | succ n ih =>
    have hnext (s : DecoderState t.Pixel) : Guards DecoderState.place ok .fault s
        (do
          let s ← get
          if (s.op : Int) < size then do
            let next ← decodeByte t
            decompressRounds (t.guard fun bs => ok (bs.getD 0 0)) size n next.toUInt32
          else pure ())
        (do
          let s ← get
          if (s.op : Int) < size then do
            let next ← decodeByte t
            decompressRounds t size n next.toUInt32
          else pure ())
        (do
          let u ← Scan.look
          if (u.op : Int) < size then do
            let next ← parse decode
            scanRounds t.scale size n next.toUInt32
          else pure ⟨⟩) :=
      .read (.split Iff.rfl (fun _ => .seq decodeByte_guards fun next _ _ => ih next.toUInt32) fun _ => .ret _)
    rw [decompressRounds, decompressRounds, reference_guard]
    refine .split Iff.rfl (fun hc => ?_) fun _ => ?_
    · exact .seq (reference_guards h hc) fun _ s' _ => hnext s'
    · exact .seq (literals_guards h ctrl) fun _ s' _ => hnext s'

variable (ok) in
theorem decompress_guards (h : OneByte t) :
    Guards DecoderState.place ok .fault s (decompress (t.guard fun bs => ok (bs.getD 0 0)) size) (decompress t size)
      (scanStream t.scale size) := by
  refine .read (.seq decodeByte_guards fun ctrl _ _ => .seq (decompressRounds_guards h _ _) fun _ s' _ => ?_)
  exact .read (.ret _)

end Guards

end Colama.Spice.Lz.Decoder
