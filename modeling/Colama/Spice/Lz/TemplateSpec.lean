import Colama.Lib.Triples
import Colama.Spice.Lz.Template

namespace Colama.Spice.Lz.Decoder

open Lib Template

/-- Every pixel in its turn is written, and only what has been written is read; `n` pixels have been written so far. -/
inductive Trace : Nat → List Event → Prop
  | start : Trace 0 []
  | write {n : Nat} {trace : List Event} (h : Trace n trace) : Trace (n + 1) (trace ++ [.write n])
  | read {n i : Nat} {trace : List Event} (h : Trace n trace) (hi : i < n) : Trace n (trace ++ [.read i])

def Event.written : Event → Option Nat
  | .write i => some i
  | .read _ => none

def writes (trace : List Event) : List Nat := trace.filterMap Event.written

theorem Trace.writes_eq {n : Nat} {trace : List Event} (h : Trace n trace) : writes trace = List.range n := by
  induction h with
  | start => rfl
  | write _ ih => rw [writes, List.filterMap_append, ← writes, ih, List.range_succ]; rfl
  | read _ _ ih => rw [writes, List.filterMap_append, ← writes, ih]; exact List.append_nil _

theorem Trace.write_mem {n i : Nat} {trace : List Event} (h : Trace n trace) (hi : i < n) : .write i ∈ trace := by
  have hm : i ∈ writes trace := by
    rw [h.writes_eq]
    exact List.mem_range.mpr hi
  obtain ⟨e, he, hw⟩ := List.mem_filterMap.mp hm
  cases e with
  | write j =>
    cases hw
    exact he
  | read j => cases hw

theorem Trace.write_before_read {n i : Nat} {trace before after : List Event} (h : Trace n trace)
    (hr : trace = before ++ .read i :: after) : .write i ∈ before := by
  induction h generalizing after with
  | start => exact absurd hr (by simp)
  | write _ ih =>
    obtain rfl | ⟨after', e, rfl⟩ := List.eq_nil_or_concat after
    · cases (List.append_inj' hr rfl).2
    · rw [List.concat_eq_append, ← List.cons_append, ← List.append_assoc] at hr
      exact ih (List.append_inj' hr rfl).1
  | read h hi ih =>
    obtain rfl | ⟨after', e, rfl⟩ := List.eq_nil_or_concat after
    · obtain ⟨rfl, he⟩ := List.append_inj' hr rfl
      cases he
      exact h.write_mem hi
    · rw [List.concat_eq_append, ← List.cons_append, ← List.append_assoc] at hr
      exact ih (List.append_inj' hr rfl).1

variable {t : Template}

/-- The trace is one of `op + d` pixels, there is room in the output for `n` of them from `op` on, and the input has
fewer than `k` bytes. -/
structure Inv (t : Template) (size : Int) (d n k : Nat) (s : DecoderState t.Pixel) : Prop where
  trace : Trace (s.op + d) s.trace
  touched : d ≤ n
  room : ((s.op + n : Nat) : Int) ≤ max size 0
  input : s.input.bytes.length < k

structure Failed (t : Template) (size : Int) (e : Error) (s : DecoderState t.Pixel) : Prop where
  error : e ≠ .outOfFuel
  trace : ∃ n : Nat, Trace n s.trace ∧ (n : Int) ≤ max size 0

theorem Inv.failed {size : Int} {d n k : Nat} {s : DecoderState t.Pixel} (h : Inv t size d n k s) {e : Error}
    (he : e ≠ .outOfFuel) : Failed t size e s := by
  refine ⟨he, _, h.trace, Int.le_trans ?_ h.room⟩
  have := h.touched
  omega

theorem Inv.mono {size : Int} {d n k k' : Nat} {s : DecoderState t.Pixel} (h : Inv t size d n k s) (hk : k ≤ k') :
    Inv t size d n k' s := ⟨h.trace, h.touched, h.room, Nat.lt_of_lt_of_le h.input hk⟩

theorem decode_length {i i' : In} {b : UInt8} (h : decode i = .ok (b, i')) : i.bytes.length = i'.bytes.length + 1 := by
  match i with
  | ⟨c :: cur, more⟩ =>
    cases h
    rfl
  | ⟨[], (c :: cur) :: more⟩ =>
    cases h
    rfl
  | ⟨[], [] :: more⟩ => cases h
  | ⟨[], []⟩ => cases h

theorem decode_error {i : In} {e : Error} (h : decode i = .error e) : e ≠ .outOfFuel := by
  match i with
  | ⟨c :: cur, more⟩ => cases h
  | ⟨[], (c :: cur) :: more⟩ => cases h
  | ⟨[], [] :: more⟩ => cases h; nofun
  | ⟨[], []⟩ => cases h; nofun

theorem toNat_shiftLeft_eight (x : UInt32) : (x <<< 8).toNat = x.toNat * 256 % 2 ^ 32 := by
  rw [UInt32.toNat_shiftLeft, Nat.shiftLeft_eq]
  rfl

section Steps

variable (size : Int) (d n k : Nat)

theorem decodeByte_spec :
    Triple (Inv t size d n (k + 1)) (decodeByte t) (fun _ => Inv t size d n k) (Failed t size) := by
  intro s hs
  rw [decodeByte]
  cases hd : decode s.input with
  | ok r =>
    obtain ⟨b, i⟩ := r
    have hl := decode_length hd
    have hlt := hs.input
    exact ⟨hs.trace, hs.touched, hs.room, by dsimp only; omega⟩
  | error e => exact hs.failed (decode_error hd)

theorem decodeByte_keeps : Triple (Inv t size d n k) (decodeByte t) (fun _ => Inv t size d n k) (Failed t size) := by
  cases k with
  | zero => exact fun s hs => absurd hs.input (Nat.not_lt_zero _)
  | succ k => exact (decodeByte_spec size d n k).conseq (fun _ h => h) fun _ _ h => h.mono (Nat.le_succ k)

theorem decoderAssert_spec {P : DecoderState t.Pixel → Prop} (hP : ∀ s, P s → Inv t size d n k s) (p : Prop)
    [Decidable p] : Triple P (decoderAssert t p) (fun _ s => p ∧ P s) (Failed t size) := by
  rw [decoderAssert]
  exact .split (fun h => .ret fun s hs => ⟨h, hs⟩) fun _ => .raise fun s hs => (hP s hs).failed nofun

theorem assertLimit_spec {P : DecoderState t.Pixel → Prop} (hP : ∀ s, P s → Inv t size d n k s) :
    Triple P (assertLimit t size) (fun _ => P) (Failed t size) := by
  refine .seq (.read (R := fun _ => P) fun _ hs => hs) fun a => ?_
  exact (decoderAssert_spec size d n k hP _).conseq (fun _ h => h) fun _ _ h => h.2

theorem touch_spec :
    Triple (Inv t size 0 (n + 1) k) (touch t) (fun _ => Inv t size 1 (n + 1) k) (Failed t size) :=
  .update fun _ hs => ⟨hs.trace.write, Nat.le_add_left 1 n, hs.room, hs.input⟩

theorem store_spec (p : t.Pixel) :
    Triple (Inv t size 1 (n + 1) k) (store t p) (fun _ => Inv t size 0 n k) (Failed t size) := by
  refine .update fun s hs => ⟨hs.trace, Nat.zero_le n, ?_, hs.input⟩
  have h := hs.room
  dsimp only
  rwa [Nat.add_assoc, Nat.add_comm 1]

theorem storeAll_spec (ps : List t.Pixel) :
    Triple (Inv t size 0 (ps.length + n) k) (storeAll t ps) (fun _ => Inv t size 0 n k) (Failed t size) := by
  induction ps with
  | nil =>
    rw [List.length_nil, Nat.zero_add]
    exact .ret fun _ hs => hs
  | cons p ps ih =>
    rw [List.length_cons, Nat.add_right_comm]
    exact .seq (touch_spec size _ k) fun _ => .seq (store_spec size _ k p) fun _ => ih

theorem decodeMore_spec (m : Nat) (bs : List UInt8) :
    Triple (Inv t size d n k) (decodeMore t m bs) (fun _ => Inv t size d n k) (Failed t size) := by
  induction m generalizing bs with
  | zero => exact .ret fun _ hs => hs
  | succ m ih => exact .seq (decodeByte_keeps size d n k) fun b => ih (bs ++ [b])

/-- A unit takes as much of the room as it has pixels. -/
theorem copyCompPixel_spec :
    Triple (Inv t size 0 (t.scale.toNat + n) k) (copyCompPixel t) (fun _ => Inv t size 0 n k) (Failed t size) := by
  rw [copyCompPixel]
  refine .seq (decodeByte_keeps size 0 _ k) fun first => ?_
  by_cases hf : t.fieldwise
  · have hone : t.scale.toNat = 1 := by rw [t.scale_of_fieldwise hf]; rfl
    rw [hone, Nat.add_comm 1]
    simp only [if_pos hf]
    refine .seq (touch_spec size n k) fun _ => .seq (decodeMore_spec size 1 (n + 1) k _ _) fun bs => ?_
    cases hc : t.comp bs with
    | none => exact .raise fun _ hs => hs.failed nofun
    | some ps =>
      obtain ⟨p, rfl⟩ := List.length_eq_one_iff.mp ((t.comp_length hc).trans hone)
      exact .seq (store_spec size n k p) fun _ => .ret fun _ hs => hs
  · simp only [if_neg hf]
    refine .seq (decodeMore_spec size 0 _ k _ _) fun bs => ?_
    cases hc : t.comp bs with
    | none => exact .raise fun _ hs => hs.failed nofun
    | some ps =>
      rw [← t.comp_length hc]
      exact storeAll_spec size n k ps

theorem copyComps_spec (m : Nat) :
    Triple (Inv t size 0 (m * t.scale.toNat) k) (copyComps t size m) (fun _ => Inv t size 0 0 k) (Failed t size) := by
  induction m with
  | zero =>
    rw [Nat.zero_mul]
    exact .ret fun _ hs => hs
  | succ m ih =>
    rw [Nat.succ_mul, Nat.add_comm]
    exact .seq (copyCompPixel_spec size _ k) fun _ => .seq (assertLimit_spec size 0 _ k fun _ hs => hs) fun _ => ih

theorem copyRunOf_spec (b : t.Pixel) :
    Triple (Inv t size 0 n k) (copyRunOf t size b n) (fun _ => Inv t size 0 0 k) (Failed t size) := by
  induction n with
  | zero => exact .ret fun _ hs => hs
  | succ n ih =>
    exact .seq (touch_spec size n k) fun _ => .seq (store_spec size n k b) fun _ =>
      .seq (assertLimit_spec size 0 n k fun _ hs => hs) fun _ => ih

/-- The invariant, with a place before `op`. -/
def Before (t : Template) (size : Int) (ref d n k : Nat) (s : DecoderState t.Pixel) : Prop :=
  ref < s.op ∧ Inv t size d n k s

theorem readPixel_spec (ref : Nat) :
    Triple (Before t size ref 0 n k) (readPixel t ref) (fun _ => Before t size ref 0 n k) (Failed t size) := by
  refine .seq (.update (R := fun _ => Before t size ref 0 n k) fun s hs => ?_) fun _ => ?_
  · exact ⟨hs.1, hs.2.trace.read hs.1, hs.2.touched, hs.2.room, hs.2.input⟩
  · exact .seq (.read (R := fun _ => Before t size ref 0 n k) fun _ hs => hs) fun _ => .ret fun _ hs => hs

theorem touch_before (ref : Nat) :
    Triple (Before t size ref 0 (n + 1) k) (touch t) (fun _ => Before t size ref 1 (n + 1) k) (Failed t size) :=
  .update fun s hs => ⟨hs.1, touch_spec size n k s hs.2⟩

theorem store_before (ref : Nat) (p : t.Pixel) :
    Triple (Before t size ref 1 (n + 1) k) (store t p) (fun _ => Before t size (ref + 1) 0 n k) (Failed t size) :=
  .update fun s hs => ⟨Nat.succ_lt_succ hs.1, store_spec size n k p s hs.2⟩

/-- The place that is read stays behind the one that is written. -/
theorem copyFrom_spec (ref : Nat) :
    Triple (Before t size ref 0 n k) (copyFrom t size n ref) (fun _ => Inv t size 0 0 k) (Failed t size) := by
  induction n generalizing ref with
  | zero => exact .ret fun _ hs => hs.2
  | succ n ih =>
    exact .seq (readPixel_spec size (n + 1) k ref) fun b => .seq (touch_before size n k ref) fun _ =>
      .seq (store_before size n k ref b) fun _ => .seq (assertLimit_spec size 0 n k fun _ hs => hs.2) fun _ => ih (ref + 1)

theorem lengthCodes_spec (m : Nat) (len : UInt32) :
    Triple (Inv t size 0 n m) (lengthCodes t m len) (fun _ => Inv t size 0 n m) (Failed t size) := by
  induction m generalizing len with
  | zero => exact fun s hs => absurd hs.input (Nat.not_lt_zero _)
  | succ m ih =>
    refine .seq (decodeByte_spec size 0 n m) fun code => .split (fun _ => ?_) fun _ => ?_
    · exact (ih _).conseq (fun _ hs => hs) fun _ _ hs => hs.mono (Nat.le_succ m)
    · exact .ret fun _ hs => hs.mono (Nat.le_succ m)

theorem matchLength_spec (len : UInt32) :
    Triple (Inv t size 0 n k) (matchLength t len) (fun _ => Inv t size 0 n k) (Failed t size) := by
  rw [matchLength]
  refine .seq (.read (R := fun s s' => s = s' ∧ Inv t size 0 n k s') fun _ hs => ⟨rfl, hs⟩) fun s => ?_
  refine .split (fun _ => ?_) fun _ => .ret fun _ hs => hs.2
  rintro _ ⟨rfl, hs⟩
  have hown : Inv t size 0 n (s.input.bytes.length + 1) s := ⟨hs.trace, hs.touched, hs.room, Nat.lt_succ_self _⟩
  exact (lengthCodes_spec size n (s.input.bytes.length + 1) len).conseq (fun _ h => h)
    (fun _ _ h => h.mono hs.input) s hown

/-- However the distance is coded, it stays far from where a product of it would wrap around. -/
theorem matchDistance_spec (ctrl : UInt32) :
    Triple (Inv t size 0 n k) (matchDistance t ((ctrl &&& 31) <<< 8))
      (fun ofs s => ofs.toNat ≤ 73726 ∧ Inv t size 0 n k s) (Failed t size) := by
  rw [matchDistance]
  refine .seq (decodeByte_keeps size 0 n k) fun code => .split (fun _ => ?_) fun _ => ?_
  · refine .seq (decodeByte_keeps size 0 n k) fun hi => .seq (decodeByte_keeps size 0 n k) fun lo => .ret fun s hs => ⟨?_, hs⟩
    have hhi := hi.toNat_lt
    have hlo := lo.toNat_lt
    rw [UInt32.toNat_add, UInt32.toNat_add, toNat_shiftLeft_eight, UInt8.toNat_toUInt32, UInt8.toNat_toUInt32]
    simp only [UInt32.reduceToNat]
    omega
  · refine .ret fun s hs => ⟨?_, hs⟩
    have hcode := code.toNat_lt
    have hctrl : (ctrl &&& 31).toNat ≤ 31 := by
      rw [UInt32.toNat_and]
      exact Nat.and_le_right
    rw [UInt32.toNat_add, toNat_shiftLeft_eight, UInt8.toNat_toUInt32]
    omega

/-- The pixels that a match is copied from have all been written, for the distance is at least one. -/
theorem copyMatch_spec (len ofs : UInt32) (hofs : 0 < ofs.toNat) :
    Triple (Inv t size 0 0 k) (copyMatch t size len ofs) (fun _ s => 0 ≤ size ∧ Inv t size 0 0 k s) (Failed t size) := by
  rw [copyMatch]
  refine .seq (.read (R := fun s s' => s = s' ∧ Inv t size 0 0 k s') fun _ hs => ⟨rfl, hs⟩) fun s => ?_
  refine .seq (decoderAssert_spec size 0 0 k (fun _ h => h.2) _) fun _ => ?_
  refine .seq (decoderAssert_spec size 0 0 k (fun _ h => h.2.2) _) fun _ => ?_
  refine .seq (decoderAssert_spec size 0 0 k (fun _ h => h.2.2.2) _) fun _ => ?_
  refine .weaken (P := fun s' => (0 ≤ (s.op : Int) - ofs.toNat ∧ (s.op : Int) + len.toNat ≤ size) ∧
    Before t size ((s.op : Int) - ofs.toNat).toNat 0 len.toNat k s') (.of_pre fun hp => ?_) ?_
  · have hsize : 0 ≤ size := by omega
    refine .conseq (.split (fun _ => ?_) fun _ => copyFrom_spec size _ k _) (fun _ hs => hs) fun _ _ hs => ⟨hsize, hs⟩
    exact .seq (readPixel_spec size _ k _) fun b => (copyRunOf_spec size len.toNat k b).weaken fun _ hs => hs.2
  · rintro s' ⟨h₃, h₂, h₁, rfl, hs⟩
    exact ⟨⟨h₃, h₁⟩, by omega, hs.trace, Nat.zero_le _, by omega, hs.input⟩

theorem reference_spec (ctrl : UInt32) :
    Triple (Inv t size 0 0 k) (reference t size ctrl) (fun _ s => 0 ≤ size ∧ Inv t size 0 0 k s) (Failed t size) := by
  rw [reference]
  refine .seq (matchLength_spec size 0 k _) fun len => .seq (matchDistance_spec size 0 k ctrl) fun ofs => .of_pre fun hofs => ?_
  apply copyMatch_spec
  have hpos := t.scale_pos
  have hle := t.scale_le
  have hone : (ofs + 1).toNat = ofs.toNat + 1 := by
    rw [UInt32.toNat_add]
    simp only [UInt32.reduceToNat]
    omega
  have hmul : (ofs.toNat + 1) * t.scale.toNat ≤ 73727 * 8 := Nat.mul_le_mul (by omega) hle
  rw [UInt32.toNat_mul, hone, Nat.mod_eq_of_lt (by omega)]
  exact Nat.mul_pos (Nat.succ_pos _) hpos

theorem literals_spec (ctrl : UInt32) (hctrl : ctrl.toNat < 32) :
    Triple (Inv t size 0 0 k) (literals t size ctrl) (fun _ s => 0 ≤ size ∧ Inv t size 0 0 k s) (Failed t size) := by
  rw [literals]
  refine .seq (.read (R := fun s s' => s = s' ∧ Inv t size 0 0 k s') fun _ hs => ⟨rfl, hs⟩) fun s => ?_
  refine .seq (decoderAssert_spec size 0 0 k (fun _ h => h.2) _) fun _ => ?_
  refine .of_pre fun h => (copyComps_spec size k (ctrl + 1).toNat).conseq ?_ fun _ _ hs => ⟨by omega, hs⟩
  rintro s' ⟨rfl, hs⟩
  have hle := t.scale_le
  have hone : (ctrl + 1).toNat = ctrl.toNat + 1 := by
    rw [UInt32.toNat_add]
    simp only [UInt32.reduceToNat]
    omega
  have hmul : (ctrl.toNat + 1) * t.scale.toNat ≤ 32 * 8 := Nat.mul_le_mul (by omega) hle
  rw [UInt32.toNat_mul, hone, Nat.mod_eq_of_lt (by omega)] at h
  rw [hone]
  exact ⟨hs.trace, Nat.zero_le _, by omega, hs.input⟩

/-- At the end of the rounds the output is full. -/
theorem decompressRounds_spec (m : Nat) (ctrl : UInt32) :
    Triple (Inv t size 0 0 m) (decompressRounds t size m ctrl)
      (fun _ s => Inv t size 0 0 m s ∧ 0 ≤ size ∧ size ≤ s.op) (Failed t size) := by
  induction m generalizing ctrl with
  | zero => exact fun s hs => absurd hs.input (Nat.not_lt_zero _)
  | succ m ih =>
    have hnext : Triple (fun s => 0 ≤ size ∧ Inv t size 0 0 (m + 1) s) (do
        let s ← get
        if (s.op : Int) < size then do
          let next ← decodeByte t
          decompressRounds t size m next.toUInt32
        else pure ()) (fun _ s => Inv t size 0 0 (m + 1) s ∧ 0 ≤ size ∧ size ≤ s.op) (Failed t size) := by
      refine .of_pre fun hsize => .seq (.read (R := fun s s' => s = s' ∧ Inv t size 0 0 (m + 1) s') fun _ hs => ⟨rfl, hs⟩) fun s => ?_
      refine .split (fun _ => ?_) fun h => .ret ?_
      · refine .seq ((decodeByte_spec size 0 0 m).weaken fun _ hs => hs.2) fun next => ?_
        exact (ih next.toUInt32).conseq (fun _ hs => hs) fun _ _ hs => ⟨hs.1.mono (Nat.le_succ m), hs.2⟩
      · rintro _ ⟨rfl, hs⟩
        exact ⟨hs, hsize, Int.not_lt.mp h⟩
    rw [decompressRounds]
    refine .split (fun _ => .seq (reference_spec size (m + 1) ctrl) fun _ => hnext) fun h => ?_
    have hctrl : ctrl.toNat < 32 := by
      rw [ge_iff_le, UInt32.le_iff_toNat_le] at h
      simpa using h
    exact .seq (literals_spec size (m + 1) ctrl hctrl) fun _ => hnext

end Steps

/-- The state at the call, with `out_buf` holding whatever it does. -/
def initial (t : Template) (input : In) (out : Nat → t.Pixel) : DecoderState t.Pixel := ⟨input, 0, out, []⟩

theorem decompress_spec (t : Template) (size : Int) (k : Nat) :
    Triple (fun s => (s.trace = [] ∧ s.op = 0) ∧ s.input.bytes.length < k) (decompress t size)
      (fun n s => n = s.op ∧ Inv t size 0 0 (k + 1) s ∧ 0 ≤ size ∧ size ≤ s.op) (Failed t size) := by
  rw [decompress]
  refine .seq (.read (R := fun s s' => s = s' ∧ Inv t size 0 0 (s.input.bytes.length + 1) s' ∧
    s.input.bytes.length < k) ?_) fun s => ?_
  · rintro s ⟨⟨htrace, hop⟩, hk⟩
    refine ⟨rfl, ⟨?_, Nat.zero_le _, ?_, Nat.lt_succ_self _⟩, hk⟩
    · rw [htrace, hop]
      exact .start
    · rw [hop]
      exact Int.le_max_right _ _
  · refine .weaken (P := fun s' => s.input.bytes.length < k ∧ Inv t size 0 0 (s.input.bytes.length + 1) s')
      (.of_pre fun hk => ?_) fun _ hs => ⟨hs.2.2, hs.2.1⟩
    refine .seq (decodeByte_keeps size 0 0 _) fun ctrl => .seq (decompressRounds_spec size _ _) fun _ => ?_
    refine .seq (.read (R := fun s' s'' => s' = s'' ∧ Inv t size 0 0 (s.input.bytes.length + 1) s'' ∧
      0 ≤ size ∧ size ≤ s''.op) fun _ hs => ⟨rfl, hs⟩) fun s' => .ret ?_
    rintro _ ⟨rfl, hs, hle⟩
    exact ⟨rfl, hs.mono (by omega), hle⟩

/-- How a call of the decoder ends. -/
structure Safe (size : Int) (trace : List Event) (result : Except Error Nat) : Prop where
  terminates : result ≠ .error .outOfFuel
  ordered : writes trace = List.range (writes trace).length
  inside : ∀ i ∈ writes trace, (i : Int) < size
  complete : ∀ n, result = .ok n → (n : Int) = size ∧ writes trace = List.range n
  referenced : ∀ before i after, trace = before ++ .read i :: after → .write i ∈ before

theorem safe_of_trace {size : Int} {n : Nat} {trace : List Event} {result : Except Error Nat} (h : Trace n trace)
    (hn : (n : Int) ≤ max size 0) (hr : result ≠ .error .outOfFuel)
    (hc : ∀ m, result = .ok m → m = n ∧ 0 ≤ size ∧ size ≤ n) : Safe size trace result where
  terminates := hr
  ordered := by rw [h.writes_eq, List.length_range]
  inside i hi := by
    rw [h.writes_eq, List.mem_range] at hi
    omega
  complete m hm := by
    obtain ⟨rfl, h0, hle⟩ := hc m hm
    exact ⟨by omega, h.writes_eq⟩
  referenced _ _ _ ht := h.write_before_read ht

def outcome {P : Type} : EStateM.Result Error (DecoderState P) Nat → Except Error Nat
  | .ok n _ => .ok n
  | .error e _ => .error e

def finalTrace {P : Type} : EStateM.Result Error (DecoderState P) Nat → List Event
  | .ok _ s => s.trace
  | .error _ s => s.trace

/-- Whatever the input and the size: every inclusion of the template decodes to a full buffer or stops at an error,
with all its stores inside the buffer and all its references to pixels that it has stored. -/
theorem decompress_safe (t : Template) (size : Int) (input : In) (out : Nat → t.Pixel) :
    Safe size (finalTrace (decompress t size (initial t input out))) (outcome (decompress t size (initial t input out))) := by
  have h := decompress_spec t size (input.bytes.length + 1) (initial t input out) ⟨⟨rfl, rfl⟩, Nat.lt_succ_self _⟩
  cases hr : decompress t size (initial t input out) with
  | ok n s =>
    rw [hr] at h
    obtain ⟨rfl, hs, h0, hle⟩ := h
    refine safe_of_trace hs.trace hs.room nofun fun m hm => ?_
    cases hm
    exact ⟨rfl, h0, hle⟩
  | error e s =>
    rw [hr] at h
    obtain ⟨n, htrace, hn⟩ := h.trace
    refine safe_of_trace htrace hn (fun he => h.error ?_) nofun
    cases he
    rfl

example : finalTrace (decompress pltToPlt 4 (initial pltToPlt ⟨[0, 9, 32, 0], []⟩ fun _ => (0 : UInt8))) =
    [.write 0, .read 0, .write 1, .write 2, .write 3] := by decide

end Colama.Spice.Lz.Decoder
