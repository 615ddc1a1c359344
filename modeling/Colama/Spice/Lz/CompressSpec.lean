import Mathlib.Tactic
import Colama.Spice.Lz.Stream

namespace Colama.Spice.Lz

variable (k : PixelKind) (X : Nat → k.Pixel)

/-- The pixels of a segment are those of `X` from its `size_delta` on. -/
def Placed (seg : LzImageSegment) : Prop := ∀ i < seg.pixels k, seg.px k i = X (seg.sizeDelta + i)

/-- An entry of the hash table points to at least 4 pixels of a segment, none behind pixel `p`. -/
structure GoodEntry (e : HashEntry) (p : Nat) : Prop where
  placed : Placed k X e.imageSeg
  ref_le : e.ref + 4 ≤ e.imageSeg.pixels k
  id_le : e.imageSeg.sizeDelta + e.ref ≤ p

/-- A match found at `ip`: the pixels up to `m.ip` are the same as those at its distance. -/
structure GoodMatch (seg : LzImageSegment) (ip : Nat) (m : Match) : Prop where
  placed : Placed k X m.refSeg
  distance_pos : 0 < m.distance
  distance_le : m.distance ≤ seg.sizeDelta + ip
  distance_lt : m.distance < maxFarDistance
  id_eq : m.refSeg.sizeDelta + m.ref + m.distance = seg.sizeDelta + m.ip
  le_ip : ip + k.minLen ≤ m.ip
  ip_le : m.ip ≤ ip + 5
  long : ip + k.minLen < m.ip ∨ m.ref < m.refSeg.pixels k
  same : ∀ j, ip ≤ j → j < m.ip →
    k.samePixel (X (seg.sizeDelta + j)) (X (seg.sizeDelta + j - m.distance)) = true

variable {k X} {seg refSeg : LzImageSegment} {ip ref n : Nat} {e : HashEntry} {m : Match}

theorem GoodEntry.mono {p q : Nat} (h : GoodEntry k X e p) (hpq : p ≤ q) : GoodEntry k X e q :=
  ⟨h.placed, h.ref_le, h.id_le.trans hpq⟩

theorem samePixels_iff :
    LzImageSegment.samePixels k refSeg ref seg ip n = true ↔
      ∀ j < n, k.samePixel (refSeg.px k (ref + j)) (seg.px k (ip + j)) = true := by
  induction n generalizing ref ip with
  | zero => simp [LzImageSegment.samePixels]
  | succ n ih =>
    rw [LzImageSegment.samePixels, Bool.and_eq_true, ih, Nat.forall_lt_succ_left]
    simp only [Nat.add_zero, Nat.add_assoc, Nat.add_comm 1]

theorem distance_eq (hp : seg.sizeDelta + ip < 2 ^ 64)
    (hid : e.imageSeg.sizeDelta + e.ref ≤ seg.sizeDelta + ip) :
    seg.distance ip e = seg.sizeDelta + ip - (e.imageSeg.sizeDelta + e.ref) := by
  simp only [LzImageSegment.distance, LzImageSegment.pixelId]
  omega

/-- The same pixels in two segments are the same pixels of the image at the distance. -/
theorem Placed.same {d j : Nat} (hseg : Placed k X seg) (href : Placed k X refSeg)
    (hid : refSeg.sizeDelta + ref + d = seg.sizeDelta + ip) (hj : ip + j < seg.pixels k)
    (hr : ref + j < refSeg.pixels k)
    (h : k.samePixel (refSeg.px k (ref + j)) (seg.px k (ip + j)) = true) :
    k.samePixel (X (seg.sizeDelta + (ip + j))) (X (seg.sizeDelta + (ip + j) - d)) = true := by
  rw [hseg _ hj, href _ hr] at h
  rw [show seg.sizeDelta + (ip + j) - d = refSeg.sizeDelta + (ref + j) by omega]
  exact k.samePixel_equiv.symm h

theorem isRun_good (hseg : Placed k X seg) (hip : ip + limitOffset < seg.pixels k)
    (h : seg.isRun k ip = true) : GoodMatch k X seg ip ⟨1, ip + 3, seg, ip + 2⟩ := by
  simp only [LzImageSegment.isRun, Bool.and_eq_true, decide_eq_true_eq] at h
  obtain ⟨⟨⟨hpos, h0⟩, h1⟩, h2⟩ := h
  unfold limitOffset at hip
  have hrun : ∀ t < 3, k.samePixel (seg.px k (ip - 1 + t)) (seg.px k (ip + t)) = true := by
    intro t ht
    interval_cases t
    · exact h0
    · rw [show ip - 1 + 1 = ip by omega]
      exact h1
    · rw [show ip - 1 + 2 = ip + 1 by omega]
      exact h2
  exact {
    placed := hseg
    distance_pos := Nat.one_pos
    distance_le := by change 1 ≤ seg.sizeDelta + ip; omega
    distance_lt := by change 1 < maxFarDistance; decide
    id_eq := rfl
    le_ip := Nat.add_le_add_left k.minLen_le ip
    ip_le := by change ip + 3 ≤ ip + 5; omega
    long := .inr (by change ip + 2 < seg.pixels k; omega)
    same := fun j hj hlt => by
      change j < ip + 3 at hlt
      obtain ⟨t, rfl⟩ : ∃ t, j = ip + t := ⟨j - ip, by omega⟩
      exact hseg.same (d := 1) hseg (by omega) (by omega) (by omega) (hrun t (by omega)) }

/-- The common part of a near and a far match: `c` pixels are compared. -/
theorem GoodEntry.goodMatch {c : Nat} (hseg : Placed k X seg) (hip : ip + limitOffset < seg.pixels k)
    (he : GoodEntry k X e (seg.sizeDelta + ip)) (hp : seg.sizeDelta + ip < 2 ^ 64)
    (hpos : seg.distance ip e ≠ 0) (hlt : seg.distance ip e < maxFarDistance)
    (hc : k.minLen ≤ c) (hc5 : c ≤ 5) (href : e.ref + c ≤ e.imageSeg.pixels k)
    (hlong : k.minLen < c ∨ e.ref + c < e.imageSeg.pixels k)
    (hsame : ∀ j < c, k.samePixel (e.imageSeg.px k (e.ref + j)) (seg.px k (ip + j)) = true) :
    GoodMatch k X seg ip ⟨seg.distance ip e, ip + c, e.imageSeg, e.ref + c⟩ := by
  have hd := distance_eq hp he.id_le
  have hid := he.id_le
  unfold limitOffset at hip
  exact {
    placed := he.placed
    distance_pos := Nat.pos_of_ne_zero hpos
    distance_le := by change seg.distance ip e ≤ _; omega
    distance_lt := hlt
    id_eq := by
      change e.imageSeg.sizeDelta + (e.ref + c) + seg.distance ip e = seg.sizeDelta + (ip + c)
      omega
    le_ip := Nat.add_le_add_left hc ip
    ip_le := Nat.add_le_add_left hc5 ip
    long := hlong.imp_left fun h => Nat.add_lt_add_left h ip
    same := fun j hj hlt => by
      change j < ip + c at hlt
      obtain ⟨t, rfl⟩ : ∃ t, j = ip + t := ⟨j - ip, by omega⟩
      exact hseg.same he.placed (by change _ + seg.distance ip e = _; omega) (by omega) (by omega)
        (hsame t (by omega)) }

theorem hashMatch_good (hseg : Placed k X seg) (hip : ip + limitOffset < seg.pixels k)
    (he : GoodEntry k X e (seg.sizeDelta + ip)) (hp : seg.sizeDelta + ip < 2 ^ 64)
    (h : seg.hashMatch k ip e = some m) : GoodMatch k X seg ip m := by
  have hmin := k.minLen_le
  have hfarLen := k.farLen_le
  have hfarPos := k.farLen_pos
  have hend := he.ref_le
  simp only [LzImageSegment.hashMatch] at h
  split_ifs at h with hd hmatch hnear hroom hfar
  · obtain rfl := Option.some.inj h
    rw [Bool.not_eq_true', Bool.not_eq_false, samePixels_iff] at hmatch
    exact he.goodMatch hseg hip hp (by omega) (by omega) le_rfl (by omega) (by omega)
      (.inr (by omega)) hmatch
  · obtain rfl := Option.some.inj h
    rw [Bool.not_eq_true', Bool.not_eq_false, samePixels_iff] at hmatch hfar
    rw [Nat.add_assoc, Nat.add_assoc e.ref]
    refine he.goodMatch hseg hip hp (by omega) (by omega) (by omega) (by omega) (by omega)
      (.inl (by omega)) fun j hj => ?_
    by_cases hjm : j < k.minLen
    · exact hmatch j hjm
    · obtain ⟨t, rfl⟩ : ∃ t, j = k.minLen + t := ⟨j - k.minLen, by omega⟩
      rw [← Nat.add_assoc, ← Nat.add_assoc]
      exact hfar t (by omega)

theorem extendRef_spec (k : PixelKind) (refSeg seg : LzImageSegment) (ref ip n : Nat) :
    let stop := refSeg.extendRef k seg ref ip n
    ip ≤ stop ∧ stop ≤ ip + n ∧ (0 < n → ip < stop) ∧
      ∀ j, ip + j + 1 < stop → k.samePixel (refSeg.px k (ref + j)) (seg.px k (ip + j)) = true := by
  induction n generalizing ref ip with
  | zero =>
    refine ⟨le_rfl, le_rfl, fun h => absurd h (Nat.lt_irrefl 0), fun j hj => ?_⟩
    rw [LzImageSegment.extendRef] at hj
    omega
  | succ n ih =>
    simp only [LzImageSegment.extendRef]
    split
    · rename_i hsame
      obtain ⟨h₁, h₂, -, h₄⟩ := ih (ref + 1) (ip + 1)
      refine ⟨by omega, by omega, by omega, fun j hj => ?_⟩
      cases j with
      | zero => exact hsame
      | succ j =>
        rw [← Nat.add_assoc, ← Nat.add_assoc, Nat.add_right_comm, Nat.add_right_comm ip]
        exact h₄ j (by omega)
    · exact ⟨by omega, by omega, by omega, fun j hj => by omega⟩

theorem extendRun_spec (k : PixelKind) (refSeg : LzImageSegment) (x : k.Pixel) (ref ip n : Nat) :
    let stop := refSeg.extendRun k x ref ip n
    ip ≤ stop ∧ stop ≤ ip + n ∧ (0 < n → k.samePixel (refSeg.px k ref) x = true → ip < stop) ∧
      ∀ j, ip + j < stop → k.samePixel (refSeg.px k (ref + j)) x = true := by
  induction n generalizing ref ip with
  | zero =>
    refine ⟨le_rfl, le_rfl, fun h => absurd h (Nat.lt_irrefl 0), fun j hj => ?_⟩
    rw [LzImageSegment.extendRun] at hj
    omega
  | succ n ih =>
    simp only [LzImageSegment.extendRun]
    split
    · rename_i hsame
      obtain ⟨h₁, h₂, -, h₄⟩ := ih (ref + 1) (ip + 1)
      refine ⟨by omega, by omega, by omega, fun j hj => ?_⟩
      cases j with
      | zero => exact hsame
      | succ j =>
        rw [← Nat.add_assoc, Nat.add_right_comm]
        exact h₄ j (by omega)
    · rename_i hdiff
      exact ⟨le_rfl, by omega, fun _ h => absurd h hdiff, fun j hj => by omega⟩

/-- Where a match ends: the last pixel that was looked at is left for the next round. -/
theorem GoodMatch.extend (hseg : Placed k X seg) (hip : ip + limitOffset < seg.pixels k)
    (hm : GoodMatch k X seg ip m) :
    ip + k.minLen < seg.extend k m ∧ seg.extend k m + 2 ≤ seg.pixels k ∧
      ∀ j, ip ≤ j → j + 1 < seg.extend k m →
        k.samePixel (X (seg.sizeDelta + j)) (X (seg.sizeDelta + j - m.distance)) = true := by
  have h1 := hm.le_ip
  have h2 := hm.ip_le
  have h3 := hm.id_eq
  have h4 := hm.distance_pos
  have hlong := hm.long
  have hmin := k.minLen_le
  unfold limitOffset at hip
  set n := min (seg.pixels k - boundOffset - m.ip) (m.refSeg.pixels k - m.ref) with hn
  unfold boundOffset at hn
  have hroom : m.ip = ip + k.minLen → 0 < n := by omega
  by_cases hd : m.distance - 1 = 0
  · have hext : seg.extend k m = m.refSeg.extendRun k (m.refSeg.px k m.ref) m.ref m.ip n :=
      if_pos hd
    obtain ⟨e₁, e₂, e₃, e₄⟩ := extendRun_spec k m.refSeg (m.refSeg.px k m.ref) m.ref m.ip n
    rw [← hext] at e₁ e₂ e₃ e₄
    have hgrow : m.ip = ip + k.minLen → m.ip < seg.extend k m :=
      fun h => e₃ (hroom h) (k.samePixel_equiv.refl _)
    refine ⟨by omega, by omega, fun j hj hlt => ?_⟩
    by_cases hjm : j < m.ip
    · exact hm.same j hj hjm
    · -- both this pixel and the one before it are the pixel of the run
      obtain ⟨t, rfl⟩ : ∃ t, j = m.ip + t := ⟨j - m.ip, by omega⟩
      have hthis := e₄ (t + 1) (by omega)
      have hprev := e₄ t (by omega)
      rw [hm.placed _ (by omega)] at hthis hprev
      rw [show seg.sizeDelta + (m.ip + t) - m.distance = m.refSeg.sizeDelta + (m.ref + t) by omega,
        show seg.sizeDelta + (m.ip + t) = m.refSeg.sizeDelta + (m.ref + (t + 1)) by omega]
      exact k.samePixel_equiv.trans hthis (k.samePixel_equiv.symm hprev)
  · have hext : seg.extend k m = m.refSeg.extendRef k seg m.ref m.ip n := if_neg hd
    obtain ⟨e₁, e₂, e₃, e₄⟩ := extendRef_spec k m.refSeg seg m.ref m.ip n
    rw [← hext] at e₁ e₂ e₃ e₄
    have hgrow : m.ip = ip + k.minLen → m.ip < seg.extend k m := fun h => e₃ (hroom h)
    refine ⟨by omega, by omega, fun j hj hlt => ?_⟩
    by_cases hjm : j < m.ip
    · exact hm.same j hj hjm
    · obtain ⟨t, rfl⟩ : ∃ t, j = m.ip + t := ⟨j - m.ip, by omega⟩
      exact hseg.same hm.placed h3 (by omega) (by omega) (e₄ t (by omega))

variable (k X) in
/-- Behind the bytes `hd` the output stands for the first `b` pixels. -/
def Coded (hd : List UInt8) (io : Io) (b : Nat) : Prop :=
  ∃ bs, io.bytes = hd ++ bs ∧ Stream k X 0 bs b

variable (k X) in
/-- The state of `compress_seg` between two rounds. -/
structure SegInv (hd : List UInt8) (seg : LzImageSegment) (s : SegState) : Prop where
  ip_le : s.ip ≤ seg.pixels k
  copy_lt : s.copy < maxCopy
  entries : ∀ h, GoodEntry k X (s.htab h) (seg.sizeDelta + s.ip)
  pending : ∃ bs b, Pending s.io (hd ++ bs) (litBytes k X b s.copy) ∧ Stream k X 0 bs b ∧
    b + s.copy = seg.sizeDelta + s.ip

variable {space : Nat → Nat} {hd : List UInt8} {s : SegState}

theorem encodeCopyCount_inv (hs : ∀ i, 0 < space i) {io : Io} {htab : HashTable} (hip : ip ≤ seg.pixels k)
    (hc : Coded k X hd io (seg.sizeDelta + ip))
    (he : ∀ h, GoodEntry k X (htab h) (seg.sizeDelta + ip)) :
    ∃ io', encodeCopyCount space (.ofNat (maxCopy - 1)) io = .ok io' ∧
      SegInv k X hd seg ⟨io', htab, ip, 0⟩ := by
  obtain ⟨bs, hbs, hst⟩ := hc
  obtain ⟨io', e, hp⟩ := encodeCopyCount_pending hs io
  rw [hbs] at hp
  exact ⟨io', e, hip, by change 0 < maxCopy; decide, he, bs, _, hp, hst, rfl⟩

theorem SegInv.endCopy (h : SegInv k X hd seg s) :
    ∃ io', endCopy s.copy s.io = .ok io' ∧ Coded k X hd io' (seg.sizeDelta + s.ip) := by
  obtain ⟨bs, b, hp, hst, hb⟩ := h.pending
  rw [← hb]
  by_cases h0 : s.copy = 0
  · rw [h0] at hp
    obtain ⟨io', e, hbytes⟩ := hp.compressOutputPrev
    refine ⟨io', by rw [Lz.endCopy, if_neg (not_not.mpr h0), e], bs, hbytes, ?_⟩
    rw [h0]
    exact hst
  · obtain ⟨io', e, hbytes⟩ := hp.updateCopyCount (.ofNat (s.copy - 1))
    refine ⟨io', by rw [Lz.endCopy, if_pos h0, e], _, ?_,
      hst.append_literals (Nat.pos_of_ne_zero h0) h.copy_lt.le⟩
    rw [hbytes, List.append_assoc]

/-- One literal. -/
theorem SegInv.literal (hs : ∀ i, 0 < space i) (hseg : Placed k X seg) (h : SegInv k X hd seg s)
    (hlt : s.ip < seg.pixels k) :
    ∃ s', literal k space seg s = .ok s' ∧ SegInv k X hd seg s' ∧ s'.ip = s.ip + 1 := by
  obtain ⟨bs, b, hp, hst, hb⟩ := h.pending
  obtain ⟨io₁, e₁, hp₁⟩ := hp.encodeBytes hs (k.encodePixel (seg.px k s.ip))
  rw [hseg _ hlt, ← hb, ← litBytes_append_last] at hp₁
  have he : ∀ x, GoodEntry k X (s.htab x) (seg.sizeDelta + (s.ip + 1)) :=
    fun x => (h.entries x).mono (by omega)
  rw [Lz.literal, e₁]
  by_cases hmax : s.copy + 1 = maxCopy
  · have hcoded : Coded k X hd io₁ (seg.sizeDelta + (s.ip + 1)) := by
      have hst' := hst.append_literals (n := s.copy + 1) (Nat.succ_pos _) hmax.le
      rw [← Nat.add_assoc, hb, Nat.add_assoc, hmax] at hst'
      refine ⟨_, ?_, hst'⟩
      rw [hp₁.bytes_eq, hmax, List.append_assoc]
      rfl
    obtain ⟨io₂, e₂, hinv⟩ := encodeCopyCount_inv hs (by omega) hcoded he
    refine ⟨_, ?_, hinv, rfl⟩
    change (if s.copy + 1 = maxCopy then (encodeCopyCount space _ io₁ >>= _) else _) = _
    rw [if_pos hmax, e₂]
    rfl
  · refine ⟨⟨io₁, s.htab, s.ip + 1, s.copy + 1⟩, ?_, ?_, rfl⟩
    · change (if s.copy + 1 = maxCopy then _ else _) = _
      rw [if_neg hmax]
    · have hcopy := h.copy_lt
      exact ⟨hlt, by change s.copy + 1 < maxCopy; omega, he, bs, b, hp₁, hst, by
        change b + (s.copy + 1) = seg.sizeDelta + (s.ip + 1); omega⟩

theorem update_good {p i : Nat} {htab : HashTable} (he : ∀ h, GoodEntry k X (htab h) p)
    (hnew : GoodEntry k X e p) (h : Nat) : GoodEntry k X (Function.update htab i e h) p := by
  by_cases hi : h = i
  · rw [hi, Function.update_self]
    exact hnew
  · rw [Function.update_of_ne hi]
    exact he h

theorem updateHash_good {anchor p : Nat} {htab : HashTable} (hseg : Placed k X seg)
    (hip : ip + 2 ≤ seg.pixels k) (hpos : 2 ≤ ip) (hp : seg.sizeDelta + ip ≤ p + 1)
    (he : ∀ h, GoodEntry k X (htab h) p) (h : Nat) :
    GoodEntry k X (updateHash k seg anchor ip htab h) p := by
  have hnew : ∀ x, x + 4 ≤ seg.pixels k → x < ip → GoodEntry k X ⟨seg, x⟩ p :=
    fun x hx hlt => ⟨hseg, hx, by change seg.sizeDelta + x ≤ p; omega⟩
  have hfirst : ∀ x, GoodEntry k X ((if k.minLen = 3 ∨ anchor + 3 < ip then
      Function.update htab (seg.hashFunc k (ip - 3)) ⟨seg, ip - 3⟩ else htab) x) p := by
    intro x
    split
    · exact update_good he (hnew (ip - 3) (by omega) (by omega)) x
    · exact he x
  rw [updateHash]
  split
  · exact update_good hfirst (hnew (ip - 2) (by omega) (by omega)) h
  · exact hfirst h

/-- One match. -/
theorem SegInv.encodeMatch (hs : ∀ i, 0 < space i) (hseg : Placed k X seg) (h : SegInv k X hd seg s)
    (hip : s.ip + limitOffset < seg.pixels k) (hm : GoodMatch k X seg s.ip m) :
    ∃ s', encodeMatch k space seg m s = .ok s' ∧ SegInv k X hd seg s' ∧ s.ip < s'.ip := by
  obtain ⟨hlong, hend, hsame⟩ := hm.extend hseg hip
  set stop := seg.extend k m with hstop
  have hmin := k.minLen_pos
  have hpos := hm.distance_pos
  obtain ⟨io₁, e₁, bs, hbs, hst⟩ := h.endCopy
  obtain ⟨io₂, e₂, hbytes, -, -⟩ :=
    encodeBytes_writes hs (matchBytes (stop - s.ip - k.minLen) (m.distance - 1)) io₁
  have hcoded : Coded k X hd io₂ (seg.sizeDelta + (stop - 1)) := by
    have hst' := hst.append_ref hpos hm.distance_le hm.distance_lt (n := stop - 1 - s.ip) (by omega)
      fun j hj => by
        rw [Nat.add_assoc]
        exact hsame (s.ip + j) (by omega) (by omega)
    rw [show seg.sizeDelta + s.ip + (stop - 1 - s.ip) = seg.sizeDelta + (stop - 1) by omega,
      show stop - 1 - s.ip + 1 - k.minLen = stop - s.ip - k.minLen by omega] at hst'
    exact ⟨_, by rw [hbytes, hbs, List.append_assoc], hst'⟩
  have he : ∀ x, GoodEntry k X (updateHash k seg s.ip stop s.htab x) (seg.sizeDelta + (stop - 1)) :=
    updateHash_good hseg hend (by omega) (by omega) fun x => (h.entries x).mono (by omega)
  obtain ⟨io₃, e₃, hinv⟩ := encodeCopyCount_inv hs (by omega) hcoded he
  refine ⟨_, ?_, hinv, by change s.ip < stop - 1; omega⟩
  rw [Lz.encodeMatch, e₁]
  change (encodeBytes space (matchBytes (stop - s.ip - k.minLen) (m.distance - 1)) io₁ >>= _) = _
  rw [e₂]
  change (encodeCopyCount space _ io₂ >>= _) = _
  rw [e₃]
  rfl

theorem SegInv.compressRound (hs : ∀ i, 0 < space i) (hseg : Placed k X seg)
    (hsize : seg.sizeDelta + seg.pixels k < 2 ^ 64) (h : SegInv k X hd seg s)
    (hip : s.ip + limitOffset < seg.pixels k) :
    ∃ s', compressRound k space seg s = .ok s' ∧ SegInv k X hd seg s' ∧ s.ip < s'.ip := by
  have hlim : s.ip + 6 < seg.pixels k := hip
  rw [Lz.compressRound, LzImageSegment.findMatch]
  by_cases hrun : seg.isRun k s.ip = true
  · rw [if_pos hrun]
    exact h.encodeMatch hs hseg hip (isRun_good hseg hip hrun)
  · rw [if_neg hrun]
    have hentry : GoodEntry k X ⟨seg, s.ip⟩ (seg.sizeDelta + s.ip) :=
      ⟨hseg, by change s.ip + 4 ≤ seg.pixels k; omega, le_rfl⟩
    have hinv : SegInv k X hd seg
        { s with htab := Function.update s.htab (seg.hashFunc k s.ip) ⟨seg, s.ip⟩ } :=
      ⟨h.ip_le, h.copy_lt, update_good h.entries hentry, h.pending⟩
    cases hm : seg.hashMatch k s.ip (s.htab (seg.hashFunc k s.ip)) with
    | none =>
      obtain ⟨s', e, hi, hs'⟩ := hinv.literal hs hseg (by change s.ip < _; omega)
      exact ⟨s', by simp only [hm, e], hi, by rw [hs']; exact Nat.lt_succ_self _⟩
    | some m =>
      have hgood := hashMatch_good hseg hip (h.entries _) (by omega) hm
      obtain ⟨s', e, hi, hs'⟩ := hinv.encodeMatch hs hseg hip hgood
      exact ⟨s', by simp only [hm, e], hi, hs'⟩

theorem SegInv.compressLoop (hs : ∀ i, 0 < space i) (hseg : Placed k X seg)
    (hsize : seg.sizeDelta + seg.pixels k < 2 ^ 64) (fuel : Nat) (h : SegInv k X hd seg s)
    (hfuel : seg.pixels k < fuel + s.ip) :
    ∃ s', compressLoop k space seg fuel s = .ok s' ∧ SegInv k X hd seg s' := by
  induction fuel generalizing s with
  | zero => exact absurd h.ip_le (by omega)
  | succ fuel ih =>
    rw [Lz.compressLoop]
    by_cases hip : s.ip + limitOffset < seg.pixels k
    · obtain ⟨s₁, e₁, h₁, hlt⟩ := h.compressRound hs hseg hsize hip
      rw [if_pos hip, e₁]
      exact ih h₁ (by omega)
    · rw [if_neg hip]
      exact ⟨s, rfl, h⟩

theorem SegInv.leftOver (hs : ∀ i, 0 < space i) (hseg : Placed k X seg) (h : SegInv k X hd seg s)
    (n : Nat) (hn : s.ip + n = seg.pixels k) :
    ∃ s', leftOver k space seg n s = .ok s' ∧ SegInv k X hd seg s' ∧ s'.ip = seg.pixels k := by
  induction n generalizing s with
  | zero => exact ⟨s, rfl, h, hn⟩
  | succ n ih =>
    obtain ⟨s₁, e₁, h₁, hip⟩ := h.literal hs hseg (by omega)
    rw [Lz.leftOver, e₁]
    exact ih h₁ (by omega)

theorem SegInv.compressPixels (hs : ∀ i, 0 < space i) (hseg : Placed k X seg)
    (hsize : seg.sizeDelta + seg.pixels k < 2 ^ 64) (h : SegInv k X hd seg s) :
    ∃ htab io, compressPixels k space seg s = .ok (htab, io) ∧
      Coded k X hd io (seg.sizeDelta + seg.pixels k) ∧
      ∀ x, GoodEntry k X (htab x) (seg.sizeDelta + seg.pixels k) := by
  obtain ⟨s₁, e₁, h₁⟩ := h.compressLoop hs hseg hsize (seg.pixels k + 1) (by omega)
  obtain ⟨s₂, e₂, h₂, hip⟩ := h₁.leftOver hs hseg (seg.pixels k - s₁.ip) (by have := h₁.ip_le; omega)
  obtain ⟨io, e₃, hc⟩ := h₂.endCopy
  have he := h₂.entries
  rw [hip] at hc he
  refine ⟨s₂.htab, io, ?_, hc, he⟩
  rw [Lz.compressPixels, e₁]
  change (Lz.leftOver k space seg (seg.pixels k - s₁.ip) s₁ >>= _) = _
  rw [e₂]
  change (Lz.endCopy s₂.copy s₂.io >>= _) = _
  rw [e₃]
  rfl

variable (k X) in
/-- The segments follow each other from pixel `a` to pixel `b`. -/
def Laid : Nat → List LzImageSegment → Nat → Prop
  | a, [], b => a = b
  | a, seg :: segs, b => seg.sizeDelta = a ∧ Placed k X seg ∧ Laid (a + seg.pixels k) segs b

theorem Laid.le {a b : Nat} {segs : List LzImageSegment} (h : Laid k X a segs b) : a ≤ b := by
  induction segs generalizing a with
  | nil => exact Nat.le_of_eq h
  | cons seg segs ih =>
    have := ih h.2.2
    omega

theorem compressSegs_coded (hs : ∀ i, 0 < space i) {a b : Nat} {segs : List LzImageSegment}
    {htab : HashTable} {io : Io} (hl : Laid k X a segs b) (hb : b < 2 ^ 64)
    (hc : Coded k X hd io a) (he : ∀ h, GoodEntry k X (htab h) a) :
    ∃ io', compressSegs k space segs htab io = .ok io' ∧ Coded k X hd io' b := by
  induction segs generalizing a htab io with
  | nil =>
    obtain rfl : a = b := hl
    exact ⟨io, rfl, hc⟩
  | cons seg segs ih =>
    obtain ⟨rfl, hseg, hrest⟩ := hl
    have hle := hrest.le
    have hpix : 0 ≤ seg.pixels k := Nat.zero_le _
    obtain ⟨io₁, e₁, hinv⟩ := encodeCopyCount_inv hs hpix hc he
    obtain ⟨htab₂, io₂, e₂, hc₂, he₂⟩ := hinv.compressPixels hs hseg (by omega)
    obtain ⟨io', e, hc'⟩ := ih hrest hc₂ he₂
    refine ⟨io', ?_, hc'⟩
    rw [compressSegs, compressSeg, if_pos rfl, e₁]
    change (compressPixels k space seg ⟨io₁, htab, 0, 0⟩ >>= _) = _
    rw [e₂]
    exact e

theorem encodeCopyCount_bytes (hs : ∀ i, 0 < space i) (c : UInt8) (io : Io) :
    ∃ io', encodeCopyCount space c io = .ok io' ∧ io'.bytes = io.bytes ++ [c] := by
  obtain ⟨io₁, e₁, b₁, -, -⟩ := encode_writes hs c io
  exact ⟨{ io₁ with lastCopy := some (io₁.bytes.length - 1) }, by rw [encodeCopyCount, e₁]; rfl, b₁⟩

theorem flatMap_range_eq_litBytes (hseg : Placed k X seg) :
    ((List.range (seg.pixels k)).flatMap fun i => k.encodePixel (seg.px k i)) =
      litBytes k X seg.sizeDelta (seg.pixels k) := by
  rw [litBytes, List.range'_eq_map_range, List.flatMap_map]
  refine List.flatMap_congr fun i hi => ?_
  rw [hseg i (List.mem_range.mp hi)]

/-- Only a segment that ends within a pixel can stop the copying. -/
theorem copySmall_coded (hs : ∀ i, 0 < space i) {a b : Nat} {segs : List LzImageSegment} {io : Io}
    (hl : Laid k X a segs b) (hc : Coded k X hd io a) :
    (copySmall k space segs io = .error .fault ∧ ∃ seg ∈ segs, seg.size % k.size ≠ 0) ∨
    ∃ segs' io' c, copySmall k space segs io = .ok (segs', io') ∧ Laid k X c segs' b ∧
      Coded k X hd io' c ∧ ∀ seg ∈ segs'.head?, 4 ≤ seg.pixels k := by
  induction segs generalizing a io with
  | nil => exact .inr ⟨[], io, a, rfl, hl, hc, by simp⟩
  | cons seg segs ih =>
    obtain ⟨rfl, hseg, hrest⟩ := hl
    rw [copySmall]
    by_cases hsize : seg.size % k.size = 0
    swap
    · exact .inl ⟨if_pos hsize, seg, List.mem_cons_self, hsize⟩
    rw [if_neg (not_not.mpr hsize)]
    by_cases hsmall : seg.pixels k < 4
    swap
    · rw [if_neg hsmall]
      exact .inr ⟨seg :: segs, io, _, rfl, ⟨rfl, hseg, hrest⟩, hc, by simp; omega⟩
    rw [if_pos hsmall]
    by_cases h0 : seg.size = 0
    · rw [if_pos h0]
      have hpix : seg.pixels k = 0 := by rw [LzImageSegment.pixels, h0, Nat.zero_div]
      rw [hpix, Nat.add_zero] at hrest
      exact (ih hrest hc).imp_left fun ⟨e, s, hs, hm⟩ => ⟨e, s, List.mem_cons_of_mem _ hs, hm⟩
    · have hpos : 0 < seg.pixels k := Nat.div_pos
        (Nat.le_of_dvd (Nat.pos_of_ne_zero h0) (Nat.dvd_of_mod_eq_zero hsize)) k.size_pos
      obtain ⟨bs, hbs, hst⟩ := hc
      obtain ⟨io₁, e₁, b₁⟩ := encodeCopyCount_bytes hs (.ofNat (seg.pixels k - 1)) io
      obtain ⟨io₂, e₂, b₂, -, -⟩ :=
        encodeBytes_writes hs (litBytes k X seg.sizeDelta (seg.pixels k)) io₁
      have hst' := hst.append_literals hpos (by unfold maxCopy; omega)
      have hc₂ : Coded k X hd io₂ (seg.sizeDelta + seg.pixels k) :=
        ⟨_, by rw [b₂, b₁, hbs, List.append_assoc, List.append_assoc]; rfl, hst'⟩
      rw [if_neg h0, e₁, flatMap_range_eq_litBytes hseg]
      change (encodeBytes space (litBytes k X seg.sizeDelta (seg.pixels k)) io₁ >>= _) = _ ∧ _ ∨
        ∃ segs' io' c, (encodeBytes space (litBytes k X seg.sizeDelta (seg.pixels k)) io₁ >>= _) = _ ∧ _
      rw [e₂]
      exact (ih hrest hc₂).imp_left fun ⟨e, s, hs, hm⟩ => ⟨e, s, List.mem_cons_of_mem _ hs, hm⟩

/-- The compressed bytes stand for the pixels of all segments. -/
theorem compress_coded (hs : ∀ i, 0 < space i) {b : Nat} {segs : List LzImageSegment} {io : Io}
    (hl : Laid k X 0 segs b) (hb : b < 2 ^ 64) (hio : io.bytes = hd) :
    (compress k space segs io = .error .fault ∧ ∃ seg ∈ segs, seg.size % k.size ≠ 0) ∨
    ∃ io', compress k space segs io = .ok io' ∧ Coded k X hd io' b := by
  have hc : Coded k X hd io 0 := ⟨[], by rw [hio, List.append_nil], .nil 0⟩
  rw [compress]
  obtain ⟨e, hbad⟩ | ⟨segs', io₁, c, e₁, hl₁, hc₁, hbig⟩ := copySmall_coded hs hl hc
  · exact .inl ⟨by rw [e]; rfl, hbad⟩
  refine .inr ?_
  rw [e₁]
  cases segs' with
  | nil =>
    obtain rfl : c = b := hl₁
    exact ⟨io₁, rfl, hc₁⟩
  | cons seg segs' =>
    obtain ⟨rfl, hseg, hrest⟩ := hl₁
    have hle := hrest.le
    have h4 : 4 ≤ seg.pixels k := hbig seg rfl
    have hentry : GoodEntry k X ⟨seg, 0⟩ seg.sizeDelta := ⟨hseg, by change 0 + 4 ≤ _; omega, le_rfl⟩
    obtain ⟨bs, hbs, hst⟩ := hc₁
    obtain ⟨io₂, e₂, p₂⟩ := encodeCopyCount_pending hs io₁
    obtain ⟨io₃, e₃, p₃⟩ := p₂.encodeBytes hs (k.encodePixel (seg.px k 0))
    obtain ⟨io₄, e₄, p₄⟩ := p₃.encodeBytes hs (k.encodePixel (seg.px k 1))
    have hlit : litBytes k X seg.sizeDelta 2 =
        [] ++ k.encodePixel (X (seg.sizeDelta + 0)) ++ k.encodePixel (X (seg.sizeDelta + 1)) := by
      rw [litBytes_append_last, litBytes_append_last, litBytes_zero]
    rw [hbs, hseg 0 (by omega), hseg 1 (by omega), ← hlit] at p₄
    have hinv : SegInv k X hd seg ⟨io₄, fun _ => ⟨seg, 0⟩, 2, 2⟩ := {
      ip_le := by change 2 ≤ seg.pixels k; omega
      copy_lt := by change 2 < maxCopy; decide
      entries := fun _ => hentry.mono (Nat.le_add_right _ _)
      pending := ⟨bs, seg.sizeDelta, p₄, hst, rfl⟩ }
    obtain ⟨htab, io₅, e₅, hc₅, he₅⟩ := hinv.compressPixels hs hseg (by omega)
    obtain ⟨io', e, hc'⟩ := compressSegs_coded hs hrest hb hc₅ he₅
    refine ⟨io', ?_, hc'⟩
    change (encodeCopyCount space 31 io₁ >>= _) = _
    rw [e₂]
    change (encodeBytes space (k.encodePixel (seg.px k 0)) io₂ >>= _) = _
    rw [e₃]
    change (encodeBytes space (k.encodePixel (seg.px k 1)) io₃ >>= _) = _
    rw [e₄]
    change (compressPixels k space seg ⟨io₄, fun _ => ⟨seg, 0⟩, 2, 2⟩ >>= _) = _
    rw [e₅]
    exact e

end Colama.Spice.Lz
