import Mathlib
import Colama.Spice.SharedCacheSpec
import Colama.Spice.PixmapServerSpec

namespace Colama.Spice

open Lib

variable {log log' : PoolLog Channels (Nat × Nat)} {got lost : List (Nat × Nat)} {A B : Channels} {M : Message}
  {m : Channels × Nat} {x : Nat × Nat}

/-- A message that was sent, and what the client has got and lost so far: of what the message evicts the client has
lost all that is not left in `gone`, and of what it adds it has got all that is not left in `body`. -/
structure Pending (log : PoolLog Channels (Nat × Nat)) (got lost : List (Nat × Nat)) (A : Channels) (M : Message) :
    Prop where
  send : .send (A, M.serial) M.waits ∈ log
  gone_nodup : M.gone.Nodup
  res_eq : M.gone.map Prod.snd = M.res
  gone_mem : ∀ x ∈ M.gone, .evict (A, M.serial) x ∈ log ∧ x ∉ lost
  adds_nodup : (adds M.body).Nodup
  adds_mem : ∀ x ∈ adds M.body, .add (A, M.serial) x ∈ log ∧ x ∉ got
  added : ∀ x, .add (A, M.serial) x ∈ log → x ∈ got ∨ x ∈ adds M.body

theorem Pending.mono (h : Pending log got lost A M) (hs : log <:+ log') (hlegal : Legal log') :
    Pending log' got lost A M where
  send := hs.subset h.send
  gone_nodup := h.gone_nodup
  res_eq := h.res_eq
  gone_mem x hx := (h.gone_mem x hx).imp_left (hs.subset ·)
  adds_nodup := h.adds_nodup
  adds_mem x hx := (h.adds_mem x hx).imp_left (hs.subset ·)
  added x hx := h.added x (hlegal.mem_of_sent hs ⟨_, h.send⟩ hx rfl)

theorem Pending.got_cons (h : Pending log got lost A M) (hlegal : Legal log) (hx : .add m x ∈ log)
    (hne : (A, M.serial) ≠ m) : Pending log (x :: got) lost A M where
  send := h.send
  gone_nodup := h.gone_nodup
  res_eq := h.res_eq
  gone_mem := h.gone_mem
  adds_nodup := h.adds_nodup
  adds_mem y hy := by
    obtain ⟨hadd, hnot⟩ := h.adds_mem y hy
    refine ⟨hadd, fun hmem => ?_⟩
    obtain rfl | hmem := List.mem_cons.mp hmem
    · exact hne (hlegal.add_unique hx hadd)
    · exact hnot hmem
  added y hy := (h.added y hy).imp_left (List.mem_cons_of_mem x)

theorem Pending.lost_cons (h : Pending log got lost A M) (hlegal : Legal log) (hx : .evict m x ∈ log)
    (hne : (A, M.serial) ≠ m) : Pending log got (x :: lost) A M where
  send := h.send
  gone_nodup := h.gone_nodup
  res_eq := h.res_eq
  gone_mem y hy := by
    obtain ⟨hevict, hnot⟩ := h.gone_mem y hy
    refine ⟨hevict, fun hmem => ?_⟩
    obtain rfl | hmem := List.mem_cons.mp hmem
    · exact hne (hlegal.evict_unique hx hevict)
    · exact hnot hmem
  adds_nodup := h.adds_nodup
  adds_mem := h.adds_mem
  added := h.added

def ofId (id : Nat) (x : Nat × Nat) : Bool := x.2 = id

theorem countP_ofId_self (x : Nat × Nat) (l : List (Nat × Nat)) :
    (x :: l).countP (ofId x.2) = l.countP (ofId x.2) + 1 := List.countP_cons_of_pos (decide_eq_true rfl)

theorem countP_ofId_of_ne {id : Nat} (h : id ≠ x.2) (l : List (Nat × Nat)) :
    (x :: l).countP (ofId id) = l.countP (ofId id) :=
  List.countP_cons_of_neg fun hx => h (of_decide_eq_true hx).symm

structure ClientInv (log : PoolLog Channels (Nat × Nat)) (c : DisplayClient) (got lost : List (Nat × Nat)) :
    Prop where
  serials : ∀ A, (c.queue A).map Message.serial = List.range' (c.sync A + 1) (c.queue A).length
  pending : ∀ A, ∀ M ∈ c.queue A, Pending log got lost A M
  entered : ∀ A, c.entered A = true → ∃ M rest, c.queue A = M :: rest ∧ ∀ w ∈ M.waits, w.2 ≤ c.sync w.1
  sync_sent : ∀ A n, n ≠ 0 → n ≤ c.sync A → Sent log (A, n)
  got_mem : ∀ m x, .add m x ∈ log → m.2 ≤ c.sync m.1 → x ∈ got
  got_sent : ∀ x ∈ got, ∃ m, .add m x ∈ log ∧ Sent log m
  lost_sent : ∀ x ∈ lost, ∃ m, .evict m x ∈ log ∧ Sent log m
  got_nodup : got.Nodup
  lost_nodup : lost.Nodup
  lost_sub : lost ⊆ got
  refs : ∃ f, c.cache.Holds pixmapCacheTreat f ∧ ∀ id, f id + lost.countP (ofId id) = got.countP (ofId id)

variable {c c' : DisplayClient} {rest : List Message}

theorem clientInv_create : ClientInv [] DisplayClient.create [] [] where
  serials _ := rfl
  pending := nofun
  entered _ := nofun
  sync_sent _ _ hn hle := absurd (Nat.le_zero.mp hle) hn
  got_mem := nofun
  got_sent := nofun
  lost_sent := nofun
  got_nodup := List.nodup_nil
  lost_nodup := List.nodup_nil
  lost_sub := List.nil_subset _
  refs := ⟨fun _ => 0, SharedCache.holds_empty, fun _ => rfl⟩

/-- What the server does next concerns messages that were not sent. -/
theorem ClientInv.mono (h : ClientInv log c got lost) (hs : log <:+ log') (hlegal : Legal log') :
    ClientInv log' c got lost where
  serials := h.serials
  pending A M hM := (h.pending A M hM).mono hs hlegal
  entered := h.entered
  sync_sent A n hn hle := (h.sync_sent A n hn hle).mono hs
  got_mem m x hx hle := by
    obtain ⟨old, hold⟩ := exists_suffix hx
    have hsent := h.sync_sent m.1 m.2 (hlegal _ _ hold).1.ne_zero hle
    exact h.got_mem m x (hlegal.mem_of_sent hs hsent hx rfl) hle
  got_sent x hx := (h.got_sent x hx).imp fun m hm => ⟨hs.subset hm.1, hm.2.mono hs⟩
  lost_sent x hx := (h.lost_sent x hx).imp fun m hm => ⟨hs.subset hm.1, hm.2.mono hs⟩
  got_nodup := h.got_nodup
  lost_nodup := h.lost_nodup
  lost_sub := h.lost_sub
  refs := h.refs

/-- The client deals with the messages in the order of their serials. -/
theorem ClientInv.head_serial (h : ClientInv log c got lost) (hq : c.queue A = M :: rest) :
    M.serial = c.sync A + 1 ∧ rest.map Message.serial = List.range' (c.sync A + 1 + 1) rest.length := by
  have hserials := h.serials A
  rw [hq, List.map_cons, List.length_cons, List.range'_succ] at hserials
  exact List.cons.inj hserials

theorem ClientInv.waits_le (h : ClientInv log c got lost) (hA : c.entered A = true) (hq : c.queue A = M :: rest) :
    ∀ w ∈ M.waits, w.2 ≤ c.sync w.1 := by
  obtain ⟨M', rest', hq', hwaits⟩ := h.entered A hA
  obtain ⟨rfl, -⟩ := List.cons.inj (hq'.symm.trans hq)
  exact hwaits

theorem ClientInv.ne_head (h : ClientInv log c got lost) (hq : c.queue A = M :: rest) {N : Message}
    (hN : N ∈ c.queue B) (hrest : B = A → N ∈ rest) : (B, N.serial) ≠ (A, M.serial) := by
  intro he
  obtain ⟨rfl, hserial⟩ := Prod.mk.inj he
  obtain ⟨hM, hmap⟩ := h.head_serial hq
  have hmem : N.serial ∈ List.range' (c.sync B + 1 + 1) rest.length :=
    hmap ▸ List.mem_map_of_mem (hrest rfl)
  have := (List.mem_range'_1.mp hmem).1
  omega

/-- The client has got what it is told to remove. -/
theorem ClientInv.got_of_gone (h : ClientInv log c got lost) (hlegal : Legal log) (hA : c.entered A = true)
    (hq : c.queue A = M :: rest) (hx : x ∈ M.gone) : x ∈ got := by
  have hM := h.pending A M (hq ▸ List.mem_cons_self)
  refine hlegal.got_of_evict (· ∈ got) h.got_mem (hM.gone_mem x hx).1 hM.send
    (h.waits_le hA hq) ?_
  exact le_of_eq (h.head_serial hq).1

theorem ClientInv.remove (h : ClientInv log c got lost) (hlegal : Legal log) (hA : c.entered A = true)
    (hq : c.queue A = M :: rest) {gone : List (Nat × Nat)} (hgone : M.gone = x :: gone) :
    ∃ cache, c.cache.remove pixmapCacheTreat x.2 = .ok cache ∧
      ∃ f, cache.Holds pixmapCacheTreat f ∧ ∀ id, f id + (x :: lost).countP (ofId id) = got.countP (ofId id) := by
  have hx : x ∈ M.gone := hgone ▸ List.mem_cons_self
  have hnot := ((h.pending A M (hq ▸ List.mem_cons_self)).gone_mem x hx).2
  have hgot := h.got_of_gone hlegal hA hq hx
  obtain ⟨f, hf, hcount⟩ := h.refs
  -- the items that are lost, with this one, are among those that the client has got
  have hsub : (x :: lost).Subperm got :=
    List.subperm_of_subset (List.nodup_cons.mpr ⟨hnot, h.lost_nodup⟩) (List.cons_subset.mpr ⟨hgot, h.lost_sub⟩)
  have hle := hsub.countP_le (ofId x.2)
  have hself := countP_ofId_self x lost
  have heq := hcount x.2
  have hpos : 0 < f x.2 := by omega
  obtain ⟨cache, hremove, hcache⟩ := hf.remove hpos
  refine ⟨cache, hremove, _, hcache, fun id => ?_⟩
  by_cases hid : id = x.2
  · subst hid
    rw [Function.update_self, hself]
    omega
  · rw [Function.update_of_ne hid, countP_ofId_of_ne hid]
    exact hcount id

theorem setHead_queue_self (c : DisplayClient) (A : Channels) (M : Message) (cache : SharedCache) :
    (c.setHead A M cache).queue A = M :: (c.queue A).tail := Function.update_self _ _ _

theorem setHead_queue_of_ne (c : DisplayClient) (h : B ≠ A) (M : Message) (cache : SharedCache) :
    (c.setHead A M cache).queue B = c.queue B := Function.update_of_ne h _ _

/-- The client has dealt with a part of a message. -/
theorem ClientInv.setHead (h : ClientInv log c got lost) (hq : c.queue A = M :: rest) {N : Message}
    {cache : SharedCache} {got' lost' : List (Nat × Nat)} (hserial : N.serial = M.serial) (hwaits : N.waits = M.waits)
    (hN : Pending log got' lost' A N)
    (hother : ∀ B, ∀ O ∈ c.queue B, (B, O.serial) ≠ (A, M.serial) → Pending log got' lost' B O)
    (hsub : got ⊆ got') (hgot : ∀ x ∈ got', ∃ m, .add m x ∈ log ∧ Sent log m)
    (hlost : ∀ x ∈ lost', ∃ m, .evict m x ∈ log ∧ Sent log m) (hnodup : got'.Nodup) (hnodup' : lost'.Nodup)
    (hlostSub : lost' ⊆ got')
    (hrefs : ∃ f, cache.Holds pixmapCacheTreat f ∧ ∀ id, f id + lost'.countP (ofId id) = got'.countP (ofId id)) :
    ClientInv log (c.setHead A N cache) got' lost' where
  serials B := by
    by_cases hB : B = A
    · subst hB
      rw [setHead_queue_self, hq, List.tail_cons, List.map_cons, hserial, ← List.map_cons, ← hq]
      exact (h.serials B).trans (by rw [hq]; rfl)
    · rw [setHead_queue_of_ne c hB]
      exact h.serials B
  pending B O hO := by
    by_cases hB : B = A
    · subst hB
      rw [setHead_queue_self, hq, List.tail_cons] at hO
      obtain rfl | hO := List.mem_cons.mp hO
      · exact hN
      · have hmem : O ∈ c.queue B := hq ▸ List.mem_cons_of_mem M hO
        exact hother B O hmem (h.ne_head hq hmem fun _ => hO)
    · rw [setHead_queue_of_ne c hB] at hO
      exact hother B O hO (h.ne_head hq hO fun he => absurd he hB)
  entered B hB := by
    by_cases he : B = A
    · subst he
      exact ⟨N, _, setHead_queue_self c B N cache, hwaits ▸ h.waits_le hB hq⟩
    · rw [setHead_queue_of_ne c he]
      exact h.entered B hB
  sync_sent := h.sync_sent
  got_mem m x hx hle := hsub (h.got_mem m x hx hle)
  got_sent := hgot
  lost_sent := hlost
  got_nodup := hnodup
  lost_nodup := hnodup'
  lost_sub := hlostSub
  refs := hrefs

theorem ClientInv.inval (h : ClientInv log c got lost) (hlegal : Legal log) (hc : c.inval A = some c') :
    ∃ lost', ClientInv log c' got lost' := by
  unfold DisplayClient.inval at hc
  split at hc
  · next serial waits id res gone body rest hA hq =>
    have hM := h.pending A _ (hq ▸ List.mem_cons_self)
    obtain ⟨x, gone, rfl⟩ : ∃ x gone', gone = x :: gone' := by
      cases gone with
      | nil => exact absurd hM.res_eq nofun
      | cons x gone => exact ⟨x, gone, rfl⟩
    obtain ⟨hid, hres⟩ := List.cons.inj hM.res_eq
    obtain ⟨hxgone, hnodup⟩ := List.nodup_cons.mp hM.gone_nodup
    obtain ⟨hevict, hnot⟩ := hM.gone_mem x List.mem_cons_self
    obtain ⟨cache, hremove, hrefs⟩ := h.remove hlegal hA hq rfl
    have hgot := h.got_of_gone hlegal hA hq List.mem_cons_self
    rw [hid] at hremove
    rw [hremove] at hc
    cases hc
    refine ⟨x :: lost, h.setHead hq rfl rfl ⟨hM.send, hnodup, hres, fun y hy => ?_, hM.adds_nodup, hM.adds_mem,
      hM.added⟩ (fun B O hO hne => (h.pending B O hO).lost_cons hlegal hevict hne) (List.Subset.refl _) h.got_sent
      (fun y hy => ?_) h.got_nodup (List.nodup_cons.mpr ⟨hnot, h.lost_nodup⟩)
      (List.cons_subset.mpr ⟨hgot, h.lost_sub⟩) hrefs⟩
    · obtain ⟨hevict', hnot'⟩ := hM.gone_mem y (List.mem_cons_of_mem x hy)
      refine ⟨hevict', fun hmem => ?_⟩
      obtain rfl | hmem := List.mem_cons.mp hmem
      · exact hxgone hy
      · exact hnot' hmem
    · obtain rfl | hy := List.mem_cons.mp hy
      · exact ⟨_, hevict, _, hM.send⟩
      · exact h.lost_sent y hy
  · exact absurd hc nofun

theorem use_cached {cache cache' : SharedCache} {id : Nat} {image : CachedImage} {f : Nat → Nat}
    (hf : cache.Holds pixmapCacheTreat f) (hu : cache.use pixmapCacheTreat (.cached id image) = some cache') :
    cache'.Holds pixmapCacheTreat f := by
  cases image with
  | fromCache =>
    obtain ⟨_, -, rfl⟩ := Option.map_eq_some_iff.mp hu
    exact hf
  | fromCacheLossless =>
    obtain ⟨_, -, rfl⟩ := Option.map_eq_some_iff.mp hu
    exact hf
  | cacheReplaceMe lossy => exact hf.replace hu

theorem ClientInv.use (h : ClientInv log c got lost) (hlegal : Legal log) (hc : c.use A = some c') :
    ∃ got', ClientInv log c' got' lost := by
  unfold DisplayClient.use at hc
  split at hc
  · next serial waits gone image body rest hA hq =>
    have hM := h.pending A _ (hq ▸ List.mem_cons_self)
    obtain ⟨f, hf, hcount⟩ := h.refs
    split at hc
    · next cache huse =>
      cases hc
      cases image with
      | cached id image =>
        exact ⟨got, h.setHead hq rfl rfl ⟨hM.send, hM.gone_nodup, hM.res_eq, hM.gone_mem, hM.adds_nodup, hM.adds_mem,
          hM.added⟩ (fun B O hO _ => h.pending B O hO) (List.Subset.refl _) h.got_sent h.lost_sent h.got_nodup
          h.lost_nodup h.lost_sub ⟨f, use_cached hf huse, hcount⟩⟩
      | cacheMe x lossy =>
        cases huse
        obtain ⟨hxbody, hnodup⟩ := List.nodup_cons.mp hM.adds_nodup
        obtain ⟨hadd, hnot⟩ := hM.adds_mem x List.mem_cons_self
        refine ⟨x :: got, h.setHead hq rfl rfl ⟨hM.send, hM.gone_nodup, hM.res_eq, hM.gone_mem, hnodup,
          fun y hy => ?_, fun y hy => ?_⟩ (fun B O hO hne => (h.pending B O hO).got_cons hlegal hadd hne)
          (List.subset_cons_self x got) (fun y hy => ?_) h.lost_sent (List.nodup_cons.mpr ⟨hnot, h.got_nodup⟩)
          h.lost_nodup (List.subset_cons_of_subset x h.lost_sub) ⟨_, hf.add x.2 lossy, fun id => ?_⟩⟩
        · obtain ⟨hadd', hnot'⟩ := hM.adds_mem y (List.mem_cons_of_mem x hy)
          refine ⟨hadd', fun hmem => ?_⟩
          obtain rfl | hmem := List.mem_cons.mp hmem
          · exact hxbody hy
          · exact hnot' hmem
        · obtain hy | hy := hM.added y hy
          · exact .inl (List.mem_cons_of_mem x hy)
          · obtain rfl | hy := List.mem_cons.mp hy
            · exact .inl List.mem_cons_self
            · exact .inr hy
        · obtain rfl | hy := List.mem_cons.mp hy
          · exact ⟨_, hadd, _, hM.send⟩
          · exact h.got_sent y hy
        · by_cases hid : id = x.2
          · subst hid
            rw [Function.update_self, countP_ofId_self, ← hcount x.2]
            omega
          · rw [Function.update_of_ne hid, countP_ofId_of_ne hid]
            exact hcount id
    · exact absurd hc nofun
  · exact absurd hc nofun

theorem ClientInv.enter (h : ClientInv log c got lost) (hc : c.enter A = some c') : ClientInv log c' got lost := by
  unfold DisplayClient.enter at hc
  split at hc
  · exact absurd hc nofun
  · next M rest hq =>
    split at hc
    · next hwaits =>
      cases hc
      refine ⟨h.serials, h.pending, fun B hB => ?_, h.sync_sent, h.got_mem, h.got_sent, h.lost_sent,
        h.got_nodup, h.lost_nodup, h.lost_sub, h.refs⟩
      dsimp only at hB
      by_cases he : B = A
      · subst he
        exact ⟨M, rest, hq, hwaits.2⟩
      · rw [Function.update_of_ne he] at hB
        exact h.entered B hB
    · exact absurd hc nofun

theorem ClientInv.finish (h : ClientInv log c got lost) (hc : c.finish A = some c') : ClientInv log c' got lost := by
  unfold DisplayClient.finish at hc
  split at hc
  · next serial waits gone rest hA hq =>
    cases hc
    have hM := h.pending A _ (hq ▸ List.mem_cons_self)
    obtain ⟨hserial, hrest⟩ := h.head_serial hq
    have hserial : serial = c.sync A + 1 := hserial
    have hle (B : Channels) : c.sync B ≤ Function.update c.sync A serial B := by
      by_cases hB : B = A
      · rw [hB, Function.update_self, hserial]
        exact Nat.le_succ _
      · rw [Function.update_of_ne hB]
    refine ⟨fun B => ?_, fun B N hN => ?_, fun B hB => ?_, fun B n hn hle' => ?_, fun m x hx hle' => ?_,
      h.got_sent, h.lost_sent, h.got_nodup, h.lost_nodup, h.lost_sub, h.refs⟩
    · dsimp only
      by_cases hB : B = A
      · subst hB
        rw [Function.update_self, Function.update_self, hserial]
        exact hrest
      · rw [Function.update_of_ne hB, Function.update_of_ne hB]
        exact h.serials B
    · dsimp only at hN
      by_cases hB : B = A
      · subst hB
        rw [Function.update_self] at hN
        exact h.pending B N (hq ▸ List.mem_cons_of_mem _ hN)
      · rw [Function.update_of_ne hB] at hN
        exact h.pending B N hN
    · dsimp only at hB ⊢
      by_cases he : B = A
      · rw [he, Function.update_self] at hB
        exact absurd hB (by intro h; cases h)
      · rw [Function.update_of_ne he] at hB ⊢
        obtain ⟨N, rest', hN, hwaits⟩ := h.entered B hB
        exact ⟨N, rest', hN, fun w hw => (hwaits w hw).trans (hle w.1)⟩
    · dsimp only at hle'
      by_cases hB : B = A
      · subst hB
        rw [Function.update_self, hserial] at hle'
        obtain hle' | rfl := Nat.le_succ_iff.mp hle'
        · exact h.sync_sent B n hn hle'
        · have hsend := hM.send
          rw [hserial] at hsend
          exact ⟨waits, hsend⟩
      · rw [Function.update_of_ne hB] at hle'
        exact h.sync_sent B n hn hle'
    · dsimp only at hle'
      by_cases hm : m.1 = A
      · rw [hm, Function.update_self, hserial] at hle'
        obtain hle' | heq := Nat.le_succ_iff.mp hle'
        · exact h.got_mem m x hx (hm ▸ hle')
        · refine (hM.added x ?_).resolve_right List.not_mem_nil
          rw [← show m = (A, serial) from Prod.ext hm (heq.trans hserial.symm)]
          exact hx
      · rw [Function.update_of_ne hm] at hle'
        exact h.got_mem m x hx hle'
  · exact absurd hc (by intro h; cases h)

/-- A message that is sent comes after those that the client has still to deal with. -/
theorem ClientInv.receive {s : DisplayServer} {l : List Nat} (h : ClientInv s.log c got lost) (hs : ServerInv s l)
    (hA : s.building A = true) (hserial : (s.channel A).serial = c.sync A + (c.queue A).length + 1) :
    ClientInv (s.send A).log (c.receive A (s.outgoing A)) got lost := by
  have hm := hs.making A hA
  have hmsg : ((s.channel A).id, (s.channel A).serial) = s.message A := by rw [hs.id_eq, DisplayServer.message]
  have hmemGone := hm.gone_mem
  have hmemAdds := hm.adds_mem
  rw [hmsg] at hmemGone hmemAdds
  have hsuffix : s.log <:+ (s.send A).log := List.suffix_cons _ _
  have hlegal := (hs.send hA).legal
  have h' := h.mono hsuffix hlegal
  have hnotSent := (hs.unsent A hA).2
  have hout : (s.outgoing A).serial = (s.channel A).serial ∧ (s.outgoing A).res = (s.channel A).freeListRes ∧
      (s.outgoing A).gone = s.gone A ∧ (s.outgoing A).body = s.body A := by
    rw [DisplayServer.outgoing, DisplayChannel.beginSendMessage]
    split
    · next hnil => exact ⟨rfl, hnil.symm, rfl, rfl⟩
    · exact ⟨rfl, rfl, rfl, rfl⟩
  obtain ⟨houtSerial, houtRes, houtGone, houtBody⟩ := hout
  have hid : (A, (s.outgoing A).serial) = s.message A := by rw [houtSerial, DisplayServer.message]
  have hpending : Pending (s.send A).log got lost A (s.outgoing A) := by
    refine ⟨?_, houtGone ▸ hm.gone_nodup, by rw [houtGone, houtRes]; exact hm.res_eq, fun x hx => ?_,
      houtBody ▸ hm.adds_nodup, fun x hx => ?_, fun x hx => ?_⟩
    · rw [hid]
      exact List.mem_cons_self
    · rw [houtGone, hmemGone] at hx
      rw [hid]
      refine ⟨hsuffix.subset hx, fun hlost => hnotSent ?_⟩
      obtain ⟨m, hevict, hsent⟩ := h.lost_sent x hlost
      rwa [← hs.legal.evict_unique hevict hx] at hsent
    · rw [houtBody, hmemAdds] at hx
      rw [hid]
      refine ⟨hsuffix.subset hx, fun hgot => hnotSent ?_⟩
      obtain ⟨m, hadd, hsent⟩ := h.got_sent x hgot
      rwa [← hs.legal.add_unique hadd hx] at hsent
    · rw [hid] at hx
      rw [houtBody, hmemAdds]
      exact .inr ((List.mem_cons.mp hx).resolve_left (by rintro ⟨⟩))
  have hself : (c.receive A (s.outgoing A)).queue A = c.queue A ++ [s.outgoing A] := Function.update_self _ _ _
  have hne (B : Channels) (hB : B ≠ A) : (c.receive A (s.outgoing A)).queue B = c.queue B :=
    Function.update_of_ne hB _ _
  refine ⟨fun B => ?_, fun B N hN => ?_, fun B hB => ?_, h'.sync_sent, h'.got_mem, h'.got_sent, h'.lost_sent,
    h'.got_nodup, h'.lost_nodup, h'.lost_sub, h'.refs⟩
  · by_cases hB : B = A
    · subst hB
      rw [hself, List.map_append, List.length_append, List.length_singleton, List.map_singleton, h.serials,
        houtSerial, hserial, List.range'_concat]
      refine congrArg (_ ++ ·) (congrArg (fun n => [n]) ?_)
      change _ = c.sync B + 1 + 1 * (c.queue B).length
      omega
    · rw [hne B hB]
      exact h.serials B
  · by_cases hB : B = A
    · subst hB
      rw [hself] at hN
      obtain hN | hN := List.mem_append.mp hN
      · exact h'.pending B N hN
      · rw [List.mem_singleton.mp hN]
        exact hpending
    · rw [hne B hB] at hN
      exact h'.pending B N hN
  · obtain ⟨M, rest, hq, hwaits⟩ := h.entered B hB
    by_cases he : B = A
    · subst he
      exact ⟨M, rest ++ [s.outgoing B], by rw [hself, hq, List.cons_append], hwaits⟩
    · exact ⟨M, rest, by rw [hne B he, hq], hwaits⟩

/-- The message that is being made waits for what was sent early only, and so do those that were sent. -/
structure PromptInv (s : DisplayServer) : Prop where
  prompt : Prompt s.log
  early : ∀ A, s.building A = true → ∀ B ≠ A, (s.channel A).freeListSync B ≠ 0 →
    Early s.log (s.message A) (B, (s.channel A).freeListSync B)

section Prompt

variable {s s' : DisplayServer} {l : List Nat}

theorem PromptInv.start (h : PromptInv s) (A : Channels) : PromptInv (s.start A) := by
  refine ⟨h.prompt, fun B hb C hC hne => ?_⟩
  by_cases hB : B = A
  · subst hB
    rw [s.start_channel_self] at hne
    exact absurd rfl hne
  · rw [s.start_building_of_ne hB] at hb
    rw [s.start_channel_of_ne hB] at hne ⊢
    rw [DisplayServer.message, s.start_channel_of_ne hB]
    exact h.early B hb C hC hne

theorem PromptInv.hit (h : PromptInv s) (hs : ServerInv s l) (hA : s.building A = true) (id : Nat)
    (image : Option CachedImage) : PromptInv (s.hit A id image) := by
  obtain ⟨l', hs'⟩ := hs.hit hA id image
  have hlegal := hs'.legal
  unfold DisplayServer.hit at hlegal ⊢
  cases hp : s.cache.table.find bitsCache id with
  | none => exact h
  | some p =>
    rw [hp] at hlegal
    exact ⟨prompt_cons h.prompt fun _ _ => nofun, fun B hb C hC hne =>
      (h.early B hb C hC hne).mono (List.suffix_cons _ _) hlegal⟩

theorem PromptInv.setLossy (h : PromptInv s) (id : Nat) (lossy : Int) : PromptInv (s.setLossy id lossy) :=
  ⟨h.prompt, h.early⟩

/-- What the message evicts is, on the other channels, used by messages that were sent early only. -/
def EvictsEarly (s : DisplayServer) (A : Channels) (cache : PixmapCache) : Prop :=
  ∀ x ∈ s.cache.evicted cache, ∀ B ≠ A, (s.cache.table.item x.1).sync B ≠ 0 →
    Early s.log (s.message A) (B, (s.cache.table.item x.1).sync B)

theorem PromptInv.add (h : PromptInv s) (hs : ServerInv s l) (hA : s.building A = true) {id size : Nat}
    (hsize : 0 < size ∧ size < 2 ^ 32) {lossy : Int}
    (hearly : ∀ cache ch ok, s.cache.add id size lossy (s.channel A) = some (cache, ch, ok) →
      EvictsEarly s A cache) (hadd : s.add A id size lossy = some s') : PromptInv s' := by
  obtain ⟨s₁, l₁, hadd₁, hs₁⟩ := hs.add hA id hsize lossy
  obtain rfl := Option.some_inj.mp (hadd₁.symm.trans hadd)
  obtain ⟨c', ch', ok, l', gone, hcache, hadded⟩ :=
    hs.accounted.add_eq hs.size_fits id hsize lossy (s.channel A)
  rw [DisplayServer.add, hcache] at hadd
  cases hadd
  have hgone := hadded.evicted_eq hs.accounted.wellformed.holds.lt_next
  have hsuffix : s.log <:+ (s.added A c' ch' ok id lossy).log := evictThenAdd_suffix _ _ _ _ _
  have hmsg : (A, ch'.serial) = s.message A := by rw [DisplayServer.message, hadded.released.channel_eq.2]
  refine ⟨h.prompt.evictThenAdd _ _ _ _, fun B hb C hC hne => ?_⟩
  by_cases hB : B = A
  · subst hB
    have hself : (s.added B c' ch' ok id lossy).channel B = ch' := Function.update_self _ _ _
    rw [hself] at hne ⊢
    rw [DisplayServer.message, hself, hmsg]
    refine Early.mono ?_ hsuffix hs₁.legal
    obtain heq | ⟨p, hp, heq⟩ := hadded.released.sync_eq C
    · rw [heq] at hne ⊢
      exact h.early B hA C hC hne
    · rw [heq] at hne ⊢
      have hmem : (p, (s.cache.table.item p).id) ∈ s.cache.evicted c' := by
        rw [hgone]
        exact List.mem_map.mpr ⟨p, hp, rfl⟩
      exact hearly c' ch' ok hcache _ hmem C hC hne
  · have hother : (s.added A c' ch' ok id lossy).channel B = s.channel B := Function.update_of_ne hB _ _
    rw [hother] at hne ⊢
    rw [DisplayServer.message, hother]
    exact (h.early B hb C hC hne).mono hsuffix hs₁.legal

theorem PromptInv.send (h : PromptInv s) (hs : ServerInv s l) (hA : s.building A = true) :
    PromptInv (s.send A) := by
  refine ⟨prompt_cons h.prompt fun m waits he w hw => ?_, fun B hb C hC hne => ?_⟩
  · obtain ⟨rfl, rfl⟩ := PoolEvent.send.inj he
    obtain ⟨hne, hsync, heq⟩ := mem_waitList.mp (beginSendMessage_waits_subset _ _ _ hw)
    rw [hs.id_eq] at hne
    have hearly := h.early A hA w.1 hne hsync
    rwa [← heq] at hearly
  · exact (h.early B (DisplayServer.building_of_send hb).2 C hC hne).mono (List.suffix_cons _ _) (hs.send hA).legal

end Prompt

namespace DisplaySession

variable {s s' : DisplaySession} {op : DisplayOp}

/-- The arguments are in their ranges and the serial does not wrap. -/
def Valid (s : DisplaySession) : DisplayOp → Prop
  | .start A => (s.server.channel A).serial + 1 < 2 ^ 64
  | .add _ _ size _ => 0 < size ∧ size < 2 ^ 32
  | _ => True

/-- What is evicted, if anything, is not in use by messages of other channels that are being made, or that were
sent only after they could have hit what the message itself adds. -/
def Settled (s : DisplaySession) : DisplayOp → Prop
  | .add A id size lossy => ∀ cache ch ok,
    s.server.cache.add id size lossy (s.server.channel A) = some (cache, ch, ok) → EvictsEarly s.server A cache
  | _ => True

structure Inv (s : DisplaySession) : Prop where
  server : ∃ l, ServerInv s.server l
  client : ∃ got lost, ClientInv s.server.log s.client got lost
  count : ∀ A, (s.server.channel A).serial =
    s.client.sync A + (s.client.queue A).length + cond (s.server.building A) 1 0

theorem inv_create {size : Int} (hfits : PixmapCache.SizeFits size) : Inv (create size) :=
  ⟨⟨[], serverInv_create hfits⟩, ⟨[], [], clientInv_create⟩, fun _ => rfl⟩

/-- A step of the server that only lengthens the log and counts no message. -/
theorem Inv.withServer (h : Inv s) {server : DisplayServer} {l : List Nat} (hserver : ServerInv server l)
    (hs : s.server.log <:+ server.log)
    (hcount : ∀ A, (server.channel A).serial + cond (s.server.building A) 1 0 =
      (s.server.channel A).serial + cond (server.building A) 1 0) : Inv (s.withServer server) := by
  obtain ⟨got, lost, hclient⟩ := h.client
  refine ⟨⟨l, hserver⟩, ⟨got, lost, hclient.mono hs hserver.legal⟩, fun A => ?_⟩
  have := h.count A
  have := hcount A
  change (server.channel A).serial = s.client.sync A + (s.client.queue A).length + cond (server.building A) 1 0
  omega

theorem Inv.start (h : Inv s) (hA : s.server.building A = false)
    (hserial : (s.server.channel A).serial + 1 < 2 ^ 64) : Inv (s.withServer (s.server.start A)) := by
  obtain ⟨l, hs⟩ := h.server
  refine h.withServer (hs.start hA hserial) (List.suffix_refl _) fun B => ?_
  by_cases hB : B = A
  · subst hB
    rw [s.server.start_channel_self, s.server.start_building_self, hA]
    exact Nat.mod_eq_of_lt hserial
  · rw [s.server.start_channel_of_ne hB, s.server.start_building_of_ne hB]

theorem hit_suffix (s : DisplayServer) (A : Channels) (id : Nat) (image : Option CachedImage) :
    s.log <:+ (s.hit A id image).log ∧ (s.hit A id image).channel = s.channel ∧
      (s.hit A id image).building = s.building := by
  rw [DisplayServer.hit]
  split
  · exact ⟨List.suffix_refl _, rfl, rfl⟩
  · exact ⟨List.suffix_cons _ _, rfl, rfl⟩

theorem Inv.add (h : Inv s) (hA : s.server.building A = true) {id size : Nat} (hsize : 0 < size ∧ size < 2 ^ 32)
    {lossy : Int} {server : DisplayServer} (hadd : s.server.add A id size lossy = some server) :
    Inv (s.withServer server) := by
  obtain ⟨l, hs⟩ := h.server
  obtain ⟨s₁, l₁, hadd₁, hs₁⟩ := hs.add hA id hsize lossy
  obtain rfl := Option.some_inj.mp (hadd₁.symm.trans hadd)
  obtain ⟨c', ch', ok, l', gone, hcache, hadded⟩ :=
    hs.accounted.add_eq hs.size_fits id hsize lossy (s.server.channel A)
  rw [DisplayServer.add, hcache] at hadd
  cases hadd
  refine h.withServer hs₁ (evictThenAdd_suffix _ _ _ _ _) fun B => ?_
  refine congrArg (· + _) ?_
  change (Function.update s.server.channel A ch' B).serial = _
  by_cases hB : B = A
  · rw [hB, Function.update_self]
    exact hadded.released.channel_eq.2
  · rw [Function.update_of_ne hB]

theorem Inv.send (h : Inv s) (hA : s.server.building A = true) :
    Inv ⟨s.server.send A, s.client.receive A (s.server.outgoing A)⟩ := by
  obtain ⟨l, hs⟩ := h.server
  obtain ⟨got, lost, hclient⟩ := h.client
  have hcount := h.count A
  rw [hA] at hcount
  refine ⟨⟨l, hs.send hA⟩, ⟨got, lost, hclient.receive hs hA hcount⟩, fun B => ?_⟩
  change (s.server.channel B).serial = s.client.sync B + (Function.update s.client.queue A _ B).length +
    cond (Function.update s.server.building A false B) 1 0
  by_cases hB : B = A
  · subst hB
    rw [Function.update_self, Function.update_self, List.length_append, List.length_singleton]
    exact hcount
  · rw [Function.update_of_ne hB, Function.update_of_ne hB]
    exact h.count B

/-- A step of the client that leaves the messages where they are, or finishes one. -/
theorem Inv.withClient (h : Inv s) {client : DisplayClient} {got lost : List (Nat × Nat)}
    (hclient : ClientInv s.server.log client got lost)
    (hcount : ∀ A, client.sync A + (client.queue A).length = s.client.sync A + (s.client.queue A).length) :
    Inv (s.withClient client) := by
  refine ⟨h.server, ⟨got, lost, hclient⟩, fun A => ?_⟩
  change (s.server.channel A).serial = client.sync A + (client.queue A).length + cond (s.server.building A) 1 0
  rw [hcount A]
  exact h.count A

theorem setHead_length {c : DisplayClient} {rest : List Message} (hq : c.queue A = M :: rest) (N : Message)
    (cache : SharedCache) (B : Channels) :
    ((c.setHead A N cache).queue B).length = (c.queue B).length := by
  by_cases hB : B = A
  · subst hB
    rw [setHead_queue_self, hq]
    rfl
  · rw [setHead_queue_of_ne c hB]

theorem Inv.inval (h : Inv s) {client : DisplayClient} (hc : s.client.inval A = some client) :
    Inv (s.withClient client) := by
  obtain ⟨l, hs⟩ := h.server
  obtain ⟨got, lost, hclient⟩ := h.client
  obtain ⟨lost', hclient'⟩ := hclient.inval hs.legal hc
  refine h.withClient hclient' fun B => ?_
  unfold DisplayClient.inval at hc
  split at hc
  · next hq =>
    split at hc
    · cases hc
      exact congrArg (s.client.sync B + ·) (setHead_length hq _ _ B)
    · exact absurd hc nofun
  · exact absurd hc nofun

theorem Inv.use (h : Inv s) {client : DisplayClient} (hc : s.client.use A = some client) :
    Inv (s.withClient client) := by
  obtain ⟨l, hs⟩ := h.server
  obtain ⟨got, lost, hclient⟩ := h.client
  obtain ⟨got', hclient'⟩ := hclient.use hs.legal hc
  refine h.withClient hclient' fun B => ?_
  unfold DisplayClient.use at hc
  split at hc
  · next hq =>
    split at hc
    · cases hc
      exact congrArg (s.client.sync B + ·) (setHead_length hq _ _ B)
    · exact absurd hc nofun
  · exact absurd hc nofun

theorem Inv.enter (h : Inv s) {client : DisplayClient} (hc : s.client.enter A = some client) :
    Inv (s.withClient client) := by
  obtain ⟨got, lost, hclient⟩ := h.client
  refine h.withClient (hclient.enter hc) fun B => ?_
  unfold DisplayClient.enter at hc
  split at hc
  · exact absurd hc nofun
  · split at hc
    · cases hc
      rfl
    · exact absurd hc nofun

theorem Inv.finish (h : Inv s) {client : DisplayClient} (hc : s.client.finish A = some client) :
    Inv (s.withClient client) := by
  obtain ⟨got, lost, hclient⟩ := h.client
  refine h.withClient (hclient.finish hc) fun B => ?_
  unfold DisplayClient.finish at hc
  split at hc
  · next serial waits gone rest hA hq =>
    cases hc
    dsimp only
    by_cases hB : B = A
    · subst hB
      have hserial : serial = s.client.sync B + 1 := (hclient.head_serial hq).1
      rw [Function.update_self, Function.update_self, hq, hserial, List.length_cons]
      omega
    · rw [Function.update_of_ne hB, Function.update_of_ne hB]
  · exact absurd hc nofun

/-- Each step keeps the invariant, whatever it evicts. -/
theorem Inv.step (h : Inv s) (hop : s.Valid op) (hs : s.Step op s') : Inv s' := by
  obtain ⟨l, hserver⟩ := h.server
  cases op with
  | start A =>
    obtain ⟨hA, rfl⟩ : s.server.building A = false ∧ s.withServer (s.server.start A) = s' := by
      simpa [Step, perform] using hs
    exact h.start hA hop
  | hit A id image =>
    obtain ⟨hA, rfl⟩ : s.server.building A = true ∧ s.withServer (s.server.hit A id image) = s' := by
      simpa [Step, perform] using hs
    obtain ⟨l', hserver'⟩ := hserver.hit hA id image
    obtain ⟨hsuffix, hchannel, hbuilding⟩ := hit_suffix s.server A id image
    exact h.withServer hserver' hsuffix fun B => by rw [hchannel, hbuilding]
  | setLossy A id lossy =>
    obtain ⟨-, rfl⟩ : s.server.building A = true ∧ s.withServer (s.server.setLossy id lossy) = s' := by
      simpa [Step, perform] using hs
    exact h.withServer (hserver.setLossy id lossy) (List.suffix_refl _) fun _ => rfl
  | add A id size lossy =>
    obtain ⟨hA, server, hadd, rfl⟩ : s.server.building A = true ∧
        ∃ server, s.server.add A id size lossy = some server ∧ s.withServer server = s' := by
      simpa [Step, perform] using hs
    exact h.add hA hop hadd
  | send A =>
    obtain ⟨hA, rfl⟩ : s.server.building A = true ∧
        ⟨s.server.send A, s.client.receive A (s.server.outgoing A)⟩ = s' := by
      simpa [Step, perform] using hs
    exact h.send hA
  | enter A =>
    obtain ⟨client, hc, rfl⟩ := Option.map_eq_some_iff.mp hs
    exact h.enter hc
  | inval A =>
    obtain ⟨client, hc, rfl⟩ := Option.map_eq_some_iff.mp hs
    exact h.inval hc
  | use A =>
    obtain ⟨client, hc, rfl⟩ := Option.map_eq_some_iff.mp hs
    exact h.use hc
  | finish A =>
    obtain ⟨client, hc, rfl⟩ := Option.map_eq_some_iff.mp hs
    exact h.finish hc

/-- The waits form no cycle, not even together with the order of the messages of each channel; the client never
removes what it does not have; and the message that adds an item to the cache does not wait for one that gets it. -/
structure Correct (s : DisplaySession) : Prop where
  acyclic : ∀ m, ¬ Relation.TransGen (Awaits s.server.log) m m
  removes : ∀ A message rest id res, s.client.entered A = true → s.client.queue A = message :: rest →
    message.res = id :: res → ∃ cache, s.client.cache.remove pixmapCacheTreat id = .ok cache
  gets : ∀ m x, .hit m x ∈ s.server.log →
    ∃ a, .add a x ∈ s.server.log ∧ ¬ Relation.TransGen (Awaits s.server.log) a m

theorem Inv.removes (h : Inv s) {rest : List Message} {id : Nat} {res : List Nat}
    (hA : s.client.entered A = true) (hq : s.client.queue A = M :: rest) (hres : M.res = id :: res) :
    ∃ cache, s.client.cache.remove pixmapCacheTreat id = .ok cache := by
  obtain ⟨l, hs⟩ := h.server
  obtain ⟨got, lost, hclient⟩ := h.client
  have hM := (hclient.pending A M (hq ▸ List.mem_cons_self)).res_eq
  rw [hres] at hM
  cases hgone : M.gone with
  | nil =>
    rw [hgone] at hM
    exact absurd hM nofun
  | cons x gone =>
    rw [hgone, List.map_cons] at hM
    obtain ⟨cache, hcache, -⟩ := hclient.remove hs.legal hA hq hgone
    exact ⟨cache, (List.cons.inj hM).1 ▸ hcache⟩

theorem Inv.correct (h : Inv s) (hp : PromptInv s.server) : s.Correct := by
  obtain ⟨l, hs⟩ := h.server
  exact ⟨fun m => hs.legal.acyclic hp.prompt m, fun A M rest id res hA hq hres => h.removes hA hq hres,
    fun m x hx => hs.legal.not_awaits_hit hp.prompt hx⟩

def Ok (s : DisplaySession) (op : DisplayOp) : Prop := s.Valid op ∧ s.Settled op

def sampleChannels : Channels × Channels := (⟨0, (by decide : maxCacheClients > 0)⟩, ⟨1, (by decide : maxCacheClients > 1)⟩)

/-- Whatever is evicted, the client has what it is told to remove. -/
theorem reachable_removes {size : Int} (hfits : PixmapCache.SizeFits size)
    (h : Reachable Step Valid (create size) s) {rest : List Message} {id : Nat} {res : List Nat}
    (hA : s.client.entered A = true) (hq : s.client.queue A = M :: rest) (hres : M.res = id :: res) :
    ∃ cache, s.client.cache.remove pixmapCacheTreat id = .ok cache :=
  (h.invariant Inv (inv_create hfits) fun _ _ _ hs hok hstep => hs.step hok hstep).removes hA hq hres

instance (s : DisplaySession) : DecidablePred s.Valid
  | .start _ => inferInstanceAs (Decidable (_ < _))
  | .add .. => inferInstanceAs (Decidable (_ ∧ _))
  | .hit .. | .setLossy .. | .send _ | .enter _ | .inval _ | .use _ | .finish _ => isTrue trivial

/-- The third image of a channel evicts its first. -/
def eviction : List DisplayOp :=
  let A := sampleChannels.1
  let message id := [DisplayOp.start A, .add A id 1 0, .send A, .enter A]
  message 1 ++ [.use A, .finish A] ++ message 2 ++ [.use A, .finish A] ++ message 3

theorem reachable_removes_eviction : ∃ s cache, Reachable Step Valid (create 2) s ∧
    (s.client.queue sampleChannels.1).map Message.res = [[1]] ∧ s.client.cache.remove pixmapCacheTreat 1 = .ok cache := by
  have hrun : (eviction.foldlM (fun s op => if Valid s op then perform s op else none) (create 2)).any fun s =>
      s.client.entered sampleChannels.1 = true ∧ (s.client.queue sampleChannels.1).map Message.res = [[1]] := by
    decide
  obtain ⟨s, hs, hqueue⟩ := (Option.any_eq_true _ _).mp hrun
  obtain ⟨hentered, hres⟩ := of_decide_eq_true hqueue
  obtain ⟨M, rest, hq, hM, -⟩ := List.map_eq_cons_iff.mp hres
  have hreach := Reachable.foldlM_checked hs
  obtain ⟨cache, hcache⟩ := reachable_removes ⟨by norm_num, by norm_num⟩ hreach hentered hq hM
  exact ⟨s, cache, hreach, hres, hcache⟩

end DisplaySession

end Colama.Spice
