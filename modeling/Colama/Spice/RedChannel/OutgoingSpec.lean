import Mathlib.Tactic
import Colama.Spice.RedChannel.Outgoing

namespace Colama.Spice.RedChannel

open Lib

/-- The last buffer has size zero. -/
@[grind] def EndsEmpty (vec : List (List UInt8)) : Prop := vec.getLast? = some []

theorem endsEmpty_cons {v : List UInt8} {vec : List (List UInt8)} (h : vec ≠ []) :
    EndsEmpty (v :: vec) ↔ EndsEmpty vec := by
  rw [EndsEmpty, EndsEmpty, List.getLast?_cons_of_ne_nil h]

theorem endsEmpty_singleton {v : List UInt8} : EndsEmpty [v] ↔ v = [] := by
  rw [EndsEmpty, List.getLast?_singleton, Option.some_inj]

theorem not_endsEmpty_nil : ¬ EndsEmpty [] := by
  rw [EndsEmpty, List.getLast?_nil]
  exact nofun

/-- Buffers without a byte end in an empty one. -/
theorem endsEmpty_of_flatten {vec : List (List UInt8)} (hne : vec ≠ []) (h : vec.flatten = []) :
    EndsEmpty vec := by
  rw [EndsEmpty, List.getLast?_eq_some_getLast hne,
    List.flatten_eq_nil_iff.mp h _ (List.getLast_mem hne)]

theorem flatten_iovecSkip (vec : List (List UInt8)) (n : Nat) :
    (iovecSkip vec n).flatten = vec.flatten.drop n := by
  induction vec generalizing n with
  | nil => rw [iovecSkip, List.flatten_nil, List.drop_nil]
  | cons v vec ih =>
    rw [iovecSkip, List.flatten_cons]
    split
    · next h => rw [ih, List.drop_append, List.drop_of_length_le h.2, List.nil_append]
    · next h =>
      by_cases h0 : n = 0
      · rw [h0, List.drop_zero, List.drop_zero, List.flatten_cons]
      · rw [List.flatten_cons, List.drop_append_of_le_length (by omega)]

/-- An empty buffer at the end is never skipped. -/
theorem endsEmpty_iovecSkip {vec : List (List UInt8)} {n : Nat} (h : n ≤ vec.flatten.length) :
    EndsEmpty (iovecSkip vec n) ↔ EndsEmpty vec := by
  induction vec generalizing n with
  | nil => rfl
  | cons v vec ih =>
    rw [List.flatten_cons, List.length_append] at h
    rw [iovecSkip]
    by_cases hvec : vec = []
    · subst hvec
      rw [List.flatten_nil, List.length_nil] at h
      rw [endsEmpty_singleton]
      split
      · next hskip =>
        refine iff_of_false not_endsEmpty_nil fun hv => ?_
        rw [hv, List.length_nil] at h
        omega
      · next hskip =>
        rw [endsEmpty_singleton, List.drop_eq_nil_iff, ← List.length_eq_zero_iff]
        omega
    · rw [endsEmpty_cons hvec]
      split
      · exact ih (by omega)
      · exact endsEmpty_cons hvec

theorem accepted_le (vec : List (List UInt8)) (k : Nat) : accepted vec k ≤ vec.flatten.length :=
  min_le_right _ _

theorem accepted_pos {vec : List (List UInt8)} (h : vec.flatten ≠ []) (k : Nat) :
    0 < accepted vec (k + 1) := by
  have := List.length_pos_of_ne_nil h
  rw [accepted, intMax]
  omega

variable {ι : Type*}

/-- The buffers that are not handed to the socket yet. -/
def SendData.rest (d : SendData ι) : List (List UInt8) :=
  (d.bufs.drop d.notSentBufHead).map (·.bytes d.header)

theorem redChannelFillIovec_eq {d : SendData ι} (h : d.rest ≠ []) :
    ∃ d', redChannelFillIovec d = some (d.rest.take maxSendVec, d') ∧
      d'.rest = d.rest.drop maxSendVec := by
  have hlt : d.notSentBufHead < d.bufs.length := by
    by_contra hge
    exact h (by rw [SendData.rest, List.drop_of_length_le (by omega), List.map_nil])
  let d' : SendData ι := { d with notSentBufHead := d.notSentBufHead + (d.rest.take maxSendVec).length }
  refine ⟨d', ?_, ?_⟩
  · rw [redChannelFillIovec, if_pos hlt, List.map_take]
    rfl
  · change (d.bufs.drop (d.notSentBufHead + (d.rest.take maxSendVec).length)).map _ = _
    rw [SendData.rest, List.length_take, List.length_map, List.length_drop, ← List.map_drop,
      List.drop_drop]
    obtain h50 | h50 := le_total maxSendVec (d.bufs.length - d.notSentBufHead)
    · rw [min_eq_left h50]
    · rw [min_eq_right h50, List.drop_of_length_le, List.drop_of_length_le] <;> omega

/-- `ch` is sending the message `msg` that `ch₀` began. -/
structure Sending (ch₀ : Channel ι) (msg : List UInt8) (ch : Channel ι) (sent : List UInt8) : Prop where
  written_eq : ch.written = ch₀.written ++ sent
  msg_eq : sent ++ (ch.outgoing.vec.flatten ++ ch.sendData.rest.flatten) = msg
  vec_ne : ch.outgoing.vec ≠ []
  pos_eq : ch.outgoing.pos = sent.length % 2 ^ 32
  size_eq : ch.outgoing.size = msg.length % 2 ^ 32
  size_ne : ch.outgoing.size ≠ 0
  done_eq : ch.done = ch₀.done

/-- All of the message went out and nothing is pending. -/
structure Finished (ch₀ : Channel ι) (msg : List UInt8) (ch : Channel ι) : Prop where
  written_eq : ch.written = ch₀.written ++ msg
  done_eq : ch.done = ch₀.done + 1
  outgoing_eq : ch.outgoing = ⟨[], 0, 0⟩
  head_eq : ch.sendData.notSentBufHead = 0
  unblocked : ch.sendData.blocked = false

variable {ch₀ ch : Channel ι} {msg sent : List UInt8} {k : Nat}

theorem Sending.length_msg (h : Sending ch₀ msg ch sent) :
    msg.length = sent.length + (ch.outgoing.vec.flatten.length + ch.sendData.rest.flatten.length) := by
  rw [← h.msg_eq, List.length_append, List.length_append]

/-- The socket takes some of the buffers. -/
theorem Sending.turn_more (h : Sending ch₀ msg ch sent)
    (hne : iovecSkip ch.outgoing.vec (accepted ch.outgoing.vec k) ≠ []) :
    ∃ ch', outgoingTurn ch (.room k) = .writing ch' ∧
      Sending ch₀ msg ch' (sent ++ ch.outgoing.vec.flatten.take (accepted ch.outgoing.vec k)) ∧
      (EndsEmpty ch'.outgoing.vec ↔ EndsEmpty ch.outgoing.vec) ∧ ch'.sendData = ch.sendData := by
  refine ⟨ch.accept (accepted ch.outgoing.vec k), if_neg hne, ?_, ?_, rfl⟩
  · exact {
      written_eq := by rw [← List.append_assoc, ← h.written_eq]; rfl
      msg_eq := by
        change _ ++ ((iovecSkip _ _).flatten ++ _) = _
        rw [flatten_iovecSkip, List.append_assoc, ← List.append_assoc (List.take _ _),
          List.take_append_drop]
        exact h.msg_eq
      vec_ne := hne
      pos_eq := by
        change (ch.outgoing.pos + _) % _ = _
        rw [h.pos_eq, List.length_append, List.length_take, min_eq_left (accepted_le _ _), Nat.mod_add_mod]
      size_eq := h.size_eq
      size_ne := h.size_ne
      done_eq := h.done_eq }
  · exact endsEmpty_iovecSkip (accepted_le _ _)

/-- The socket takes the last byte of the buffers. -/
theorem iovecSkip_eq_nil {vec : List (List UInt8)} {n : Nat} (h : iovecSkip vec n = [])
    (hn : n ≤ vec.flatten.length) : ¬ EndsEmpty vec ∧ n = vec.flatten.length := by
  have hflat := flatten_iovecSkip vec n
  rw [h, List.flatten_nil, eq_comm, List.drop_eq_nil_iff] at hflat
  refine ⟨?_, by omega⟩
  rw [← endsEmpty_iovecSkip hn, h]
  exact not_endsEmpty_nil

theorem Sending.pos_accept (h : Sending ch₀ msg ch sent)
    (hn : accepted ch.outgoing.vec k = ch.outgoing.vec.flatten.length) :
    (ch.accept (accepted ch.outgoing.vec k)).outgoing.pos = ch.outgoing.size ↔
      ch.sendData.rest.flatten.length % 2 ^ 32 = 0 := by
  change (ch.outgoing.pos + _) % 2 ^ 32 = _ ↔ _
  rw [hn, h.pos_eq, h.size_eq, h.length_msg]
  omega

/-- The message ends behind the buffers at hand. -/
theorem Sending.turn_done (h : Sending ch₀ msg ch sent)
    (hnil : iovecSkip ch.outgoing.vec (accepted ch.outgoing.vec k) = [])
    (h0 : ch.sendData.rest.flatten.length % 2 ^ 32 = 0) :
    ∃ ch', outgoingTurn ch (.room k) = .returned ch' ∧
      Finished ch₀ (sent ++ ch.outgoing.vec.flatten) ch' := by
  obtain ⟨-, hn⟩ := iovecSkip_eq_nil hnil (accepted_le _ _)
  refine ⟨(ch.accept (accepted ch.outgoing.vec k)).finish, ?_, ?_⟩
  · exact (if_pos hnil).trans (if_pos ((h.pos_accept hn).mpr h0))
  · exact {
      written_eq := by
        change ch.written ++ _ = _
        rw [hn, List.take_length, h.written_eq, List.append_assoc]
      done_eq := by
        change ch.done + 1 = _
        rw [h.done_eq]
      outgoing_eq := rfl
      head_eq := rfl
      unblocked := rfl }

/-- The next buffers follow. -/
theorem Sending.turn_next (h : Sending ch₀ msg ch sent)
    (hnil : iovecSkip ch.outgoing.vec (accepted ch.outgoing.vec k) = [])
    (h0 : ch.sendData.rest.flatten.length % 2 ^ 32 ≠ 0) :
    ∃ ch', outgoingTurn ch (.room k) = .writing ch' ∧
      Sending ch₀ msg ch' (sent ++ ch.outgoing.vec.flatten) ∧
      ch'.outgoing.vec = ch.sendData.rest.take maxSendVec ∧
      ch'.sendData.rest = ch.sendData.rest.drop maxSendVec := by
  obtain ⟨-, hn⟩ := iovecSkip_eq_nil hnil (accepted_le _ _)
  have hrest : ch.sendData.rest ≠ [] := by
    intro hrest
    rw [hrest] at h0
    exact h0 rfl
  obtain ⟨d, hfill, hd⟩ := redChannelFillIovec_eq hrest
  have hvec : ch.sendData.rest.take maxSendVec ≠ [] := by
    rw [Ne, List.take_eq_nil_iff]
    exact fun h => h.elim (by decide) hrest
  set ch₁ := ch.accept (accepted ch.outgoing.vec k) with hch₁
  refine ⟨{ ch₁ with sendData := d, outgoing := { ch₁.outgoing with vec := ch.sendData.rest.take maxSendVec } },
    ?_, ?_, rfl, hd⟩
  · refine (if_pos hnil).trans ((if_neg (mt (h.pos_accept hn).mp h0)).trans ?_)
    have hsend : (ch.accept (accepted ch.outgoing.vec k)).sendData = ch.sendData := rfl
    rw [prepare, hsend, hfill]
  · exact {
      written_eq := by
        change ch.written ++ _ = _
        rw [hn, List.take_length, h.written_eq, List.append_assoc]
      msg_eq := by
        change _ ++ ((ch.sendData.rest.take maxSendVec).flatten ++ d.rest.flatten) = _
        rw [hd, ← List.flatten_append, List.take_append_drop, List.append_assoc, h.msg_eq]
      vec_ne := hvec
      pos_eq := by
        change (ch.outgoing.pos + _) % _ = _
        rw [hn, h.pos_eq, List.length_append, Nat.mod_add_mod]
      size_eq := h.size_eq
      size_ne := h.size_ne
      done_eq := h.done_eq }

/-- What the socket took of the message, and what the handler reports. -/
structure Exact (ch₀ : Channel ι) (msg : List UInt8) (o : Outcome ι) : Prop where
  written_prefix : ∃ sent, o.channel.written = ch₀.written ++ sent ∧ sent <+: msg
  unfinished : o.channel.written ≠ ch₀.written ++ msg → o.channel.done = ch₀.done ∧
    ∀ k, o.channel.written.length < (resume o (.room (k + 1))).channel.written.length
  finished : o.channel.written = ch₀.written ++ msg → ∃ ch, o = .returned ch ∧ Finished ch₀ msg ch

/-- Of the buffers that are left, each batch ends in a byte, and no batch begins at a multiple of
2 ^ 32 bytes before the end. -/
def Fits (bufs : List (List UInt8)) : Prop :=
  ∀ i, (bufs.drop (i * maxSendVec)).flatten ≠ [] →
    (bufs.drop (i * maxSendVec)).flatten.length % 2 ^ 32 ≠ 0 ∧
    ¬ EndsEmpty ((bufs.drop (i * maxSendVec)).take maxSendVec)

theorem fits_iff {bufs : List (List UInt8)} : Fits bufs ↔
    (bufs.flatten ≠ [] → bufs.flatten.length % 2 ^ 32 ≠ 0 ∧ ¬ EndsEmpty (bufs.take maxSendVec)) ∧
    Fits (bufs.drop maxSendVec) := by
  constructor
  · intro h
    refine ⟨by simpa using h 0, fun i => ?_⟩
    have := h (i + 1)
    rwa [Nat.succ_mul, Nat.add_comm, ← List.drop_drop] at this
  · rintro ⟨h₀, h⟩ i
    cases i with
    | zero => simpa using h₀
    | succ i =>
      rw [Nat.succ_mul, Nat.add_comm, ← List.drop_drop]
      exact h i

theorem fits_of_flatten {bufs : List (List UInt8)} (h : bufs.flatten = []) : Fits bufs := by
  intro i hi
  refine absurd ?_ hi
  rw [List.flatten_eq_nil_iff] at h ⊢
  exact fun b hb => h b (List.mem_of_mem_drop hb)

/-- The states of a message whose buffers fit. -/
inductive Good (ch₀ : Channel ι) (msg : List UInt8) : Outcome ι → Prop
  | writing {ch : Channel ι} {sent : List UInt8} (h : Sending ch₀ msg ch sent)
    (hend : ¬ EndsEmpty ch.outgoing.vec) (hfits : Fits ch.sendData.rest) : Good ch₀ msg (.writing ch)
  | blocked {ch : Channel ι} {sent : List UInt8} (h : Sending ch₀ msg ch sent)
    (hend : ¬ EndsEmpty ch.outgoing.vec) (hfits : Fits ch.sendData.rest)
    (hb : ch.sendData.blocked = true) : Good ch₀ msg (.returned ch)
  | finished {ch : Channel ι} (h : Finished ch₀ msg ch) : Good ch₀ msg (.returned ch)

theorem Sending.block (h : Sending ch₀ msg ch sent) :
    Sending ch₀ msg (redChannelPeerOnOutBlock ch) sent := { h with }

theorem Sending.flatten_ne (h : Sending ch₀ msg ch sent) (hend : ¬ EndsEmpty ch.outgoing.vec) :
    ch.outgoing.vec.flatten ≠ [] :=
  mt (endsEmpty_of_flatten h.vec_ne) hend

/-- Room for some bytes, with the bytes that are taken. -/
theorem Sending.turn_good (h : Sending ch₀ msg ch sent) (hend : ¬ EndsEmpty ch.outgoing.vec)
    (hfits : Fits ch.sendData.rest) (k : Nat) :
    Good ch₀ msg (outgoingTurn ch (.room k)) ∧
      (outgoingTurn ch (.room k)).channel.written =
        ch.written ++ ch.outgoing.vec.flatten.take (accepted ch.outgoing.vec k) := by
  by_cases hnil : iovecSkip ch.outgoing.vec (accepted ch.outgoing.vec k) = []
  · obtain ⟨-, hn⟩ := iovecSkip_eq_nil hnil (accepted_le _ _)
    rw [hn, List.take_length, h.written_eq, List.append_assoc]
    by_cases h0 : ch.sendData.rest.flatten.length % 2 ^ 32 = 0
    · obtain ⟨ch', e, hdone⟩ := h.turn_done hnil h0
      have hrest : ch.sendData.rest.flatten = [] := by
        by_contra hne
        exact ((fits_iff.1 hfits).1 hne).1 h0
      have hmsg : sent ++ ch.outgoing.vec.flatten = msg := by
        rw [← h.msg_eq, hrest, List.append_nil]
      rw [e]
      exact ⟨.finished (hmsg ▸ hdone), hdone.written_eq⟩
    · obtain ⟨ch', e, hs, hvec, hrest⟩ := h.turn_next hnil h0
      have hne : ch.sendData.rest.flatten ≠ [] := by
        intro hnil
        rw [hnil] at h0
        exact h0 rfl
      obtain ⟨hbatch, hfits⟩ := fits_iff.1 hfits
      rw [e]
      exact ⟨.writing hs (by rw [hvec]; exact (hbatch hne).2) (by rwa [hrest]), hs.written_eq⟩
  · obtain ⟨ch', e, hs, hend', hd⟩ := h.turn_more hnil
    rw [e, h.written_eq, List.append_assoc]
    exact ⟨.writing hs (mt hend'.mp hend) (by rwa [hd]), hs.written_eq⟩

variable {o : Outcome ι}

theorem resume_writing (ch : Channel ι) (a : Answer) : resume (.writing ch) a = outgoingTurn ch a := rfl

theorem resume_blocked (hs : ch.outgoing.size ≠ 0) (hb : ch.sendData.blocked = true) (a : Answer) :
    resume (.returned ch) a = outgoingTurn ch a := by
  rw [resume, if_pos hb, redPeerHandleOutgoing, if_neg hs]

theorem resume_unblocked (hb : ch.sendData.blocked = false) (a : Answer) :
    resume (.returned ch) a = .returned ch := by
  rw [resume, hb]
  rfl

theorem Sending.answer_good (h : Sending ch₀ msg ch sent) (hend : ¬ EndsEmpty ch.outgoing.vec)
    (hfits : Fits ch.sendData.rest) {a : Answer} (ha : a ≠ .failed) :
    Good ch₀ msg (outgoingTurn ch a) := by
  cases a with
  | room k => exact (h.turn_good hend hfits k).1
  | eagain => exact .blocked h.block hend hfits rfl
  | eintr => exact .writing h hend hfits
  | failed => exact absurd rfl ha

theorem Good.resume (hg : Good ch₀ msg o) {a : Answer} (ha : a ≠ .failed) :
    Good ch₀ msg (resume o a) := by
  cases hg with
  | writing h hend hfits => exact h.answer_good hend hfits ha
  | blocked h hend hfits hb =>
    rw [resume_blocked h.size_ne hb]
    exact h.answer_good hend hfits ha
  | finished h =>
    rw [resume_unblocked h.unblocked]
    exact .finished h

theorem Good.run (hg : Good ch₀ msg o) {as : List Answer} (has : ∀ a ∈ as, a ≠ .failed) :
    Good ch₀ msg (as.foldl RedChannel.resume o) := by
  induction as generalizing o with
  | nil => exact hg
  | cons a as ih =>
    exact ih (hg.resume (has a List.mem_cons_self)) fun b hb => has b (List.mem_cons_of_mem _ hb)

theorem Sending.exact (h : Sending ch₀ msg ch sent) (hend : ¬ EndsEmpty ch.outgoing.vec)
    (hfits : Fits ch.sendData.rest) (ho : o.channel = ch)
    (hr : ∀ a, RedChannel.resume o a = outgoingTurn ch a) : Exact ch₀ msg o := by
  have hne := h.flatten_ne hend
  exact {
    written_prefix := ⟨sent, by rw [ho, h.written_eq], ⟨_, h.msg_eq⟩⟩
    unfinished := fun _ => by
      refine ⟨by rw [ho, h.done_eq], fun k => ?_⟩
      have hpos := accepted_pos hne k
      rw [hr, (h.turn_good hend hfits (k + 1)).2, ho, List.length_append, List.length_take,
        min_eq_left (accepted_le _ _)]
      omega
    finished := fun hw => by
      rw [ho, h.written_eq] at hw
      have hmsg := List.append_cancel_left hw
      have hlen := h.length_msg
      have hpos := List.length_pos_of_ne_nil hne
      rw [← hmsg] at hlen
      omega }

theorem Good.exact (hg : Good ch₀ msg o) : Exact ch₀ msg o := by
  cases hg with
  | writing h hend hfits => exact h.exact hend hfits rfl fun a => rfl
  | blocked h hend hfits hb => exact h.exact hend hfits rfl (resume_blocked h.size_ne hb)
  | finished h =>
    exact {
      written_prefix := ⟨msg, h.written_eq, List.prefix_rfl⟩
      unfinished := fun hne => absurd h.written_eq hne
      finished := fun _ => ⟨_, rfl, h⟩ }

theorem iovecSkip_zero (vec : List (List UInt8)) : iovecSkip vec 0 = vec := by
  cases vec with
  | nil => rfl
  | cons v vec => rw [iovecSkip, if_neg (fun h => h.1 rfl), List.drop_zero]

/-- Buffers without a byte are never done with. -/
theorem Sending.not_exact (h : Sending ch₀ msg ch sent) (hnil : ch.outgoing.vec.flatten = []) :
    ¬ Exact ch₀ msg (.writing ch) := by
  intro hex
  by_cases hw : ch.written = ch₀.written ++ msg
  · obtain ⟨ch', he, -⟩ := hex.finished hw
    cases he
  · have hlt := (hex.unfinished hw).2 0
    have h0 : accepted ch.outgoing.vec (0 + 1) = 0 := by
      rw [accepted, hnil]
      exact Nat.min_zero _
    obtain ⟨ch', e, hs, -⟩ := h.turn_more (k := 0 + 1) (by rw [h0, iovecSkip_zero]; exact h.vec_ne)
    rw [resume_writing, e] at hlt
    change ch.written.length < ch'.written.length at hlt
    rw [hs.written_eq, h.written_eq, hnil, List.take_nil, List.append_nil] at hlt
    exact Nat.lt_irrefl _ hlt

/-- What goes out exactly, whatever the answers, fits. -/
theorem Sending.fits (h : Sending ch₀ msg ch sent)
    (hall : ∀ as : List Answer, (∀ a ∈ as, a ≠ .failed) →
      Exact ch₀ msg (as.foldl RedChannel.resume (.writing ch))) :
    ¬ EndsEmpty ch.outgoing.vec ∧ Fits ch.sendData.rest := by
  induction hn : ch.outgoing.vec.flatten.length + ch.sendData.rest.flatten.length using
    Nat.strong_induction_on generalizing ch sent with
  | _ n ih =>
    have hne : ch.outgoing.vec.flatten ≠ [] := fun hnil => h.not_exact hnil (hall [] nofun)
    have hpos := accepted_pos hne 0
    have hnext : ∀ as : List Answer, (∀ a ∈ as, a ≠ .failed) →
        Exact ch₀ msg (as.foldl RedChannel.resume (outgoingTurn ch (.room (0 + 1)))) := by
      intro as has
      refine hall (.room (0 + 1) :: as) fun a ha => ?_
      obtain rfl | ha := List.mem_cons.mp ha
      · exact nofun
      · exact has a ha
    by_cases hnil : iovecSkip ch.outgoing.vec (accepted ch.outgoing.vec (0 + 1)) = []
    · obtain ⟨hend, hall'⟩ := iovecSkip_eq_nil hnil (accepted_le _ _)
      refine ⟨hend, ?_⟩
      by_cases h0 : ch.sendData.rest.flatten.length % 2 ^ 32 = 0
      · -- the message is done, so nothing is left of it
        obtain ⟨ch', e, hdone⟩ := h.turn_done hnil h0
        rw [e] at hnext
        have hex := hnext [] nofun
        have hw : ch'.written = ch₀.written ++ msg := by
          by_contra hw
          have h₀ : ch'.done = ch₀.done := (hex.unfinished hw).1
          have h₁ := hdone.done_eq
          omega
        rw [hdone.written_eq] at hw
        have hmsg := List.append_cancel_left hw
        have hlen := h.length_msg
        rw [← hmsg, List.length_append] at hlen
        exact fits_of_flatten (List.eq_nil_of_length_eq_zero (by omega))
      · obtain ⟨ch', e, hs, hvec, hrest⟩ := h.turn_next hnil h0
        rw [e] at hnext
        have hlen := h.length_msg
        have hlen' := hs.length_msg
        rw [List.length_append] at hlen'
        obtain ⟨hend', hfits⟩ := ih _ (by omega) hs hnext rfl
        rw [hvec] at hend'
        rw [hrest] at hfits
        exact fits_iff.mpr ⟨fun _ => ⟨h0, hend'⟩, hfits⟩
    · obtain ⟨ch', e, hs, hend, hd⟩ := h.turn_more hnil
      rw [e] at hnext
      have hlen := h.length_msg
      have hlen' := hs.length_msg
      rw [List.length_append, List.length_take, min_eq_left (accepted_le _ _)] at hlen'
      obtain ⟨hend', hfits⟩ := ih _ (by omega) hs hnext rfl
      exact ⟨mt hend.mpr hend', by rwa [hd] at hfits⟩

/-- Nothing is being sent, as in a new channel and behind every message. -/
structure Channel.Idle (ch : Channel ι) : Prop where
  pos_eq : ch.outgoing.pos = 0
  size_eq : ch.outgoing.size = 0
  head_eq : ch.sendData.notSentBufHead = 0
  unblocked : ch.sendData.blocked = false

/-- The send data of a message with some of its buffers. -/
structure Filled (d₀ d : SendData ι) (item : Option ι) (bufs : List (List UInt8)) : Prop where
  bufs_eq : d.bufs = .header :: bufs.map .data
  size_eq : d.header.size = bufs.flatten.length % 2 ^ 32
  head_eq : d.notSentBufHead = d₀.notSentBufHead
  blocked_eq : d.blocked = d₀.blocked
  item_eq : d.item = item

theorem addBuf_eq_some {d d' : SendData ι} {b : BufDescriptor} (h : addBuf d b = some d') :
    d' = { d with bufs := d.bufs ++ [b] } := by
  rw [addBuf] at h
  split at h
  · exact (Option.some_inj.mp h).symm
  · cases h

theorem Filled.addBuf {d₀ d d' : SendData ι} {item : Option ι} {bufs : List (List UInt8)}
    {bs : List UInt8} (hf : Filled d₀ d item bufs) (h : redChannelAddBuf d bs = some d') :
    Filled d₀ d' item (bufs ++ [bs]) := by
  obtain ⟨d₁, h₁, h₂⟩ := Option.bind_eq_some_iff.mp h
  obtain rfl := addBuf_eq_some h₁
  obtain rfl := Option.some_inj.mp h₂
  exact {
    bufs_eq := by
      change d.bufs ++ [_] = _
      rw [hf.bufs_eq, List.map_append, List.map_singleton, List.cons_append]
    size_eq := by
      change (d.header.size + bs.length) % _ = _
      rw [hf.size_eq, List.flatten_append, List.flatten_singleton, List.length_append,
        Nat.mod_add_mod]
    head_eq := hf.head_eq
    blocked_eq := hf.blocked_eq
    item_eq := hf.item_eq }

theorem Filled.addBufs {d₀ d d' : SendData ι} {item : Option ι} {bufs more : List (List UInt8)}
    (hf : Filled d₀ d item bufs) (h : more.foldlM redChannelAddBuf d = some d') :
    Filled d₀ d' item (bufs ++ more) := by
  induction more generalizing d bufs with
  | nil =>
    obtain rfl := Option.some_inj.mp h
    rwa [List.append_nil]
  | cons bs more ih =>
    rw [List.foldlM_cons] at h
    obtain ⟨d₁, h₁, h₂⟩ := Option.bind_eq_some_iff.mp h
    have := ih (hf.addBuf h₁) h₂
    rwa [List.append_assoc, List.singleton_append] at this

theorem fillMessage_filled {d₀ d : SendData ι} {type : Nat} {item : Option ι} {bufs : List (List UInt8)}
    (h : fillMessage d₀ type item bufs = some d) : Filled d₀ d item bufs := by
  rw [fillMessage, Option.bind_eq_bind, Option.bind_eq_some_iff] at h
  obtain ⟨d₁, h₁, h₂⟩ := h
  obtain rfl := addBuf_eq_some h₁
  change Filled d₀ d item ([] ++ bufs)
  refine Filled.addBufs ?_ h₂
  exact ⟨rfl, rfl, rfl, rfl, rfl⟩

theorem Filled.rest {d₀ d : SendData ι} {item : Option ι} {bufs : List (List UInt8)}
    (hf : Filled d₀ d item bufs) (h0 : d₀.notSentBufHead = 0) : d.rest = d.header.bytes :: bufs := by
  rw [SendData.rest, hf.head_eq, h0, List.drop_zero, hf.bufs_eq, List.map_cons, List.map_map]
  exact congrArg _ (List.map_id _)

theorem DataHeader.length_bytes (h : DataHeader) : h.bytes.length = sizeofDataHeader := by
  simp only [DataHeader.bytes, List.length_append, length_littleEndian]
  rfl

section Message

variable {d : SendData ι} {item : Option ι} {bufs : List (List UInt8)}

theorem message_ne_nil (d : SendData ι) (bufs : List (List UInt8)) :
    (d.header.bytes :: bufs).flatten ≠ [] := by
  intro h0
  have := congrArg List.length h0
  rw [List.flatten_cons, List.length_append, DataHeader.length_bytes, List.length_nil,
    sizeofDataHeader] at this
  omega

theorem Filled.size_message {d₀ : SendData ι} (hf : Filled d₀ d item bufs) :
    (d.header.size + sizeofDataHeader) % 2 ^ 32 = (d.header.bytes :: bufs).flatten.length % 2 ^ 32 := by
  rw [hf.size_eq, List.flatten_cons, List.length_append, DataHeader.length_bytes, Nat.mod_add_mod,
    Nat.add_comm]

/-- A message of a multiple of 2 ^ 32 bytes looks like none. -/
theorem begin_nothing (hidle : ch.Idle) (hf : Filled ch.sendData d item bufs)
    (h0 : (d.header.bytes :: bufs).flatten.length % 2 ^ 32 = 0) :
    ¬ Exact ch (d.header.bytes :: bufs).flatten (redChannelBeginSendMessage { ch with sendData := d }) := by
  intro hex
  let ch₁ : Channel ι := { ch with
    sendData := { d with size := (d.header.size + sizeofDataHeader) % 2 ^ 32 }
    outgoing := { ch.outgoing with vec := [] } }
  have e : redChannelBeginSendMessage { ch with sendData := d } = .returned ch₁ :=
    (if_pos hidle.size_eq).trans (if_pos (hf.size_message.trans h0))
  have hb : ch₁.sendData.blocked = false := hf.blocked_eq.trans hidle.unblocked
  rw [e] at hex
  have hne : ch₁.written ≠ ch.written ++ (d.header.bytes :: bufs).flatten :=
    fun h => message_ne_nil d bufs (List.self_eq_append_right.mp h)
  have hlt := (hex.unfinished hne).2 0
  rw [resume_unblocked hb] at hlt
  exact Nat.lt_irrefl _ hlt

theorem begin_sending (hidle : ch.Idle) (hf : Filled ch.sendData d item bufs)
    (h0 : (d.header.bytes :: bufs).flatten.length % 2 ^ 32 ≠ 0) :
    ∃ ch₁, redChannelBeginSendMessage { ch with sendData := d } = .writing ch₁ ∧
      Sending ch (d.header.bytes :: bufs).flatten ch₁ [] ∧
      ch₁.outgoing.vec = (d.header.bytes :: bufs).take maxSendVec ∧
      ch₁.sendData.rest = (d.header.bytes :: bufs).drop maxSendVec := by
  have hsize := hf.size_message
  let d' : SendData ι := { d with size := (d.header.size + sizeofDataHeader) % 2 ^ 32 }
  have hrest : d'.rest = d.header.bytes :: bufs := hf.rest hidle.head_eq
  obtain ⟨d₁, hfill, hd₁⟩ := redChannelFillIovec_eq (d := d') (by rw [hrest]; exact List.cons_ne_nil _ _)
  rw [hrest] at hfill hd₁
  refine ⟨{ ch with
    sendData := d₁
    outgoing := {
      vec := (d.header.bytes :: bufs).take maxSendVec
      pos := ch.outgoing.pos
      size := d'.size } }, ?_, ?_, rfl, hd₁⟩
  · refine (if_pos hidle.size_eq).trans ((if_neg (hsize.trans_ne h0)).trans ?_)
    rw [prepare]
    erw [hfill]
  · exact {
      written_eq := (List.append_nil _).symm
      msg_eq := by
        rw [List.nil_append]
        change (List.take _ _).flatten ++ d₁.rest.flatten = _
        rw [hd₁, ← List.flatten_append, List.take_append_drop]
      vec_ne := by
        change List.take maxSendVec _ ≠ []
        rw [Ne, List.take_eq_nil_iff]
        exact fun h => h.elim (by decide) (List.cons_ne_nil _ _)
      pos_eq := hidle.pos_eq
      size_eq := hsize
      size_ne := hsize.trans_ne h0
      done_eq := rfl }

/-- A message goes out exactly, whatever the socket answers, just when its buffers fit. -/
theorem sent_exactly_iff (hidle : ch.Idle) {type : Nat}
    (hd : fillMessage ch.sendData type item bufs = some d) :
    (∀ as : List Answer, (∀ a ∈ as, a ≠ .failed) →
      Exact ch (d.header.bytes :: bufs).flatten
        (as.foldl resume (redChannelBeginSendMessage { ch with sendData := d }))) ↔
    Fits (d.header.bytes :: bufs) := by
  have hf := fillMessage_filled hd
  have hne := message_ne_nil d bufs
  rw [fits_iff]
  by_cases h0 : (d.header.bytes :: bufs).flatten.length % 2 ^ 32 = 0
  · refine iff_of_false (fun hall => begin_nothing hidle hf h0 (hall [] nofun)) ?_
    exact fun hfits => (hfits.1 hne).1 h0
  · obtain ⟨ch₁, e, hs, hvec, hrest⟩ := begin_sending hidle hf h0
    rw [e, ← hrest, ← hvec]
    constructor
    · intro hall
      obtain ⟨hend, hfits⟩ := hs.fits hall
      exact ⟨fun _ => ⟨h0, hend⟩, hfits⟩
    · rintro ⟨hend, hfits⟩ as has
      exact ((Good.writing hs (hend hne).2 hfits).run has).exact

end Message

theorem create_idle : (Channel.create : Channel ι).Idle := ⟨rfl, rfl, rfl, rfl⟩

def sampleHeader (size : Nat) : DataHeader := ⟨1, 3, size, 0⟩

/-- The send data of a message with one buffer. -/
def sampleData (buf : List UInt8) : SendData Nat :=
  ⟨sampleHeader buf.length, [.header, .data buf], 0, 0, some 7, false⟩

theorem fits_sample : Fits [(sampleHeader 3).bytes, [1, 2, 3]] := by
  refine fits_iff.mpr ⟨fun _ => ⟨by decide, ?_⟩, fits_of_flatten rfl⟩
  rw [EndsEmpty]
  decide

theorem sample_sent_exactly : Fits [(sampleHeader 3).bytes, [1, 2, 3]] ∧ ∀ as : List Answer, (∀ a ∈ as, a ≠ .failed) →
    Exact .create [(sampleHeader 3).bytes, [1, 2, 3]].flatten
      (as.foldl resume (redChannelBeginSendMessage { Channel.create with sendData := sampleData [1, 2, 3] })) :=
  have hd : fillMessage (Channel.create : Channel Nat).sendData 3 (some 7) [[1, 2, 3]] =
    some (sampleData [1, 2, 3]) := rfl
  ⟨fits_sample, (sent_exactly_iff create_idle hd).mpr fits_sample⟩

/-- An empty buffer at the end is never written off. -/
theorem empty_not_exact : ∃ d : SendData Nat, fillMessage Channel.create.sendData 3 (some 7) [[]] = some d ∧
    ∃ as : List Answer, (∀ a ∈ as, a ≠ .failed) ∧
      ¬ Exact .create [d.header.bytes, []].flatten
        (as.foldl resume (redChannelBeginSendMessage { Channel.create with sendData := d })) := by
  refine ⟨sampleData [], rfl, [.room 18], by decide, fun hex => ?_⟩
  obtain ⟨ch, h, -⟩ := hex.finished rfl
  cases h

end Colama.Spice.RedChannel
