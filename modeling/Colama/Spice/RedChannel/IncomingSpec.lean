import Mathlib.Tactic
import Colama.Spice.RedChannel.Incoming

namespace Colama.Spice.RedChannel

open Lib

/-- The frames of a stream of messages. -/
def messageFormat : FrameFormat UInt8 where
  headLen := sizeofDataHeader
  size := headerSize
  headLen_pos := by decide

/-- Arrivals without an error: reads of at least one byte, whose number is an `int`. -/
def Clean (as : List Arrival) : Prop := ∀ a ∈ as, match a with
  | .bytes bs => bs ≠ [] ∧ bs.length < 2 ^ 31
  | .eintr => True
  | .failed => False

variable {as : List Arrival} {n : Nat} {bs s t head body got : List UInt8}

theorem Clean.tail {a : Arrival} (h : Clean (a :: as)) : Clean as :=
  fun b hb => h b (List.mem_cons_of_mem _ hb)

@[simp] theorem arrivedBytes_nil : arrivedBytes [] = [] := rfl

@[simp] theorem arrivedBytes_bytes : arrivedBytes (.bytes bs :: as) = bs ++ arrivedBytes as := rfl

@[simp] theorem arrivedBytes_eintr : arrivedBytes (.eintr :: as) = arrivedBytes as := rfl

/-- `red_peer_receive` gets what arrives, up to the size it was asked for. -/
theorem receive_eq (h : Clean as) (n : Nat) (got : List UInt8) :
    ∃ as', receive as n got = some (got ++ (arrivedBytes as).take n, as') ∧ Clean as' ∧
      arrivedBytes as' = (arrivedBytes as).drop n := by
  induction as generalizing n got with
  | nil =>
    cases n with
    | zero => exact ⟨[], by simp [receive], h, by simp⟩
    | succ n => exact ⟨[], by simp [receive], h, by simp⟩
  | cons a as ih =>
    cases n with
    | zero => exact ⟨a :: as, by simp [receive], h, by simp⟩
    | succ n =>
      have ha := h a List.mem_cons_self
      cases a with
      | failed => exact absurd ha (by simp)
      | eintr => exact ih h.tail (n + 1) got
      | bytes bs =>
        obtain ⟨hne, hlt⟩ := ha
        rw [receive, if_neg hne, arrivedBytes_bytes]
        by_cases hle : bs.length ≤ n + 1
        · obtain ⟨as', e, hc, hb⟩ := ih h.tail (n + 1 - bs.length) (got ++ bs)
          refine ⟨as', ?_, hc, ?_⟩
          · rw [if_pos hle, e, List.take_append, List.take_of_length_le hle, List.append_assoc]
          · rw [hb, List.drop_append, List.drop_of_length_le hle, List.nil_append]
        · refine ⟨.bytes (bs.drop (n + 1)) :: as, ?_, ?_, ?_⟩
          · rw [if_neg hle, List.take_append_of_le_length (by omega)]
          · intro b hb
            obtain rfl | hb := List.mem_cons.mp hb
            · refine ⟨fun hnil => ?_, ?_⟩
              · have := congrArg List.length hnil
                rw [List.length_drop, List.length_nil] at this
                omega
              · rw [List.length_drop]
                omega
            · exact h.tail b hb
          · rw [arrivedBytes_bytes, List.drop_append_of_le_length (by omega)]

/-- Only a body of 2 ^ 32 - 1 bytes that arrives at once looks like an error. -/
theorem redPeerReceive_eq (h : Clean as) (hn : n < 2 ^ 32) :
    ∃ as', Clean as' ∧ arrivedBytes as' = (arrivedBytes as).drop n ∧
      redPeerReceive as n =
        ((((arrivedBytes as).take n).length : Int).bmod (2 ^ 32), (arrivedBytes as).take n, as') := by
  obtain ⟨as', e, hc, hb⟩ := receive_eq h n []
  exact ⟨as', hc, hb, by rw [redPeerReceive, e]; rfl⟩

theorem bmod_eq_neg_one_iff (hn : n < 2 ^ 32) : (n : Int).bmod (2 ^ 32) = -1 ↔ n = 2 ^ 32 - 1 := by
  rw [Int.bmod_def]
  norm_num
  split <;> omega

theorem advance_bmod {pos : Nat} (h : pos + n < 2 ^ 32) :
    advance pos ((n : Int).bmod (2 ^ 32)) = pos + n := by
  rw [advance, Int.bmod_def]
  norm_num
  split <;> omega

theorem length_store {buf : List UInt8} {pos : Nat} (h : pos + bs.length ≤ buf.length) :
    (store buf pos bs).length = buf.length := by
  rw [store, List.length_append, List.length_append, List.length_take, List.length_drop]
  omega

theorem take_store {buf : List UInt8} {pos : Nat} (h : pos + bs.length ≤ buf.length) :
    (store buf pos bs).take (pos + bs.length) = buf.take pos ++ bs := by
  rw [store, ← List.append_assoc, List.take_append_of_le_length, List.take_of_length_le]
  all_goals
    rw [List.length_append, List.length_take]
    omega

/-- The bytes `p` of a header are there. -/
structure HeaderPart (h : IncomingHandler) (p : List UInt8) : Prop where
  length_header : h.header.length = sizeofDataHeader
  headerPos_eq : h.headerPos = p.length
  lt : p.length < sizeofDataHeader
  take_header : h.header.take p.length = p
  msg_eq : h.msg = none
  msgPos_eq : h.msgPos = 0

/-- The header is there, and the bytes `b` of its body. -/
structure BodyPart (h : IncomingHandler) (b : List UInt8) : Prop where
  length_header : h.header.length = sizeofDataHeader
  headerPos_eq : h.headerPos = sizeofDataHeader
  msgPos_eq : h.msgPos = b.length
  le : b.length ≤ headerSize h.header
  msg_none : h.msg = none → b = []
  length_msg : ∀ m ∈ h.msg, m.length = headerSize h.header
  take_msg : ∀ m ∈ h.msg, m.take b.length = b

/-- What of the stream the handler waits to complete. -/
inductive Waiting (h : IncomingHandler) : List UInt8 → Prop
  | header {p : List UInt8} (hp : HeaderPart h p) : Waiting h p
  | body {b : List UInt8} (hb : BodyPart h b) (lt : b.length < headerSize h.header) :
    Waiting h (h.header ++ b)

theorem Waiting.not_complete {h : IncomingHandler} {p : List UInt8} (hw : Waiting h p) :
    ¬ messageFormat.Complete p := by
  cases hw with
  | header hp =>
    rintro ⟨hle, -⟩
    exact absurd hp.lt (Nat.not_lt.mpr hle)
  | body hb lt =>
    rintro ⟨-, hle⟩
    rw [FrameFormat.frameLen_append hb.length_header, List.length_append, hb.length_header] at hle
    change sizeofDataHeader + headerSize h.header ≤ _ at hle
    omega

variable {h : IncomingHandler} {p b : List UInt8}

/-- The header is read on: it stays incomplete, or the body follows. -/
theorem HeaderPart.read (hp : HeaderPart h p) (hc : Clean as) :
    (p.length + (arrivedBytes as).length < sizeofDataHeader ∧ ∃ h', readHeader h as = .waiting h' ∧
      HeaderPart h' (p ++ arrivedBytes as)) ∨
    ∃ h' as' rest, readHeader h as = .ready h' as' ∧ BodyPart h' [] ∧ Clean as' ∧
      arrivedBytes as = rest ++ arrivedBytes as' ∧ p ++ rest = h'.header := by
  have hlt := hp.lt
  have h18 : sizeofDataHeader < 2 ^ 32 := by decide
  obtain ⟨as', hc', hb', e⟩ := redPeerReceive_eq (n := sizeofDataHeader - p.length) hc (by omega)
  set got := (arrivedBytes as).take (sizeofDataHeader - p.length) with hgot
  have hlen : got.length = min (sizeofDataHeader - p.length) (arrivedBytes as).length := by
    rw [hgot, List.length_take]
  have hne : ((got.length : Int).bmod (2 ^ 32)) ≠ -1 := by
    rw [Ne, bmod_eq_neg_one_iff (by omega)]
    have : sizeofDataHeader < 2 ^ 32 - 1 := by decide
    omega
  have hroom : p.length + got.length ≤ h.header.length := by
    rw [hp.length_header]
    omega
  have hread : readHeader h as = if p.length + got.length ≠ sizeofDataHeader
      then .waiting { h with header := store h.header p.length got, headerPos := p.length + got.length }
      else .ready { h with header := store h.header p.length got, headerPos := p.length + got.length }
        as' := by
    rw [readHeader, hp.headerPos_eq, if_pos hlt, e]
    simp only [if_neg hne, advance_bmod (show p.length + got.length < 2 ^ 32 by omega)]
  have htake : (store h.header p.length got).take (p.length + got.length) = p ++ got := by
    rw [take_store hroom, hp.take_header]
  by_cases hfull : p.length + got.length = sizeofDataHeader
  · refine .inr ⟨_, as', got, by rw [hread, if_neg (not_not.mpr hfull)], ?_, hc', ?_, ?_⟩
    · exact {
        length_header := (length_store hroom).trans hp.length_header
        headerPos_eq := hfull
        msgPos_eq := hp.msgPos_eq
        le := Nat.zero_le _
        msg_none := fun _ => rfl
        length_msg := fun m hm => by rw [hp.msg_eq] at hm; cases hm
        take_msg := fun m hm => rfl }
    · rw [hb', hgot, List.take_append_drop]
    · change p ++ got = store h.header p.length got
      rw [← htake, List.take_of_length_le]
      rw [length_store hroom, hp.length_header, hfull]
  · have hall : got = arrivedBytes as := List.take_of_length_le (by omega)
    refine .inl ⟨by rw [← hall]; omega, _, by rw [hread, if_pos hfull], ?_⟩
    rw [← hall]
    exact {
      length_header := (length_store hroom).trans hp.length_header
      headerPos_eq := by rw [List.length_append]
      lt := by rw [List.length_append]; omega
      take_header := by rw [List.length_append]; exact htake
      msg_eq := hp.msg_eq
      msgPos_eq := hp.msgPos_eq }

variable (fill : List UInt8 → Nat → UInt8)

/-- The message is read on: it stays incomplete, or all of it is there, or all of it came at once and
its size looks like an error. -/
theorem BodyPart.read (hb : BodyPart h b) (hc : Clean as) :
    (b.length + (arrivedBytes as).length < headerSize h.header ∧ ∃ h', readBody fill h as = .waiting h' ∧
      BodyPart h' (b ++ arrivedBytes as) ∧ h'.header = h.header) ∨
    (∃ h' as' rest, readBody fill h as = .ready h' as' ∧ h'.header = h.header ∧ Clean as' ∧
      arrivedBytes as = rest ++ arrivedBytes as' ∧ b.length + rest.length = headerSize h.header ∧
      (h'.msg.getD []).take (headerSize h.header) = b ++ rest ∧
      (b = [] → headerSize h.header ≠ 2 ^ 32 - 1)) ∨
    (b = [] ∧ headerSize h.header = 2 ^ 32 - 1 ∧ readBody fill h as = .failed ∧
      headerSize h.header ≤ (arrivedBytes as).length) := by
  have hsize := headerSize_lt h.header
  have hle := hb.le
  by_cases hlt : b.length < headerSize h.header
  swap
  · -- there is nothing to read
    refine .inr (.inl ⟨h, as, [], ?_, rfl, hc, rfl, by simp; omega, ?_, fun h0 => ?_⟩)
    · rw [readBody, hb.msgPos_eq, if_neg hlt]
    · have hfull : b.length = headerSize h.header := by omega
      rw [List.append_nil]
      cases hm : h.msg with
      | none => rw [hb.msg_none hm, Option.getD_none, List.take_nil]
      | some m => rw [Option.getD_some, ← hfull, hb.take_msg m hm]
    · subst h0
      simp at hlt
      omega
  obtain ⟨as', hc', hb', e⟩ := redPeerReceive_eq (n := headerSize h.header - b.length) hc (by omega)
  set got := (arrivedBytes as).take (headerSize h.header - b.length) with hgot
  have hlen : got.length = min (headerSize h.header - b.length) (arrivedBytes as).length := by
    rw [hgot, List.length_take]
  set msg := h.msg.getD (allocMsgBuf fill h.header) with hmsg
  have hmsgLen : msg.length = headerSize h.header := by
    rw [hmsg]
    cases hm : h.msg with
    | none => rw [Option.getD_none, allocMsgBuf, List.length_map, List.length_range]
    | some m => rw [Option.getD_some, hb.length_msg m hm]
  have hmsgTake : msg.take b.length = b := by
    rw [hmsg]
    cases hm : h.msg with
    | none => rw [hb.msg_none hm, List.length_nil, List.take_zero]
    | some m => rw [Option.getD_some, hb.take_msg m hm]
  have hroom : b.length + got.length ≤ msg.length := by omega
  have htake := take_store hroom
  rw [hmsgTake] at htake
  by_cases hbad : got.length = 2 ^ 32 - 1
  · have h0 : b.length = 0 := by omega
    refine .inr (.inr ⟨List.eq_nil_of_length_eq_zero h0, by omega, ?_, by omega⟩)
    rw [readBody, hb.msgPos_eq, if_pos hlt, e]
    simp only [if_pos ((bmod_eq_neg_one_iff (by omega)).mpr hbad)]
  have hne : ((got.length : Int).bmod (2 ^ 32)) ≠ -1 := by
    rwa [Ne, bmod_eq_neg_one_iff (by omega)]
  let h' : IncomingHandler :=
    { h with msg := some (store msg b.length got), msgPos := b.length + got.length }
  have hread : readBody fill h as =
      if b.length + got.length ≠ headerSize h.header then .waiting h' else .ready h' as' := by
    rw [readBody, hb.msgPos_eq, if_pos hlt, e]
    simp only [if_neg hne, advance_bmod (show b.length + got.length < 2 ^ 32 by omega), hmsg, h']
  by_cases hfull : b.length + got.length = headerSize h.header
  · refine .inr (.inl ⟨h', as', got, by rw [hread, if_neg (not_not.mpr hfull)], rfl, hc', ?_, hfull, ?_,
      fun h0 => ?_⟩)
    · rw [hb', hgot, List.take_append_drop]
    · change (store msg b.length got).take (headerSize h.header) = b ++ got
      rw [← hfull, htake]
    · rw [h0, List.length_nil] at hfull
      omega
  · have hall : got = arrivedBytes as := List.take_of_length_le (by omega)
    refine .inl ⟨by rw [← hall]; omega, h', by rw [hread, if_pos hfull], ?_, rfl⟩
    rw [← hall]
    exact {
      length_header := hb.length_header
      headerPos_eq := hb.headerPos_eq
      msgPos_eq := by rw [List.length_append]
      le := by
        rw [List.length_append]
        change _ ≤ headerSize h.header
        omega
      msg_none := fun hm => by cases hm
      length_msg := fun m hm => by
        cases hm
        exact (length_store hroom).trans hmsgLen
      take_msg := fun m hm => by
        cases hm
        rw [List.length_append]
        exact htake }

/-- A handler behind a message. -/
theorem headerPart_nil {header : List UInt8} (hlen : header.length = sizeofDataHeader) :
    HeaderPart ⟨header, 0, none, 0⟩ [] where
  length_header := hlen
  headerPos_eq := rfl
  lt := by decide
  take_header := rfl
  msg_eq := rfl
  msgPos_eq := rfl

/-- The size of a message that looks like an error. -/
def errorSize : Nat := 2 ^ 32 - 1

/-- One round once the header is there, or was there before. -/
theorem BodyPart.round (hb : BodyPart h b) (hc : Clean as) (fuel : Nat)
    (handled : List (List UInt8 × List UInt8)) {h₀ : IncomingHandler} {as₀ : List Arrival}
    (hready : readHeader h₀ as₀ = .ready h as) :
    (∃ h', redPeerHandleIncoming fill (fun _ _ => true) (fuel + 1) h₀ as₀ handled =
        ⟨some h', handled⟩ ∧ Waiting h' (h.header ++ (b ++ arrivedBytes as))) ∨
    ∃ body rest, h.header ++ (b ++ arrivedBytes as) = h.header ++ (body ++ rest) ∧
      body.length = headerSize h.header ∧
      ((∃ as' , redPeerHandleIncoming fill (fun _ _ => true) (fuel + 1) h₀ as₀ handled =
          redPeerHandleIncoming fill (fun _ _ => true) fuel ⟨h.header, 0, none, 0⟩ as'
            (handled ++ [(h.header, body)]) ∧ Clean as' ∧ arrivedBytes as' = rest ∧
          (b = [] → body.length ≠ errorSize)) ∨
       (b = [] ∧ body.length = errorSize ∧
        redPeerHandleIncoming fill (fun _ _ => true) (fuel + 1) h₀ as₀ handled = ⟨none, handled⟩)) := by
  obtain ⟨hlt, h', e, hb', hh⟩ | ⟨h', as', rest, e, hh, hc', hbytes, hlen, htake, hgood⟩ |
    ⟨h0, hsize, e, hle⟩ := hb.read fill hc
  · refine .inl ⟨h', by simp only [redPeerHandleIncoming, hready, e], ?_⟩
    rw [← hh]
    exact .body hb' (by rw [hh, List.length_append]; exact hlt)
  · refine .inr ⟨b ++ rest, arrivedBytes as', by rw [hbytes, List.append_assoc], ?_, .inl ⟨as', ?_, hc', rfl,
      fun h0 => ?_⟩⟩
    · rw [List.length_append, hlen]
    · simp only [redPeerHandleIncoming, hready, e, hh, htake]
      rfl
    · rw [List.length_append, hlen]
      exact hgood h0
  · subst h0
    refine .inr ⟨(arrivedBytes as).take (headerSize h.header),
      (arrivedBytes as).drop (headerSize h.header), ?_, ?_, .inr ⟨rfl, ?_, ?_⟩⟩
    · rw [List.nil_append, List.take_append_drop]
    · rw [List.length_take, min_eq_left hle]
    · rw [List.length_take, min_eq_left hle, hsize, errorSize]
    · simp only [redPeerHandleIncoming, hready, e]

/-- One round of `red_peer_handle_incoming`: the stream is not complete yet, or its first message is
handled and the rest is to come, or this message is one whose size looks like an error. -/
theorem Waiting.round (hw : Waiting h p) (hc : Clean as) (fuel : Nat)
    (handled : List (List UInt8 × List UInt8)) :
    (∃ h', redPeerHandleIncoming fill (fun _ _ => true) (fuel + 1) h as handled = ⟨some h', handled⟩ ∧
      Waiting h' (p ++ arrivedBytes as)) ∨
    ∃ head body rest, p ++ arrivedBytes as = head ++ (body ++ rest) ∧
      head.length = sizeofDataHeader ∧ body.length = headerSize head ∧
      rest.length < (arrivedBytes as).length ∧
      ((∃ as', redPeerHandleIncoming fill (fun _ _ => true) (fuel + 1) h as handled =
          redPeerHandleIncoming fill (fun _ _ => true) fuel ⟨head, 0, none, 0⟩ as'
            (handled ++ [(head, body)]) ∧ Clean as' ∧ arrivedBytes as' = rest ∧
          (p.length < sizeofDataHeader → body.length ≠ errorSize)) ∨
       (body.length = errorSize ∧
        redPeerHandleIncoming fill (fun _ _ => true) (fuel + 1) h as handled = ⟨none, handled⟩)) := by
  cases hw with
  | header hp =>
    obtain ⟨hlt, h', e, hp'⟩ | ⟨h', as', rest, e, hb, hc', hbytes, hhead⟩ := hp.read hc
    · exact .inl ⟨h', by simp only [redPeerHandleIncoming, e], .header hp'⟩
    · have hstream : p ++ arrivedBytes as = h'.header ++ ([] ++ arrivedBytes as') := by
        rw [hbytes, ← hhead, List.nil_append, List.append_assoc]
      have hpos : 0 < rest.length := by
        have := congrArg List.length hhead
        rw [List.length_append, hb.length_header] at this
        have := hp.lt
        omega
      rw [hstream]
      refine (hb.round fill hc' fuel handled e).imp_right ?_
      rintro ⟨body, t, hbody, hlen, hcase⟩
      refine ⟨h'.header, body, t, hbody, hb.length_header, hlen, ?_, hcase.imp ?_ ?_⟩
      · have := congrArg List.length (List.append_cancel_left hbody)
        rw [List.nil_append, List.length_append] at this
        rw [hbytes, List.length_append]
        omega
      · rintro ⟨as'', e', hc'', hb'', hgood⟩
        exact ⟨as'', e', hc'', hb'', fun _ => hgood rfl⟩
      · rintro ⟨-, hsize, e'⟩
        exact ⟨hsize, e'⟩
  | @body b hb lt =>
    have e : readHeader h as = .ready h as := by
      rw [readHeader, hb.headerPos_eq, if_neg (Nat.lt_irrefl _)]
    rw [List.append_assoc]
    refine (hb.round fill hc fuel handled e).imp_right ?_
    rintro ⟨body, t, hbody, hlen, hcase⟩
    refine ⟨h.header, body, t, hbody, hb.length_header, hlen, ?_, hcase.imp ?_ ?_⟩
    · have := congrArg List.length (List.append_cancel_left hbody)
      rw [List.length_append, List.length_append] at this
      omega
    · rintro ⟨as'', e', hc'', hb'', -⟩
      refine ⟨as'', e', hc'', hb'', fun hlt => ?_⟩
      rw [List.length_append, hb.length_header] at hlt
      omega
    · rintro ⟨-, hsize, e'⟩
      exact ⟨hsize, e'⟩

/-- A call that no message of the wrong size meets. -/
theorem Waiting.call (hw : Waiting h p) (hc : Clean as) (fuel : Nat)
    (hfuel : (arrivedBytes as).length < fuel) (handled : List (List UInt8 × List UInt8))
    (hgood : ∀ f ∈ messageFormat.frames (p ++ arrivedBytes as), f.2.length ≠ errorSize) :
    ∃ h', redPeerHandleIncoming fill (fun _ _ => true) fuel h as handled =
        ⟨some h', handled ++ messageFormat.frames (p ++ arrivedBytes as)⟩ ∧
      Waiting h' (messageFormat.leftover (p ++ arrivedBytes as)) := by
  induction fuel generalizing h p as handled with
  | zero => omega
  | succ fuel ih =>
    obtain ⟨h', e, hw'⟩ | ⟨head, body, rest, hs, hhead, hbody, hlt, hcase⟩ :=
      hw.round fill hc fuel handled
    · rw [FrameFormat.frames_of_not_complete hw'.not_complete,
        FrameFormat.leftover_of_not_complete hw'.not_complete, List.append_nil]
      exact ⟨h', e, hw'⟩
    · rw [hs, FrameFormat.frames_frame (F := messageFormat) hhead hbody] at hgood ⊢
      rw [FrameFormat.leftover_frame (F := messageFormat) hhead hbody]
      obtain ⟨as', e, hc', hb', -⟩ | ⟨hsize, -⟩ := hcase
      · rw [← hb'] at hlt hgood ⊢
        obtain ⟨h', e', hw'⟩ := ih (.header (headerPart_nil hhead)) hc' (by omega)
          (handled ++ [(head, body)]) fun f hf => hgood f (List.mem_cons_of_mem _ hf)
        refine ⟨h', ?_, hw'⟩
        rw [e, e', List.nil_append, List.append_assoc, List.singleton_append]
      · exact absurd hsize (hgood (head, body) List.mem_cons_self)

/-- A call on a whole stream that stops at a message of the wrong size. -/
theorem HeaderPart.call_bad (hp : HeaderPart h []) (hc : Clean as) (fuel : Nat)
    (handled : List (List UInt8 × List UInt8))
    (hbad : ∃ f ∈ messageFormat.frames (arrivedBytes as), f.2.length = errorSize) :
    (redPeerHandleIncoming fill (fun _ _ => true) fuel h as handled).handled.length <
      handled.length + (messageFormat.frames (arrivedBytes as)).length := by
  obtain ⟨f, hf, hsize⟩ := hbad
  have hpos := List.length_pos_of_mem hf
  induction fuel generalizing h as handled with
  | zero =>
    change handled.length < _
    omega
  | succ fuel ih =>
    obtain ⟨h', e, hw'⟩ | ⟨head, body, rest, hs, hhead, hbody, -, hcase⟩ :=
      (Waiting.header hp).round fill hc fuel handled
    · rw [e]
      change handled.length < _
      omega
    · rw [List.nil_append] at hs
      rw [hs, FrameFormat.frames_frame (F := messageFormat) hhead hbody] at hf hpos ⊢
      obtain ⟨as', e, hc', hb', hgood⟩ | ⟨-, e⟩ := hcase
      · obtain rfl | hf := List.mem_cons.mp hf
        · exact absurd hsize (hgood (by decide))
        rw [← hb'] at hf ⊢
        have := ih (headerPart_nil hhead) hc' (handled ++ [(head, body)]) hf (List.length_pos_of_mem hf)
        rw [List.length_append, List.length_singleton] at this
        rw [e, List.length_cons]
        omega
      · rw [e]
        change handled.length < _
        omega

/-- All bytes of the stream that reach the handler. -/
def streamOf (calls : List (List Arrival)) : List UInt8 := calls.flatMap arrivedBytes

@[simp] theorem streamOf_cons (as : List Arrival) (calls : List (List Arrival)) :
    streamOf (as :: calls) = arrivedBytes as ++ streamOf calls := rfl

/-- Calls one after the other, behind what the ones before them left over. -/
theorem Waiting.calls {calls : List (List Arrival)} (hw : Waiting h p) (hc : ∀ as ∈ calls, Clean as)
    (handled : List (List UInt8 × List UInt8))
    (hgood : ∀ f ∈ messageFormat.frames (p ++ streamOf calls), f.2.length ≠ errorSize) :
    ∃ h', calls.foldl (handleIncoming fill fun _ _ => true) ⟨some h, handled⟩ =
        ⟨some h', handled ++ messageFormat.frames (p ++ streamOf calls)⟩ ∧
      Waiting h' (messageFormat.leftover (p ++ streamOf calls)) := by
  induction calls generalizing h p handled with
  | nil =>
    rw [streamOf, List.flatMap_nil, List.append_nil, FrameFormat.frames_of_not_complete hw.not_complete,
      FrameFormat.leftover_of_not_complete hw.not_complete, List.append_nil]
    exact ⟨h, rfl, hw⟩
  | cons as calls ih =>
    obtain ⟨hf, hl⟩ := messageFormat.frames_append (p ++ arrivedBytes as) (streamOf calls)
    rw [streamOf_cons, ← List.append_assoc, hf] at hgood
    rw [streamOf_cons, ← List.append_assoc, hf, hl]
    obtain ⟨h₁, e₁, hw₁⟩ := hw.call fill (hc as List.mem_cons_self) _ (Nat.lt_succ_self _) handled
      fun f hf => hgood f (List.mem_append_left _ hf)
    obtain ⟨h₂, e₂, hw₂⟩ := ih hw₁ (fun as h => hc as (List.mem_cons_of_mem _ h)) _
      fun f hf => hgood f (List.mem_append_right _ hf)
    refine ⟨h₂, ?_, hw₂⟩
    rw [List.foldl_cons, handleIncoming]
    change calls.foldl _ (redPeerHandleIncoming fill _ _ h as handled) = _
    rw [e₁, e₂, List.append_assoc]

theorem headerPart_create : HeaderPart .create [] := headerPart_nil List.length_replicate

/-- `calls` deliver the stream `s`. -/
structure Delivers (calls : List (List Arrival)) (s : List UInt8) : Prop where
  clean : ∀ as ∈ calls, Clean as
  stream : streamOf calls = s

theorem handleAll_handled {calls : List (List Arrival)} (hd : Delivers calls s)
    (hgood : ∀ f ∈ messageFormat.frames s, f.2.length ≠ errorSize) :
    (handleAll fill (fun _ _ => true) calls).handled = messageFormat.frames s := by
  obtain ⟨clean, rfl⟩ := hd
  obtain ⟨h', e, -⟩ := (Waiting.header headerPart_create).calls fill clean []
    (by rwa [List.nil_append])
  rw [List.nil_append, List.nil_append] at e
  rw [handleAll, e]

/-- The stream in one call, a byte for each read. -/
def byteReads (s : List UInt8) : List Arrival := s.map fun b => .bytes [b]

theorem arrivedBytes_byteReads (s : List UInt8) : arrivedBytes (byteReads s) = s := by
  induction s with
  | nil => rfl
  | cons b s ih =>
    change [b] ++ arrivedBytes (byteReads s) = _
    rw [ih, List.singleton_append]

theorem delivers_byteReads (s : List UInt8) : Delivers [byteReads s] s where
  clean := by
    intro as has a ha
    obtain rfl := List.mem_singleton.mp has
    obtain ⟨b, -, rfl⟩ := List.mem_map.mp ha
    exact ⟨by simp, by simp⟩
  stream := by rw [streamOf_cons, arrivedBytes_byteReads, streamOf, List.flatMap_nil, List.append_nil]

/-- A message whose size looks like an error is lost when it comes in one call. -/
theorem handleAll_byteReads (hbad : ∃ f ∈ messageFormat.frames s, f.2.length = errorSize) :
    (handleAll fill (fun _ _ => true) [byteReads s]).handled.length <
      (messageFormat.frames s).length := by
  have hlt := headerPart_create.call_bad fill ((delivers_byteReads s).clean _ List.mem_cons_self)
    ((arrivedBytes (byteReads s)).length + 1) [] (by rwa [arrivedBytes_byteReads])
  calc _ < _ := hlt
    _ = (messageFormat.frames s).length := by
      rw [List.length_nil, Nat.zero_add, arrivedBytes_byteReads]

/-- However a stream is cut, the messages handled are its frames, as long as the size of none of them
looks like an error. -/
theorem handled_eq_frames_iff (s : List UInt8) :
    (∀ calls, Delivers calls s →
      (handleAll fill (fun _ _ => true) calls).handled = messageFormat.frames s) ↔
    ∀ f ∈ messageFormat.frames s, f.2.length ≠ errorSize := by
  constructor
  · intro hall f hf hsize
    have hlt := handleAll_byteReads fill ⟨f, hf, hsize⟩
    rw [hall _ (delivers_byteReads s)] at hlt
    exact Nat.lt_irrefl _ hlt
  · exact fun hgood calls hd => handleAll_handled fill hd hgood

/-- A header that announces the largest size. -/
def largestHeader : List UInt8 := List.replicate sizeofDataHeader 0xff

theorem largest_not_handled : ∃ s, ∃ calls, Delivers calls s ∧
    (handleAll (fun _ _ => 0) (fun _ _ => true) calls).handled ≠ messageFormat.frames s := by
  have hhead : largestHeader.length = messageFormat.headLen := List.length_replicate
  have hbody : (List.replicate errorSize (0 : UInt8)).length = messageFormat.size largestHeader := by
    rw [List.length_replicate]
    decide
  have hframes := FrameFormat.frames_frame hhead hbody []
  refine ⟨largestHeader ++ (List.replicate errorSize 0 ++ []), _, delivers_byteReads _, fun heq => ?_⟩
  have hlt := handleAll_byteReads (fun _ _ => 0)
    ⟨_, by rw [hframes]; exact List.mem_cons_self, List.length_replicate⟩
  rw [heq] at hlt
  exact Nat.lt_irrefl _ hlt

end Colama.Spice.RedChannel
