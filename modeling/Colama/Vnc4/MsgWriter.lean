import Colama.Vnc4.MsgReaders

namespace Colama.Vnc4.MsgReaders

structure ConnParams where
  width : ℤ
  height : ℤ

/-- A call of `CMsgWriter`. The byte that `skip` leaves in the buffer is what was there before. -/
inductive ClientMsg
  | setPixelFormat (pf : PixelFormat)
  | setEncodings (skipped : UInt8) (encodings : List ℕ)
  | framebufferUpdateRequest (r : Rect) (incremental : Bool)
  | keyEvent (key : ℕ) (down : Bool)
  | pointerEvent (x y buttonMask : ℤ)
  | clientCutText (str : Bytes)

section Writers

def writeU8 (u : ℤ) : Bytes := [UInt8.ofInt u]

def writeU16 (u : ℤ) : Bytes := writeU8 (u / 2 ^ 8) ++ writeU8 u

def writeU32 (u : ℤ) : Bytes := writeU16 (u / 2 ^ 16) ++ writeU16 u

def writeBool (b : Bool) : Bytes := writeU8 (cond b 1 0)

def pad (bytes : ℕ) : Bytes := List.replicate bytes 0

def PixelFormat.write (pf : PixelFormat) : Bytes :=
  writeU8 pf.bpp ++ (writeU8 pf.depth ++ (writeBool pf.bigEndian ++ (writeBool pf.trueColour ++
    (writeU16 pf.redMax ++ (writeU16 pf.greenMax ++ (writeU16 pf.blueMax ++
      (writeU8 pf.redShift ++ (writeU8 pf.greenShift ++ (writeU8 pf.blueShift ++ pad 3)))))))))

def writeSetEncodings (skipped : UInt8) (encodings : List ℕ) : Bytes :=
  writeU8 2 ++ ([skipped] ++ (writeU16 encodings.length ++ encodings.flatMap fun e : ℕ => writeU32 e))

/-- A coordinate of the pointer, moved into the framebuffer. -/
def clampPos (size p : ℤ) : ℤ :=
  let p := if p < 0 then 0 else p
  if size ≤ p then size - 1 else p

def ClientMsg.write (cp : ConnParams) : ClientMsg → Bytes
  | .setPixelFormat pf => writeU8 0 ++ (pad 3 ++ pf.write)
  | .setEncodings skipped encodings => writeSetEncodings skipped encodings
  | .framebufferUpdateRequest r incremental =>
    writeU8 3 ++ (writeBool incremental ++ (writeU16 r.x ++ (writeU16 r.y ++
      (writeU16 (r.brX - r.x) ++ writeU16 (r.brY - r.y)))))
  | .keyEvent key down => writeU8 4 ++ (writeBool down ++ (pad 2 ++ writeU32 key))
  | .pointerEvent x y buttonMask =>
    writeU8 5 ++ (writeU8 buttonMask ++ (writeU16 (clampPos cp.width x) ++ writeU16 (clampPos cp.height y)))
  | .clientCutText str => writeU8 6 ++ (pad 3 ++ (writeU32 str.length ++ str))

end Writers

/-- What the server's handler is told of a message, if it is told anything. -/
def ClientMsg.received (cp : ConnParams) (maxCutText : ℤ) : ClientMsg → Option ServerCall
  | .setPixelFormat pf => some (.setPixelFormat pf)
  | .setEncodings _ encodings => some (.setEncodings encodings.length encodings)
  | .framebufferUpdateRequest r incremental => some (.framebufferUpdateRequest r incremental)
  | .keyEvent key down => some (.keyEvent key down)
  | .pointerEvent x y buttonMask =>
    some (.pointerEvent (clampPos cp.width x) (clampPos cp.height y) (buttonMask % 2 ^ 8))
  | .clientCutText str => if maxCutText < str.length then none else some (.clientCutText (str ++ [0]) str.length)

def FitsU16 (u : ℤ) : Prop := 0 ≤ u ∧ u < 2 ^ 16

def PixelFormat.Fits (pf : PixelFormat) : Prop :=
  (∀ u ∈ [pf.bpp, pf.depth, pf.redShift, pf.greenShift, pf.blueShift], u < 2 ^ 8) ∧
    ∀ u ∈ [pf.redMax, pf.greenMax, pf.blueMax], u < 2 ^ 16

/-- What a message says fits the numbers that it is written with. -/
def ClientMsg.Fits (cp : ConnParams) : ClientMsg → Prop
  | .setPixelFormat pf => pf.Fits
  | .setEncodings _ encodings => encodings.length < 2 ^ 16 ∧ ∀ e ∈ encodings, e < 2 ^ 32
  | .framebufferUpdateRequest r _ => FitsU16 r.x ∧ FitsU16 r.y ∧ FitsU16 (r.brX - r.x) ∧ FitsU16 (r.brY - r.y)
  | .keyEvent key _ => key < 2 ^ 32
  | .pointerEvent .. => FitsU16 (cp.width - 1) ∧ FitsU16 (cp.height - 1)
  | .clientCutText str => str.length + 1 < 2 ^ 31

section

variable {H α β : Type}

/-- The reader takes these bytes from the front of any stream, for that result. -/
def Takes (x : Read H α) (bytes : Bytes) (a : α) : Prop :=
  ∀ s : Reading H, ∀ rest, s.stream = bytes ++ rest → x s = .ok a { s with stream := rest }

theorem Takes.of_eq {x : Read H α} {bytes : Bytes} {a b : α} (hx : Takes x bytes a) (h : a = b) : Takes x bytes b := h ▸ hx

theorem Takes.bind_eq {x : Read H α} {bytes rest : Bytes} {a : α} (hx : Takes x bytes a) (f : α → Read H β)
    {s : Reading H} (hs : s.stream = bytes ++ rest) : (x >>= f) s = f a { s with stream := rest } :=
  MsgReaders.bind_eq (hx s rest hs)

theorem Takes.seq {x : Read H α} {f : α → Read H β} {bytes bytes' : Bytes} {a : α} {b : β} (hx : Takes x bytes a)
    (hf : Takes (f a) bytes' b) : Takes (x >>= f) (bytes ++ bytes') b := by
  intro s rest hs
  rw [List.append_assoc] at hs
  rw [hx.bind_eq f hs]
  exact hf _ rest rfl

theorem Takes.seq_pure {x : Read H α} {bytes : Bytes} {a : α} (hx : Takes x bytes a) (f : α → β) :
    Takes (x >>= fun a => pure (f a)) bytes (f a) := fun _ _ hs => hx.bind_eq _ hs

theorem takes_readU8 (u : ℤ) : Takes (readU8 : Read H ℕ) (writeU8 u) (u % 2 ^ 8).toNat := by
  intro s rest hs
  rw [readU8_eq hs, UInt8.ofInt, UInt8.toNat_ofNat']
  congr
  omega

theorem takes_readU16 (u : ℤ) : Takes (readU16 : Read H ℕ) (writeU16 u) (u % 2 ^ 16).toNat := by
  have hu : (u % 2 ^ 16).toNat = (u / 2 ^ 8 % 2 ^ 8).toNat * 2 ^ 8 + (u % 2 ^ 8).toNat := by omega
  rw [hu]
  exact .seq (takes_readU8 _) (.seq_pure (takes_readU8 u) _)

theorem takes_readU32 (u : ℤ) : Takes (readU32 : Read H ℕ) (writeU32 u) (u % 2 ^ 32).toNat := by
  have hu : (u % 2 ^ 32).toNat = (u / 2 ^ 16 % 2 ^ 16).toNat * 2 ^ 16 + (u % 2 ^ 16).toNat := by omega
  rw [hu]
  exact .seq (takes_readU16 _) (.seq_pure (takes_readU16 u) _)

theorem takes_readU8_nat {n : ℕ} (h : n < 2 ^ 8) : Takes (readU8 : Read H ℕ) (writeU8 n) n :=
  (takes_readU8 n).of_eq (by omega)

theorem takes_readU16_nat {n : ℕ} (h : n < 2 ^ 16) : Takes (readU16 : Read H ℕ) (writeU16 n) n :=
  (takes_readU16 n).of_eq (by omega)

theorem takes_readU32_nat {n : ℕ} (h : n < 2 ^ 32) : Takes (readU32 : Read H ℕ) (writeU32 n) n :=
  (takes_readU32 n).of_eq (by omega)

theorem takes_readU8_bool (b : Bool) : Takes (readU8 : Read H ℕ) (writeBool b) (cond b 1 0) :=
  (takes_readU8 _).of_eq (by cases b <;> rfl)

theorem takes_skip (bytes : Bytes) : Takes (skip bytes.length : Read H Unit) bytes () := by
  rintro ⟨stream, handler, n, decoders⟩ rest rfl
  simp only [skip, bind, EStateM.bind, get, getThe, MonadStateOf.get, EStateM.get]
  rw [if_neg (by simp), Int.toNat_natCast, List.drop_left]
  rfl

theorem takes_readBytes (bytes buf : Bytes) :
    Takes (readBytes (List.replicate bytes.length 0 ++ buf) bytes.length : Read H Bytes) bytes (bytes ++ buf) := by
  rintro ⟨stream, handler, n, decoders⟩ rest rfl
  simp only [readBytes, bind, EStateM.bind, get, getThe, MonadStateOf.get, EStateM.get, Int.toNat_natCast]
  rw [if_neg (by simp), if_neg (by simp), List.drop_left, List.take_left, List.drop_left' List.length_replicate]
  rfl

theorem takes_newArray [Inhabited α] (len : ℕ) :
    Takes (newArray len : Read H (List α)) [] (List.replicate len default) := by
  rintro ⟨stream, handler, n, decoders⟩ rest rfl
  rw [newArray, if_neg (by omega)]
  rfl

/-- Items that are written one after the other are read into the places behind those that have been read. -/
theorem takes_readItems {readItem : Read H α} {write : α → Bytes} {items : List α}
    (h : ∀ a ∈ items, Takes readItem (write a) a) (read buf : List α) (hbuf : buf.length = items.length) :
    Takes (readItems readItem items.length read.length (read ++ buf)) (items.flatMap write) (read ++ items) := by
  induction items generalizing read buf with
  | nil =>
    rintro ⟨stream, handler, n, decoders⟩ rest rfl
    rw [List.eq_nil_of_length_eq_zero hbuf]
    rfl
  | cons a items ih =>
    obtain ⟨b, buf, rfl⟩ := List.exists_cons_of_length_eq_add_one hbuf
    have hstore : Takes (store (read ++ b :: buf) read.length a : Read H (List α)) [] (read ++ a :: buf) := by
      rintro ⟨stream, handler, n, decoders⟩ rest rfl
      rw [store, if_pos (by simp), Int.toNat_natCast, List.set_append_right _ _ le_rfl, Nat.sub_self]
      rfl
    have hrest := ih (fun a ha => h a (List.mem_cons_of_mem _ ha)) (read ++ [a]) buf (Nat.succ.inj hbuf)
    rw [List.append_assoc, List.append_assoc, List.length_append] at hrest
    exact (h a List.mem_cons_self).seq (hstore.seq hrest)

theorem cond_ne_zero (b : Bool) : decide ((cond b 1 0 : ℕ) ≠ 0) = b := by cases b <;> rfl

theorem takes_readPixelFormat {pf : PixelFormat} (h : pf.Fits) : Takes (readPixelFormat : Read H PixelFormat) pf.write pf := by
  obtain ⟨h8, h16⟩ := h
  rw [readPixelFormat, PixelFormat.write]
  refine Takes.of_eq (.seq (takes_readU8_nat (h8 pf.bpp (by simp))) (.seq (takes_readU8_nat (h8 pf.depth (by simp)))
    (.seq (takes_readU8_bool _) (.seq (takes_readU8_bool _) (.seq (takes_readU16_nat (h16 pf.redMax (by simp)))
    (.seq (takes_readU16_nat (h16 pf.greenMax (by simp))) (.seq (takes_readU16_nat (h16 pf.blueMax (by simp)))
    (.seq (takes_readU8_nat (h8 pf.redShift (by simp))) (.seq (takes_readU8_nat (h8 pf.greenShift (by simp)))
    (.seq (takes_readU8_nat (h8 pf.blueShift (by simp))) (.seq_pure (takes_skip (pad 3)) _))))))))))) ?_
  rw [cond_ne_zero, cond_ne_zero]

/-- The reader takes these bytes from the front of any stream, and tells the handler what there is to tell. -/
def Delivers (handler : Handler H ServerCall) (x : Read H Unit) (bytes : Bytes) (call : Option ServerCall) : Prop :=
  ∀ s : Reading H, ∀ rest, s.stream = bytes ++ rest →
    x s = call.elim (pure ()) (tell handler) { s with stream := rest }

variable {handler : Handler H ServerCall} {maxCutText : ℤ} {cp : ConnParams}

theorem Takes.then {x : Read H α} {f : α → Read H Unit} {bytes bytes' : Bytes} {a : α} {call : Option ServerCall}
    (hx : Takes x bytes a) (hf : Delivers handler (f a) bytes' call) :
    Delivers handler (x >>= f) (bytes ++ bytes') call := by
  intro s rest hs
  rw [List.append_assoc] at hs
  rw [hx.bind_eq f hs]
  exact hf _ rest rfl

theorem Takes.tell {x : Read H α} {bytes : Bytes} {a : α} (hx : Takes x bytes a) {g : α → ServerCall} {call : ServerCall}
    (h : g a = call) : Delivers handler (x >>= fun a => MsgReaders.tell handler (g a)) bytes (some call) := by
  intro s rest hs
  rw [hx.bind_eq _ hs, h]
  rfl

theorem delivers_readSetEncodings (skipped : UInt8) {encodings : List ℕ} (hlen : encodings.length < 2 ^ 16)
    (h : ∀ e ∈ encodings, e < 2 ^ 32) :
    Delivers handler (serverReadMsg handler maxCutText) (writeSetEncodings skipped encodings)
      (some (.setEncodings encodings.length encodings)) := by
  refine (Takes.of_eq (takes_readU8 2) rfl).then ?_
  change Delivers handler (readSetEncodings handler) _ _
  refine (takes_skip [skipped]).then ((takes_readU16_nat hlen).then ?_)
  have hitems := takes_readItems (fun e he => takes_readU32_nat (H := H) (h e he)) [] (List.replicate encodings.length 0)
    List.length_replicate
  exact (takes_newArray _).then (hitems.tell rfl)

theorem toNat_of_fits {u : ℤ} (h : FitsU16 u) : ((u % 2 ^ 16).toNat : ℤ) = u := by
  rw [FitsU16] at h
  omega

theorem fits_clampPos {size : ℤ} (h : FitsU16 (size - 1)) (p : ℤ) : FitsU16 (clampPos size p) := by
  simp only [FitsU16, clampPos] at h ⊢
  split <;> split <;> omega

theorem delivers_readCutText {str : Bytes} (h : str.length + 1 < 2 ^ 31) :
    Delivers handler (serverReadMsg handler maxCutText) (writeU8 6 ++ (pad 3 ++ (writeU32 str.length ++ str)))
      (if maxCutText < str.length then none else some (.clientCutText (str ++ [0]) str.length)) := by
  refine (Takes.of_eq (takes_readU8 6) rfl).then ?_
  change Delivers handler (readCutText handler maxCutText .clientCutText) _ _
  refine (takes_skip (pad 3)).then ((takes_readU32_nat (by omega)).then ?_)
  have hlen : toInt (str.length : ℕ) = str.length := by
    simp only [toInt, Int.bmod_def]
    omega
  have hsucc : toInt ((str.length : ℤ) + 1) = (str.length + 1 : ℕ) := by
    simp only [toInt, Int.bmod_def]
    omega
  dsimp only
  rw [hlen, hsucc]
  split
  · exact takes_skip str
  · have hstore : Takes (store (List.replicate (str.length + 1) 0) str.length 0 : Read H Bytes) []
        (List.replicate str.length 0 ++ [0]) := by
      rintro ⟨stream, handler, n, decoders⟩ rest rfl
      rw [store, if_pos (by simp), Int.toNat_natCast, ← List.replicate_succ', List.set_replicate_self]
      rfl
    exact (takes_newArray (str.length + 1)).then (hstore.then ((takes_readBytes str [0]).tell rfl))

theorem delivers_serverReadMsg {msg : ClientMsg} (h : msg.Fits cp) :
    Delivers handler (serverReadMsg handler maxCutText) (msg.write cp) (msg.received cp maxCutText) := by
  cases msg with
  | setPixelFormat pf =>
    refine (Takes.of_eq (takes_readU8 0) rfl).then ?_
    exact (takes_skip (pad 3)).then ((takes_readPixelFormat h).tell rfl)
  | setEncodings skipped encodings => exact delivers_readSetEncodings skipped h.1 h.2
  | framebufferUpdateRequest r incremental =>
    obtain ⟨hx, hy, hw, hh⟩ := h
    refine (Takes.of_eq (takes_readU8 3) rfl).then ?_
    refine (takes_readU8_bool _).then ((takes_readU16 _).then ((takes_readU16 _).then ((takes_readU16 _).then
      ((takes_readU16 _).tell ?_))))
    rw [toNat_of_fits hx, toNat_of_fits hy, toNat_of_fits hw, toNat_of_fits hh, cond_ne_zero, add_sub_cancel, add_sub_cancel]
  | keyEvent key down =>
    refine (Takes.of_eq (takes_readU8 4) rfl).then ?_
    refine (takes_readU8_bool _).then ((takes_skip (pad 2)).then ((takes_readU32_nat h).tell ?_))
    rw [cond_ne_zero]
  | pointerEvent x y buttonMask =>
    refine (Takes.of_eq (takes_readU8 5) rfl).then ?_
    refine (takes_readU8 _).then ((takes_readU16 _).then ((takes_readU16 _).tell ?_))
    rw [toNat_of_fits (fits_clampPos h.1 x), toNat_of_fits (fits_clampPos h.2 y), Int.toNat_of_nonneg (by omega)]
  | clientCutText str => exact delivers_readCutText h

theorem step_write {msg : ClientMsg} (h : msg.Fits cp) {s : Reading H} {rest : Bytes} (hs : s.stream = msg.write cp ++ rest) :
    step (serverReadMsg handler maxCutText) (some s) () =
      .ok (((msg.received cp maxCutText).elim (some s.handler) fun c => handler.call c s.handler).map fun h =>
        { s with stream := rest, handler := h }) := by
  have hread := @delivers_serverReadMsg H handler maxCutText cp msg h s rest hs
  cases hcall : msg.received cp maxCutText with
  | none =>
    rw [hcall] at hread
    rw [step, hread]
    rfl
  | some c =>
    rw [hcall, Option.elim_some] at hread
    simp only [MsgReaders.tell, bind, EStateM.bind, get, getThe, MonadStateOf.get, EStateM.get] at hread
    rw [step, hread, Option.elim_some]
    cases handler.call c s.handler with
    | none => rfl
    | some h => rfl

theorem step_none (readMsg : Read H Unit) (l : List Unit) : l.foldlM (step readMsg) none = .ok none := by
  induction l with
  | nil => rfl
  | cons a l ih => exact ih

/-- A run of the server's reader over what the client's writer has written tells the handler each of the messages, in
their order, until one makes it throw. What is behind the messages is left. -/
theorem readMsgs_write (handler : Handler H ServerCall) (maxCutText : ℤ) (cp : ConnParams) {msgs : List ClientMsg}
    (hmsgs : ∀ msg ∈ msgs, msg.Fits cp) {s : Reading H} {rest : Bytes}
    (hs : s.stream = msgs.flatMap (ClientMsg.write cp) ++ rest) :
    (List.replicate msgs.length ()).foldlM (step (serverReadMsg handler maxCutText)) (some s) =
      .ok (((msgs.filterMap (ClientMsg.received cp maxCutText)).foldlM (fun h c => handler.call c h) s.handler).map
        fun h => { s with stream := rest, handler := h }) := by
  induction msgs generalizing s with
  | nil =>
    obtain ⟨stream, h, n, decoders⟩ := s
    obtain rfl : stream = rest := hs
    rfl
  | cons msg msgs ih =>
    rw [List.flatMap_cons, List.append_assoc] at hs
    rw [List.length_cons, List.replicate_succ, List.foldlM_cons, step_write (hmsgs msg List.mem_cons_self) hs]
    have ih h := ih (fun msg h => hmsgs msg (List.mem_cons_of_mem _ h))
      (s := { s with stream := msgs.flatMap (ClientMsg.write cp) ++ rest, handler := h }) rfl
    cases hcall : msg.received cp maxCutText with
    | none =>
      rw [List.filterMap_cons_none hcall]
      exact ih s.handler
    | some c =>
      rw [List.filterMap_cons_some hcall, List.foldlM_cons, Option.elim_some]
      cases handler.call c s.handler with
      | none => exact step_none _ _
      | some h => exact ih h

def counting : Handler ℕ ServerCall where
  width _ := 0
  height _ := 0
  bpp _ := 0
  call _ n := some (n + 1)

theorem readMsgs_write_texts :
    let cp : ConnParams := ⟨640, 480⟩
    let msgs : List ClientMsg := [.clientCutText [65, 66, 67], .pointerEvent 700 (-1) 1, .clientCutText [65]]
    let s : Reading ℕ := ⟨msgs.flatMap (ClientMsg.write cp) ++ [4], 0, 0, fun _ => false⟩
    (List.replicate msgs.length ()).foldlM (step (serverReadMsg counting 2)) (some s) =
      .ok (((msgs.filterMap (ClientMsg.received cp 2)).foldlM (fun h c => counting.call c h) s.handler).map
        fun h => { s with stream := [4], handler := h }) := by
  intro cp msgs s
  refine readMsgs_write counting 2 cp ?_ rfl
  have hsize : FitsU16 639 ∧ FitsU16 479 := ⟨⟨by norm_num, by norm_num⟩, by norm_num, by norm_num⟩
  have htext : (3 : ℕ) + 1 < 2 ^ 31 ∧ (1 : ℕ) + 1 < 2 ^ 31 := by norm_num
  intro msg hmsg
  rcases List.mem_cons.mp hmsg with rfl | hmsg
  · exact htext.1
  rcases List.mem_cons.mp hmsg with rfl | hmsg
  · exact hsize
  rw [List.mem_singleton.mp hmsg]
  exact htext.2

end

end Colama.Vnc4.MsgReaders
