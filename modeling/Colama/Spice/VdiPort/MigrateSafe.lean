import Mathlib.Tactic
import Colama.Spice.VdiPort.MigrateRestore

namespace Colama.Spice.VdiPort.Migrate

open Lib

/-- The access stays within the message or the object. -/
def Access.Ok (end_ : Nat) : Access → Prop
  | .read pos len => pos + len ≤ end_
  | .write size len => len ≤ size
  | .range size pos len => 0 ≤ pos ∧ pos + len ≤ size

instance (end_ : Nat) : (a : Access) → Decidable (a.Ok end_)
  | .read pos len => inferInstanceAs (Decidable (pos + len ≤ end_))
  | .write size len => inferInstanceAs (Decidable (len ≤ size))
  | .range size pos len => inferInstanceAs (Decidable (0 ≤ pos ∧ pos + len ≤ size))

/-- How much of the current buffer the message says has been read. -/
def Mem.readLen (m : Mem) : UInt32 := m.word 48 - m.word 40

/-- The part of the message that restores the reading side. -/
structure Mem.ReaderBounded (m : Mem) (t : Reds) : Prop where
  header : m.word 28 = 0 → m.word 48 = 0 → (m.word 40).toNat ≤ sizeofChunkHeader
  data : m.word 28 = 2 → m.word 48 ≠ 0 →
    m.word 44 ≤ UInt32.ofNat (ofLittleEndian ((m.slice 32 sizeofChunkHeader).drop 4)) → t.readBufs ≠ 0 →
    (m.word 48).toInt32.toInt ≤ spiceAgentMaxDataSize → m.readLen.toNat ≤ spiceAgentMaxDataSize →
    sizeofMainMigrateData + m.readLen.toNat ≤ m.size ∧ m.readLen.toNat + (m.word 40).toNat ≤ spiceAgentMaxDataSize

/-- The message is looked at beyond its fixed part. -/
structure Mem.Taken (m : Mem) (t : Reds) : Prop where
  version : m.word 0 = mainChannelMigDataVersion
  tokens : m.word 20 + m.word 52 ≤ redsAgentWindowSize + redsNumInternalAgentMessages
  agentConnected : m.word 12 ≠ 0
  connected : t.connected
  plugGeneration : t.plugGeneration ≤ 1

structure Mem.Bounded (m : Mem) (t : Reds) : Prop where
  version : 4 ≤ m.size
  data : m.word 0 = mainChannelMigDataVersion → sizeofMainMigrateData ≤ m.size
  reader : m.Taken t → m.ReaderBounded t

namespace Reds

variable {m : Mem} {t : Reds}

theorem restoreWqueueLoop_ok (junk : Nat → Nat → UInt8) (n inf pos : Nat) (s : Reds)
    (h : inf + n * sizeofWriteQueueInfo ≤ m.size) : ∀ a ∈ (restoreWqueueLoop m junk n inf pos s).2, a.Ok m.size := by
  induction n generalizing inf pos s with
  | zero => nofun
  | succ n ih =>
    rw [Nat.succ_mul] at h
    have hinfo : (Access.read inf sizeofWriteQueueInfo).Ok m.size := by
      rw [Access.Ok]
      omega
    have hone : ∀ a ∈ [Access.read inf sizeofWriteQueueInfo], a.Ok m.size := by
      simpa using hinfo
    have hrest := ih (inf + sizeofWriteQueueInfo) (pos + (m.word (inf + 4)).toNat)
    rw [restoreWqueueLoop]
    dsimp only
    split
    · exact hone
    next hpos =>
    have hread : (Access.read pos (m.word (inf + 4)).toNat).Ok m.size := Nat.le_of_not_lt hpos
    split
    · split
      · exact hone
      next hlen =>
      refine List.forall_mem_cons.mpr ⟨hinfo, List.forall_mem_cons.mpr ⟨hread, List.forall_mem_cons.mpr ⟨?_, hrest _ ?_⟩⟩⟩
      · rw [Access.Ok]
        omega
      · omega
    split
    · split
      · exact hone
      next hlen =>
      split
      · exact hone
      refine List.forall_mem_cons.mpr ⟨hinfo, List.forall_mem_cons.mpr ⟨hread, List.forall_mem_cons.mpr ⟨?_, hrest _ ?_⟩⟩⟩
      · exact Nat.le_of_not_lt hlen
      · omega
    · exact hone

theorem restoreVdiWqueue_ok (junk : Nat → Nat → UInt8) (pos : Nat) (s : Reds) :
    ∀ a ∈ (mainChannelRestoreVdiWqueue m junk pos s).2, a.Ok m.size := by
  rw [mainChannelRestoreVdiWqueue]
  dsimp only
  split
  · intros; contradiction
  split
  · intros; contradiction
  · next h => exact restoreWqueueLoop_ok junk _ _ _ _ (Nat.le_of_not_lt h)

/-- The reading side stays within its bounds exactly where the message is bounded. -/
theorem restoreVdiReadState_ok_iff :
    (∀ a ∈ (mainChannelRestoreVdiReadState m t).2.2, a.Ok m.size) ↔ m.ReaderBounded t := by
  have hheader : ∀ a ∈ [Access.write sizeofChunkHeader sizeofChunkHeader], a.Ok m.size := by
    simp [Access.Ok]
  rw [mainChannelRestoreVdiReadState]
  dsimp only
  split
  · next h0 =>
    have h02 : m.word 28 ≠ 2 := by
      rw [h0]
      decide
    split
    · next h48 => exact iff_of_true hheader ⟨fun _ hn => absurd hn h48, fun h2 => absurd h2 h02⟩
    · next h48 =>
      have hok : (∀ a ∈ [Access.write sizeofChunkHeader sizeofChunkHeader, .range sizeofChunkHeader
          (sizeofChunkHeader - (m.word 40).toNat) (m.word 40).toNat], a.Ok m.size) ↔
          (m.word 40).toNat ≤ sizeofChunkHeader := by
        simp only [List.forall_mem_cons, List.not_mem_nil, false_imp_iff, implies_true, and_true, Access.Ok, le_refl, true_and]
        omega
      exact hok.trans ⟨fun h => ⟨fun _ _ => h, fun h2 => absurd h2 h02⟩, fun h => h.header h0 (not_not.mp h48)⟩
  next h0 =>
  split
  · next h1 =>
    have hb : m.ReaderBounded t := ⟨fun hn => absurd hn h0, fun hn => absurd (h1.symm.trans hn) (by decide)⟩
    split
    · exact iff_of_true hheader hb
    split
    · exact iff_of_true hheader hb
    · exact iff_of_true hheader hb
  next h1 =>
  split
  · next h2 =>
    split
    · next h48 => exact iff_of_true hheader ⟨fun hn => absurd hn h0, fun _ hn => absurd h48 hn⟩
    next h48 =>
    split
    · next hsize => exact iff_of_true hheader ⟨fun hn => absurd hn h0, fun _ _ hn => absurd hn (UInt32.not_le.mpr hsize)⟩
    next hsize =>
    split
    · next hbufs => exact iff_of_true hheader ⟨fun hn => absurd hn h0, fun _ _ _ hn => absurd hbufs hn⟩
    next hbufs =>
    split
    · next hlen =>
      refine iff_of_true hheader ⟨fun hn => absurd hn h0, fun _ _ _ _ hl hn => ?_⟩
      exact absurd hlen (not_or.mpr ⟨Int.not_lt.mpr hl, Nat.not_lt.mpr hn⟩)
    · next hlen =>
      rw [not_or, Int.not_lt, Nat.not_lt] at hlen
      have hok : (∀ a ∈ [Access.write sizeofChunkHeader sizeofChunkHeader, .read sizeofMainMigrateData m.readLen.toNat,
          .write spiceAgentMaxDataSize m.readLen.toNat,
          .range spiceAgentMaxDataSize m.readLen.toNat (m.word 40).toNat], a.Ok m.size) ↔
          sizeofMainMigrateData + m.readLen.toNat ≤ m.size ∧ m.readLen.toNat + (m.word 40).toNat ≤ spiceAgentMaxDataSize := by
        have hn : m.readLen.toNat ≤ spiceAgentMaxDataSize := hlen.2
        simp only [List.forall_mem_cons, List.not_mem_nil, false_imp_iff, implies_true, and_true, Access.Ok, le_refl, true_and]
        omega
      refine hok.trans ⟨fun h => ⟨fun hn => absurd hn h0, fun _ _ _ _ _ _ => h⟩, fun h => ?_⟩
      exact h.data h2 h48 (UInt32.not_lt.mp hsize) hbufs hlen.1 hlen.2
  · next h2 => exact iff_of_true hheader ⟨fun hn => absurd hn h0, fun hn => absurd hn h2⟩

/-- For any bytes at all. -/
theorem recive_ok_iff (junk : Nat → Nat → UInt8) (ht : t.aborted = false) :
    (∀ a ∈ (t.mainChannelReciveMigrateData m junk).2, a.Ok m.size) ↔ m.Bounded t := by
  rw [mainChannelReciveMigrateData]
  dsimp only
  have hversion : (∀ a ∈ [Access.read 0 4], a.Ok m.size) ↔ 4 ≤ m.size := by simp [Access.Ok]
  have hdata : (∀ a ∈ [Access.read 0 4, .read 4 (sizeofMainMigrateData - 4)], a.Ok m.size) ↔ sizeofMainMigrateData ≤ m.size := by
    simp [Access.Ok, sizeofMainMigrateData]
    omega
  split
  · next hv =>
    exact hversion.trans ⟨fun h => ⟨h, fun hn => absurd hn hv, fun hn => absurd hn.version hv⟩, Mem.Bounded.version⟩
  next hv =>
  have hv : m.word 0 = mainChannelMigDataVersion := not_not.mp hv
  -- where the rest is not looked at
  have hnot (hn : ¬ m.Taken t) : (∀ a ∈ [Access.read 0 4, .read 4 (sizeofMainMigrateData - 4)], a.Ok m.size) ↔ m.Bounded t :=
    hdata.trans ⟨fun h => ⟨le_trans (by decide) h, fun _ => h, fun ht => absurd ht hn⟩, fun h => h.data hv⟩
  split
  · next ha =>
    refine hnot fun htaken => ?_
    rw [assert] at ha
    simp [ht, htaken.tokens] at ha
  next ha =>
  split
  · next h12 => exact hnot fun htaken => htaken.agentConnected h12
  next h12 =>
  split
  · next hc => exact hnot fun htaken => hc htaken.connected
  next hc =>
  split
  · next hp => exact hnot fun htaken => UInt32.not_lt.mpr htaken.plugGeneration hp
  next hp =>
  have htaken : m.Taken t := by
    refine ⟨hv, ?_, h12, not_not.mp hc, UInt32.not_lt.mp hp⟩
    rw [assert] at ha
    simpa [ht] using ha
  generalize hs : ({ assert _ _ with numTokens := _, clientAgentStarted := _ } : Reds) = s
  have hread := restoreVdiReadState_ok_iff (m := m) (t := s)
  have hbounded : m.ReaderBounded s ↔ m.ReaderBounded t := by
    subst hs
    exact ⟨fun h => ⟨h.header, h.data⟩, fun h => ⟨h.header, h.data⟩⟩
  rw [hbounded] at hread
  have hall {read : List Access} (h : (∀ a ∈ read, a.Ok m.size) ↔ m.ReaderBounded t) :
      (∀ a ∈ Access.read 0 4 :: .read 4 (sizeofMainMigrateData - 4) :: read, a.Ok m.size) ↔ m.Bounded t := by
    rw [List.forall_mem_cons, List.forall_mem_cons, h]
    simp only [Access.Ok]
    constructor
    · rintro ⟨h4, hd, hr⟩
      exact ⟨by omega, fun _ => hd, fun _ => hr⟩
    · intro h
      exact ⟨by simpa using h.version, h.data hv, h.reader htaken⟩
  split
  · next heq =>
    rw [heq] at hread
    exact hall hread
  · next heq =>
    rw [heq] at hread
    refine hall ?_
    rw [List.forall_mem_append]
    exact (and_iff_left (restoreVdiWqueue_ok junk _ _)).trans hread

/-- Where an agent is connected, no buffer of the client is queued, what is left of each of the server begins with its
port, and the data that is read is not empty. -/
def Clean (s : Reds) : Prop :=
  s.connected → ¬ s.reader.Stuck ∧ ∀ buf ∈ s.writeQueue, buf.port = vdpServerPort ∧ buf.BeginsWithPort

abbrev Run : Reds → Prop := Reachable (fun s a s' => s.step a = some s') (fun _ _ => True) linked

theorem Run.admitted {s : Reds} (h : Run s) : s.Admitted :=
  h.invariant Admitted admitted_linked fun _ a _ hs _ hstep => hs.step a hstep

/-- The agent's state goes over to the new server, and from there to another one, exactly where it is clean; and the
accesses that any bytes lead to are within bounds exactly where these are. -/
theorem migration_iff (s : Reds) (h : Run s) (m : Mem) (junk : Nat → Nat → UInt8) (t : Reds) (ht : t.aborted = false) :
    (s.MigratesTwice ↔ s.Clean) ∧ ((∀ a ∈ (t.mainChannelReciveMigrateData m junk).2, a.Ok m.size) ↔ m.Bounded t) :=
  ⟨migratesTwice_iff h.admitted.packed, recive_ok_iff junk ht⟩

instance (buf : VDIPortBuf) : Decidable buf.BeginsWithPort :=
  inferInstanceAs (Decidable (4 ≤ buf.now.length ∧ UInt32.ofNat (ofLittleEndian (buf.now.take 4)) = vdpServerPort))

/-- An agent with a mouse event under way. -/
def mouseQueued : Reds := linked.attachToRedAgent.redsHandleAgentMouseEvent ⟨List.replicate 13 0, rfl⟩

theorem migration_mouseQueued : mouseQueued.MigratesTwice ∧
    ∀ a ∈ (target.mainChannelReciveMigrateData (.ofList mouseQueued.mainChannelPushMigrateDataItem) fun _ _ => 0).2,
      a.Ok (mouseQueued.mainChannelPushMigrateDataItem).length := by
  have hrun : Run mouseQueued := (Reachable.init.step (a := .attach) trivial rfl).step (a := .mouseEvent _) trivial rfl
  obtain ⟨hmigrates, hok⟩ := migration_iff mouseQueued hrun (.ofList mouseQueued.mainChannelPushMigrateDataItem)
    (fun _ _ => 0) target rfl
  refine ⟨hmigrates.mpr fun _ => ⟨fun hst => absurd hst.1 (by decide), by decide⟩,
    hok.mpr ⟨by decide, fun _ => by decide, fun _ => ⟨fun _ _ => by decide, fun h => absurd h (by decide)⟩⟩⟩

/-- An agent that has not taken a message of one byte. -/
def clientQueued : Reds :=
  (([.attach, .agentStart, .agentData [7]] : List Act).foldlM step linked).getD linked

/-- The last assertion fails on the new server. -/
theorem not_migratesTwice_clientQueued : ¬ ∀ s, Run s → s.MigratesTwice := by
  intro h
  have hrun : Run clientQueued := Reachable.init.foldlM (l := [.attach, .agentStart, .agentData [7]]) (fun _ _ _ => trivial) rfl
  have ht := (h clientQueued hrun).1 _ (fun _ _ => 0) (Mem.holds_ofList _)
  exact absurd ht.aborted (by decide)

end Reds

end Colama.Spice.VdiPort.Migrate
