import Colama.Qemu.Qcow2.CreateSpec

namespace Colama.Qemu.Qcow2

open Lib

/-- A string that a `char *` points to, without the 0 at its end. -/
structure CStr where
  bytes : List UInt8
  noNul : 0 ∉ bytes

namespace CStr

def strlen (s : CStr) : Nat := s.bytes.length

/-- The bytes that are left in a buffer for the string, or for none. -/
def orEmpty (s : Option CStr) : List UInt8 := (s.map (·.bytes)).getD []

end CStr

inductive UpdateError
  | einval
  | enospc
  deriving DecidableEq

/-- `backing_fmt_len`, the extension rounded up to 8 bytes. -/
def backingFmtLen (backingFmt : Option CStr) : Nat := (backingFmt.map fun fmt => (8 + fmt.strlen + 7) / 8 * 8).getD 0

def extBackingFmt (fmt : CStr) : List UInt8 := beBytes 4 qcowExtMagicBackingFormat ++ beBytes 4 fmt.strlen

/-- What `buf` holds in front of the name: the extension and its padding. -/
def extBytes (backingFmt : Option CStr) : List UInt8 :=
  (backingFmt.map fun fmt => extBackingFmt fmt ++ fmt.bytes ++
    List.replicate (backingFmtLen backingFmt - (8 + fmt.strlen)) 0).getD []

/-- `buf`. -/
def extHeaderBuf (backingFile backingFmt : Option CStr) : List UInt8 :=
  (backingFile.map fun file => extBytes backingFmt ++ file.bytes).getD []

def newBackingFileOffset (backingFile backingFmt : Option CStr) : Nat :=
  (backingFile.map fun _ => 72 + (extBytes backingFmt).length).getD 0

/-- The file after the three writes of `qcow2_update_ext_header`. -/
def extHeaderWritten (f : File) (backingFile backingFmt : Option CStr) : File :=
  ((f.write 72 (extHeaderBuf backingFile backingFmt)).write 8
    (beBytes 8 (newBackingFileOffset backingFile backingFmt))).write 16 (beBytes 4 (CStr.orEmpty backingFile).length)

namespace OpenImage

/-- `qcow2_update_ext_header`, and so `qcow2_change_backing_file`. -/
def updateExtHeader (s : OpenImage) (backingFile backingFmt : Option CStr) : Except UpdateError File :=
  if backingFmt.isSome ∧ backingFile.isNone then .error .einval
  else if 72 + (CStr.orEmpty backingFile).length + backingFmtLen backingFmt > 2 ^ s.clusterBits then .error .enospc
  else .ok (extHeaderWritten s.file backingFile backingFmt)

end OpenImage

section Written

variable {f : File} {backingFile backingFmt : Option CStr}

theorem length_extBytes (backingFmt : Option CStr) : (extBytes backingFmt).length = backingFmtLen backingFmt := by
  cases backingFmt with
  | none => rfl
  | some fmt =>
    simp only [extBytes, extBackingFmt, backingFmtLen, Option.map_some, Option.getD_some, List.length_append,
      length_beBytes, List.length_replicate, CStr.strlen]
    omega

/-- The fields in front of the place of the name and its length, or between these and the extensions. -/
theorem read_header_written {off n : Nat} (h : off + n ≤ 8 ∨ 20 ≤ off ∧ off + n ≤ 72) :
    (extHeaderWritten f backingFile backingFmt).read off n = f.read off n := by
  rw [extHeaderWritten]
  obtain h | ⟨h, h'⟩ := h
  · rw [File.read_write_of_le (by omega), File.read_write_of_le (by omega), File.read_write_of_le (by omega)]
  · rw [File.read_write_of_ge (by simpa using h), File.read_write_of_ge (by rw [length_beBytes]; omega),
      File.read_write_of_le (by omega)]

/-- What is behind the header is what has been written there. -/
theorem read_ext_written {off n : Nat} (h : 72 ≤ off) :
    (extHeaderWritten f backingFile backingFmt).read off n =
      (f.write 72 (extHeaderBuf backingFile backingFmt)).read off n := by
  rw [extHeaderWritten, File.read_write_of_ge (by rw [length_beBytes]; omega),
    File.read_write_of_ge (by rw [length_beBytes]; omega)]

theorem read_offset_written : (extHeaderWritten f backingFile backingFmt).read 8 8 =
    beBytes 8 (newBackingFileOffset backingFile backingFmt) := by
  have hread : ((f.write 72 (extHeaderBuf backingFile backingFmt)).write 8
      (beBytes 8 (newBackingFileOffset backingFile backingFmt))).read 8 _ = _ := File.read_write
  rw [length_beBytes] at hread
  rw [extHeaderWritten, File.read_write_of_le (by omega), hread]

theorem read_size_written : (extHeaderWritten f backingFile backingFmt).read 16 4 =
    beBytes 4 (CStr.orEmpty backingFile).length := by
  have hread (g : File) : (g.write 16 (beBytes 4 (CStr.orEmpty backingFile).length)).read 16 _ = _ := File.read_write
  simp only [length_beBytes] at hread
  rw [extHeaderWritten, hread]

theorem beField_read (f : File) {off size n : Nat} (h : off + size ≤ n) :
    beField (f.read 0 n) off size = ofBeBytes (f.read off size) := by
  rw [beField, File.read, File.read, Memory.drop_readFrom _ _ (by omega), Memory.take_readFrom _ _ (by omega), Nat.zero_add]

/-- Only the two fields of the backing file are not as they were. -/
theorem decode_written (hoff : newBackingFileOffset backingFile backingFmt < 2 ^ 64)
    (hlen : (CStr.orEmpty backingFile).length < 2 ^ 32) :
    QCowHeader.decode ((extHeaderWritten f backingFile backingFmt).read 0 72) =
      { QCowHeader.decode (f.read 0 72) with
        backingFileOffset := newBackingFileOffset backingFile backingFmt
        backingFileSize := (CStr.orEmpty backingFile).length } := by
  have hofs : ofBeBytes (beBytes 8 (newBackingFileOffset backingFile backingFmt)) =
      newBackingFileOffset backingFile backingFmt := ofBeBytes_beBytes (by simpa using hoff)
  have hsize : ofBeBytes (beBytes 4 (CStr.orEmpty backingFile).length) = (CStr.orEmpty backingFile).length :=
    ofBeBytes_beBytes (by simpa using hlen)
  simp (disch := omega) only [QCowHeader.decode, beField_read, read_header_written, read_offset_written, read_size_written,
    hofs, hsize]

end Written

def extMagic (f : File) (offset : Nat) : Nat := beField (f.read offset 8) 0 4

def extLen (f : File) (offset : Nat) : Nat := beField (f.read offset 8) 4 4

def extNext (f : File) (offset : Nat) : Nat := (offset + 8 + extLen f offset + 7) / 8 * 8

/-- The extensions from an offset on can be read up to one without a magic or up to the end, and the formats among
them are those listed. -/
inductive Formats (f : File) (endOffset : Nat) : Nat → List (List UInt8) → Prop
  | past {offset : Nat} (h : endOffset ≤ offset) : Formats f endOffset offset []
  | ended {offset : Nat} (h : offset < endOffset) (hm : extMagic f offset = 0) : Formats f endOffset offset []
  | format {offset : Nat} {l : List (List UInt8)} (h : offset < endOffset)
    (hm : extMagic f offset = qcowExtMagicBackingFormat) (hlen : extLen f offset < 16)
    (hl : Formats f endOffset (extNext f offset) l) :
    Formats f endOffset offset (cString (f.read (offset + 8) (extLen f offset)) :: l)
  | other {offset : Nat} {l : List (List UInt8)} (h : offset < endOffset) (hm : extMagic f offset ≠ 0)
    (hm' : extMagic f offset ≠ qcowExtMagicBackingFormat) (hl : Formats f endOffset (extNext f offset) l) :
    Formats f endOffset offset l

theorem extLen_lt (f : File) (offset : Nat) : extLen f offset < 2 ^ 32 := beField_lt _ _ _

theorem lt_extNext (f : File) (offset : Nat) : offset < extNext f offset := by
  rw [extNext]
  omega

/-- What a round does, in an offset that a cluster can have. -/
theorem readExtension_at {f : File} {offset : Nat} (h : offset < 2 ^ 32) :
    readExtension f offset =
      if extMagic f offset = 0 then .ended
      else if extMagic f offset = qcowExtMagicBackingFormat then
        if 16 ≤ extLen f offset then .failed
        else .next (extNext f offset) (some (cString (f.read (offset + 8) (extLen f offset))))
      else .next (extNext f offset) none := by
  have hlen := extLen_lt f offset
  have hread : bdrvPread f (int64 (offset : Nat)) 8 = some (f.read offset 8) := by
    rw [int64_of_lt (by omega) (by omega), bdrvPread_eq (by norm_num)]
  have hnext : uint64 ((offset : Int) + 8 + extLen f offset + 7) / 8 * 8 = extNext f offset := by
    have hcast : (offset : Int) + 8 + extLen f offset + 7 = (offset + 8 + extLen f offset + 7 : Nat) := by push_cast; ring
    rw [hcast, uint64_of_lt (by omega), extNext]
  rw [readExtension, hread, Option.elim_some, extensionAt, ← extMagic, ← extLen, hnext]
  split
  · rfl
  · split
    · split
      · rfl
      · rename_i hshort
        have hformat : bdrvPread f (int64 ((offset : Int) + 8)) (extLen f offset) =
            some (f.read (offset + 8) (extLen f offset)) := by
          rw [int64_of_lt (by omega) (by omega)]
          exact @bdrvPread_eq _ (offset + 8) _ (by omega)
        rw [hformat, Option.elim_some]
    · rfl

section Inversion

variable {f : File} {endOffset offset : Nat} {l : List (List UInt8)}

theorem formats_of_past (h : endOffset ≤ offset) (hl : Formats f endOffset offset l) : l = [] := by
  cases hl with
  | past => rfl
  | ended => rfl
  | format hlt => exact absurd hlt (Nat.not_lt.mpr h)
  | other hlt => exact absurd hlt (Nat.not_lt.mpr h)

theorem formats_of_zero (h : offset < endOffset) (hm : extMagic f offset = 0) (hl : Formats f endOffset offset l) :
    l = [] := by
  cases hl with
  | past => rfl
  | ended => rfl
  | format _ hm' =>
    rw [hm] at hm'
    exact absurd hm' (by decide)
  | other _ hm' => exact absurd hm hm'

theorem formats_of_format (h : offset < endOffset) (hm : extMagic f offset = qcowExtMagicBackingFormat)
    (hl : Formats f endOffset offset l) :
    extLen f offset < 16 ∧ ∃ l', Formats f endOffset (extNext f offset) l' ∧
      l = cString (f.read (offset + 8) (extLen f offset)) :: l' := by
  cases hl with
  | past hge => exact absurd h (Nat.not_lt.mpr hge)
  | ended _ hm' =>
    rw [hm] at hm'
    exact absurd hm' (by decide)
  | format _ _ hlen hl' => exact ⟨hlen, _, hl', rfl⟩
  | other _ _ hm' => exact absurd hm hm'

theorem formats_of_other (h : offset < endOffset) (hm : extMagic f offset ≠ 0)
    (hm' : extMagic f offset ≠ qcowExtMagicBackingFormat) (hl : Formats f endOffset offset l) :
    Formats f endOffset (extNext f offset) l := by
  cases hl with
  | past hge => exact absurd h (Nat.not_lt.mpr hge)
  | ended _ h0 => exact absurd h0 hm
  | format _ hf => exact absurd hf hm'
  | other _ _ _ hl' => exact hl'

end Inversion

theorem getLast?_cons_getD {α : Type} (a b : α) (l : List α) : ((a :: l).getLast?).getD b = (l.getLast?).getD a := by
  rw [List.getLast?_cons, Option.getD_some]

/-- The loop comes to its end just along such a list, and leaves the last format of it. -/
theorem walkExtensions_iff {f : File} {endOffset : Nat} (hend : endOffset < 2 ^ 32) {fuel offset : Nat}
    {format r : List UInt8} (hpos : 0 < fuel) (hfuel : endOffset < fuel + offset) :
    walkExtensions (readExtension f) endOffset fuel offset format = some r ↔
      ∃ l, Formats f endOffset offset l ∧ (l.getLast?).getD format = r := by
  induction fuel generalizing offset format with
  | zero => exact absurd hpos (Nat.lt_irrefl 0)
  | succ fuel ih =>
    by_cases hoff : offset < endOffset
    · have hnext := lt_extNext f offset
      have hrest := fun format => @ih (extNext f offset) format (by omega) (by omega)
      rw [walkExtensions, if_pos hoff, readExtension_at (by omega)]
      by_cases h0 : extMagic f offset = 0
      · rw [if_pos h0]
        constructor
        · intro h
          cases h
          exact ⟨[], .ended hoff h0, rfl⟩
        · rintro ⟨l, hl, rfl⟩
          rw [formats_of_zero hoff h0 hl]
          rfl
      · rw [if_neg h0]
        by_cases hm : extMagic f offset = qcowExtMagicBackingFormat
        · rw [if_pos hm]
          by_cases hlen : 16 ≤ extLen f offset
          · rw [if_pos hlen]
            constructor
            · intros; contradiction
            · rintro ⟨l, hl, -⟩
              obtain ⟨hlt, -⟩ := formats_of_format hoff hm hl
              omega
          · rw [if_neg hlen]
            dsimp only
            rw [Option.getD_some, hrest]
            constructor
            · rintro ⟨l, hl, rfl⟩
              exact ⟨_, .format hoff hm (by omega) hl, getLast?_cons_getD _ _ _⟩
            · rintro ⟨l, hl, rfl⟩
              obtain ⟨-, l', hl', rfl⟩ := formats_of_format hoff hm hl
              exact ⟨l', hl', (getLast?_cons_getD _ _ _).symm⟩
        · rw [if_neg hm]
          dsimp only
          rw [Option.getD_none, hrest]
          constructor
          · rintro ⟨l, hl, rfl⟩
            exact ⟨l, .other hoff h0 hm hl, rfl⟩
          · rintro ⟨l, hl, rfl⟩
            exact ⟨l, formats_of_other hoff h0 hm hl, rfl⟩
    · rw [walkExtensions, if_neg hoff]
      constructor
      · intro h
        cases h
        exact ⟨[], .past (Nat.le_of_not_lt hoff), rfl⟩
      · rintro ⟨l, hl, rfl⟩
        rw [formats_of_past (Nat.le_of_not_lt hoff) hl]
        rfl

theorem readExtensions_iff {f : File} {endOffset : Nat} (hend : endOffset < 2 ^ 32) {r : List UInt8} :
    readExtensions f 72 endOffset = some r ↔ ∃ l, Formats f endOffset 72 l ∧ (l.getLast?).getD [] = r :=
  walkExtensions_iff hend (by omega) (by omega)

/-- The extensions are the same in a file that is the same behind the header. -/
theorem Formats.congr {f f' : File} {endOffset offset : Nat} {l : List (List UInt8)} (hl : Formats f endOffset offset l)
    (hoff : 72 ≤ offset) (h : ∀ off n, 72 ≤ off → f'.read off n = f.read off n) : Formats f' endOffset offset l := by
  have hmagic : ∀ off, 72 ≤ off → extMagic f' off = extMagic f off := fun off ho => by rw [extMagic, h off 8 ho, extMagic]
  have hlen : ∀ off, 72 ≤ off → extLen f' off = extLen f off := fun off ho => by rw [extLen, h off 8 ho, extLen]
  have hnext : ∀ off, 72 ≤ off → extNext f' off = extNext f off := fun off ho => by rw [extNext, hlen off ho, extNext]
  induction hl with
  | past hge => exact .past hge
  | ended hlt hm => exact .ended hlt (by rw [hmagic _ hoff, hm])
  | @format offset l hlt hm hshort _ ih =>
    have hnew := ih (Nat.le_of_lt (Nat.lt_of_le_of_lt hoff (lt_extNext f offset)))
    rw [← hlen _ hoff, ← h _ _ (by omega)]
    rw [← hnext _ hoff] at hnew
    exact .format hlt (by rw [hmagic _ hoff, hm]) (by rwa [hlen _ hoff]) hnew
  | @other offset l hlt hm hm' _ ih =>
    have hnew := ih (Nat.le_of_lt (Nat.lt_of_le_of_lt hoff (lt_extNext f offset)))
    rw [← hnext _ hoff] at hnew
    exact .other hlt (by rwa [hmagic _ hoff]) (by rwa [hmagic _ hoff]) hnew

theorem takeWhile_eq_self {p : UInt8 → Bool} {l : List UInt8} (h : ∀ b ∈ l, p b) : l.takeWhile p = l := by
  induction l with
  | nil => rfl
  | cons b l ih =>
    rw [List.takeWhile_cons, if_pos (h b List.mem_cons_self), ih fun c hc => h c (List.mem_cons_of_mem b hc)]

theorem cString_bytes (s : CStr) : cString s.bytes = s.bytes := by
  apply takeWhile_eq_self
  intro b hb
  have hne : b ≠ 0 := fun h0 => s.noNul (h0 ▸ hb)
  simpa using hne

section Names

variable {f : File} {name : CStr} {backingFmt : Option CStr}

/-- A part of the buffer is read where it has been written. -/
theorem read_buf (f : File) (name : CStr) (backingFmt : Option CStr) {k n : Nat} (h : k + n ≤ (extHeaderBuf (some name) backingFmt).length) :
    (extHeaderWritten f (some name) backingFmt).read (72 + k) n =
      ((extHeaderBuf (some name) backingFmt).drop k).take n := by
  rw [read_ext_written (Nat.le_add_right 72 k), File.read_write_part h]

theorem extHeaderBuf_some : extHeaderBuf (some name) backingFmt = extBytes backingFmt ++ name.bytes := rfl

theorem read_name : (extHeaderWritten f (some name) backingFmt).read (72 + (extBytes backingFmt).length) name.strlen =
    name.bytes := by
  rw [read_buf f name backingFmt (by rw [extHeaderBuf_some, List.length_append]; exact Nat.le_refl _), extHeaderBuf_some,
    List.drop_left, CStr.strlen, List.take_length]

theorem readBackingFile_written (hname : name.strlen ≤ 1023) (hext : backingFmtLen backingFmt < 2 ^ 32) {h : QCowHeader}
    (hoff : h.backingFileOffset = 72 + (extBytes backingFmt).length) (hsize : h.backingFileSize = name.strlen) :
    h.readBackingFile (extHeaderWritten f (some name) backingFmt) = some name.bytes := by
  have hlen := length_extBytes backingFmt
  rw [QCowHeader.readBackingFile, hoff, hsize, if_neg (by omega),
    int32_of_lt (Int.natCast_nonneg _) (by omega), if_neg (by omega), int64_of_lt (by omega) (by omega),
    bdrvPread_eq (by omega), Nat.min_eq_left hname, read_name, Option.map_some, cString_bytes]

theorem readExtensions_written (hfmt : ∀ fmt, backingFmt = some fmt → fmt.strlen < 16) :
    readExtensions (extHeaderWritten f (some name) backingFmt) 72 (72 + (extBytes backingFmt).length) =
      some (CStr.orEmpty backingFmt) := by
  have hlen := length_extBytes backingFmt
  cases backingFmt with
  | none => exact walkExtensions_end (by omega) (by rw [hlen]; exact Nat.le_refl _)
  | some fmt =>
    have hshort := hfmt fmt rfl
    have hl : backingFmtLen (some fmt) = (8 + fmt.strlen + 7) / 8 * 8 := rfl
    have hbuf : extHeaderBuf (some name) (some fmt) = beBytes 4 qcowExtMagicBackingFormat ++ (beBytes 4 fmt.strlen ++
        (fmt.bytes ++ (List.replicate (backingFmtLen (some fmt) - (8 + fmt.strlen)) 0 ++ name.bytes))) := by
      simp [extHeaderBuf, extBytes, extBackingFmt]
    have hsize : (extHeaderBuf (some name) (some fmt)).length = backingFmtLen (some fmt) + name.strlen := by
      rw [extHeaderBuf_some, List.length_append, hlen, CStr.strlen]
    have hhead : (extHeaderWritten f (some name) (some fmt)).read 72 8 =
        beBytes 4 qcowExtMagicBackingFormat ++ beBytes 4 fmt.strlen := by
      have hread := read_buf f name (some fmt) (k := 0) (n := 8) (by omega)
      rw [Nat.add_zero, List.drop_zero, hbuf, ← List.append_assoc, List.take_left' (by simp)] at hread
      exact hread
    have hmagic : extMagic (extHeaderWritten f (some name) (some fmt)) 72 = qcowExtMagicBackingFormat := by
      rw [extMagic, hhead]
      exact beField_zero (by decide) _
    have hext : extLen (extHeaderWritten f (some name) (some fmt)) 72 = fmt.strlen := by
      rw [extLen, hhead, QCowHeader.beField_skip (by decide)]
      exact QCowHeader.beField_last (by omega)
    have hformat : (extHeaderWritten f (some name) (some fmt)).read 80 fmt.strlen = fmt.bytes := by
      have hread := read_buf f name (some fmt) (k := 8) (n := fmt.strlen) (by omega)
      rw [hbuf, ← List.append_assoc, List.drop_left' (by simp), CStr.strlen, List.take_left] at hread
      exact hread
    have hnext : extNext (extHeaderWritten f (some name) (some fmt)) 72 = 72 + (extBytes (some fmt)).length := by
      rw [extNext, hext, hlen, hl]
      omega
    rw [readExtensions_iff (by omega)]
    refine ⟨[cString ((extHeaderWritten f (some name) (some fmt)).read 80
      (extLen (extHeaderWritten f (some name) (some fmt)) 72))], ?_, ?_⟩
    · exact .format (by omega) hmagic (by omega) (.past (by omega))
    · rw [hext, hformat, cString_bytes]
      rfl

end Names

section Reopened

variable {f f' : File} {c : Nat}

theorem bdrvPread_congr (h : ∀ off n, c ≤ off → f'.read off n = f.read off n) {offset : Int}
    (hoff : (c : Int) ≤ offset ∨ offset < 0) (size : Nat) : bdrvPread f' offset size = bdrvPread f offset size := by
  rw [bdrvPread, bdrvPread]
  split
  · rfl
  · split
    · rename_i hok
      rw [h _ _ (by omega)]
    · rfl

theorem bdrvPread_isSome (f f' : File) (offset : Int) (size : Nat) :
    (bdrvPread f' offset size).isSome = (bdrvPread f offset size).isSome := by
  rw [bdrvPread, bdrvPread]
  split
  · rfl
  · split <;> rfl

/-- An offset behind a place, or one that has wrapped around and gone on by some bytes. -/
def Behind (c gone : Nat) (z : Int) : Prop := (c : Int) ≤ z ∧ z ≤ 2 ^ 63 ∨ -2 ^ 63 ≤ z ∧ z < -2 ^ 63 + gone

theorem behind_int64 {z : Int} {gone n : Nat} (hz : Behind c gone z) (hgone : gone ≤ 2 ^ 60) (hn : n < 2 ^ 34) :
    Behind c (gone + 2 ^ 34) (int64 (z + n)) := by
  unfold Behind at hz ⊢
  by_cases hlt : z + n < 2 ^ 63
  · rw [int64_of_lt (by omega) hlt]
    omega
  · have hwrap : int64 (z + n) = z + n - 2 ^ 64 := by
      rw [int64, ← Int.sub_bmod_right, Int.bmod_eq_of_le] <;> omega
    rw [hwrap]
    omega

theorem Behind.pread {gone : Nat} {offset : Int} (hoff : Behind c gone offset) (hgone : gone ≤ 2 ^ 60)
    (h : ∀ off n, c ≤ off → f'.read off n = f.read off n) (size : Nat) :
    bdrvPread f' offset size = bdrvPread f offset size := by
  refine bdrvPread_congr h ?_ size
  unfold Behind at hoff
  omega

theorem readSnapshot_congr (h : ∀ off n, c ≤ off → f'.read off n = f.read off n) {offset : Int} (hoff : (c : Int) ≤ offset)
    (hhi : offset ≤ 2 ^ 63) : readSnapshot f' offset = readSnapshot f offset ∧
      ∀ sn next, readSnapshot f offset = some (sn, next) → Behind c (2 ^ 36) next := by
  have hstart : Behind c 0 (alignOffset offset 8) := by
    unfold Behind alignOffset
    omega
  rw [readSnapshot, readSnapshot, hstart.pread (by norm_num) h]
  cases bdrvPread f (alignOffset offset 8) 40 with
  | none => exact ⟨rfl, by rintro _ _ ⟨⟩⟩
  | some header =>
    have hextra := beField_lt header 36 4
    have hid := beField_lt header 12 2
    have hname := beField_lt header 14 2
    have hafter := behind_int64 (n := 40 + beField header 36 4) hstart (by norm_num) (by norm_num at hextra; omega)
    rw [Nat.cast_add, Nat.cast_ofNat, ← Int.add_assoc] at hafter
    have hstr := behind_int64 (n := beField header 12 2) hafter (by norm_num) (by norm_num at hid; omega)
    have hnext := behind_int64 (n := beField header 12 2 + beField header 14 2) hafter (by norm_num)
      (by norm_num at hid hname; omega)
    rw [Nat.cast_add, ← Int.add_assoc] at hnext
    dsimp only [Option.bind_some]
    rw [hafter.pread (by norm_num) h, hstr.pread (by norm_num) h]
    refine ⟨rfl, fun sn next hsome => ?_⟩
    obtain ⟨_, -, hsome⟩ := Option.bind_eq_some_iff.mp hsome
    obtain ⟨_, -, heq⟩ := Option.map_eq_some_iff.mp hsome
    cases heq
    exact hnext.imp_right fun hgone => by omega

theorem readSnapshots_congr (h : ∀ off n, c ≤ off → f'.read off n = f.read off n) (n : Nat) {offset : Int}
    (hoff : Behind c (2 ^ 36) offset) : readSnapshots f' n offset = readSnapshots f n offset := by
  induction n generalizing offset with
  | zero => rfl
  | succ n ih =>
    rw [readSnapshots, readSnapshots]
    obtain ⟨hge, hle⟩ | ⟨-, hlt⟩ := hoff
    · obtain ⟨heq, hnext⟩ := readSnapshot_congr h hge hle
      rw [heq]
      cases hsome : readSnapshot f offset with
      | none => rfl
      | some r =>
        dsimp only [Option.bind_some]
        rw [ih (hnext r.1 r.2 hsome)]
    · -- the header of a snapshot cannot be read in front of the file
      have hneg (g : File) : readSnapshot g offset = none := by
        have hfail : bdrvPread g (alignOffset offset 8) 40 = none := by
          rw [bdrvPread, if_neg (by norm_num), if_neg]
          unfold alignOffset
          omega
        rw [readSnapshot, hfail]
        rfl
      rw [hneg, hneg]
      rfl

end Reopened

/-- What has been read of an image that is open. -/
theorem qcowOpen_some {f : File} {s : OpenImage} (h : qcowOpen f = some s) {header : QCowHeader}
    (hheader : QCowHeader.decode (f.read 0 72) = header) :
    (s.file = f ∧ s.clusterBits = header.clusterBits ∧ s.snapshotsOffset = header.snapshotsOffset) ∧ header.Accepted ∧
      (header.readTables f).isSome ∧ header.readNames f = some (s.backingFormat, s.backingFile) ∧
        ∃ size, header.readSnapshots f = some (s.snapshots, size) := by
  have hread : bdrvPread f 0 72 = some (f.read 0 72) := @bdrvPread_eq _ 0 _ (by norm_num)
  rw [qcowOpen, hread, Option.bind_some, hheader] at h
  dsimp only at h
  split at h
  · rename_i haccepted
    obtain ⟨table, htable, h⟩ := Option.bind_eq_some_iff.mp h
    obtain ⟨names, hnames, h⟩ := Option.bind_eq_some_iff.mp h
    obtain ⟨snapshots, hsnapshots, rfl⟩ := Option.map_eq_some_iff.mp h
    exact ⟨⟨rfl, rfl, rfl⟩, haccepted, by rw [htable]; rfl, hnames, _, hsnapshots⟩
  · cases h

/-- What it takes for an image to be opened. -/
theorem qcowOpen_of_reads {f : File} {header : QCowHeader} (hheader : QCowHeader.decode (f.read 0 72) = header)
    (haccepted : header.Accepted) (htable : (header.readTables f).isSome) {format name : List UInt8}
    (hnames : header.readNames f = some (format, name)) (hsnapshots : (header.readSnapshots f).isSome) :
    ∃ s, qcowOpen f = some s ∧ s.backingFile = name ∧ s.backingFormat = format := by
  have hread : bdrvPread f 0 72 = some (f.read 0 72) := @bdrvPread_eq _ 0 _ (by norm_num)
  obtain ⟨table, htable⟩ := Option.isSome_iff_exists.mp htable
  obtain ⟨snapshots, hsnapshots⟩ := Option.isSome_iff_exists.mp hsnapshots
  rw [qcowOpen, hread, Option.bind_some, hheader]
  simp only [if_pos haccepted, htable, hnames, hsnapshots, Option.bind_some, Option.map_some]
  exact ⟨_, rfl, rfl, rfl⟩

theorem isSome_bind_const {α β : Type} {x y : Option α} {u v : Option β} (h : y.isSome = x.isSome)
    (h' : v.isSome = u.isSome) : (y.bind fun _ => v).isSome = (x.bind fun _ => u).isSome := by
  cases x with
  | none =>
    rw [Option.isNone_iff_eq_none.mp (Option.isSome_eq_false_iff.mp h)]
    rfl
  | some a =>
    obtain ⟨b, rfl⟩ := Option.isSome_iff_exists.mp h
    exact h'

/-- Whether the tables can be read does not depend on what they are. -/
theorem readTables_isSome (header : QCowHeader) (f f' : File) :
    (header.readTables f').isSome = (header.readTables f).isSome := by
  refine isSome_bind_const (bdrvPread_isSome f f' _ _) ?_
  rw [QCowHeader.refcountInit, QCowHeader.refcountInit]
  generalize int32 (header.refcountTableSize * 8) = size
  split
  · rfl
  · exact bdrvPread_isSome f f' _ _

theorem length_readSnapshots {f : File} {n : Nat} {offset last : Int} {snapshots : List QCowSnapshot}
    (h : readSnapshots f n offset = some (snapshots, last)) : snapshots.length = n := by
  induction n generalizing offset snapshots last with
  | zero =>
    cases h
    rfl
  | succ n ih =>
    rw [readSnapshots] at h
    obtain ⟨⟨sn, next⟩, -, h⟩ := Option.bind_eq_some_iff.mp h
    obtain ⟨⟨rest, last'⟩, hrest, heq⟩ := Option.map_eq_some_iff.mp h
    cases heq
    rw [List.length_cons, ih hrest]

/-- The snapshots are read as before from a file that is the same where they are. -/
theorem readSnapshots_same {header : QCowHeader} {f f' : File} {c : Nat} {snapshots : List QCowSnapshot} {size : Int}
    (hread : header.readSnapshots f = some (snapshots, size)) (h : ∀ off n, c ≤ off → f'.read off n = f.read off n)
    (hplace : snapshots ≠ [] → (c : Int) ≤ int64 header.snapshotsOffset) :
    header.readSnapshots f' = header.readSnapshots f := by
  rw [QCowHeader.readSnapshots] at hread ⊢
  rw [QCowHeader.readSnapshots]
  by_cases hnone : header.nbSnapshots = 0
  · rw [if_pos hnone, if_pos hnone]
  · rw [if_neg hnone] at hread
    rw [if_neg hnone, if_neg hnone]
    by_cases hneg : int32 header.nbSnapshots < 0
    · rw [if_pos hneg, if_pos hneg]
    · rw [if_neg hneg] at hread
      rw [if_neg hneg, if_neg hneg]
      obtain ⟨⟨read, last⟩, hsome, heq⟩ := Option.map_eq_some_iff.mp hread
      cases heq
      have hlen := length_readSnapshots hsome
      have hne : snapshots ≠ [] := by
        rintro rfl
        exact hnone hlen.symm
      have hlt : int64 header.snapshotsOffset < 2 ^ 63 := by
        have := Int.bmod_lt (x := header.snapshotsOffset) (m := 2 ^ 64) (by norm_num)
        unfold int64
        omega
      rw [readSnapshots_congr h _ (.inl ⟨hplace hne, hlt.le⟩)]

namespace OpenImage

variable {f f' : File} {s : OpenImage} {backingFile backingFmt : Option CStr}

theorem updateExtHeader_ok (hupdate : s.updateExtHeader backingFile backingFmt = .ok f') :
    f' = extHeaderWritten s.file backingFile backingFmt ∧ (backingFile = none → backingFmt = none) ∧
      72 + (CStr.orEmpty backingFile).length + backingFmtLen backingFmt ≤ 2 ^ s.clusterBits := by
  rw [updateExtHeader] at hupdate
  split at hupdate
  · cases hupdate
  · rename_i hname
    split at hupdate
    · cases hupdate
    · rename_i hroom
      cases hupdate
      refine ⟨rfl, fun hnone => ?_, Nat.le_of_not_lt hroom⟩
      rw [hnone] at hname
      cases backingFmt with
      | none => rfl
      | some fmt => exact absurd ⟨rfl, rfl⟩ hname

theorem length_extHeaderBuf (backingFile backingFmt : Option CStr) : (extHeaderBuf backingFile backingFmt).length ≤
    (CStr.orEmpty backingFile).length + backingFmtLen backingFmt := by
  cases backingFile with
  | none => exact Nat.zero_le _
  | some name =>
    rw [extHeaderBuf_some, List.length_append, length_extBytes, Nat.add_comm]
    exact Nat.le_refl _

/-- The names are read back when there is a backing file. When there is none, what has been behind the header is still
there, and is read as extensions. -/
theorem readNames_written_iff {header : QCowHeader} (hname : ∀ name, backingFile = some name → name.strlen ≤ 1023)
    (hfmt : ∀ fmt, backingFmt = some fmt → fmt.strlen < 16) (hnone : backingFile = none → backingFmt = none)
    (hbits : header.clusterBits ≤ 21) (hoff : header.backingFileOffset = newBackingFileOffset backingFile backingFmt)
    (hsize : header.backingFileSize = (CStr.orEmpty backingFile).length) :
    header.readNames (extHeaderWritten f backingFile backingFmt) =
        some (CStr.orEmpty backingFmt, CStr.orEmpty backingFile) ↔
      backingFile.isSome ∨ ∃ l, Formats f (2 ^ header.clusterBits) 72 l ∧ (l.getLast?).getD [] = [] := by
  have hcluster : 2 ^ header.clusterBits ≤ 2 ^ 21 := Nat.pow_le_pow_right (by norm_num) hbits
  rw [QCowHeader.readNames, QCowHeader.extEnd]
  cases backingFile with
  | some name =>
    have hlen := length_extBytes backingFmt
    have hshort : backingFmtLen backingFmt < 2 ^ 32 := by
      cases backingFmt with
      | none => exact (by norm_num : 0 < 2 ^ 32)
      | some fmt =>
        have hfmt := hfmt fmt rfl
        have hl : backingFmtLen (some fmt) = (8 + fmt.strlen + 7) / 8 * 8 := rfl
        omega
    have hplace : header.backingFileOffset = 72 + (extBytes backingFmt).length := hoff
    rw [if_pos (by omega), hplace, readExtensions_written hfmt, Option.bind_some,
      readBackingFile_written (hname name rfl) hshort hplace hsize]
    exact iff_of_true rfl (.inl rfl)
  | none =>
    obtain rfl := hnone rfl
    have hbehind (off n : Nat) (h : 72 ≤ off) : (extHeaderWritten f none none).read off n = f.read off n := by
      rw [read_ext_written h, File.read_write_of_ge h]
    have hzero : header.backingFileOffset = 0 := hoff
    have hread : header.readBackingFile (extHeaderWritten f none none) = some [] := by
      rw [QCowHeader.readBackingFile, if_pos hzero]
    have hformats (l : List (List UInt8)) : Formats (extHeaderWritten f none none) (2 ^ header.clusterBits) 72 l ↔
        Formats f (2 ^ header.clusterBits) 72 l :=
      ⟨fun hl => hl.congr (Nat.le_refl 72) fun off n h => (hbehind off n h).symm,
        fun hl => hl.congr (Nat.le_refl 72) hbehind⟩
    have hnames : ((readExtensions (extHeaderWritten f none none) 72 (2 ^ header.clusterBits)).bind fun format =>
        (some []).map fun name => (format, name)) = some (CStr.orEmpty none, CStr.orEmpty none) ↔
          readExtensions (extHeaderWritten f none none) 72 (2 ^ header.clusterBits) = some [] := by
      constructor
      · intro h
        obtain ⟨format, hformat, heq⟩ := Option.bind_eq_some_iff.mp h
        cases heq
        exact hformat
      · intro h
        rw [h]
        rfl
    rw [if_neg (not_not_intro hzero), hread, hnames, readExtensions_iff (by omega)]
    simp only [hformats, Option.isSome_none, Bool.false_eq_true, false_or]

/-- An image whose backing file is changed is opened with the new one. One whose backing file is taken away is so as
long as there is no format behind the header. -/
theorem updateExtHeader_reopens_iff (hopen : qcowOpen f = some s)
    (hsnapshots : s.snapshots ≠ [] → (2 ^ s.clusterBits : Nat) ≤ int64 s.snapshotsOffset)
    (hname : ∀ name, backingFile = some name → name.strlen ≤ 1023)
    (hfmt : ∀ fmt, backingFmt = some fmt → fmt.strlen < 16)
    (hupdate : s.updateExtHeader backingFile backingFmt = .ok f') :
    (∃ s', qcowOpen f' = some s' ∧ s'.backingFile = CStr.orEmpty backingFile ∧
        s'.backingFormat = CStr.orEmpty backingFmt) ↔
      backingFile.isSome ∨ ∃ l, Formats f (2 ^ s.clusterBits) 72 l ∧ (l.getLast?).getD [] = [] := by
  obtain ⟨⟨hfile, hbits, hplace⟩, haccepted, htables, -, size, hread⟩ := qcowOpen_some hopen rfl
  obtain ⟨hwritten, hnone, hroom⟩ := updateExtHeader_ok hupdate
  rw [hfile] at hwritten
  have hbuf := length_extHeaderBuf backingFile backingFmt
  have hmax : s.clusterBits ≤ 21 := by
    rw [hbits]
    exact haccepted.2.2.2.1
  have hcluster : 2 ^ s.clusterBits ≤ 2 ^ 21 := Nat.pow_le_pow_right (by norm_num) hmax
  have hplace' : newBackingFileOffset backingFile backingFmt ≤ 2 ^ 21 := by
    cases backingFile with
    | none => exact Nat.zero_le _
    | some name =>
      have hlen := length_extBytes backingFmt
      change 72 + (extBytes backingFmt).length ≤ 2 ^ 21
      omega
  have hheader := @decode_written f backingFile backingFmt (by omega) (by omega)
  have hnames := @readNames_written_iff f _ _
    { QCowHeader.decode (f.read 0 72) with
      backingFileOffset := newBackingFileOffset backingFile backingFmt
      backingFileSize := (CStr.orEmpty backingFile).length } hname hfmt hnone (hbits ▸ hmax) rfl rfl
  rw [hbits, ← hnames, hwritten]
  constructor
  · rintro ⟨s', hopen', hname', hfmt'⟩
    have hread' := (qcowOpen_some hopen' hheader).2.2.2.1
    rwa [hname', hfmt'] at hread'
  · intro hnames'
    have hbehind (off n : Nat) (h : 2 ^ s.clusterBits ≤ off) :
        (extHeaderWritten f backingFile backingFmt).read off n = f.read off n := by
      rw [read_ext_written (by omega), File.read_write_of_ge (by omega)]
    refine qcowOpen_of_reads hheader haccepted ?_ hnames' ?_
    · rw [readTables_isSome _ f]
      exact htables
    · have hsame := readSnapshots_same hread hbehind (by rwa [← hplace])
      have hsome : ((QCowHeader.decode (f.read 0 72)).readSnapshots (extHeaderWritten f backingFile backingFmt)).isSome := by
        rw [hsame, hread]
        rfl
      exact hsome

def CStr.raw : CStr := ⟨[114, 97, 119], by decide⟩

def CStr.base : CStr := ⟨[98, 97, 115, 101], by decide⟩

/-- An image of no sectors, with a backing file and its format. -/
def backedImage : File :=
  (File.empty.write 0 (QCowHeader.encode
    { magic := qcowMagic, version := qcowVersion, backingFileOffset := 88, backingFileSize := 4, clusterBits := 9, size := 0,
      cryptMethod := 0, l1Size := 0, l1TableOffset := 1024, refcountTableOffset := 512, refcountTableClusters := 1,
      nbSnapshots := 0, snapshotsOffset := 0 })).write 72 (extHeaderBuf (some CStr.base) (some CStr.raw))

theorem backedImage_opens : ∃ s, qcowOpen backedImage = some s ∧ s.snapshots = [] ∧ ∀ backingFile : Option CStr,
    (CStr.orEmpty backingFile).length ≤ 400 →
      s.updateExtHeader backingFile none = .ok (extHeaderWritten backedImage backingFile none) := by
  have hopens : (qcowOpen backedImage).isSome := by decide
  obtain ⟨s, hs⟩ := Option.isSome_iff_exists.mp hopens
  obtain ⟨⟨hfile, hbits, -⟩, -, -, -, size, hread⟩ := qcowOpen_some hs rfl
  have hcount : (QCowHeader.decode (backedImage.read 0 72)).nbSnapshots = 0 := by decide
  have hnine : (QCowHeader.decode (backedImage.read 0 72)).clusterBits = 9 := by decide
  rw [QCowHeader.readSnapshots, if_pos hcount] at hread
  have hnil : s.snapshots = [] := (congrArg Prod.fst (Option.some.inj hread)).symm
  refine ⟨s, hs, hnil, fun backingFile hshort => ?_⟩
  rw [updateExtHeader, if_neg (by rintro ⟨⟨⟩, -⟩), hbits, hnine, if_neg, hfile]
  change ¬72 + (CStr.orEmpty backingFile).length + 0 > 2 ^ 9
  omega

theorem updateExtHeader_reopens_iff_base : ∃ s f', qcowOpen backedImage = some s ∧
    s.updateExtHeader (some CStr.base) none = .ok f' ∧
    ∃ s', qcowOpen f' = some s' ∧ s'.backingFile = CStr.base.bytes ∧ s'.backingFormat = [] := by
  obtain ⟨s, hs, hsnapshots, hupdate⟩ := backedImage_opens
  have hok := hupdate (some CStr.base) (by decide)
  refine ⟨s, _, hs, hok, (updateExtHeader_reopens_iff hs (fun h => absurd hsnapshots h) ?_ ?_ hok).mpr (.inl rfl)⟩
  · rintro name ⟨⟩
    decide
  · rintro fmt ⟨⟩

/-- The backing file is taken away, and its format stays where it was. -/
theorem not_updateExtHeader_reopens : ¬∀ (f : File) (s : OpenImage) (backingFile backingFmt : Option CStr) (f' : File),
    qcowOpen f = some s → (s.snapshots ≠ [] → (2 ^ s.clusterBits : Nat) ≤ int64 s.snapshotsOffset) →
    (∀ name, backingFile = some name → name.strlen ≤ 1023) → (∀ fmt, backingFmt = some fmt → fmt.strlen < 16) →
    s.updateExtHeader backingFile backingFmt = .ok f' →
      ∃ s', qcowOpen f' = some s' ∧ s'.backingFile = CStr.orEmpty backingFile ∧
        s'.backingFormat = CStr.orEmpty backingFmt := by
  intro h
  obtain ⟨s, hs, hsnapshots, hupdate⟩ := backedImage_opens
  obtain ⟨s', hs', -, hformat⟩ := h backedImage s none none _ hs (fun h => absurd hsnapshots h) (by rintro _ ⟨⟩)
    (by rintro _ ⟨⟩) (hupdate none (Nat.zero_le _))
  have hraw : (qcowOpen (extHeaderWritten backedImage none none)).map (·.backingFormat) = some CStr.raw.bytes := by
    decide +kernel
  rw [hs', Option.map_some, hformat] at hraw
  exact absurd hraw (by decide)

end OpenImage

end Colama.Qemu.Qcow2
