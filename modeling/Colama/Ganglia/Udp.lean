import Mathlib.Tactic
import Colama.Lib.Tables

namespace Colama.Ganglia.Udp

open Lib (Table)

abbrev Bytes := List UInt8

/-- What decodes from an XDR stream over a range of memory. It fails if it runs out of it. -/
abbrev Xdr := StateT Bytes Option

@[grind] def xdrWord : Xdr ℕ
  | a :: b :: c :: d :: rest => some (((a.toNat * 256 + b.toNat) * 256 + c.toNat) * 256 + d.toNat, rest)
  | _ => none

def roundUp (n : ℕ) : ℕ := (n + 3) / 4 * 4

def xdrOpaque (n : ℕ) : Xdr Bytes := fun l => if roundUp n ≤ l.length then some (l.take n, l.drop (roundUp n)) else none

/-- The string is the bytes before the first NUL. -/
def xdrString : Xdr Bytes := do
  let size ← xdrWord
  let bytes ← xdrOpaque size
  pure (bytes.takeWhile (· ≠ 0))

def xdrBool : Xdr Bool := do
  let w ← xdrWord
  pure (decide (w ≠ 0))

def xdrUInt : Xdr UInt32 := do
  let w ← xdrWord
  pure (UInt32.ofNat w)

structure MetricId where
  host : Bytes
  name : Bytes
  spoof : Bool

structure ExtraData where
  name : Bytes
  data : Bytes

structure MetadataMessage where
  type : Bytes
  name : Bytes
  units : Bytes
  slope : UInt32
  tmax : UInt32
  dmax : UInt32
  metadata : List ExtraData

/-- A value, with the bits of the ones that are floating point. -/
inductive Value
  | ushort (us : UInt16)
  | short (ss : Int16)
  | int (si : Int32)
  | uint (ui : UInt32)
  | string (str : Bytes)
  | float (f : UInt32)
  | double (d : UInt64)

/-- What is behind the `metric_id` of a message. -/
inductive Body
  | request
  | full (metric : MetadataMessage)
  | value (fmt : Bytes) (value : Value)

structure Message where
  metricId : MetricId
  body : Body

def xdrMetricId : Xdr MetricId := do
  let host ← xdrString
  let name ← xdrString
  let spoof ← xdrBool
  pure ⟨host, name, spoof⟩

def xdrExtraData : Xdr ExtraData := do
  let name ← xdrString
  let data ← xdrString
  pure ⟨name, data⟩

def xdrElements : ℕ → Xdr (List ExtraData)
  | 0 => pure []
  | n + 1 => do
    let element ← xdrExtraData
    let elements ← xdrElements n
    pure (element :: elements)

/-- `xdr_array`, for the extra data. -/
def xdrArray : Xdr (List ExtraData) := do
  let size ← xdrWord
  xdrElements size

def xdrMetadataMessage : Xdr MetadataMessage := do
  let type ← xdrString
  let name ← xdrString
  let units ← xdrString
  let slope ← xdrUInt
  let tmax ← xdrUInt
  let dmax ← xdrUInt
  let metadata ← xdrArray
  pure ⟨type, name, units, slope, tmax, dmax, metadata⟩

def xdrDouble : Xdr UInt64 := do
  let high ← xdrWord
  let low ← xdrWord
  pure (UInt64.ofNat (high * 2 ^ 32 + low))

/-- A value behind its format. -/
def xdrValue {α : Type} (mk : α → Value) (x : Xdr α) : Xdr Body := do
  let fmt ← xdrString
  let a ← x
  pure (.value fmt (mk a))

/-- What is decoded behind the `metric_id`, for the `Ganglia_msg_formats`. -/
def xdrBody (id : ℕ) : Option (Xdr Body) :=
  match id with
  | 128 => some (do
      let metric ← xdrMetadataMessage
      pure (.full metric))
  | 129 => some (xdrValue (fun w => .ushort (UInt16.ofNat w)) xdrWord)
  | 130 => some (xdrValue (fun w => .short (Int16.ofNat w)) xdrWord)
  | 131 => some (xdrValue (fun w => .int (Int32.ofNat w)) xdrWord)
  | 132 => some (xdrValue .uint xdrUInt)
  | 133 => some (xdrValue .string xdrString)
  | 134 => some (xdrValue .float xdrUInt)
  | 135 => some (xdrValue .double xdrDouble)
  | 136 => some (pure .request)
  | _ => none

def xdrMessage (body : Xdr Body) : Xdr Message := do
  let _ ← xdrWord
  let metricId ← xdrMetricId
  let body ← body
  pure ⟨metricId, body⟩

structure Metadata where
  metricId : MetricId
  metric : MetadataMessage
  lastHeardFrom : ℤ

structure Gmetric where
  metricId : MetricId
  fmt : Bytes
  value : Value
  lastHeardFrom : ℤ

structure GangliaHost where
  hostname : Bytes
  location : Option Bytes
  gmondStarted : UInt32
  firstHeardFrom : ℤ
  lastHeardFrom : ℤ
  metrics : Table Bytes Metadata
  gmetrics : Table Bytes Gmetric

/-- What comes with a datagram: the address of the sender, what the access list says of it, its name if it has one, the
time, and the low bits of the address that a string of the message is put at. -/
structure Env where
  remoteIp : Bytes
  allowed : Bool
  name : Option Bytes
  now : ℤ
  address : Bytes → UInt32

/-- The part of a spoofed host or name before the first colon behind its first character, and the one behind it. -/
def splitAtColon : Bytes → Option (Bytes × Bytes)
  | [] => none
  | c :: cs =>
    match cs.dropWhile (· ≠ 58) with
    | [] => none
    | _ :: second => some (c :: cs.takeWhile (· ≠ 58), second)

/-- The address that a message is from and the name that comes with it, if it is spoofed. -/
def sender (env : Env) (id : MetricId) : Option (Bytes × Option Bytes) :=
  if id.spoof then
    match splitAtColon id.host with
    | some (spoofIp, c :: cs) => some (spoofIp, some (c :: cs))
    | _ => none
  else some (env.remoteIp, none)

/-- `Ganglia_host_get`, with the key of the host. -/
def gangliaHostGet (env : Env) (hosts : Table Bytes GangliaHost) (id : MetricId) : Option (Bytes × GangliaHost) :=
  (sender env id).map fun (ip, hostname) =>
    (ip, match hosts.lookup ip with
      | some host => { host with lastHeardFrom := env.now }
      | none => ⟨hostname.getD (env.name.getD ip), none, 0, env.now, env.now, ∅, ∅⟩)

def lower (b : UInt8) : UInt8 := if 65 ≤ b ∧ b ≤ 90 then b + 32 else b

/-- The member `ui` of the union that holds the value. -/
def Value.ui (env : Env) : Value → UInt32
  | .ushort us => us.toUInt32
  | .short ss => ss.toUInt16.toUInt32
  | .int si => si.toUInt32
  | .uint ui => ui
  | .string str => env.address str
  | .float f => f
  | .double d => d.toUInt32

/-- `get_metric_names`, of which the second name is not used. -/
def metricName (id : MetricId) : Bytes :=
  if id.spoof then (splitAtColon id.name).elim id.name Prod.fst else id.name

/-- `Ganglia_update_vidals`. There is no result if the location is not a string: a number is not the address of one. -/
def gangliaUpdateVidals (env : Env) (host : GangliaHost) (id : MetricId) (value : Value) : Option GangliaHost :=
  let name := (metricName id).map lower
  if name = [108, 111, 99, 97, 116, 105, 111, 110] then
    match value with
    | .string str => some { host with location := some str }
    | _ => none
  else if name = [104, 101, 97, 114, 116, 98, 101, 97, 116] then some { host with gmondStarted := value.ui env }
  else some host

/-- What the message is to the host: `Ganglia_metadata_save`, or `Ganglia_value_save` and `Ganglia_update_vidals`. A
request is for the callbacks. -/
def Message.save (env : Env) (host : GangliaHost) : Message → Option GangliaHost
  | ⟨_, .request⟩ => some host
  | ⟨id, .full metric⟩ => some { host with metrics := host.metrics.insert id.name ⟨id, metric, env.now⟩ }
  | ⟨id, .value fmt value⟩ =>
    gangliaUpdateVidals env { host with gmetrics := host.gmetrics.insert id.name ⟨id, fmt, value, env.now⟩ } id value

/-- `process_udp_recv_channel` from `xdrmem_create` on, for the range of memory that it is given. -/
@[grind]
def processRange (env : Env) (range : Bytes) (hosts : Table Bytes GangliaHost) : Option (Table Bytes GangliaHost) :=
  match xdrWord range with
  | none => some hosts
  | some (id, _) =>
    match xdrBody id with
    | none => some hosts
    | some body =>
      match xdrMessage body range with
      | none => some hosts
      | some (msg, _) =>
        match gangliaHostGet env hosts msg.metricId with
        | none => some hosts
        | some (ip, host) => (msg.save env host).map (hosts.insert ip)

/-- `process_udp_recv_channel`, for a datagram in front of the rest of the buffer. The decoder is given all of it. -/
def processUdpRecvChannel (env : Env) (datagram rest : Bytes) (hosts : Table Bytes GangliaHost) :
    Option (Table Bytes GangliaHost) :=
  if env.allowed then processRange env (datagram ++ rest) hosts else some hosts

/-- The datagram holds all that is decoded of it. -/
def Whole (datagram : Bytes) : Prop :=
  ∃ id rest, xdrWord datagram = some (id, rest) ∧ ∀ body, xdrBody id = some body → (xdrMessage body datagram).isSome

/-- A message decodes from the range of memory and has a host. -/
def Accepted (env : Env) (range : Bytes) : Prop :=
  ∃ id rest body msg rest', xdrWord range = some (id, rest) ∧ xdrBody id = some body ∧
    xdrMessage body range = some (msg, rest') ∧ (sender env msg.metricId).isSome

/-- The rest of the buffer with which most is accepted: zeros, behind the format of a request. -/
def filling (size : ℕ) (datagram : Bytes) : Bytes :=
  (([0, 0, 0, 136] : Bytes).drop datagram.length ++ List.replicate size 0).take size

/-- What is asked: the hosts change in the same way whatever is in the rest of the buffer, and not at all if the
datagram does not hold what is decoded of it. -/
def Isolated (env : Env) (size : ℕ) (datagram : Bytes) : Prop :=
  (∀ rest₁ rest₂ : Bytes, rest₁.length = size → rest₂.length = size → ∀ hosts,
    processUdpRecvChannel env datagram rest₁ hosts = processUdpRecvChannel env datagram rest₂ hosts) ∧
  (¬Whole datagram → ∀ rest : Bytes, rest.length = size → ∀ hosts,
    processUdpRecvChannel env datagram rest hosts = some hosts)

section Decoders

variable {α β : Type}

theorem bind_eq (m : Xdr α) (f : α → Xdr β) (l : Bytes) : (m >>= f) l = (m l).bind fun (a, rest) => f a rest := rfl

theorem bind_eq_some {m : Xdr α} {f : α → Xdr β} {l rest : Bytes} {b : β} :
    (m >>= f) l = some (b, rest) ↔ ∃ a rest', m l = some (a, rest') ∧ f a rest' = some (b, rest) := by
  rw [bind_eq, Option.bind_eq_some_iff]
  exact ⟨fun ⟨(a, rest'), h, h'⟩ => ⟨a, rest', h, h'⟩, fun ⟨a, rest', h, h'⟩ => ⟨(a, rest'), h, h'⟩⟩

theorem bind_of_some {m : Xdr α} {f : α → Xdr β} {l rest : Bytes} {a : α} (h : m l = some (a, rest)) :
    (m >>= f) l = f a rest := by
  rw [bind_eq, h]
  rfl

/-- A decoder that takes at least so many bytes, and so many zeros. What it has taken does not depend on what is behind.
If it runs out of the bytes there are and can go on with some others, it can with as many zeros, and has at least as
many left. -/
structure Frugal (size : ℕ) (m : Xdr α) : Prop where
  within : ∀ {d d' : Bytes} {a}, m d = some (a, d') → ∀ r, m (d ++ r) = some (a, d' ++ r)
  least : ∀ {l rest : Bytes} {a}, m l = some (a, rest) → rest.length + size ≤ l.length
  zeros : ∀ {k : ℕ}, size ≤ k → ∃ a, m (List.replicate k 0) = some (a, List.replicate (k - size) 0)
  cut : ∀ {d r rest : Bytes} {a}, m d = none → m (d ++ r) = some (a, rest) →
    ∃ a' n, rest.length ≤ n ∧ m (d ++ List.replicate r.length 0) = some (a', List.replicate n 0)

theorem frugal_pure (a : α) : Frugal 0 (pure a : Xdr α) where
  within h r := by
    cases h
    rfl
  least h := by
    cases h
    exact le_rfl
  zeros _ := ⟨a, rfl⟩
  cut h := nomatch h

theorem Frugal.bind {size size' : ℕ} {m : Xdr α} {f : α → Xdr β} (hm : Frugal size m) (hf : ∀ a, Frugal size' (f a)) :
    Frugal (size + size') (m >>= f) where
  within h r := by
    obtain ⟨a, d', hma, hfa⟩ := bind_eq_some.1 h
    exact bind_eq_some.2 ⟨a, d' ++ r, hm.within hma r, (hf a).within hfa r⟩
  least h := by
    obtain ⟨a, l', hma, hfa⟩ := bind_eq_some.1 h
    have h₁ := hm.least hma
    have h₂ := (hf a).least hfa
    omega
  zeros {k} hk := by
    obtain ⟨a, ha⟩ := hm.zeros (k := k) (by omega)
    obtain ⟨b, hb⟩ := (hf a).zeros (k := k - size) (by omega)
    exact ⟨b, bind_eq_some.2 ⟨a, _, ha, by rw [hb, Nat.sub_sub]⟩⟩
  cut {d r rest b} hnone h := by
    obtain ⟨a, l', hma, hfa⟩ := bind_eq_some.1 h
    cases hd : m d with
    | some p =>
      obtain ⟨a₁, d'⟩ := p
      cases (hm.within hd r).symm.trans hma
      have hnone' : f a d' = none := (bind_of_some hd).symm.trans hnone
      obtain ⟨b', n, hn, hb'⟩ := (hf a).cut hnone' hfa
      exact ⟨b', n, hn, bind_eq_some.2 ⟨a, _, hm.within hd _, hb'⟩⟩
    | none =>
      obtain ⟨a', n, hn, ha'⟩ := hm.cut hd hma
      have hlen := (hf a).least hfa
      obtain ⟨b', hb'⟩ := (hf a').zeros (k := n) (by omega)
      exact ⟨b', n - size', by omega, bind_eq_some.2 ⟨a', _, ha', hb'⟩⟩

theorem Frugal.map {size : ℕ} {m : Xdr α} (hm : Frugal size m) (f : α → β) :
    Frugal size (do let a ← m; pure (f a)) :=
  hm.bind fun a => frugal_pure (f a)

theorem xdrWord_eq_some {l rest : Bytes} {w : ℕ} : xdrWord l = some (w, rest) ↔ ∃ a b c d : UInt8,
    l = a :: b :: c :: d :: rest ∧ w = ((a.toNat * 256 + b.toNat) * 256 + c.toNat) * 256 + d.toNat := by
  constructor
  · intro h
    match l with
    | a :: b :: c :: d :: l =>
      cases h
      exact ⟨a, b, c, d, rfl, rfl⟩
  · rintro ⟨a, b, c, d, rfl, rfl⟩
    rfl

/-- A word that the bytes end in is not less than the one with zeros. -/
theorem xdrWord_cut {d r rest : Bytes} {w : ℕ} (hnone : xdrWord d = none) (h : xdrWord (d ++ r) = some (w, rest)) :
    ∃ w', w' ≤ w ∧ xdrWord (d ++ List.replicate r.length 0) = some (w', List.replicate rest.length 0) := by
  obtain ⟨a, b, c, e, hl, rfl⟩ := xdrWord_eq_some.1 h
  match d with
  | [] =>
    rw [List.nil_append] at hl
    subst hl
    exact ⟨0, Nat.zero_le _, rfl⟩
  | [_] =>
    cases hl
    exact ⟨((a.toNat * 256 + 0) * 256 + 0) * 256 + 0, by omega, rfl⟩
  | [_, _] =>
    cases hl
    exact ⟨((a.toNat * 256 + b.toNat) * 256 + 0) * 256 + 0, by omega, rfl⟩
  | [_, _, _] =>
    cases hl
    exact ⟨((a.toNat * 256 + b.toNat) * 256 + c.toNat) * 256 + 0, by omega, rfl⟩
  | _ :: _ :: _ :: _ :: _ => cases hnone

theorem frugal_xdrWord : Frugal 4 xdrWord where
  within h r := by
    obtain ⟨a, b, c, d, rfl, rfl⟩ := xdrWord_eq_some.1 h
    rfl
  least h := by
    obtain ⟨a, b, c, d, rfl, rfl⟩ := xdrWord_eq_some.1 h
    exact le_rfl
  zeros {k} hk := by
    obtain ⟨j, rfl⟩ := Nat.exists_eq_add_of_le' hk
    exact ⟨0, rfl⟩
  cut hnone h := by
    obtain ⟨w', -, h'⟩ := xdrWord_cut hnone h
    exact ⟨w', _, le_rfl, h'⟩

theorem frugal_xdrOpaque (n : ℕ) : Frugal (roundUp n) (xdrOpaque n) where
  within {d d' a} h r := by
    rw [xdrOpaque] at h ⊢
    split at h
    · rename_i hle
      cases h
      have hn : n ≤ roundUp n := by
        rw [roundUp]
        omega
      rw [if_pos (hle.trans (by simp)), List.take_append_of_le_length (hn.trans hle), List.drop_append_of_le_length hle]
    · cases h
  least {l rest a} h := by
    rw [xdrOpaque] at h
    split at h
    · cases h
      rw [List.length_drop]
      omega
    · cases h
  zeros {k} hk := by
    rw [xdrOpaque, List.length_replicate, if_pos hk, List.drop_replicate]
    exact ⟨_, rfl⟩
  cut {d r rest a} hnone h := by
    rw [xdrOpaque] at hnone h ⊢
    split at hnone
    · cases hnone
    · rename_i hlt
      split at h
      · rename_i hle
        cases h
        rw [List.length_append] at hle
        refine ⟨(d ++ List.replicate r.length 0).take n, d.length + r.length - roundUp n, ?_, ?_⟩
        · rw [List.length_drop, List.length_append]
        · rw [List.length_append, List.length_replicate, if_pos hle, List.drop_append,
            List.drop_eq_nil_of_le (not_le.mp hlt).le, List.nil_append, List.drop_replicate]
          congr 3
          omega
      · cases h

/-- A number of things behind the number. -/
theorem Frugal.counted {size : ℕ → ℕ} {f : ℕ → Xdr α} (hf : ∀ n, Frugal (size n) (f n)) (hsize : Monotone size)
    (hzero : size 0 = 0) : Frugal 4 (xdrWord >>= f) where
  within h r := by
    obtain ⟨n, d', hn, ha⟩ := bind_eq_some.mp h
    exact bind_eq_some.mpr ⟨n, d' ++ r, frugal_xdrWord.within hn r, (hf n).within ha r⟩
  least h := by
    obtain ⟨n, l', hn, ha⟩ := bind_eq_some.mp h
    have h₁ := frugal_xdrWord.least hn
    have h₂ := (hf n).least ha
    omega
  zeros {k} hk := by
    obtain ⟨j, rfl⟩ := Nat.exists_eq_add_of_le' hk
    obtain ⟨a, ha⟩ := (hf 0).zeros (k := j) (by omega)
    refine ⟨a, bind_eq_some.mpr ⟨0, List.replicate j 0, rfl, ?_⟩⟩
    rw [ha, hzero, Nat.add_sub_cancel, Nat.sub_zero]
  cut {d r rest a} hnone h := by
    obtain ⟨n, l', hn, ha⟩ := bind_eq_some.mp h
    cases hd : xdrWord d with
    | some p =>
      obtain ⟨n', d'⟩ := p
      cases (frugal_xdrWord.within hd r).symm.trans hn
      have hnone' : f n d' = none := (bind_of_some hd).symm.trans hnone
      obtain ⟨a', k, hk, ha'⟩ := (hf n).cut hnone' ha
      exact ⟨a', k, hk, bind_eq_some.mpr ⟨n, _, frugal_xdrWord.within hd _, ha'⟩⟩
    | none =>
      obtain ⟨n', hle, hn'⟩ := xdrWord_cut hd hn
      have hlen := (hf n).least ha
      have hmono := hsize hle
      obtain ⟨a', ha'⟩ := (hf n').zeros (k := l'.length) (by omega)
      exact ⟨a', l'.length - size n', by omega, bind_eq_some.mpr ⟨n', _, hn', ha'⟩⟩

theorem frugal_xdrString : Frugal 4 xdrString := by
  refine Frugal.counted (fun n => (frugal_xdrOpaque n).map _) ?_ rfl
  intro n n' h
  rw [roundUp, roundUp]
  omega

theorem frugal_xdrUInt : Frugal 4 xdrUInt := .map frugal_xdrWord _

theorem frugal_xdrBool : Frugal 4 xdrBool := .map frugal_xdrWord _

theorem frugal_xdrExtraData : Frugal 8 xdrExtraData :=
  .bind frugal_xdrString fun _ => .map frugal_xdrString _

theorem frugal_xdrElements (n : ℕ) : Frugal (8 * n) (xdrElements n) := by
  induction n with
  | zero => exact frugal_pure []
  | succ n ih =>
    rw [Nat.mul_succ, Nat.add_comm]
    exact .bind frugal_xdrExtraData fun _ => ih.map _

theorem frugal_xdrArray : Frugal 4 xdrArray :=
  Frugal.counted frugal_xdrElements (fun _ _ h => Nat.mul_le_mul_left 8 h) rfl

theorem frugal_xdrMetadataMessage : Frugal 28 xdrMetadataMessage :=
  .bind frugal_xdrString fun _ => .bind frugal_xdrString fun _ => .bind frugal_xdrString fun _ =>
    .bind frugal_xdrUInt fun _ => .bind frugal_xdrUInt fun _ => .bind frugal_xdrUInt fun _ => .map frugal_xdrArray _

theorem frugal_xdrValue {size : ℕ} {x : Xdr α} (hx : Frugal size x) (mk : α → Value) : Frugal (4 + size) (xdrValue mk x) :=
  .bind frugal_xdrString fun _ => hx.map _

theorem frugal_xdrBody {id : ℕ} {body : Xdr Body} (h : xdrBody id = some body) : ∃ size, Frugal size body := by
  unfold xdrBody at h
  split at h
  · cases h
    exact ⟨_, .map frugal_xdrMetadataMessage _⟩
  · cases h
    exact ⟨_, frugal_xdrValue frugal_xdrWord _⟩
  · cases h
    exact ⟨_, frugal_xdrValue frugal_xdrWord _⟩
  · cases h
    exact ⟨_, frugal_xdrValue frugal_xdrWord _⟩
  · cases h
    exact ⟨_, frugal_xdrValue frugal_xdrUInt _⟩
  · cases h
    exact ⟨_, frugal_xdrValue frugal_xdrString _⟩
  · cases h
    exact ⟨_, frugal_xdrValue frugal_xdrUInt _⟩
  · cases h
    exact ⟨_, frugal_xdrValue (.bind frugal_xdrWord fun _ => .map frugal_xdrWord _) _⟩
  · cases h
    exact ⟨_, frugal_pure _⟩
  · cases h

end Decoders

section Cut

theorem xdrString_zeros (j : ℕ) : xdrString (List.replicate (j + 4) 0) = some ([], List.replicate j 0) := by
  refine bind_eq_some.mpr ⟨0, List.replicate j 0, rfl, bind_eq_some.mpr ⟨[], List.replicate j 0, ?_, rfl⟩⟩
  rw [xdrOpaque, if_pos (show roundUp 0 ≤ _ from Nat.zero_le _)]
  rfl

theorem xdrBool_zeros (j : ℕ) : xdrBool (List.replicate (j + 4) 0) = some (false, List.replicate j 0) :=
  bind_eq_some.mpr ⟨0, List.replicate j 0, rfl, rfl⟩

/-- With zeros, a `metric_id` is spoofed only if it is and its host is known. -/
theorem xdrMetricId_cut {d r rest : Bytes} {id : MetricId} (hnone : xdrMetricId d = none)
    (h : xdrMetricId (d ++ r) = some (id, rest)) : ∃ id' n, rest.length ≤ n ∧
      xdrMetricId (d ++ List.replicate r.length 0) = some (id', List.replicate n 0) ∧
      (id'.spoof = true → id.spoof = true ∧ id'.host = id.host) := by
  obtain ⟨host, l₁, hhost, h⟩ := bind_eq_some.mp h
  obtain ⟨name, l₂, hname, h⟩ := bind_eq_some.mp h
  obtain ⟨spoof, l₃, hspoof, h⟩ := bind_eq_some.mp h
  cases h
  have hleast₂ := frugal_xdrString.least hname
  have hleast₃ := frugal_xdrBool.least hspoof
  cases hd₁ : xdrString d with
  | none =>
    -- the host is cut, and so all behind it is zeros
    obtain ⟨host', n, hn, hhost'⟩ := frugal_xdrString.cut hd₁ hhost
    obtain ⟨j, rfl⟩ := Nat.exists_eq_add_of_le' (show 8 ≤ n by omega)
    refine ⟨⟨host', [], false⟩, j, by omega, ?_, nofun⟩
    exact bind_eq_some.mpr ⟨host', _, hhost', bind_eq_some.mpr ⟨[], _, xdrString_zeros (j + 4),
      bind_eq_some.mpr ⟨false, _, xdrBool_zeros j, rfl⟩⟩⟩
  | some p =>
    obtain ⟨host₁, d₁⟩ := p
    cases (frugal_xdrString.within hd₁ r).symm.trans hhost
    have hwithin := frugal_xdrString.within hd₁ (List.replicate r.length 0)
    rw [xdrMetricId, bind_of_some hd₁] at hnone
    cases hd₂ : xdrString d₁ with
    | none =>
      obtain ⟨name', n, hn, hname'⟩ := frugal_xdrString.cut hd₂ hname
      obtain ⟨j, rfl⟩ := Nat.exists_eq_add_of_le' (show 4 ≤ n by omega)
      refine ⟨⟨host, name', false⟩, j, by omega, ?_, nofun⟩
      exact bind_eq_some.mpr ⟨host, _, hwithin, bind_eq_some.mpr ⟨name', _, hname',
        bind_eq_some.mpr ⟨false, _, xdrBool_zeros j, rfl⟩⟩⟩
    | some p =>
      obtain ⟨name₁, d₂⟩ := p
      cases (frugal_xdrString.within hd₂ r).symm.trans hname
      have hwithin₂ := frugal_xdrString.within hd₂ (List.replicate r.length 0)
      rw [bind_of_some hd₂] at hnone
      have hword : xdrWord d₂ = none := by
        cases hw : xdrWord d₂ with
        | none => rfl
        | some p =>
          rw [bind_of_some (bind_of_some hw)] at hnone
          cases hnone
      obtain ⟨w, l, hw, hpure⟩ := bind_eq_some.mp hspoof
      cases hpure
      obtain ⟨w', hle, hw'⟩ := xdrWord_cut hword hw
      refine ⟨⟨host, name, decide (w' ≠ 0)⟩, _, le_rfl, ?_, fun hne => ⟨?_, rfl⟩⟩
      · exact bind_eq_some.mpr ⟨host, _, hwithin, bind_eq_some.mpr ⟨name, _, hwithin₂,
          bind_eq_some.mpr ⟨decide (w' ≠ 0), _, bind_eq_some.mpr ⟨w', _, hw', rfl⟩, rfl⟩⟩⟩
      · have hne' : w' ≠ 0 := of_decide_eq_true hne
        exact decide_eq_true (by omega)

variable (env : Env)

/-- A message that can be completed to one that has a host can be so with zeros. -/
theorem xdrMessage_cut {size : ℕ} {body : Xdr Body} (hbody : Frugal size body) {d r rest d' : Bytes} {w : ℕ} {msg : Message}
    (hw : xdrWord d = some (w, d')) (hnone : xdrMessage body d = none) (h : xdrMessage body (d ++ r) = some (msg, rest))
    (hsender : (sender env msg.metricId).isSome) : ∃ msg' rest',
      xdrMessage body (d ++ List.replicate r.length 0) = some (msg', rest') ∧ (sender env msg'.metricId).isSome := by
  have hword := frugal_xdrWord.within hw
  rw [xdrMessage, bind_of_some hw] at hnone
  rw [xdrMessage, bind_of_some (hword r)] at h
  obtain ⟨id, l₁, hid, h⟩ := bind_eq_some.mp h
  obtain ⟨b, l₂, hb, h⟩ := bind_eq_some.mp h
  cases h
  cases hd : xdrMetricId d' with
  | some p =>
    obtain ⟨id₁, d₁⟩ := p
    have hwithin := (frugal_xdrString.bind fun _ => frugal_xdrString.bind fun _ => frugal_xdrBool.map _).within hd
    cases (hwithin r).symm.trans hid
    rw [bind_of_some hd] at hnone
    have hnone' : body d₁ = none := by
      cases hb' : body d₁ with
      | none => rfl
      | some p =>
        rw [bind_of_some hb'] at hnone
        cases hnone
    obtain ⟨b', n, -, hb'⟩ := hbody.cut hnone' hb
    exact ⟨⟨id, b'⟩, _, bind_eq_some.mpr ⟨w, _, hword _, bind_eq_some.mpr ⟨id, _, hwithin _,
      bind_eq_some.mpr ⟨b', _, hb', rfl⟩⟩⟩, hsender⟩
  | none =>
    obtain ⟨id', n, hn, hid', hspoof⟩ := xdrMetricId_cut hd hid
    have hleast := hbody.least hb
    obtain ⟨b', hb'⟩ := hbody.zeros (k := n) (by omega)
    refine ⟨⟨id', b'⟩, _, bind_eq_some.mpr ⟨w, _, hword _, bind_eq_some.mpr ⟨id', _, hid',
      bind_eq_some.mpr ⟨b', _, hb', rfl⟩⟩⟩, ?_⟩
    rw [sender] at hsender ⊢
    dsimp only at hsender ⊢
    split
    · rename_i hspoofed
      obtain ⟨hspoofed', hhost⟩ := hspoof hspoofed
      rw [if_pos hspoofed'] at hsender
      rwa [hhost]
    · rfl

theorem frugal_xdrMessage {size : ℕ} {body : Xdr Body} (hbody : Frugal size body) :
    Frugal (4 + (4 + (4 + 4) + size)) (xdrMessage body) :=
  frugal_xdrWord.bind fun _ =>
    (frugal_xdrString.bind fun _ => frugal_xdrString.bind fun _ => frugal_xdrBool.map _).bind fun _ => hbody.map _

theorem xdrBody_range {id : ℕ} {body : Xdr Body} (h : xdrBody id = some body) : 128 ≤ id ∧ id ≤ 136 := by
  unfold xdrBody at h
  split at h
  all_goals first | omega | cases h

/-- Of a format that is not known, the first three bytes are zeros. -/
theorem append_drop_eq {d r rest : Bytes} {id : ℕ} {body : Xdr Body} (hlen : d.length < 4)
    (hid : xdrWord (d ++ r) = some (id, rest)) (hbody : xdrBody id = some body) :
    d ++ ([0, 0, 0, 136] : Bytes).drop d.length = [0, 0, 0, 136] := by
  obtain ⟨a, b, c, e, hl, rfl⟩ := xdrWord_eq_some.mp hid
  have hrange := xdrBody_range hbody
  have hzero : ∀ x : UInt8, x.toNat = 0 → x = 0 := fun x hx => UInt8.toNat_inj.mp hx
  have ha : a = 0 := hzero a (by omega)
  have hb : b = 0 := hzero b (by omega)
  have hc : c = 0 := hzero c (by omega)
  subst ha hb hc
  match d with
  | [] => rfl
  | [_] =>
    cases hl
    rfl
  | [_, _] =>
    cases hl
    rfl
  | [_, _, _] =>
    cases hl
    rfl
  | _ :: _ :: _ :: _ :: _ =>
    simp only [List.length_cons] at hlen
    omega

theorem accepted_zeros (j : ℕ) : Accepted env ([0, 0, 0, 136] ++ List.replicate (j + 12) 0) := by
  have hid : xdrMetricId (List.replicate (j + 12) 0) = some (⟨[], [], false⟩, List.replicate j 0) :=
    bind_eq_some.mpr ⟨[], _, xdrString_zeros (j + 8), bind_eq_some.mpr ⟨[], _, xdrString_zeros (j + 4),
      bind_eq_some.mpr ⟨false, _, xdrBool_zeros j, rfl⟩⟩⟩
  refine ⟨136, _, pure .request, ⟨⟨[], [], false⟩, .request⟩, List.replicate j 0, rfl, rfl, ?_, rfl⟩
  exact bind_eq_some.mpr ⟨136, _, rfl, bind_eq_some.mpr ⟨_, _, hid, rfl⟩⟩

/-- If a datagram that is cut can be completed at all, it can be so with the filling. -/
theorem Accepted.filling {env : Env} {d r : Bytes} (hd : ¬Whole d) (h : Accepted env (d ++ r)) :
    Accepted env (d ++ filling r.length d) := by
  obtain ⟨id, rest, body, msg, rest', hid, hbody, hmsg, hsender⟩ := h
  obtain ⟨size, hfrugal⟩ := frugal_xdrBody hbody
  rw [Udp.filling]
  by_cases hlen : d.length < 4
  · have hleast := (frugal_xdrMessage hfrugal).least hmsg
    have hdrop := append_drop_eq hlen hid hbody
    rw [List.length_append] at hleast
    have hfill : d ++ (([0, 0, 0, 136] : Bytes).drop d.length ++ List.replicate r.length 0).take r.length =
        [0, 0, 0, 136] ++ List.replicate (d.length + r.length - 16 + 12) 0 := by
      rw [← List.take_length_add_append, ← List.append_assoc, hdrop, List.take_append, List.take_replicate]
      congr 1
      · exact List.take_of_length_le (show 4 ≤ d.length + r.length by omega)
      · congr 1
        show min (d.length + r.length - 4) r.length = _
        omega
    rw [hfill]
    exact accepted_zeros env _
  · have hdrop : ([0, 0, 0, 136] : Bytes).drop d.length = [] := List.drop_eq_nil_of_le (not_lt.mp hlen)
    rw [hdrop, List.nil_append, List.take_replicate, min_self]
    cases hw : xdrWord d with
    | none =>
      match d with
      | [] => exact absurd (show 0 < 4 by decide) hlen
      | [_] => exact absurd (show 1 < 4 by decide) hlen
      | [_, _] => exact absurd (show 2 < 4 by decide) hlen
      | [_, _, _] => exact absurd (show 3 < 4 by decide) hlen
      | _ :: _ :: _ :: _ :: _ => cases hw
    | some p =>
      obtain ⟨w, d'⟩ := p
      cases (frugal_xdrWord.within hw r).symm.trans hid
      have hnone : xdrMessage body d = none := by
        by_contra hsome
        refine hd ⟨id, d', hw, fun body' hbody' => ?_⟩
        cases hbody.symm.trans hbody'
        exact Option.isSome_iff_ne_none.mpr hsome
      obtain ⟨msg', rest'', hmsg', hsender'⟩ := xdrMessage_cut env hfrugal hw hnone hmsg hsender
      exact ⟨id, _, body, msg', rest'', frugal_xdrWord.within hw _, hbody, hmsg', hsender'⟩

end Cut

section Isolation

variable (env : Env)

theorem processRange_of_not_accepted {range : Bytes} (h : ¬Accepted env range) (hosts : Table Bytes GangliaHost) :
    processRange env range hosts = some hosts := by
  rw [processRange]
  split
  · rfl
  · rename_i id rest hid
    split
    · rfl
    · rename_i body hbody
      split
      · rfl
      · rename_i msg rest' hmsg
        have hnone : sender env msg.metricId = none := by
          by_contra hsome
          exact h ⟨id, rest, body, msg, rest', hid, hbody, hmsg, Option.isSome_iff_ne_none.mpr hsome⟩
        have hget : gangliaHostGet env hosts msg.metricId = none := by
          rw [gangliaHostGet, hnone]
          rfl
        rw [hget]

theorem processRange_of_accepted {range : Bytes} (h : Accepted env range) : processRange env range ∅ ≠ some ∅ := by
  obtain ⟨id, rest, body, msg, rest', hid, hbody, hmsg, hsender⟩ := h
  obtain ⟨⟨ip, hostname⟩, hsender⟩ := Option.isSome_iff_exists.mp hsender
  rw [processRange, hid]
  dsimp only
  rw [hbody]
  dsimp only
  rw [hmsg]
  dsimp only
  rw [gangliaHostGet, hsender]
  dsimp only [Option.map_some]
  intro hempty
  obtain ⟨host, -, hinsert⟩ := Option.map_eq_some_iff.mp hempty
  have hlookup := congrArg (AList.lookup ip) hinsert
  rw [AList.lookup_insert, AList.lookup_empty] at hlookup
  cases hlookup

theorem Whole.processRange {d : Bytes} (h : Whole d) (r : Bytes) (hosts : Table Bytes GangliaHost) :
    processRange env (d ++ r) hosts = processRange env d hosts := by
  obtain ⟨id, rest, hid, hbody⟩ := h
  rw [Udp.processRange, Udp.processRange, hid, frugal_xdrWord.within hid r]
  dsimp only
  cases hb : xdrBody id with
  | none => rfl
  | some body =>
    obtain ⟨⟨msg, rest'⟩, hmsg⟩ := Option.isSome_iff_exists.mp (hbody body hb)
    obtain ⟨size, hfrugal⟩ := frugal_xdrBody hb
    dsimp only
    rw [hmsg, (frugal_xdrMessage hfrugal).within hmsg r]

theorem length_filling (size : ℕ) (d : Bytes) : (filling size d).length = size := by
  rw [filling, List.length_take, List.length_append, List.length_replicate]
  omega

/-- A datagram is isolated from the rest of the buffer if the access list refuses it, if it holds all that is decoded of
it, or if it cannot be completed to a message that has a host. -/
theorem isolated_iff (size : ℕ) (datagram : Bytes) : Isolated env size datagram ↔
    env.allowed = false ∨ Whole datagram ∨ ¬Accepted env (datagram ++ filling size datagram) := by
  rw [Isolated]
  simp only [processUdpRecvChannel]
  cases env.allowed with
  | false => simp
  | true =>
    simp only [if_true, Bool.true_eq_false, false_or]
    constructor
    · rintro ⟨-, hcut⟩
      by_contra hnot
      rw [not_or, not_not] at hnot
      exact processRange_of_accepted env hnot.2 (hcut hnot.1 _ (length_filling size datagram) ∅)
    · intro h
      by_cases hwhole : Whole datagram
      · refine ⟨fun rest₁ rest₂ _ _ hosts => ?_, absurd hwhole⟩
        rw [hwhole.processRange, hwhole.processRange]
      · have hunchanged : ∀ rest : Bytes, rest.length = size → ∀ hosts,
            processRange env (datagram ++ rest) hosts = some hosts := by
          rintro rest rfl hosts
          refine processRange_of_not_accepted env (fun hacc => ?_) hosts
          exact h.resolve_left hwhole (hacc.filling hwhole)
        refine ⟨fun rest₁ rest₂ h₁ h₂ hosts => ?_, fun _ => hunchanged⟩
        rw [hunchanged rest₁ h₁, hunchanged rest₂ h₂]

end Isolation

/-- A `gmetric_uint` message of the host `h` for the metric `m`, without its value. -/
def cutUint : Bytes :=
  [0, 0, 0, 132, 0, 0, 0, 1, 104, 0, 0, 0, 0, 0, 0, 1, 109, 0, 0, 0, 0, 0, 0, 0, 0, 0, 0, 2, 37, 117, 0, 0]

def someEnv : Env where
  remoteIp := [49]
  allowed := true
  name := none
  now := 1700000000000000
  address _ := 0

/-- The value of the message is taken from the rest of the buffer. -/
theorem not_isolated_cutUint : ¬Isolated someEnv 1440 cutUint := by
  have hid : ∀ l : Bytes, xdrWord (0 :: 0 :: 0 :: 132 :: l) = some (132, l) := fun l =>
    xdrWord_eq_some.mpr ⟨0, 0, 0, 132, rfl, by decide⟩
  have hbody : xdrBody 132 = some (xdrValue .uint xdrUInt) := rfl
  rintro ⟨-, hcut⟩
  have hwhole : ¬Whole cutUint := by
    rintro ⟨id, rest, hid', hwhole⟩
    cases (hid _).symm.trans hid'
    exact absurd (hwhole _ hbody) (by decide)
  have hspoof : (xdrMessage (xdrValue .uint xdrUInt) (cutUint ++ [0, 0, 0, 7])).map (fun p => p.1.metricId.spoof) =
      some false := by decide
  obtain ⟨⟨msg, rest⟩, hmsg, hfalse⟩ := Option.map_eq_some_iff.mp hspoof
  have hacc : Accepted someEnv (cutUint ++ ([0, 0, 0, 7] ++ List.replicate 1436 0)) := by
    obtain ⟨size, hfrugal⟩ := frugal_xdrBody hbody
    have hword : xdrWord cutUint = some (132, cutUint.drop 4) := hid _
    have hwithin := (frugal_xdrMessage hfrugal).within hmsg (List.replicate 1436 0)
    rw [List.append_assoc] at hwithin
    refine ⟨132, _, _, msg, _, frugal_xdrWord.within hword _, hbody, hwithin, ?_⟩
    rw [sender, hfalse]
    rfl
  have hrest := hcut hwhole ([0, 0, 0, 7] ++ List.replicate 1436 0)
    (by rw [List.length_append, List.length_replicate]; rfl) ∅
  rw [processUdpRecvChannel, if_pos (show someEnv.allowed = true from rfl)] at hrest
  exact processRange_of_accepted someEnv hacc hrest

end Colama.Ganglia.Udp
