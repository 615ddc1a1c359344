import Mathlib.Tactic

namespace Colama.Vnc4.Blacklist

/-- `BlacklistThreshold` and `BlacklistTimeout`, both of type `int`. -/
structure Params where
  threshold : BitVec 32
  initialTimeout : BitVec 32

structure BlacklistInfo where
  marks : Int
  blockUntil : Int
  blockTimeout : BitVec 32

variable (p : Params)

/-- What `isBlackmarked` does with the entry of a host. -/
def BlacklistInfo.attempt (now : Int) (bi : BlacklistInfo) : Bool × BlacklistInfo :=
  if bi.marks ≥ p.threshold.toInt then
    if now ≥ bi.blockUntil then
      (false, { bi with blockUntil := now + bi.blockTimeout.toNat, blockTimeout := bi.blockTimeout * 2 })
    else (true, bi)
  else (false, { bi with marks := bi.marks + 1 })

/-- The entry that is made of a host at first. -/
def newInfo : BlacklistInfo where
  marks := 1
  blockUntil := 0
  blockTimeout := p.initialTimeout

variable {Host : Type*} [DecidableEq Host]

abbrev BlacklistMap (Host : Type*) := Host → Option BlacklistInfo

def isBlackmarked (name : Host) (now : Int) (blm : BlacklistMap Host) : Bool × BlacklistMap Host :=
  let (blackmarked, bi) := ((blm name).getD (newInfo p)).attempt p now
  (blackmarked, Function.update blm name (some bi))

def clearBlackmark (name : Host) (blm : BlacklistMap Host) : BlacklistMap Host := Function.update blm name none

inductive Call (Host : Type*)
  | isBlackmarked (name : Host) (now : Int)
  | clearBlackmark (name : Host)

/-- The answers for a host, each with its time. -/
def answers (name : Host) : List (Call Host) → BlacklistMap Host → List (Int × Bool)
  | [], _ => []
  | .isBlackmarked other now :: calls, blm =>
    let (blackmarked, blm) := isBlackmarked p other now blm
    if other = name then (now, blackmarked) :: answers name calls blm else answers name calls blm
  | .clearBlackmark other :: calls, blm => answers name calls (clearBlackmark other blm)

/-- The times of the calls for a host. -/
def times (name : Host) : List (Call Host) → List Int
  | [] => []
  | .isBlackmarked other now :: calls => if other = name then now :: times name calls else times name calls
  | .clearBlackmark _ :: calls => times name calls

/-- How many guesses a host has until some time: these are the calls that are answered false. -/
def guesses (until_ : Int) (answers : List (Int × Bool)) : Nat :=
  answers.countP fun a => !a.2 && decide (a.1 ≤ until_)

/-- The first `n` terms of the initial time-out, twice that, and so on. -/
def terms (n : Nat) : Int := p.initialTimeout.toInt * (2 ^ n - 1)

/-- The guesses that a host has in the time `T` behind its first call are bounded, whatever other hosts do. -/
def BoundsGuessing (name : Host) (T : Nat) : Prop :=
  ∀ (calls : List (Call Host)) (blm : BlacklistMap Host) (t₀ : Int), blm name = none → .clearBlackmark name ∉ calls →
    (times name calls).Pairwise (· ≤ ·) → (times name calls).head? = some t₀ →
    ∃ n, terms p n ≤ T ∧ (guesses (t₀ + T) (answers p name calls blm) : Int) ≤ p.threshold.toInt - 1 + n + 1

/-- The answers from the entry of the host alone. -/
@[grind] def entryAnswers : List Int → BlacklistInfo → List (Int × Bool)
  | [], _ => []
  | now :: times, bi => (now, (bi.attempt p now).1) :: entryAnswers times (bi.attempt p now).2

theorem answers_eq {name : Host} {calls : List (Call Host)} (hclear : .clearBlackmark name ∉ calls)
    (blm : BlacklistMap Host) :
    answers p name calls blm = entryAnswers p (times name calls) ((blm name).getD (newInfo p)) := by
  induction calls generalizing blm with
  | nil => rfl
  | cons call calls ih =>
    have ih := ih fun h => hclear (List.mem_cons_of_mem _ h)
    cases call with
    | isBlackmarked other now =>
      rw [answers, times]
      dsimp only [isBlackmarked]
      by_cases hname : other = name
      · subst hname
        rw [if_pos rfl, if_pos rfl, entryAnswers, ih, Function.update_self]
        rfl
      · rw [if_neg hname, if_neg hname, ih, Function.update_of_ne (Ne.symm hname)]
    | clearBlackmark other =>
      have hname : name ≠ other := fun h => hclear (h ▸ List.mem_cons_self)
      rw [answers, times, ih, clearBlackmark, Function.update_of_ne hname]

/-- How long a host waits in all for its first `m` retries. -/
@[grind] def waited (i : Nat) : Nat → Nat
  | 0 => 0
  | m + 1 => waited i m + i * 2 ^ m % 2 ^ 32

/-- How many time-outs there are before one that does not fit an `unsigned int`. -/
def unwrapped (i : Nat) : Nat := 32 - i.log2

/-- How long a host waits in all until the first time-out that has wrapped is over. -/
def wrapTime (i : Nat) : Nat := i * (2 ^ unwrapped i - 1) + i * 2 ^ unwrapped i % 2 ^ 32

section Waiting

variable {i : Nat}

theorem waited_mono : Monotone (waited i) := monotone_nat_of_le_succ fun _ => Nat.le_add_right _ _

theorem mul_pow_lt {k : Nat} (hk : k < unwrapped i) : i * 2 ^ k < 2 ^ 32 := by
  rw [unwrapped] at hk
  calc i * 2 ^ k < 2 ^ (i.log2 + 1) * 2 ^ k := (Nat.mul_lt_mul_right (Nat.two_pow_pos k)).mpr Nat.lt_log2_self
    _ = 2 ^ (i.log2 + 1 + k) := (pow_add 2 _ _).symm
    _ ≤ 2 ^ 32 := Nat.pow_le_pow_right (by decide) (by omega)

theorem terms_succ (m : Nat) : i * (2 ^ (m + 1) - 1) = i * (2 ^ m - 1) + i * 2 ^ m := by
  have hpow := Nat.one_le_two_pow (n := m)
  rw [← Nat.mul_add, Nat.pow_succ]
  congr 1
  omega

theorem waited_eq {m : Nat} (hm : m ≤ unwrapped i) : waited i m = i * (2 ^ m - 1) := by
  induction m with
  | zero => simp [waited]
  | succ m ih =>
    have hlt : i * 2 ^ m < 2 ^ 32 := mul_pow_lt (Nat.lt_of_succ_le hm)
    rw [waited, ih (Nat.le_of_succ_le hm), Nat.mod_eq_of_lt hlt, terms_succ m]

theorem waited_le (m : Nat) : waited i m ≤ i * (2 ^ m - 1) := by
  induction m with
  | zero => simp [waited]
  | succ m ih =>
    rw [waited, terms_succ]
    exact Nat.add_le_add ih (Nat.mod_le _ _)

theorem le_mul_pow (hpos : 0 < i) (hlt : i < 2 ^ 31) : 2 ^ 32 ≤ i * 2 ^ unwrapped i := by
  have hlog : i.log2 < 31 := (Nat.log2_lt hpos.ne').mpr hlt
  have hsum : i.log2 + unwrapped i = 32 := Nat.add_sub_cancel' (by omega)
  calc 2 ^ 32 = 2 ^ i.log2 * 2 ^ unwrapped i := by rw [← pow_add, hsum]
    _ ≤ i * 2 ^ unwrapped i := Nat.mul_le_mul_right _ (Nat.log2_self_le hpos.ne')

theorem mul_pow_unwrapped_lt (hpos : 0 < i) (hlt : i < 2 ^ 31) : i * 2 ^ unwrapped i < 2 ^ 33 := by
  have hlog : i.log2 < 31 := (Nat.log2_lt hpos.ne').mpr hlt
  obtain ⟨k, hk⟩ : ∃ k, unwrapped i = k + 1 := ⟨31 - i.log2, by rw [unwrapped]; omega⟩
  have hlast : i * 2 ^ k < 2 ^ 32 := mul_pow_lt (by omega)
  calc i * 2 ^ unwrapped i = i * 2 ^ k * 2 := by rw [hk, pow_succ, Nat.mul_assoc]
    _ < 2 ^ 32 * 2 := Nat.mul_lt_mul_of_pos_right hlast (by decide)

theorem waited_wrap (hpos : 0 < i) (hlt : i < 2 ^ 31) :
    waited i (unwrapped i + 1) + 2 ^ 32 = i * (2 ^ (unwrapped i + 1) - 1) := by
  have hle := le_mul_pow hpos hlt
  have hlt' := mul_pow_unwrapped_lt hpos hlt
  have hmod : i * 2 ^ unwrapped i % 2 ^ 32 + 2 ^ 32 = i * 2 ^ unwrapped i := by omega
  rw [waited, waited_eq le_rfl, terms_succ (unwrapped i), Nat.add_assoc, hmod]

theorem waited_eq_wrapTime (i : Nat) : waited i (unwrapped i + 1) = wrapTime i := by
  rw [waited, waited_eq le_rfl, wrapTime]

/-- From the wrap on, the time waited stays behind the one meant. -/
theorem waited_add_le (hpos : 0 < i) (hlt : i < 2 ^ 31) {m : Nat} (hm : unwrapped i + 1 ≤ m) :
    waited i m + 2 ^ 32 ≤ i * (2 ^ m - 1) := by
  induction m, hm using Nat.le_induction with
  | base => exact (waited_wrap hpos hlt).le
  | succ m hm ih =>
    rw [waited, terms_succ]
    have hmod := Nat.mod_le (i * 2 ^ m) (2 ^ 32)
    omega

theorem terms_mono {m n : Nat} (h : m ≤ n) : i * (2 ^ m - 1) ≤ i * (2 ^ n - 1) :=
  Nat.mul_le_mul_left i (Nat.sub_le_sub_right (Nat.pow_le_pow_right (by decide) h) 1)

/-- How many terms fit in a time. -/
theorem exists_terms (hpos : 0 < i) (T : Nat) : ∃ m, i * (2 ^ m - 1) ≤ T ∧ T < i * (2 ^ (m + 1) - 1) := by
  have hex : ∃ m, T < i * (2 ^ m - 1) := by
    refine ⟨T + 1, ?_⟩
    have hpow : T + 1 < 2 ^ (T + 1) := Nat.lt_two_pow_self
    calc T < 2 ^ (T + 1) - 1 := by omega
      _ ≤ i * (2 ^ (T + 1) - 1) := Nat.le_mul_of_pos_left _ hpos
  cases hfind : Nat.find hex with
  | zero =>
    have hspec := Nat.find_spec hex
    rw [hfind] at hspec
    simp at hspec
  | succ m =>
    refine ⟨m, Nat.le_of_not_lt (Nat.find_min hex (hfind ▸ Nat.lt_succ_self m)), ?_⟩
    rw [← hfind]
    exact Nat.find_spec hex

/-- Once a time-out may have wrapped, there is a number of retries that come too early. -/
theorem exists_early (hpos : 0 < i) (hlt : i < 2 ^ 31) {T : Nat} (hT : wrapTime i ≤ T) :
    ∃ m, waited i m ≤ T ∧ T < i * (2 ^ m - 1) := by
  obtain ⟨k, hk, hk'⟩ := exists_terms hpos T
  rcases Nat.lt_or_ge (unwrapped i) k with hlate | hearly
  · have hle := waited_add_le hpos hlt hlate
    have hmod := Nat.mod_lt (i * 2 ^ k) (y := 2 ^ 32) (by decide)
    refine ⟨k + 1, ?_, hk'⟩
    rw [waited]
    omega
  · exact ⟨unwrapped i + 1, (waited_eq_wrapTime i).trans_le hT, hk'.trans_le (terms_mono (Nat.succ_le_succ hearly))⟩

end Waiting

section Upper

/-- The entry of a host whose first call was at `t₀` and that has had `F` guesses. -/
def Marked (t₀ : Int) (threshold i F : Nat) (bi : BlacklistInfo) : Prop :=
  F < threshold ∧ bi.marks = F + 1 ∧ bi.blockTimeout = BitVec.ofNat 32 i ∨
    ∃ m, F = threshold + m ∧ bi.marks = threshold ∧ bi.blockTimeout = BitVec.ofNat 32 (i * 2 ^ (m + 1)) ∧
      t₀ + waited i (m + 1) ≤ bi.blockUntil

variable {p} {t₀ : Int} {threshold i F : Nat} {bi : BlacklistInfo}

theorem Marked.attempt (hthreshold : p.threshold.toInt = threshold) (hbi : Marked t₀ threshold i F bi) {now : Int}
    (hnow : t₀ ≤ now) (hfalse : (bi.attempt p now).1 = false) :
    Marked t₀ threshold i (F + 1) (bi.attempt p now).2 ∧ ∀ m, F + 1 = threshold + m → t₀ + waited i m ≤ now := by
  have hdouble : ∀ n, BitVec.ofNat 32 (i * 2 ^ n) * 2 = BitVec.ofNat 32 (i * 2 ^ (n + 1)) := by
    intro n
    rw [pow_succ, ← Nat.mul_assoc, BitVec.ofNat_mul (i * 2 ^ n) 2]
    rfl
  rw [BlacklistInfo.attempt, hthreshold] at hfalse ⊢
  rcases hbi with ⟨hF, hmarks, htimeout⟩ | ⟨m, rfl, hmarks, htimeout, huntil⟩
  · by_cases hlast : bi.marks ≥ threshold
    · have hlast' : F + 1 = threshold := by omega
      rw [if_pos hlast] at hfalse ⊢
      by_cases hpast : now ≥ bi.blockUntil
      · rw [if_pos hpast]
        refine ⟨.inr ⟨0, hlast', by dsimp only; omega, ?_, ?_⟩, fun m hm => ?_⟩
        · rw [htimeout]
          simpa using hdouble 0
        · simp only [waited, htimeout, BitVec.toNat_ofNat]
          omega
        · obtain rfl : m = 0 := by omega
          simpa [waited] using hnow
      · rw [if_neg hpast] at hfalse
        cases hfalse
    · rw [if_neg hlast]
      refine ⟨.inl ⟨by omega, by dsimp only; omega, htimeout⟩, fun m hm => by omega⟩
  · rw [if_pos (by omega)] at hfalse ⊢
    by_cases hpast : now ≥ bi.blockUntil
    · rw [if_pos hpast]
      refine ⟨.inr ⟨m + 1, rfl, hmarks, ?_, ?_⟩, fun n hn => ?_⟩
      · rw [htimeout]
        exact hdouble (m + 1)
      · rw [waited]
        simp only [htimeout, BitVec.toNat_ofNat]
        omega
      · obtain rfl : n = m + 1 := by omega
        exact huntil.trans hpast
    · rw [if_neg hpast] at hfalse
      cases hfalse

theorem attempt_true {now : Int} (h : (bi.attempt p now).1 = true) : (bi.attempt p now).2 = bi := by
  rw [BlacklistInfo.attempt] at h ⊢
  split at h
  · split at h
    · cases h
    · rename_i hmarks hpast
      rw [if_pos hmarks, if_neg hpast]
  · cases h

theorem guesses_eq_zero {until_ : Int} {ts : List Int} (hts : ∀ t ∈ ts, until_ < t) (bi : BlacklistInfo) :
    guesses until_ (entryAnswers p ts bi) = 0 := by
  induction ts generalizing bi with
  | nil => rfl
  | cons t ts ih =>
    obtain ⟨ht, hts'⟩ := List.forall_mem_cons.mp hts
    rw [entryAnswers, guesses, List.countP_cons, ← guesses, ih hts']
    simpa using fun _ => ht

/-- The guesses until some time are not more than there was time to wait for. -/
theorem waited_guesses_le (hthreshold : p.threshold.toInt = threshold) {T : Nat} {ts : List Int}
    (hsorted : ts.Pairwise (· ≤ ·)) (hts : ∀ t ∈ ts, t₀ ≤ t) (hbi : Marked t₀ threshold i F bi)
    (hF : ∀ m, F = threshold + m → waited i m ≤ T) :
    ∀ m, F + guesses (t₀ + T) (entryAnswers p ts bi) = threshold + m → waited i m ≤ T := by
  induction ts generalizing bi F with
  | nil => exact hF
  | cons now ts ih =>
    obtain ⟨hlater, hsorted'⟩ := List.pairwise_cons.mp hsorted
    obtain ⟨hnow, hts'⟩ := List.forall_mem_cons.mp hts
    rw [entryAnswers, guesses, List.countP_cons, ← guesses]
    cases hanswer : (bi.attempt p now).1 with
    | true =>
      rw [attempt_true hanswer]
      simpa using ih hsorted' hts' hbi hF
    | false =>
      obtain ⟨hmarked, hwaited⟩ := hbi.attempt hthreshold hnow hanswer
      by_cases hin : now ≤ t₀ + T
      · have ih := ih hsorted' hts' hmarked fun m hm => by have := hwaited m hm; omega
        intro m hm
        apply ih m
        simp only [Bool.not_false, Bool.true_and, hin, decide_true, if_true] at hm
        omega
      · have hnone : guesses (t₀ + T) (entryAnswers p ts (bi.attempt p now).2) = 0 := by
          exact guesses_eq_zero (fun t ht => (Int.not_le.mp hin).trans_le (hlater t ht)) _
        simpa [hin, hnone] using hF

end Upper

section Lower

variable {p}

/-- A host that has not come to the threshold is let through. -/
theorem entryAnswers_replicate {k : Nat} {bi : BlacklistInfo} (hk : 0 < k → bi.marks + k ≤ p.threshold.toInt)
    (ts : List Int) :
    entryAnswers p (List.replicate k 0 ++ ts) bi =
      List.replicate k (0, false) ++ entryAnswers p ts { bi with marks := bi.marks + k } := by
  induction k generalizing bi with
  | zero => simp
  | succ k ih =>
    have hk := hk (Nat.succ_pos k)
    have hattempt : bi.attempt p 0 = (false, { bi with marks := bi.marks + 1 }) := if_neg (by omega)
    rw [List.replicate_succ, List.cons_append, entryAnswers, hattempt, ih (by dsimp only; omega)]
    dsimp only
    rw [List.replicate_succ, List.cons_append, Int.add_assoc, Int.add_comm 1, Nat.cast_succ]

/-- A host that comes back as soon as it may is let through each time. -/
theorem entryAnswers_retries {i j : Nat} (n : Nat) {bi : BlacklistInfo} (hmarks : p.threshold.toInt ≤ bi.marks)
    (huntil : bi.blockUntil = waited i j) (htimeout : bi.blockTimeout = BitVec.ofNat 32 (i * 2 ^ j)) :
    entryAnswers p ((List.range' j n).map fun j => (waited i j : Int)) bi =
      (List.range' j n).map fun j => ((waited i j : Int), false) := by
  induction n generalizing j bi with
  | zero => rfl
  | succ n ih =>
    have hattempt : bi.attempt p (waited i j) = (false, { bi with
        blockUntil := waited i j + bi.blockTimeout.toNat, blockTimeout := bi.blockTimeout * 2 }) := by
      rw [BlacklistInfo.attempt, if_pos hmarks, if_pos huntil.le]
    rw [List.range'_succ, List.map_cons, entryAnswers, hattempt, List.map_cons]
    refine congrArg _ (ih hmarks ?_ ?_)
    · rw [waited, htimeout, BitVec.toNat_ofNat, Nat.cast_add]
    · rw [htimeout, pow_succ, ← Nat.mul_assoc, BitVec.ofNat_mul (i * 2 ^ j) 2]
      rfl

theorem guesses_map {until_ : Int} {ts : List Int} (hts : ∀ t ∈ ts, t ≤ until_) :
    guesses until_ (ts.map fun t => (t, false)) = ts.length := by
  rw [guesses, List.countP_map, List.countP_eq_length]
  intro t ht
  simpa using hts t ht

theorem times_map (name : Host) (ts : List Int) : times name (ts.map (Call.isBlackmarked name)) = ts := by
  induction ts with
  | nil => rfl
  | cons t ts ih => rw [List.map_cons, times, if_pos rfl, ih]

/-- All that a host may be let through until it has come back `m` times. -/
theorem exists_guesses (name : Host) {i m T : Nat} (hi : p.initialTimeout = BitVec.ofNat 32 i) (hT : waited i m ≤ T) :
    ∃ calls : List (Call Host), .clearBlackmark name ∉ calls ∧
      (times name calls).Pairwise (· ≤ ·) ∧ (times name calls).head? = some 0 ∧
      (guesses T (answers p name calls fun _ => none) : Int) = max 1 p.threshold.toInt + m := by
  obtain ⟨k, hk⟩ : ∃ k : Nat, max 1 p.threshold.toInt = 1 + k := ⟨(max 1 p.threshold.toInt - 1).toNat, by omega⟩
  have hmarks : p.threshold.toInt ≤ ({ newInfo p with marks := (newInfo p).marks + k } : BlacklistInfo).marks := by
    dsimp only [newInfo]
    omega
  have hretries := entryAnswers_retries (i := i) (j := 0) (m + 1) hmarks rfl (by rw [Nat.pow_zero, Nat.mul_one]; exact hi)
  obtain ⟨retries, hdef⟩ : ∃ retries : List Int, retries = (List.range' 0 (m + 1)).map fun j => (waited i j : Int) :=
    ⟨_, rfl⟩
  have hmap : ((List.range' 0 (m + 1)).map fun j => ((waited i j : Int), false)) = retries.map fun t => (t, false) := by
    rw [hdef, List.map_map]
    rfl
  rw [← hdef, hmap] at hretries
  have hlen : retries.length = m + 1 := by rw [hdef, List.length_map, List.length_range']
  have hsorted : retries.Pairwise (· ≤ ·) := by
    rw [hdef, List.pairwise_map]
    refine List.Pairwise.imp (fun h => ?_) (List.pairwise_lt_range' (s := 0) (n := m + 1))
    exact_mod_cast waited_mono h.le
  have hwithin : ∀ t ∈ retries, 0 ≤ t ∧ t ≤ T := by
    intro t ht
    rw [hdef] at ht
    obtain ⟨j, hj, rfl⟩ := List.mem_map.mp ht
    have hj' := (List.mem_range'_1.mp hj).2
    have hle := (waited_mono (i := i) (show j ≤ m by omega)).trans hT
    exact ⟨Int.natCast_nonneg _, by exact_mod_cast hle⟩
  have hclear : .clearBlackmark name ∉ (List.replicate k 0 ++ retries).map (Call.isBlackmarked name) := by
    intro h
    obtain ⟨t, -, ht⟩ := List.mem_map.mp h
    cases ht
  refine ⟨_, hclear, ?_, ?_, ?_⟩
  · rw [times_map, List.pairwise_append]
    refine ⟨List.pairwise_replicate.mpr (.inr le_rfl), hsorted, fun t ht t' ht' => ?_⟩
    rw [List.eq_of_mem_replicate ht]
    exact (hwithin t' ht').1
  · rw [times_map, hdef]
    cases k <;> rfl
  · rw [answers_eq p hclear, times_map]
    dsimp only [Option.getD]
    have hfirst : List.replicate k ((0 : Int), false) = (List.replicate k 0).map fun t => (t, false) := by
      rw [List.map_replicate]
    rw [entryAnswers_replicate (by dsimp only [newInfo]; omega), hretries, hk, hfirst, ← List.map_append, guesses_map]
    · rw [List.length_append, List.length_replicate, hlen]
      omega
    · intro t ht
      rcases List.mem_append.mp ht with ht | ht
      · rw [List.eq_of_mem_replicate ht]
        exact Int.natCast_nonneg T
      · exact (hwithin t ht).2

end Lower

/-- The guesses of a host in some time are bounded unless the threshold is not positive or there is time for the time-out
to wrap. Where the initial time-out is not positive, the bound is none. -/
theorem boundsGuessing_iff (name : Host) (T : Nat) : BoundsGuessing p name T ↔
    (0 < p.initialTimeout.toInt → 0 < p.threshold.toInt ∧ T < wrapTime p.initialTimeout.toNat) := by
  have htoNat : 0 < p.initialTimeout.toInt →
      (p.initialTimeout.toInt = p.initialTimeout.toNat ∧ 0 < p.initialTimeout.toNat) ∧ p.initialTimeout.toNat < 2 ^ 31 := by
    intro hpos
    have hlt := p.initialTimeout.isLt
    rw [BitVec.toInt_eq_toNat_cond] at hpos ⊢
    split at hpos <;> omega
  have hterms : ∀ n : Nat, 0 < p.initialTimeout.toInt →
      terms p n = ((p.initialTimeout.toNat * (2 ^ n - 1) : Nat) : Int) := by
    intro n hpos
    rw [terms, (htoNat hpos).1.1, Nat.cast_mul, Nat.cast_sub Nat.one_le_two_pow]
    norm_num
  have hself : p.initialTimeout = BitVec.ofNat 32 p.initialTimeout.toNat := by rw [BitVec.ofNat_toNat, BitVec.setWidth_eq]
  constructor
  · intro hbounds hpos
    obtain ⟨⟨-, hpos'⟩, hlt⟩ := htoNat hpos
    have hfits : ∀ m, waited p.initialTimeout.toNat m ≤ T → ∃ n : Nat, p.initialTimeout.toNat * (2 ^ n - 1) ≤ T ∧
        max 1 p.threshold.toInt + m ≤ p.threshold.toInt + n := by
      intro m hm
      obtain ⟨calls, hclear, hsorted, hhead, hguesses⟩ := exists_guesses name hself hm
      obtain ⟨n, hn, hle⟩ := hbounds calls (fun _ => none) 0 rfl hclear hsorted hhead
      rw [Int.zero_add, hguesses] at hle
      rw [hterms n hpos] at hn
      exact ⟨n, by exact_mod_cast hn, by omega⟩
    have hthreshold : 0 < p.threshold.toInt := by
      by_contra hthreshold
      obtain ⟨m, hm, hm'⟩ := exists_terms hpos' T
      obtain ⟨n, hn, hle⟩ := hfits m ((waited_le m).trans hm)
      exact absurd (terms_mono (show m + 1 ≤ n by omega)) (Nat.not_le.mpr (hn.trans_lt hm'))
    refine ⟨hthreshold, ?_⟩
    by_contra hT
    obtain ⟨m, hm, hm'⟩ := exists_early hpos' hlt (Nat.le_of_not_lt hT)
    obtain ⟨n, hn, hle⟩ := hfits m hm
    exact absurd (terms_mono (show m ≤ n by omega)) (Nat.not_le.mpr (hn.trans_lt hm'))
  · intro hcond calls blm t₀ hnone hclear hsorted hhead
    rw [answers_eq p hclear, hnone, Option.getD_none]
    by_cases hpos : 0 < p.initialTimeout.toInt
    · obtain ⟨hthreshold, hT⟩ := hcond hpos
      obtain ⟨threshold, hθ⟩ : ∃ threshold : Nat, p.threshold.toInt = threshold := ⟨p.threshold.toInt.toNat, by omega⟩
      have hts : ∀ t ∈ times name calls, t₀ ≤ t := by
        obtain ⟨ts, hts⟩ := List.head?_eq_some_iff.mp hhead
        rw [hts] at hsorted ⊢
        exact List.forall_mem_cons.mpr ⟨le_rfl, (List.pairwise_cons.mp hsorted).1⟩
      have hmarked : Marked t₀ threshold p.initialTimeout.toNat 0 (newInfo p) := .inl ⟨by omega, rfl, hself⟩
      have hguesses := waited_guesses_le hθ (T := T) hsorted hts hmarked fun m hm => by omega
      rw [Nat.zero_add] at hguesses
      generalize guesses (t₀ + T) (entryAnswers p (times name calls) (newInfo p)) = G at hguesses ⊢
      rcases Nat.le_total G threshold with hle | hle
      · refine ⟨0, by simp [terms], by omega⟩
      · have hwaited := hguesses (G - threshold) (by omega)
        have hfew : G - threshold ≤ unwrapped p.initialTimeout.toNat := by
          by_contra hmany
          have hwrap := waited_mono (i := p.initialTimeout.toNat) (Nat.lt_of_not_le hmany)
          rw [Nat.succ_eq_add_one, waited_eq_wrapTime] at hwrap
          omega
        refine ⟨G - threshold, ?_, by omega⟩
        rw [hterms _ hpos, ← waited_eq hfew]
        exact_mod_cast hwaited
    · generalize guesses (t₀ + T) (entryAnswers p (times name calls) (newInfo p)) = G
      refine ⟨(G - p.threshold.toInt).toNat, ?_, by omega⟩
      have hnonneg : (0 : Int) ≤ 2 ^ (G - p.threshold.toInt).toNat - 1 := by
        have hpow := Nat.one_le_two_pow (n := (G - p.threshold.toInt).toNat)
        have hpow' : (1 : Int) ≤ 2 ^ (G - p.threshold.toInt).toNat := by exact_mod_cast hpow
        omega
      exact (Int.mul_nonpos_of_nonpos_of_nonneg (by omega) hnonneg).trans (Int.natCast_nonneg T)

/-- With a threshold of no attempts the first one is let through all the same. -/
theorem not_boundsGuessing_threshold_zero : ¬BoundsGuessing ⟨0, 10⟩ "192.0.2.1" 0 := by
  intro h
  obtain ⟨n, hn, hle⟩ := h [.isBlackmarked "192.0.2.1" 0] (fun _ => none) 0 rfl (by simp) (by simp [times]) rfl
  have hguesses : guesses (0 + (0 : Nat)) (answers ⟨0, 10⟩ "192.0.2.1" [.isBlackmarked "192.0.2.1" 0] fun _ => none) = 1 := by
    decide
  have hterms : terms ⟨0, 10⟩ n = 10 * (2 ^ n - 1) := rfl
  have hthreshold : (0#32).toInt = 0 := rfl
  rw [hguesses] at hle
  rw [hterms] at hn
  cases n with
  | zero => exact absurd hle (by decide)
  | succ n =>
    have hpow : (1 : Int) ≤ 2 ^ n := one_le_pow₀ (by decide)
    rw [pow_succ] at hn
    omega

end Colama.Vnc4.Blacklist
