import Colama.Ganglia.Hash

namespace Colama.Ganglia

open Lib

theorem CString.key_inj {s t : CString} : s.key = t.key ↔ s = t := by
  refine ⟨fun h => ?_, fun h => congrArg CString.key h⟩
  obtain ⟨chars, _⟩ := s
  obtain ⟨chars', _⟩ := t
  cases List.append_cancel_right h
  rfl

theorem toNat_sub_ne {a b : UInt8} (h : a ≠ b) : (a.toNat : Int) - b.toNat ≠ 0 := fun hsub =>
  h (UInt8.toNat_inj.mp (by omega))

theorem strncmp_chars {as bs : List UInt8} (hlen : as.length = bs.length) (has : ∀ a ∈ as, a ≠ 0) :
    strncmp (as.length + 1) (as ++ [0]) (bs ++ [0]) = 0 ↔ as = bs := by
  induction as generalizing bs with
  | nil =>
    obtain rfl := List.length_eq_zero_iff.mp hlen.symm
    exact iff_of_true rfl rfl
  | cons a as ih =>
    cases bs with
    | nil => cases hlen
    | cons b bs =>
      obtain ⟨ha, has'⟩ := List.forall_mem_cons.mp has
      rw [List.length_cons, List.cons_append, List.cons_append, strncmp]
      by_cases hab : a = b
      · rw [if_neg (not_not.mpr hab), if_neg ha, ih (Nat.succ_inj.mp hlen) has']
        simp only [List.cons.injEq, hab, true_and]
      · rw [if_pos hab]
        exact iff_of_false (toNat_sub_ne hab) fun h => hab (List.cons.inj h).1

theorem strncmp_key (s t : CString) : (s.key.length = t.key.length ∧ strncmp t.key.length s.key t.key = 0) ↔ s.key = t.key := by
  constructor
  · rintro ⟨hlen, hcmp⟩
    have hchars : s.chars.length = t.chars.length := by simpa [CString.key] using hlen
    rw [← hlen, CString.key, CString.key, List.length_append] at hcmp
    rw [CString.key, CString.key, (strncmp_chars hchars s.nonzero).mp hcmp]
  · intro h
    obtain rfl := CString.key_inj.1 h
    refine ⟨rfl, ?_⟩
    rw [CString.key, List.length_append]
    exact (strncmp_chars rfl s.nonzero).mpr rfl

theorem memcmp_eq_zero {a b : Datum} (hlen : a.length = b.length) : memcmp a.length a b = 0 ↔ a = b := by
  induction a generalizing b with
  | nil =>
    obtain rfl := List.length_eq_zero_iff.mp hlen.symm
    exact iff_of_true rfl rfl
  | cons x a ih =>
    cases b with
    | nil => cases hlen
    | cons y b =>
      rw [List.length_cons, memcmp]
      by_cases hxy : x = y
      · rw [if_neg (not_not.mpr hxy), ih (Nat.succ_inj.mp hlen)]
        simp only [List.cons.injEq, hxy, true_and]
      · rw [if_pos hxy]
        exact iff_of_false (toNat_sub_ne hxy) fun h => hxy (List.cons.inj h).1

theorem overwrite_eq (old val : Datum) : overwrite old val = if val = [] ∧ old ≠ [] then none else some val := by
  rw [overwrite]
  by_cases hlen : old.length = val.length
  · rw [if_neg (not_not.mpr hlen), if_neg]
    · simp [← hlen]
    · rintro ⟨rfl, hold⟩
      exact hold (List.length_eq_zero_iff.mp hlen)
  · rw [if_pos hlen, realloc]
    by_cases hval : val = []
    · subst hval
      have hold : old ≠ [] := fun h => hlen (congrArg List.length h)
      simp [hold]
    · rw [if_neg fun h => hval (List.length_eq_zero_iff.mp h), if_neg fun h => hval h.1]
      simp only [Option.bind_eq_bind, Option.bind_some, Option.some.injEq]
      refine List.append_right_eq_self.mpr (List.drop_eq_nil_iff.mpr ?_)
      rw [List.length_append, List.length_take, List.length_replicate]
      omega

section Chains

variable {V : Type*}

/-- The value of a key in a chain. -/
def chainVal (c : List (Bucket V)) (key : Datum) : Option V := (c.find? fun b => decide (b.key = key)).map Bucket.val

/-- The keys of a chain are strings, each of them once. -/
structure Proper (c : List (Bucket V)) : Prop where
  string : ∀ b ∈ c, ∃ s : CString, b.key = s.key
  nodup : (c.map Bucket.key).Nodup

variable {c : List (Bucket V)} {b : Bucket V} {key key' : Datum}

theorem Proper.of_cons (h : Proper (b :: c)) : (∃ s : CString, b.key = s.key) ∧ b.key ∉ c.map Bucket.key ∧ Proper c := by
  obtain ⟨hstring, hnodup⟩ := h
  rw [List.map_cons, List.nodup_cons] at hnodup
  obtain ⟨hb, hc⟩ := List.forall_mem_cons.mp hstring
  exact ⟨hb, hnodup.1, hc, hnodup.2⟩

theorem chainVal_cons (b : Bucket V) (c : List (Bucket V)) (key : Datum) :
    chainVal (b :: c) key = if b.key = key then some b.val else chainVal c key := by
  rw [chainVal, List.find?_cons]
  by_cases h : b.key = key
  · simp [h]
  · simp [h, chainVal]

theorem chainVal_eq_none : chainVal c key = none ↔ key ∉ c.map Bucket.key := by
  simp [chainVal, List.find?_eq_none]

theorem chainVal_eq_some (h : Proper c) {v : V} : chainVal c key = some v ↔ ⟨key, v⟩ ∈ c := by
  induction c with
  | nil => simp [chainVal]
  | cons b c ih =>
    obtain ⟨-, hnot, hc⟩ := h.of_cons
    rw [chainVal_cons, List.mem_cons]
    by_cases hkey : b.key = key
    · rw [if_pos hkey, Option.some_inj]
      constructor
      · rintro rfl
        exact .inl (by rw [← hkey])
      · rintro (heq | hmem)
        · rw [← heq]
        · exact absurd (List.mem_map.mpr ⟨_, hmem, hkey.symm⟩) hnot
    · rw [if_neg hkey, ih hc]
      refine ⟨.inr, fun h => h.resolve_left ?_⟩
      rintro rfl
      exact hkey rfl

/-- The chain with another value for a key. -/
def setVal (c : List (Bucket V)) (key : Datum) (v : V) : List (Bucket V) :=
  c.map fun b => if b.key = key then { b with val := v } else b

theorem map_key_setVal (c : List (Bucket V)) (key : Datum) (v : V) : (setVal c key v).map Bucket.key = c.map Bucket.key := by
  rw [setVal, List.map_map]
  apply List.map_congr_left
  intro b _
  rw [Function.comp_apply]
  split <;> rfl

theorem setVal_of_notMem (h : key ∉ c.map Bucket.key) (v : V) : setVal c key v = c := by
  rw [setVal]
  refine (List.map_congr_left fun b hb => ?_).trans (List.map_id c)
  exact if_neg fun hkey => h (List.mem_map.mpr ⟨b, hb, hkey⟩)

theorem chainVal_setVal (h : key ∈ c.map Bucket.key) (v : V) :
    chainVal (setVal c key v) key' = if key' = key then some v else chainVal c key' := by
  induction c with
  | nil => cases h
  | cons b c ih =>
    have hcons : setVal (b :: c) key v = (if b.key = key then { b with val := v } else b) :: setVal c key v := rfl
    rw [hcons, chainVal_cons, chainVal_cons]
    by_cases hkey : b.key = key
    · rw [if_pos hkey]
      by_cases hkey' : key' = key
      · rw [if_pos (hkey.trans hkey'.symm), if_pos hkey']
      · have hne : ¬b.key = key' := fun h => hkey' (h.symm.trans hkey)
        rw [if_neg hne, if_neg hkey', if_neg hne]
        by_cases hmem : key ∈ c.map Bucket.key
        · rw [ih hmem, if_neg hkey']
        · rw [setVal_of_notMem hmem]
    · have hmem : key ∈ c.map Bucket.key := (List.mem_cons.mp h).resolve_left fun h => hkey h.symm
      rw [if_neg hkey, ih hmem]
      by_cases hkey' : key' = key
      · rw [if_neg (hkey' ▸ hkey), if_pos hkey', if_pos hkey']
      · rw [if_neg hkey', if_neg hkey']

theorem replaceVal_spec {c : List (Bucket Datum)} (h : Proper c) (s : CString) (val : Datum) :
    chainVal c s.key = none ∧ replaceVal s.key val c = none ∨ ∃ old, chainVal c s.key = some old ∧
      replaceVal s.key val c = some ((overwrite old val).map fun v => setVal c s.key v) := by
  induction c with
  | nil => exact .inl ⟨rfl, rfl⟩
  | cons b c ih =>
    obtain ⟨⟨t, ht⟩, hnot, hc⟩ := h.of_cons
    have hcmp := strncmp_key t s
    rw [← ht] at hcmp
    rw [chainVal_cons, replaceVal]
    by_cases hkey : b.key = s.key
    · rw [if_pos hkey, if_pos (hcmp.mpr hkey)]
      refine .inr ⟨b.val, rfl, congrArg some (congrArg (Option.map · _) (funext fun v => ?_))⟩
      have hcons : setVal (b :: c) s.key v = (if b.key = s.key then { b with val := v } else b) :: setVal c s.key v := rfl
      rw [hcons, if_pos hkey, setVal_of_notMem (hkey ▸ hnot)]
    · rw [if_neg hkey, if_neg fun h => hkey (hcmp.mp h)]
      refine (ih hc).imp (fun ⟨hnone, hrep⟩ => ⟨hnone, by rw [hrep]; rfl⟩) ?_
      rintro ⟨old, hold, hrep⟩
      refine ⟨old, hold, ?_⟩
      have hcons : ∀ v, setVal (b :: c) s.key v = b :: setVal c s.key v := by
        intro v
        rw [setVal, List.map_cons, if_neg hkey, ← setVal]
      rw [hrep, Option.map_some, Option.map_map]
      simp only [hcons]
      rfl

theorem removeKey_spec (h : Proper c) (s : CString) :
    chainVal c s.key = none ∧ removeKey s.key c = none ∨ ∃ v, chainVal c s.key = some v ∧
      removeKey s.key c = some (v, c.filter fun b => decide (b.key ≠ s.key)) := by
  induction c with
  | nil => exact .inl ⟨rfl, rfl⟩
  | cons b c ih =>
    obtain ⟨⟨t, ht⟩, hnot, hc⟩ := h.of_cons
    have hcmp : (b.key.length = s.key.length ∧ strncmp s.key.length s.key b.key = 0) ↔ b.key = s.key := by
      rw [ht]
      constructor
      · rintro ⟨hlen, hcmp⟩
        rw [← hlen] at hcmp
        exact ((strncmp_key s t).mp ⟨hlen.symm, hcmp⟩).symm
      · intro heq
        rw [heq]
        exact (strncmp_key s s).mpr rfl
    rw [chainVal_cons, removeKey]
    by_cases hkey : b.key = s.key
    · rw [if_pos hkey, if_pos (hcmp.mpr hkey)]
      refine .inr ⟨b.val, rfl, ?_⟩
      rw [List.filter_cons_of_neg (by simpa using hkey), List.filter_eq_self.mpr]
      intro b' hb'
      rw [decide_eq_true_eq]
      intro hkey'
      exact hnot (List.mem_map.mpr ⟨b', hb', hkey'.trans hkey.symm⟩)
    · rw [if_neg hkey, if_neg fun h => hkey (hcmp.mp h)]
      refine (ih hc).imp (fun ⟨hnone, hrem⟩ => ⟨hnone, by rw [hrem]; rfl⟩) ?_
      rintro ⟨v, hv, hrem⟩
      refine ⟨v, hv, ?_⟩
      rw [hrem, List.filter_cons_of_pos (by simpa using hkey)]
      rfl

theorem chainVal_filter (c : List (Bucket V)) (key key' : Datum) :
    chainVal (c.filter fun b => decide (b.key ≠ key)) key' = if key' = key then none else chainVal c key' := by
  induction c with
  | nil =>
    rw [List.filter_nil]
    split <;> rfl
  | cons b c ih =>
    rw [List.filter_cons, chainVal_cons]
    by_cases hkey : b.key = key
    · have hne : decide (b.key ≠ key) = false := decide_eq_false (not_not.mpr hkey)
      rw [hne, if_neg Bool.false_ne_true, ih]
      by_cases hkey' : key' = key
      · rw [if_pos hkey', if_pos hkey']
      · rw [if_neg hkey', if_neg hkey', if_neg fun h => hkey' (h.symm.trans hkey)]
    · rw [decide_eq_true hkey, if_pos rfl, chainVal_cons, ih]
      by_cases hkey' : key' = key
      · rw [if_neg (hkey' ▸ hkey), if_pos hkey', if_pos hkey']
      · rw [if_neg hkey', if_neg hkey']

end Chains

namespace Hash

variable {V : Type*} {h : Hash V} {i j : Nat} {c : List (Bucket V)}

@[simp] theorem size_setChain (h : Hash V) (i : Nat) (c : List (Bucket V)) : (h.setChain i c).size = h.size :=
  List.length_set

theorem chain_setChain (hi : i < h.size) : (h.setChain i c).chain j = if j = i then c else h.chain j := by
  rw [chain, setChain, List.getD_eq_getElem?_getD, List.getElem?_set]
  by_cases hij : i = j
  · subst hij
    rw [if_pos rfl, if_pos rfl, if_pos (show i < h.node.length from hi)]
    rfl
  · rw [if_neg hij, if_neg (Ne.symm hij), chain, List.getD_eq_getElem?_getD]

theorem Placed.proper (hp : h.Placed) (i : Nat) : Proper (h.chain i) :=
  ⟨fun b hb => (hp.key i b hb).2, hp.nodup i⟩

/-- The value of a key in the table. -/
def get (h : Hash V) (key : Datum) : Option V := chainVal (h.chain (hashval h.size key)) key

theorem lookup_eq (h : Hash V) (key : Datum) : h.lookup key = h.get key := by
  rw [lookup, get, chainVal]
  congr 2
  funext b
  rw [decide_eq_decide]
  constructor
  · rintro ⟨hlen, hcmp⟩
    exact ((memcmp_eq_zero hlen).mp hcmp).symm
  · intro hkey
    rw [hkey]
    exact ⟨rfl, (memcmp_eq_zero rfl).mpr rfl⟩

end Hash

theorem foldl_hashval_lt {size : Nat} (hsize : 0 < size) (bs : Datum) {hash : Nat} (hash_lt : hash < size) :
    bs.foldl (fun hash b => (hash * 32 + b.toNat) % size) hash < size := by
  induction bs generalizing hash with
  | nil => exact hash_lt
  | cons b bs ih => exact ih (Nat.mod_lt _ hsize)

theorem hashval_lt {size : Nat} (hsize : 0 < size) (key : Datum) : hashval size key < size := by
  cases key with
  | nil => exact hsize
  | cons b bs => exact foldl_hashval_lt hsize bs (Nat.mod_lt _ hsize)

namespace Hash

variable {V : Type*} {h : Hash V}

/-- Another chain for the node of a key, that differs in the value of the key alone. -/
theorem Placed.setChain (hp : h.Placed) {key : Datum} (hkey : ∃ s : CString, key = s.key) {c : List (Bucket V)}
    (hkeys : ∀ k ∈ c.map Bucket.key, k = key ∨ k ∈ (h.chain (hashval h.size key)).map Bucket.key)
    (hnodup : (c.map Bucket.key).Nodup) : (h.setChain (hashval h.size key) c).Placed := by
  have hi := hashval_lt hp.size_pos key
  refine ⟨by rw [size_setChain]; exact hp.size_pos, fun j b hb => ?_, fun j => ?_⟩
  · rw [chain_setChain hi] at hb
    rw [size_setChain]
    split at hb
    · rename_i hj
      rcases hkeys b.key (List.mem_map_of_mem hb) with heq | hmem
      · rw [heq, hj]
        exact ⟨rfl, hkey⟩
      · obtain ⟨b', hb', heq⟩ := List.mem_map.mp hmem
        rw [← heq, hj]
        exact hp.key _ b' hb'
    · exact hp.key j b hb
  · rw [chain_setChain hi]
    split
    · exact hnodup
    · exact hp.nodup j

theorem Placed.get_setChain (hp : h.Placed) {key : Datum} {c : List (Bucket V)} {v : Option V}
    (hc : ∀ k, chainVal c k = if k = key then v else chainVal (h.chain (hashval h.size key)) k) (k : Datum) :
    (h.setChain (hashval h.size key) c).get k = if k = key then v else h.get k := by
  rw [get, size_setChain, chain_setChain (hashval_lt hp.size_pos key)]
  by_cases hk : k = key
  · rw [if_pos (by rw [hk]), hc]
    simp only [hk, if_true]
  · rw [if_neg hk]
    split
    · rename_i hval
      rw [hc, if_neg hk, get, hval]
    · rfl

theorem Placed.delete (hp : h.Placed) (s : CString) : (h.delete s.key).2.Placed ∧ (h.delete s.key).1 = h.get s.key ∧
    ∀ k, (h.delete s.key).2.get k = if k = s.key then none else h.get k := by
  rw [Hash.delete]
  rcases removeKey_spec (hp.proper (hashval h.size s.key)) s with ⟨hnone, hrem⟩ | ⟨v, hv, hrem⟩
  · rw [hrem]
    refine ⟨hp, hnone.symm, fun k => ?_⟩
    by_cases hk : k = s.key
    · rw [if_pos hk, hk]
      exact hnone
    · rw [if_neg hk]
  · rw [hrem]
    have hfilter := chainVal_filter (h.chain (hashval h.size s.key)) s.key
    refine ⟨hp.setChain ⟨s, rfl⟩ (fun k hk => .inr ?_) ?_, hv.symm, hp.get_setChain hfilter⟩
    · obtain ⟨b, hb, rfl⟩ := List.mem_map.mp hk
      exact List.mem_map_of_mem (List.mem_filter.mp hb).1
    · exact (hp.nodup _).sublist (List.filter_sublist.map _)

theorem Placed.insert {h : Hash Datum} (hp : h.Placed) (s : CString) (val : Datum) :
    (val = [] ∧ (∃ old, h.get s.key = some old ∧ old ≠ []) ∧ h.insert s.key val = none) ∨
    (¬(val = [] ∧ ∃ old, h.get s.key = some old ∧ old ≠ []) ∧ ∃ h', h.insert s.key val = some (val, h') ∧ h'.Placed ∧
      ∀ k, h'.get k = if k = s.key then some val else h.get k) := by
  have hproper := hp.proper (hashval h.size s.key)
  rw [Hash.insert]
  rcases replaceVal_spec hproper s val with ⟨hnone, hrep⟩ | ⟨old, hold, hrep⟩
  · rw [hrep]
    have hnew : ¬(val = [] ∧ ∃ old, h.get s.key = some old ∧ old ≠ []) := by
      rintro ⟨-, old, hold, -⟩
      exact nomatch hnone.symm.trans hold
    refine .inr ⟨hnew, _, rfl, hp.setChain ⟨s, rfl⟩ ?_ ?_, ?_⟩
    · intro k hk
      exact (List.mem_cons.mp hk).imp id id
    · exact List.nodup_cons.mpr ⟨chainVal_eq_none.mp hnone, hp.nodup _⟩
    · refine hp.get_setChain fun k => ?_
      rw [chainVal_cons]
      exact if_congr eq_comm rfl rfl
  · rw [hrep, overwrite_eq]
    by_cases hempty : val = [] ∧ old ≠ []
    · rw [if_pos hempty]
      exact .inl ⟨hempty.1, ⟨old, hold, hempty.2⟩, rfl⟩
    · rw [if_neg hempty]
      have hmem : s.key ∈ (h.chain (hashval h.size s.key)).map Bucket.key := by
        by_contra hnot
        exact nomatch (chainVal_eq_none.mpr hnot).symm.trans hold
      refine .inr ⟨?_, _, rfl, hp.setChain ⟨s, rfl⟩ ?_ ?_, ?_⟩
      · rintro ⟨hval, old', hold', hne⟩
        cases hold.symm.trans hold'
        exact hempty ⟨hval, hne⟩
      · intro k hk
        rw [map_key_setVal] at hk
        exact .inr hk
      · rw [map_key_setVal]
        exact hp.nodup _
      · exact hp.get_setChain fun k => chainVal_setVal hmem val

/-- The pairs of a table, chain by chain. -/
def pairs (h : Hash V) : List (Datum × V) := h.node.flatMap fun c => c.map fun b => (b.key, b.val)

theorem visited_eq (h : Hash V) : h.visited = some h.pairs := by
  have hchain : ∀ (c : List (Bucket V)) (seen : List (Datum × V)),
      walkChain (fun key v seen => some (v, seen ++ [(key, v)], false)) c seen =
        some (c, seen ++ c.map fun b => (b.key, b.val), false) := by
    intro c
    induction c with
    | nil => exact fun seen => by simp [walkChain]
    | cons b c ih => exact fun seen => by simp [walkChain, ih]
  have hnodes : ∀ (cs : List (List (Bucket V))) (seen : List (Datum × V)),
      walkNodes (fun key v seen => some (v, seen ++ [(key, v)], false)) cs seen =
        some (cs, seen ++ cs.flatMap fun c => c.map fun b => (b.key, b.val), false) := by
    intro cs
    induction cs with
    | nil => exact fun seen => by simp [walkNodes]
    | cons c cs ih => exact fun seen => by simp [walkNodes, hchain, ih]
  rw [visited, foreach, walkfrom, hnodes]
  rfl

theorem mem_pairs (hp : h.Placed) {key : Datum} {v : V} : (key, v) ∈ h.pairs ↔ h.get key = some v := by
  rw [get, chainVal_eq_some (hp.proper _), pairs]
  simp only [List.mem_flatMap, List.mem_map, Prod.mk.injEq]
  constructor
  · rintro ⟨c, hc, b, hb, rfl, rfl⟩
    obtain ⟨i, hi, rfl⟩ := List.mem_iff_getElem.mp hc
    have hchain : h.chain i = h.node[i] := by
      rw [chain, List.getD_eq_getElem?_getD, List.getElem?_eq_getElem hi]
      rfl
    have hval := (hp.key i b (hchain ▸ hb)).1
    rw [hval, hchain]
    exact hb
  · intro hb
    refine ⟨h.chain (hashval h.size key), ?_, _, hb, rfl, rfl⟩
    have hi := hashval_lt hp.size_pos key
    rw [chain, List.getD_eq_getElem?_getD, List.getElem?_eq_getElem hi]
    exact List.getElem_mem hi

theorem nodup_pairs (hp : h.Placed) : (h.pairs.map Prod.fst).Nodup := by
  have hmap : h.pairs.map Prod.fst = h.node.flatMap fun c => c.map Bucket.key := by
    rw [pairs, List.map_flatMap]
    simp only [List.map_map]
    rfl
  have hchain : ∀ i (hi : i < h.node.length), h.chain i = h.node[i] := by
    intro i hi
    rw [chain, List.getD_eq_getElem?_getD, List.getElem?_eq_getElem hi]
    rfl
  rw [hmap, List.nodup_flatMap]
  constructor
  · intro c hc
    obtain ⟨i, hi, rfl⟩ := List.mem_iff_getElem.mp hc
    rw [← hchain i hi]
    exact hp.nodup i
  · rw [List.pairwise_iff_getElem]
    intro i j hi hj hij
    rw [Function.onFun, List.disjoint_left]
    intro key hkey hkey'
    obtain ⟨b, hb, rfl⟩ := List.mem_map.mp hkey
    obtain ⟨b', hb', heq⟩ := List.mem_map.mp hkey'
    have hval := (hp.key i b (hchain i hi ▸ hb)).1
    have hval' := (hp.key j b' (hchain j hj ▸ hb')).1
    rw [heq, hval] at hval'
    exact hij.ne hval'

/-- The table has the values of the map. -/
structure Maps (h : Hash Datum) (m : CString → Option Datum) : Prop where
  placed : h.Placed
  get : ∀ s : CString, h.get s.key = m s

theorem Maps.holds {h : Hash Datum} {m : CString → Option Datum} (hm : h.Maps m) : h.Holds m := by
  refine ⟨hm.placed, fun s => (lookup_eq h s.key).trans (hm.get s), h.pairs, visited_eq h, nodup_pairs hm.placed, ?_⟩
  intro key val
  rw [mem_pairs hm.placed]
  constructor
  · intro hget
    obtain ⟨s, rfl⟩ := (hm.placed.proper _).string ⟨key, val⟩ ((chainVal_eq_some (hm.placed.proper _)).mp hget)
    exact ⟨s, rfl, (hm.get s).symm.trans hget⟩
  · rintro ⟨s, rfl, hs⟩
    exact (hm.get s).trans hs

theorem hashPrime_pos (size : Nat) : 0 < hashPrime size := by
  have hall : ∀ p ∈ primes, 0 < p := by decide +kernel
  rw [hashPrime]
  cases hfind : primes.find? fun p => decide (p > size) with
  | none => exact hall _ (List.getLast_mem (by decide))
  | some p => exact hall p (List.mem_of_find?_eq_some hfind)

theorem chain_create (size i : Nat) : (create size : Hash V).chain i = [] := by
  rw [chain, create, List.getD_eq_getElem?_getD, List.getElem?_replicate]
  split <;> rfl

theorem placed_create (size : Nat) : (create size : Hash V).Placed := by
  refine ⟨?_, fun i b hb => ?_, fun i => ?_⟩
  · rw [Hash.size, create, List.length_replicate]
    exact hashPrime_pos size
  · rw [chain_create] at hb
    cases hb
  · rw [chain_create]
    exact List.nodup_nil

theorem maps_create (size : Nat) : (create size : Hash Datum).Maps fun _ => none := by
  refine ⟨placed_create size, fun s => ?_⟩
  rw [get, chain_create]
  rfl

end Hash

/-- A call for a table that has the values of a map. -/
theorem hashStep_spec {s : Hash Datum × (CString → Option Datum)} (hs : s.1.Maps s.2) (call : HashCall) :
    (call.Fits s.2 ∧ ∃ h, hashStep s call = .ok (h, (call.onMap s.2).2) ∧ h.Maps (call.onMap s.2).2) ∨
      ¬call.Fits s.2 ∧ hashStep s call = .error () := by
  obtain ⟨h, m⟩ := s
  obtain ⟨hp, hget⟩ := hs
  dsimp only at hp hget
  rw [hashStep]
  have hupdate : ∀ (s : CString) (v : Option Datum) (h' : Hash Datum),
      (∀ k, h'.get k = if k = s.key then v else h.get k) → ∀ t : CString, h'.get t.key = Function.update m s v t := by
    intro s v h' hh' t
    rw [hh', Function.update_apply, hget]
    exact if_congr CString.key_inj rfl rfl
  cases call with
  | insert key val =>
    rcases hp.insert key val with ⟨rfl, ⟨old, hold, hne⟩, hinsert⟩ | ⟨hfits, h', hinsert, hp', hget'⟩
    · refine .inr ⟨fun hfits => ?_, by simp only [Hash.call, hinsert, Option.map_none]⟩
      rcases hfits rfl with hnone | hempty
      · exact nomatch ((hget key).trans hnone).symm.trans hold
      · cases ((hget key).trans hempty).symm.trans hold
        exact hne rfl
    · refine .inl ⟨fun hval => ?_, h', ?_, hp', hupdate key (some val) h' hget'⟩
      · dsimp only
        rw [← hget]
        cases hold : h.get key.key with
        | none => exact .inl rfl
        | some old =>
          by_contra hne
          exact hfits ⟨hval, old, hold, fun h => hne (.inr (congrArg some h))⟩
      · simp only [Hash.call, hinsert, Option.map_some, HashCall.onMap, if_true]
  | lookup key =>
    refine .inl ⟨trivial, h, ?_, hp, hget⟩
    simp only [Hash.call, HashCall.onMap, Hash.lookup_eq, hget, if_true]
  | delete key =>
    obtain ⟨hp', hans, hget'⟩ := hp.delete key
    refine .inl ⟨trivial, (h.delete key.key).2, ?_, hp', hupdate key none _ hget'⟩
    simp only [Hash.call, HashCall.onMap, hans, hget, if_true]

/-- The calls for a table of any size give what those for a map give as long as no value of no bytes replaces one that
has some. -/
theorem hash_safe_iff (size : Nat) (calls : List HashCall) :
    Safe hashStep (fun s => s.1.Holds s.2) () calls (Hash.create size, fun _ => none) ↔
      Along hashStep (fun s call => call.Fits s.2) calls (Hash.create size, fun _ => none) := by
  refine safe_iff_along (fun s => s.1.Maps s.2) (fun s hs => hs.holds) (fun s call hs hfits => ?_)
    (fun s call hs hfits => ?_) (Hash.maps_create size)
  · rcases hashStep_spec hs call with ⟨-, h, hstep, hmaps⟩ | ⟨hnot, -⟩
    · rw [hstep]
      exact ⟨nofun, fun s' hs' => by cases hs'; exact hmaps⟩
    · exact absurd hfits hnot
  · exact ((hashStep_spec hs call).resolve_left fun h => hfits h.1).2

end Colama.Ganglia
