import Colama.Lib.Linked
import Colama.Xvnc.Palette

namespace Colama.Xvnc

open Lib (Linked)

namespace Palette

/-- The entries below `n` but for the one at `gap`, and the nodes below `n` but for `p`, point at each other. The node
`m` has the count `cnt m`, and behind the gap no count is above `count`. -/
structure Gap (pal : Palette) (n p gap : Nat) (cnt : Nat → Nat) (count : Nat) : Prop where
  entry : ∀ i < n, i ≠ gap → (pal.entry i).listNode < n ∧ (pal.entry i).listNode ≠ p ∧
    (pal.list (pal.entry i).listNode).idx = i
  node : ∀ m < n, m ≠ p → (pal.list m).idx < n ∧ (pal.list m).idx ≠ gap ∧
    (pal.entry (pal.list m).idx).listNode = m ∧ (pal.entry (pal.list m).idx).numPixels = cnt m
  sorted : ∀ i j, i ≤ j → j < n → i ≠ gap → j ≠ gap → (pal.entry j).numPixels ≤ (pal.entry i).numPixels
  behind : ∀ i < n, gap < i → (pal.entry i).numPixels ≤ count

/-- The same without a gap. -/
structure Full (pal : Palette) (n : Nat) (cnt : Nat → Nat) : Prop where
  entry : ∀ i < n, (pal.entry i).listNode < n ∧ (pal.list (pal.entry i).listNode).idx = i
  node : ∀ m < n, (pal.list m).idx < n ∧ (pal.entry (pal.list m).idx).listNode = m ∧
    (pal.entry (pal.list m).idx).numPixels = cnt m
  sorted : ∀ i j, i ≤ j → j < n → (pal.entry j).numPixels ≤ (pal.entry i).numPixels

variable {pal pal' : Palette} {n p gap count : Nat} {cnt : Nat → Nat}

/-- The colours and the hash lists are not touched. -/
def SameLists (pal pal' : Palette) : Prop :=
  pal'.hash = pal.hash ∧ pal'.numColors = pal.numColors ∧
    ∀ node, (pal'.list node).next = (pal.list node).next ∧ (pal'.list node).rgb = (pal.list node).rgb

theorem SameLists.refl (pal : Palette) : SameLists pal pal := ⟨rfl, rfl, fun _ => ⟨rfl, rfl⟩⟩

theorem SameLists.trans {pal'' : Palette} (h : SameLists pal pal') (h' : SameLists pal' pal'') :
    SameLists pal pal'' :=
  ⟨h'.1.trans h.1, h'.2.1.trans h.2.1,
    fun node => ⟨(h'.2.2 node).1.trans (h.2.2 node).1, (h'.2.2 node).2.trans (h.2.2 node).2⟩⟩

theorem sameLists_setEntry (pal : Palette) (i : Nat) (e : PaletteEntry) : SameLists pal (pal.setEntry i e) :=
  ⟨rfl, rfl, fun _ => ⟨rfl, rfl⟩⟩

theorem sameLists_setIdx (pal : Palette) (node idx : Nat) : SameLists pal (pal.setIdx node idx) := by
  refine ⟨rfl, rfl, fun m => ?_⟩
  by_cases hm : m = node
  · subst hm
    simp [setIdx, setNode]
  · simp [setIdx, setNode, hm]

theorem setIdx_idx (pal : Palette) (node idx m : Nat) :
    ((pal.setIdx node idx).list m).idx = if m = node then idx else (pal.list m).idx := by
  by_cases hm : m = node
  · subst hm
    simp [setIdx, setNode]
  · simp [setIdx, setNode, hm]

theorem setEntry_entry (pal : Palette) (i j : Nat) (e : PaletteEntry) :
    (pal.setEntry i e).entry j = if j = i then e else pal.entry j :=
  Function.update_apply ..

/-- An entry with fewer pixels moves into the gap. -/
theorem Gap.move {i : Nat} (h : Gap pal n p (i + 1) cnt count) (hi : i + 1 < n)
    (hless : (pal.entry i).numPixels < count) :
    Gap ((pal.setEntry (i + 1) (pal.entry i)).setIdx (pal.entry i).listNode (i + 1)) n p i cnt count := by
  obtain ⟨hlt, hne, hidx⟩ := h.entry i (by omega) (by omega)
  have hentry : ∀ j, ((pal.setEntry (i + 1) (pal.entry i)).setIdx (pal.entry i).listNode (i + 1)).entry j =
      if j = i + 1 then pal.entry i else pal.entry j := fun j => setEntry_entry ..
  have hlist : ∀ m, (((pal.setEntry (i + 1) (pal.entry i)).setIdx (pal.entry i).listNode (i + 1)).list m).idx =
      if m = (pal.entry i).listNode then i + 1 else (pal.list m).idx := fun m => setIdx_idx ..
  constructor
  · intro j hj hji
    rw [hentry, hlist]
    by_cases hj1 : j = i + 1
    · rw [if_pos hj1, if_pos rfl]
      exact ⟨hlt, hne, hj1.symm⟩
    · obtain ⟨hlt', hne', hidx'⟩ := h.entry j hj hj1
      have hother : (pal.entry j).listNode ≠ (pal.entry i).listNode := by
        intro heq
        rw [heq, hidx] at hidx'
        exact hji hidx'.symm
      rw [if_neg hj1, if_neg hother]
      exact ⟨hlt', hne', hidx'⟩
  · intro m hm hmp
    rw [hlist, hentry]
    by_cases hnode : m = (pal.entry i).listNode
    · subst hnode
      obtain ⟨-, -, -, hcnt⟩ := h.node _ hm hmp
      rw [hidx] at hcnt
      rw [if_pos rfl, if_pos rfl]
      exact ⟨hi, by omega, rfl, hcnt⟩
    · obtain ⟨hlt', hne', hback, hcnt⟩ := h.node m hm hmp
      rw [if_neg hnode, if_neg hne']
      refine ⟨hlt', ?_, hback, hcnt⟩
      intro heq
      rw [heq] at hback
      exact hnode hback.symm
  · intro j k hjk hk hji hki
    rw [hentry, hentry]
    by_cases hk1 : k = i + 1
    · rw [if_pos hk1]
      split
      · exact le_refl _
      · exact h.sorted j i (by omega) (by omega) ‹_› (by omega)
    · rw [if_neg hk1]
      split
      · exact h.sorted i k (by omega) hk (by omega) hk1
      · exact h.sorted j k hjk hk ‹_› hk1
  · intro j hj hij
    rw [hentry]
    split
    · exact hless.le
    · exact h.behind j hj (by omega)

theorem moveEntries_spec (h : Gap pal n p gap cnt count) (hgap : gap < n) :
    SameLists pal (moveEntries count gap pal).1 ∧
      Gap (moveEntries count gap pal).1 n p (moveEntries count gap pal).2 cnt count ∧
        (moveEntries count gap pal).2 ≤ gap ∧ ∀ i < (moveEntries count gap pal).2,
          count ≤ ((moveEntries count gap pal).1.entry i).numPixels := by
  induction gap generalizing pal with
  | zero => exact ⟨SameLists.refl pal, h, le_refl 0, fun i hi => absurd hi (Nat.not_lt_zero i)⟩
  | succ i ih =>
    rw [moveEntries]
    by_cases hless : (pal.entry i).numPixels < count
    · rw [if_pos hless]
      obtain ⟨hsame, hg, hle, hbefore⟩ := ih (h.move hgap hless) (by omega)
      exact ⟨((sameLists_setEntry ..).trans (sameLists_setIdx ..)).trans hsame, hg, by omega, hbefore⟩
    · rw [if_neg hless]
      refine ⟨SameLists.refl pal, h, le_refl _, fun j hj => ?_⟩
      have hj' : j < i + 1 := hj
      have hsorted := h.sorted j i (by omega) (by omega) (by omega) (by omega)
      exact (Nat.le_of_not_lt hless).trans hsorted

/-- The gap is filled with its node. -/
theorem Gap.fill (h : Gap pal n p gap cnt count) (hp : p < n) (hgap : gap < n)
    (hbefore : ∀ i < gap, count ≤ (pal.entry i).numPixels)
    (hentry : ∀ i, pal'.entry i = if i = gap then { listNode := p, numPixels := count } else pal.entry i)
    (hlist : ∀ m < n, (pal'.list m).idx = if m = p then gap else (pal.list m).idx) :
    Full pal' n (Function.update cnt p count) := by
  constructor
  · intro i hi
    rw [hentry]
    by_cases hig : i = gap
    · rw [if_pos hig, hlist p hp, if_pos rfl]
      exact ⟨hp, hig.symm⟩
    · obtain ⟨hlt, hne, hidx⟩ := h.entry i hi hig
      rw [if_neg hig, hlist _ hlt, if_neg hne]
      exact ⟨hlt, hidx⟩
  · intro m hm
    rw [hlist m hm, hentry]
    by_cases hmp : m = p
    · subst hmp
      rw [if_pos rfl, if_pos rfl, Function.update_self]
      exact ⟨hgap, rfl, rfl⟩
    · obtain ⟨hlt, hne, hback, hcnt⟩ := h.node m hm hmp
      rw [if_neg hmp, if_neg hne, Function.update_of_ne hmp]
      exact ⟨hlt, hback, hcnt⟩
  · intro i j hij hj
    rw [hentry, hentry]
    by_cases hi : i = gap
    · rw [if_pos hi]
      split
      · exact le_refl _
      · exact h.behind j hj (by omega)
    · rw [if_neg hi]
      split
      · exact hbefore i (by omega)
      · exact h.sorted i j hij hj hi ‹_›

theorem Full.gap_last (h : Full pal n cnt) (count : Nat) : Gap pal (n + 1) n n cnt count where
  entry i hi hin := by
    obtain ⟨hlt, hidx⟩ := h.entry i (by omega)
    exact ⟨by omega, by omega, hidx⟩
  node m hm hmn := by
    obtain ⟨hlt, hback, hcnt⟩ := h.node m (by omega)
    exact ⟨by omega, by omega, hback, hcnt⟩
  sorted i j hij hj _ hjn := h.sorted i j hij (by omega)
  behind i hi hni := by omega

theorem Full.gap_at (h : Full pal n cnt) (hp : p < n) (hcount : cnt p ≤ count) :
    Gap pal n p (pal.list p).idx cnt count where
  entry i hi hne := by
    obtain ⟨hlt, hidx⟩ := h.entry i hi
    refine ⟨hlt, ?_, hidx⟩
    rintro rfl
    exact hne hidx.symm
  node m hm hmp := by
    obtain ⟨hlt, hback, hcnt⟩ := h.node m hm
    refine ⟨hlt, ?_, hback, hcnt⟩
    intro heq
    rw [heq, (h.node p hp).2.1] at hback
    exact hmp hback.symm
  sorted i j hij hj _ _ := h.sorted i j hij hj
  behind i hi hgap := by
    have hle := h.sorted (pal.list p).idx i hgap.le hi
    rw [(h.node p hp).2.2] at hle
    omega

theorem Full.congr {cnt' : Nat → Nat} (h : Full pal n cnt) (hcnt : ∀ m < n, cnt m = cnt' m) : Full pal n cnt' where
  entry := h.entry
  node m hm := ⟨(h.node m hm).1, (h.node m hm).2.1, (h.node m hm).2.2.trans (hcnt m hm)⟩
  sorted := h.sorted

theorem moveEntries_le (count gap : Nat) (pal : Palette) : (moveEntries count gap pal).2 ≤ gap := by
  induction gap generalizing pal with
  | zero => exact le_refl _
  | succ i ih =>
    rw [moveEntries]
    split
    · exact (ih _).trans (Nat.le_succ i)
    · exact le_refl _

/-- The gap has stayed where it was because nothing has moved. -/
theorem moveEntries_stays (h : (moveEntries count gap pal).2 = gap) : (moveEntries count gap pal).1 = pal := by
  cases gap with
  | zero => rfl
  | succ i =>
    rw [moveEntries] at h ⊢
    split at h
    · have hle := moveEntries_le count i ((pal.setEntry (i + 1) (pal.entry i)).setIdx (pal.entry i).listNode (i + 1))
      omega
    · rw [if_neg ‹_›]

/-- An entry that exists is filled in again with more pixels. -/
theorem addPixels_spec (h : Full pal n cnt) (hp : p < n) (numPixels : Nat) :
    SameLists pal (pal.addPixels p numPixels) ∧
      Full (pal.addPixels p numPixels) n (Function.update cnt p (cnt p + numPixels)) := by
  obtain ⟨hidx, hback, hcnt⟩ := h.node p hp
  have hgap := h.gap_at hp (Nat.le_add_right (cnt p) numPixels)
  obtain ⟨hsame, hmoved, hle, hbefore⟩ := moveEntries_spec hgap hidx
  have hstays := @moveEntries_stays pal (pal.list p).idx (cnt p + numPixels)
  unfold addPixels
  simp only [hcnt]
  generalize moveEntries (cnt p + numPixels) (pal.list p).idx pal = moved at *
  obtain ⟨moved, newIdx⟩ := moved
  dsimp only at *
  by_cases hne : newIdx ≠ (pal.list p).idx
  · rw [if_pos hne]
    constructor
    · exact ((hsame.trans (sameLists_setEntry ..)).trans (sameLists_setIdx ..)).trans (sameLists_setEntry ..)
    · apply hmoved.fill hp (by omega) hbefore
      · intro i
        rw [setEntry_entry]
        split
        · have hself := setEntry_entry moved newIdx newIdx { moved.entry newIdx with listNode := p }
          rw [if_pos rfl] at hself
          show PaletteEntry.mk ((moved.setEntry newIdx _).entry newIdx).listNode _ = _
          rw [hself]
        · show (moved.setEntry newIdx _).entry i = _
          rw [setEntry_entry, if_neg ‹_›]
      · intro m _
        exact setIdx_idx _ _ _ m
  · rw [if_neg hne]
    have heq : newIdx = (pal.list p).idx := not_not.mp hne
    obtain rfl : moved = pal := hstays heq
    constructor
    · exact sameLists_setEntry ..
    · apply hmoved.fill hp (by omega) hbefore
      · intro i
        rw [setEntry_entry, heq, hback]
      · intro m _
        show (moved.list m).idx = _
        split
        · rw [‹m = p›, heq]
        · rfl

/-- The nodes of a hash list, in order. -/
def Chain (pal : Palette) (key : Nat) (nodes : List Nat) : Prop :=
  Linked id (fun m => (pal.list m).next) (pal.hash key) nodes none

/-- Every hash list has the nodes of its colours, and no colour has two nodes. -/
structure Hashed (bpp16 : Bool) (pal : Palette) : Prop where
  distinct : ∀ m m', m < pal.numColors → m' < pal.numColors → (pal.list m).rgb = (pal.list m').rgb → m = m'
  chain : ∀ key, ∃ nodes, Chain pal key nodes ∧ nodes.Nodup ∧
    ∀ m, m ∈ nodes ↔ m < pal.numColors ∧ hashKey bpp16 (pal.list m).rgb = key

variable {bpp16 : Bool} {rgb : BitVec 32} {key : Nat} {nodes : List Nat}

theorem Hashed.sameLists (h : Hashed bpp16 pal) (hsame : SameLists pal pal') : Hashed bpp16 pal' := by
  obtain ⟨hhash, hnum, hlist⟩ := hsame
  constructor
  · intro m m' hm hm' hrgb
    rw [hnum] at hm hm'
    rw [(hlist m).2, (hlist m').2] at hrgb
    exact h.distinct m m' hm hm' hrgb
  · intro key
    obtain ⟨nodes, hchain, hnodup, hmem⟩ := h.chain key
    refine ⟨nodes, ?_, hnodup, fun m => ?_⟩
    · unfold Chain
      rw [hhash]
      exact hchain.congr fun m _ => (hlist m).1
    · rw [hmem, hnum, (hlist m).2]

/-- A chain without the colour is walked to its end. -/
theorem findNode_none {start : Option Nat} (prev : Option Nat) {fuel : Nat}
    (h : Linked id (fun m => (pal.list m).next) start nodes none) (hfuel : nodes.length ≤ fuel)
    (hnone : ∀ m ∈ nodes, (pal.list m).rgb ≠ rgb) :
    pal.findNode rgb fuel prev start = some (none, nodes.getLast?.or prev) := by
  induction nodes generalizing start prev fuel with
  | nil =>
    cases h
    cases fuel <;> rfl
  | cons m nodes ih =>
    obtain ⟨hstart, hrest⟩ := h
    obtain ⟨fuel, rfl⟩ : ∃ f, fuel = f + 1 := ⟨fuel - 1, by rw [List.length_cons] at hfuel; omega⟩
    obtain rfl : start = some m := hstart
    have hlast : (m :: nodes).getLast?.or prev = nodes.getLast?.or (some m) := by
      rw [List.getLast?_cons]
      cases nodes.getLast? <;> rfl
    rw [findNode, if_neg (hnone m List.mem_cons_self), hlast]
    exact ih (some m) hrest (Nat.le_of_succ_le_succ hfuel) fun m' hm' => hnone m' (List.mem_cons_of_mem _ hm')

theorem findNode_some {start : Option Nat} (prev : Option Nat) {fuel : Nat}
    (h : Linked id (fun m => (pal.list m).next) start nodes none) (hfuel : nodes.length ≤ fuel)
    (hp : p ∈ nodes) (hrgb : (pal.list p).rgb = rgb) (honly : ∀ m ∈ nodes, (pal.list m).rgb = rgb → m = p) :
    ∃ prev', pal.findNode rgb fuel prev start = some (some p, prev') := by
  induction nodes generalizing start prev fuel with
  | nil => cases hp
  | cons m nodes ih =>
    obtain ⟨hstart, hrest⟩ := h
    obtain ⟨fuel, rfl⟩ : ∃ f, fuel = f + 1 := ⟨fuel - 1, by rw [List.length_cons] at hfuel; omega⟩
    obtain rfl : start = some m := hstart
    rw [findNode]
    by_cases hm : (pal.list m).rgb = rgb
    · rw [if_pos hm, honly m List.mem_cons_self hm]
      exact ⟨prev, rfl⟩
    · rw [if_neg hm]
      apply ih (some m) hrest (Nat.le_of_succ_le_succ hfuel)
      · rcases List.mem_cons.mp hp with rfl | hp
        · exact absurd hrgb hm
        · exact hp
      · exact fun m' hm' => honly m' (List.mem_cons_of_mem _ hm')

/-- What a new entry does to the nodes, with `prev` at the end of its hash list. -/
structure NodeAdded (pal pal' : Palette) (key : Nat) (rgb : BitVec 32) (prev : Option Nat) : Prop where
  numColors : pal'.numColors = pal.numColors + 1
  hash : ∀ k, pal'.hash k = if prev = none ∧ k = key then some pal.numColors else pal.hash k
  next : ∀ m, (pal'.list m).next =
    if m = pal.numColors then none else if prev = some m then some pal.numColors else (pal.list m).next
  rgb : ∀ m, (pal'.list m).rgb = if m = pal.numColors then rgb else (pal.list m).rgb

/-- A hash list without `prev` stays, unless it is the empty one that gets the node. -/
theorem NodeAdded.chain_other {prev : Option Nat} (h : NodeAdded pal pal' key rgb prev) {k : Nat}
    (hchain : Chain pal k nodes) (hk : k ≠ key) (hlt : ∀ m ∈ nodes, m < pal.numColors)
    (hprev : ∀ m ∈ nodes, prev ≠ some m) : Chain pal' k nodes := by
  unfold Chain
  rw [h.hash, if_neg fun hh => hk hh.2]
  apply hchain.congr
  intro m hm
  have hne : m ≠ pal.numColors := (hlt m hm).ne
  rw [h.next, if_neg hne, if_neg (hprev m hm)]

/-- The node goes to the end of the hash list of its colour. -/
theorem NodeAdded.chain_own (h : NodeAdded pal pal' key rgb nodes.getLast?) (hchain : Chain pal key nodes)
    (hnodup : nodes.Nodup) (hlt : ∀ m ∈ nodes, m < pal.numColors) : Chain pal' key (nodes ++ [pal.numColors]) := by
  have hend : Linked id (fun m => (pal'.list m).next) (some pal.numColors) [pal.numColors] none := by
    refine ⟨rfl, ?_⟩
    show (pal'.list pal.numColors).next = none
    rw [h.next, if_pos rfl]
  unfold Chain at hchain ⊢
  rw [h.hash]
  rcases List.eq_nil_or_concat nodes with rfl | ⟨init, last, rfl⟩
  · rw [if_pos ⟨rfl, rfl⟩]
    exact hend
  · rw [List.concat_eq_append] at *
    have hnot : last ∉ init := fun hmem =>
      (List.nodup_append.mp hnodup).2.2 last hmem last (List.mem_singleton_self last) rfl
    rw [if_neg (by simp)]
    apply Linked.append _ hend
    apply (hchain.redirect (c := some pal.numColors) hnot).congr
    intro m hm
    have hne : m ≠ pal.numColors := (hlt m hm).ne
    rw [h.next, if_neg hne, List.getLast?_concat, Function.update_apply]
    simp only [Option.some.injEq, eq_comm]

theorem NodeAdded.hashed (hhash : Hashed bpp16 pal) (hchain : Chain pal key nodes) (hnodup : nodes.Nodup)
    (hmem : ∀ m, m ∈ nodes ↔ m < pal.numColors ∧ hashKey bpp16 (pal.list m).rgb = key)
    (hkey : hashKey bpp16 rgb = key) (hnew : ∀ m < pal.numColors, (pal.list m).rgb ≠ rgb)
    (h : NodeAdded pal pal' key rgb nodes.getLast?) : Hashed bpp16 pal' := by
  have hrgb : ∀ m < pal.numColors, (pal'.list m).rgb = (pal.list m).rgb := by
    intro m hm
    rw [h.rgb, if_neg hm.ne]
  have hrgbNew : (pal'.list pal.numColors).rgb = rgb := by rw [h.rgb, if_pos rfl]
  constructor
  · intro m m' hm hm' heq
    rw [h.numColors] at hm hm'
    rcases Nat.lt_succ_iff_lt_or_eq.mp hm with hm | rfl <;> rcases Nat.lt_succ_iff_lt_or_eq.mp hm' with hm' | rfl
    · rw [hrgb m hm, hrgb m' hm'] at heq
      exact hhash.distinct m m' hm hm' heq
    · rw [hrgb m hm, hrgbNew] at heq
      exact absurd heq (hnew m hm)
    · rw [hrgb m' hm', hrgbNew] at heq
      exact absurd heq.symm (hnew m' hm')
    · rfl
  · intro k
    have hkeep : ∀ m, m < pal.numColors + 1 ∧ hashKey bpp16 (pal'.list m).rgb = k ↔
        (m < pal.numColors ∧ hashKey bpp16 (pal.list m).rgb = k) ∨ m = pal.numColors ∧ key = k := by
      intro m
      rcases Nat.lt_trichotomy m pal.numColors with hm | rfl | hm
      · rw [hrgb m hm]
        simp [hm, hm.ne, Nat.lt_succ_of_lt hm]
      · simp [hrgbNew, hkey]
      · simp [hm.ne', Nat.not_lt.mpr hm.le, Nat.not_lt.mpr (Nat.succ_le_of_lt hm)]
    by_cases hk : k = key
    · subst hk
      refine ⟨nodes ++ [pal.numColors], h.chain_own hchain hnodup fun m hm => ((hmem m).mp hm).1, ?_, fun m => ?_⟩
      · rw [List.nodup_append]
        refine ⟨hnodup, List.nodup_singleton _, ?_⟩
        rintro m hm m' hm' rfl
        rw [List.mem_singleton.mp hm'] at hm
        exact absurd ((hmem _).mp hm).1 (lt_irrefl _)
      · rw [h.numColors, hkeep, List.mem_append, hmem, List.mem_singleton]
        simp
    · obtain ⟨other, hother, hnodup', hmem'⟩ := hhash.chain k
      refine ⟨other, ?_, hnodup', fun m => ?_⟩
      · apply h.chain_other hother hk
        · exact fun m hm => ((hmem' m).mp hm).1
        · intro m hm hlast
          have hown := (hmem m).mp (List.mem_of_getLast? hlast)
          exact hk (((hmem' m).mp hm).2.symm.trans hown.2)
      · rw [hmem', h.numColors, hkeep]
        simp [Ne.symm hk]

theorem setNode_list (pal : Palette) (node m : Nat) (l : ColorList) :
    (pal.setNode node l).list m = if m = node then l else pal.list m :=
  Function.update_apply ..

theorem addEntry_spec (h : Full pal pal.numColors cnt) (key : Nat) (rgb : BitVec 32) (numPixels : Nat)
    {prev : Option Nat} (hprev : ∀ m, prev = some m → m < pal.numColors) :
    NodeAdded pal (pal.addEntry key rgb numPixels prev) key rgb prev ∧
      Full (pal.addEntry key rgb numPixels prev) (pal.numColors + 1) (Function.update cnt pal.numColors numPixels) := by
  have hgap := h.gap_last numPixels
  obtain ⟨⟨hhash, hnum, hlist⟩, hmoved, hle, hbefore⟩ := moveEntries_spec hgap (Nat.lt_succ_self _)
  unfold addEntry
  generalize moveEntries numPixels pal.numColors pal = moved at *
  obtain ⟨moved, idx⟩ := moved
  dsimp only at *
  cases prev with
  | none =>
    have hnodes : ∀ m, ((({ moved with hash := Function.update moved.hash key (some pal.numColors) } : Palette).setNode
        pal.numColors { next := none, idx, rgb }).list m) =
          if m = pal.numColors then { next := none, idx, rgb } else moved.list m := fun m => setNode_list ..
    constructor
    · constructor
      · rfl
      · intro k
        show Function.update moved.hash key (some pal.numColors) k = _
        rw [Function.update_apply, hhash]
        simp
      · intro m
        show ((Palette.setNode _ _ _).list m).next = _
        rw [hnodes]
        split
        · rfl
        · exact (hlist m).1
      · intro m
        show ((Palette.setNode _ _ _).list m).rgb = _
        rw [hnodes]
        split
        · rfl
        · exact (hlist m).2
    · apply hmoved.fill (Nat.lt_succ_self _) (by omega) hbefore
      · intro i
        exact setEntry_entry ..
      · intro m _
        show ((Palette.setNode _ _ _).list m).idx = _
        rw [hnodes]
        split <;> rfl
  | some q =>
    have hq : q ≠ pal.numColors := (hprev q rfl).ne
    have hnodes : ∀ m, ((moved.setNode q { moved.list q with next := some pal.numColors }).setNode
        pal.numColors { next := none, idx, rgb }).list m =
          if m = pal.numColors then { next := none, idx, rgb }
          else if m = q then { moved.list q with next := some pal.numColors } else moved.list m := by
      intro m
      rw [setNode_list, setNode_list]
    constructor
    · constructor
      · rfl
      · intro k
        show moved.hash k = _
        rw [hhash]
        simp
      · intro m
        show ((Palette.setNode _ _ _).list m).next = _
        rw [hnodes]
        split
        · rfl
        · split
          · rename_i hm
            rw [if_pos (by rw [hm])]
          · rename_i hm
            rw [if_neg fun heq => hm (Option.some.inj heq).symm]
            exact (hlist m).1
      · intro m
        show ((Palette.setNode _ _ _).list m).rgb = _
        rw [hnodes]
        split
        · rfl
        · split
          · rename_i hm
            rw [hm]
            exact (hlist q).2
          · exact (hlist m).2
    · apply hmoved.fill (Nat.lt_succ_self _) (by omega) hbefore
      · intro i
        exact setEntry_entry ..
      · intro m _
        show ((Palette.setNode _ _ _).list m).idx = _
        rw [hnodes]
        split
        · rfl
        · split
          · rename_i hm
            rw [hm]
          · rfl

end Palette

/-- The pixels that have been counted for a colour. -/
def total (calls : List (BitVec 32 × Nat)) (rgb : BitVec 32) : Nat :=
  ((calls.filter fun call => call.1 = rgb).map Prod.snd).sum

/-- How many colours have been inserted. -/
def numDistinct (calls : List (BitVec 32 × Nat)) : Nat := (calls.map Prod.fst).toFinset.card

open Palette

/-- The palette after these calls. -/
structure Holds (bpp16 : Bool) (calls : List (BitVec 32 × Nat)) (pal : Palette) : Prop where
  full : Full pal pal.numColors fun m => total calls (pal.list m).rgb
  hashed : Hashed bpp16 pal
  colours : ∀ rgb, rgb ∈ calls.map Prod.fst ↔ ∃ m < pal.numColors, (pal.list m).rgb = rgb

variable {bpp16 : Bool} {calls : List (BitVec 32 × Nat)} {pal : Palette} {rgb : BitVec 32}

theorem total_append (calls : List (BitVec 32 × Nat)) (rgb rgb' : BitVec 32) (numPixels : Nat) :
    total (calls ++ [(rgb, numPixels)]) rgb' = total calls rgb' + if rgb = rgb' then numPixels else 0 := by
  unfold total
  rw [List.filter_append, List.map_append, List.sum_append]
  by_cases h : rgb = rgb' <;> simp [h]

theorem total_eq_zero (h : rgb ∉ calls.map Prod.fst) : total calls rgb = 0 := by
  have hnone : calls.filter (fun call => call.1 = rgb) = [] := by
    rw [List.filter_eq_nil_iff]
    intro call hcall heq
    exact h (List.mem_map.mpr ⟨call, hcall, of_decide_eq_true heq⟩)
  rw [total, hnone]
  rfl

theorem Holds.numColors_eq (h : Holds bpp16 calls pal) : pal.numColors = numDistinct calls := by
  have himage : (calls.map Prod.fst).toFinset = (Finset.range pal.numColors).image fun m => (pal.list m).rgb := by
    ext rgb
    rw [List.mem_toFinset, h.colours, Finset.mem_image]
    simp only [Finset.mem_range]
  have hinj : Set.InjOn (fun m => (pal.list m).rgb) (Finset.range pal.numColors) := by
    intro m hm m' hm' heq
    exact h.hashed.distinct m m' (Finset.mem_range.mp hm) (Finset.mem_range.mp hm') heq
  rw [numDistinct, himage, Finset.card_image_of_injOn hinj, Finset.card_range]

theorem holds_reset (bpp16 : Bool) (pal : Palette) : Holds bpp16 [] pal.reset := by
  refine ⟨⟨?_, ?_, ?_⟩, ⟨?_, fun key => ⟨[], rfl, List.nodup_nil, ?_⟩⟩, ?_⟩
  · exact fun i hi => absurd hi (Nat.not_lt_zero i)
  · exact fun m hm => absurd hm (Nat.not_lt_zero m)
  · exact fun i j _ hj => absurd hj (Nat.not_lt_zero j)
  · exact fun m m' hm => absurd hm (Nat.not_lt_zero m)
  · exact fun m => ⟨fun hm => absurd hm List.not_mem_nil, fun hm => absurd hm.1 (Nat.not_lt_zero m)⟩
  · exact fun rgb => ⟨fun hm => absurd hm List.not_mem_nil, fun ⟨m, hm, _⟩ => absurd hm (Nat.not_lt_zero m)⟩

theorem nodes_length_le {nodes : List Nat} (hnodup : nodes.Nodup)
    (hlt : ∀ m ∈ nodes, m < pal.numColors) : nodes.length ≤ pal.numColors := by
  rw [← List.toFinset_card_of_nodup hnodup, ← Finset.card_range pal.numColors]
  apply Finset.card_le_card
  intro m hm
  exact Finset.mem_range.mpr (hlt m (List.mem_toFinset.mp hm))

theorem Holds.insert_old (h : Holds bpp16 calls pal) (hsize : pal.numColors ≤ 256) (hrgb : rgb ∈ calls.map Prod.fst)
    (paletteMaxColors numPixels : Nat) :
    ∃ pal', paletteInsert paletteMaxColors bpp16 pal rgb numPixels = some (pal', pal.numColors) ∧
      Holds bpp16 (calls ++ [(rgb, numPixels)]) pal' := by
  obtain ⟨p, hp, rfl⟩ := (h.colours rgb).mp hrgb
  obtain ⟨nodes, hchain, hnodup, hmem⟩ := h.hashed.chain (hashKey bpp16 (pal.list p).rgb)
  have hlen : nodes.length ≤ 256 := (nodes_length_le hnodup fun m hm => ((hmem m).mp hm).1).trans hsize
  have honly : ∀ m ∈ nodes, (pal.list m).rgb = (pal.list p).rgb → m = p :=
    fun m hm heq => h.hashed.distinct m p ((hmem m).mp hm).1 hp heq
  obtain ⟨prev, hfind⟩ := findNode_some none hchain hlen ((hmem p).mpr ⟨hp, rfl⟩) rfl honly
  obtain ⟨hsame, hfull⟩ := addPixels_spec h.full hp numPixels
  refine ⟨pal.addPixels p numPixels, ?_, ?_, h.hashed.sameLists hsame, fun rgb => ?_⟩
  · rw [paletteInsert, hfind]
    rfl
  · rw [hsame.2.1]
    apply hfull.congr
    intro m hm
    rw [(hsame.2.2 m).2, total_append]
    by_cases hmp : m = p
    · rw [hmp, Function.update_self, if_pos rfl]
    · have hne : (pal.list p).rgb ≠ (pal.list m).rgb := fun heq => hmp (h.hashed.distinct m p hm hp heq.symm)
      rw [Function.update_of_ne hmp, if_neg hne, Nat.add_zero]
  · rw [List.map_append, List.mem_append, h.colours, hsame.2.1]
    simp only [(hsame.2.2 _).2]
    constructor
    · rintro (hold | hnew)
      · exact hold
      · exact ⟨p, hp, (List.mem_singleton.mp hnew).symm⟩
    · exact .inl

/-- The hash list of a new colour is walked to its end. -/
theorem Holds.find_new (h : Holds bpp16 calls pal) (hsize : pal.numColors ≤ 256) (hrgb : rgb ∉ calls.map Prod.fst) :
    ∃ nodes, Chain pal (hashKey bpp16 rgb) nodes ∧ nodes.Nodup ∧
      (∀ m, m ∈ nodes ↔ m < pal.numColors ∧ hashKey bpp16 (pal.list m).rgb = hashKey bpp16 rgb) ∧
      pal.findNode rgb 256 none (pal.hash (hashKey bpp16 rgb)) = some (none, nodes.getLast?) := by
  obtain ⟨nodes, hchain, hnodup, hmem⟩ := h.hashed.chain (hashKey bpp16 rgb)
  have hlen : nodes.length ≤ 256 := (nodes_length_le hnodup fun m hm => ((hmem m).mp hm).1).trans hsize
  have hnone : ∀ m ∈ nodes, (pal.list m).rgb ≠ rgb :=
    fun m hm heq => hrgb ((h.colours rgb).mpr ⟨m, ((hmem m).mp hm).1, heq⟩)
  have hfind := findNode_none none hchain hlen hnone
  rw [Option.or_none] at hfind
  exact ⟨nodes, hchain, hnodup, hmem, hfind⟩

theorem Holds.insert_new (h : Holds bpp16 calls pal) (hsize : pal.numColors < 256) (hrgb : rgb ∉ calls.map Prod.fst)
    {paletteMaxColors : Nat} (hmax : pal.numColors ≠ paletteMaxColors) (numPixels : Nat) :
    ∃ pal', paletteInsert paletteMaxColors bpp16 pal rgb numPixels = some (pal', pal.numColors + 1) ∧
      Holds bpp16 (calls ++ [(rgb, numPixels)]) pal' := by
  obtain ⟨nodes, hchain, hnodup, hmem, hfind⟩ := h.find_new hsize.le hrgb
  have hprev : ∀ m, nodes.getLast? = some m → m < pal.numColors :=
    fun m hm => ((hmem m).mp (List.mem_of_getLast? hm)).1
  have hnew : ∀ m < pal.numColors, (pal.list m).rgb ≠ rgb := fun m hm heq => hrgb ((h.colours rgb).mpr ⟨m, hm, heq⟩)
  obtain ⟨hadded, hfull⟩ := addEntry_spec h.full (hashKey bpp16 rgb) rgb numPixels hprev
  refine ⟨pal.addEntry (hashKey bpp16 rgb) rgb numPixels nodes.getLast?, ?_, ?_,
    hadded.hashed h.hashed hchain hnodup hmem rfl hnew, fun rgb' => ?_⟩
  · rw [paletteInsert, hfind]
    simp only [Option.bind_eq_bind, Option.bind_some]
    rw [if_neg (by omega)]
  · rw [hadded.numColors]
    apply hfull.congr
    intro m hm
    rw [hadded.rgb, total_append]
    rcases Nat.lt_succ_iff_lt_or_eq.mp hm with hm | rfl
    · rw [if_neg hm.ne, if_neg (hnew m hm).symm, Function.update_of_ne hm.ne, Nat.add_zero]
    · rw [if_pos rfl, if_pos rfl, Function.update_self, total_eq_zero hrgb, Nat.zero_add]
  · rw [List.map_append, List.mem_append, h.colours, hadded.numColors]
    simp only [hadded.rgb]
    constructor
    · rintro (⟨m, hm, heq⟩ | hlast)
      · exact ⟨m, by omega, by rw [if_neg hm.ne, heq]⟩
      · exact ⟨pal.numColors, Nat.lt_succ_self _, by rw [if_pos rfl, List.mem_singleton.mp hlast]⟩
    · rintro ⟨m, hm, heq⟩
      rcases Nat.lt_succ_iff_lt_or_eq.mp hm with hm | rfl
      · rw [if_neg hm.ne] at heq
        exact .inl ⟨m, hm, heq⟩
      · rw [if_pos rfl] at heq
        exact .inr (List.mem_singleton.mpr heq.symm)

theorem Holds.insert_full (h : Holds bpp16 calls pal) (hsize : pal.numColors ≤ 256)
    (hrgb : rgb ∉ calls.map Prod.fst) {paletteMaxColors : Nat}
    (hfull : pal.numColors = 256 ∨ pal.numColors = paletteMaxColors) (numPixels : Nat) :
    paletteInsert paletteMaxColors bpp16 pal rgb numPixels = some ({ pal with numColors := 0 }, 0) := by
  obtain ⟨nodes, -, -, -, hfind⟩ := h.find_new hsize hrgb
  rw [paletteInsert, hfind]
  simp only [Option.bind_eq_bind, Option.bind_some]
  rw [if_pos hfull]

theorem numDistinct_append (calls : List (BitVec 32 × Nat)) (rgb : BitVec 32) (numPixels : Nat) :
    numDistinct (calls ++ [(rgb, numPixels)]) =
      if rgb ∈ calls.map Prod.fst then numDistinct calls else numDistinct calls + 1 := by
  have hinsert : ((calls ++ [(rgb, numPixels)]).map Prod.fst).toFinset = insert rgb (calls.map Prod.fst).toFinset := by
    rw [List.map_append, List.toFinset_append, Finset.union_comm]
    rfl
  rw [numDistinct, hinsert, Finset.card_insert_eq_ite]
  simp only [List.mem_toFinset, numDistinct]

theorem insertAll_holds (pal : Palette) (bpp16 : Bool) {paletteMaxColors : Nat} {calls : List (BitVec 32 × Nat)}
    (hlimit : numDistinct calls ≤ min 256 paletteMaxColors) :
    ∃ pal', insertAll paletteMaxColors bpp16 pal.reset calls = some pal' ∧ Holds bpp16 calls pal' := by
  induction calls using List.reverseRecOn with
  | nil => exact ⟨pal.reset, rfl, holds_reset bpp16 pal⟩
  | append_singleton calls call ih =>
    obtain ⟨rgb, numPixels⟩ := call
    have hdistinct := numDistinct_append calls rgb numPixels
    rw [hdistinct] at hlimit
    obtain ⟨pal₁, hrun, hholds⟩ := ih (by split at hlimit <;> omega)
    have hnum := hholds.numColors_eq
    have hnext : ∃ pal' k, paletteInsert paletteMaxColors bpp16 pal₁ rgb numPixels = some (pal', k) ∧
        Holds bpp16 (calls ++ [(rgb, numPixels)]) pal' := by
      by_cases hrgb : rgb ∈ calls.map Prod.fst
      · rw [if_pos hrgb] at hlimit
        obtain ⟨pal', hinsert, hholds'⟩ := hholds.insert_old (by omega) hrgb paletteMaxColors numPixels
        exact ⟨pal', _, hinsert, hholds'⟩
      · rw [if_neg hrgb] at hlimit
        obtain ⟨pal', hinsert, hholds'⟩ := hholds.insert_new (by omega) hrgb
          (show pal₁.numColors ≠ paletteMaxColors by omega) numPixels
        exact ⟨pal', _, hinsert, hholds'⟩
    obtain ⟨pal', k, hinsert, hholds'⟩ := hnext
    refine ⟨pal', ?_, hholds'⟩
    unfold insertAll at hrun ⊢
    rw [List.foldlM_append, hrun]
    simp [hinsert]

/-- The colour of an entry. -/
def Palette.color (pal : Palette) (i : Nat) : BitVec 32 := (pal.list (pal.entry i).listNode).rgb

/-- What the palette should hold after these calls. -/
structure PaletteExact (bpp16 : Bool) (calls : List (BitVec 32 × Nat)) (pal : Palette) : Prop where
  once : ∀ rgb ∈ calls.map Prod.fst, ∃! i, i < pal.numColors ∧ pal.color i = rgb
  only : ∀ i < pal.numColors, pal.color i ∈ calls.map Prod.fst
  count : ∀ i < pal.numColors, (pal.entry i).numPixels = total calls (pal.color i)
  sorted : ∀ i j, i ≤ j → j < pal.numColors → (pal.entry j).numPixels ≤ (pal.entry i).numPixels
  lists : ∀ key, ∃ nodes, Chain pal key nodes ∧ nodes.Nodup ∧
    ∀ m, m ∈ nodes ↔ ∃ i < pal.numColors, (pal.entry i).listNode = m ∧ hashKey bpp16 (pal.color i) = key
  back : ∀ i < pal.numColors, (pal.list (pal.entry i).listNode).idx = i

theorem Holds.exact (h : Holds bpp16 calls pal) : PaletteExact bpp16 calls pal where
  once rgb hrgb := by
    obtain ⟨m, hm, heq⟩ := (h.colours rgb).mp hrgb
    obtain ⟨hidx, hback, -⟩ := h.full.node m hm
    refine ⟨(pal.list m).idx, ⟨hidx, ?_⟩, ?_⟩
    · rw [Palette.color, hback, heq]
    · rintro i ⟨hi, hcolor⟩
      obtain ⟨hnode, hi'⟩ := h.full.entry i hi
      have hsame : (pal.entry i).listNode = m := h.hashed.distinct _ m hnode hm (hcolor.trans heq.symm)
      rw [← hsame, hi']
  only i hi := (h.colours _).mpr ⟨_, (h.full.entry i hi).1, rfl⟩
  count i hi := by
    obtain ⟨hnode, hi'⟩ := h.full.entry i hi
    have hcnt := (h.full.node _ hnode).2.2
    rw [hi'] at hcnt
    exact hcnt
  sorted := h.full.sorted
  lists key := by
    obtain ⟨nodes, hchain, hnodup, hmem⟩ := h.hashed.chain key
    refine ⟨nodes, hchain, hnodup, fun m => ?_⟩
    rw [hmem]
    constructor
    · rintro ⟨hm, hkey⟩
      obtain ⟨hidx, hback, -⟩ := h.full.node m hm
      exact ⟨(pal.list m).idx, hidx, hback, by rw [Palette.color, hback, hkey]⟩
    · rintro ⟨i, hi, rfl, hkey⟩
      exact ⟨(h.full.entry i hi).1, hkey⟩
  back i hi := (h.full.entry i hi).2

/-- What `PaletteInsert` returns for the next call. -/
theorem Holds.insert_returns (h : Holds bpp16 calls pal) {paletteMaxColors : Nat}
    (hlimit : numDistinct calls ≤ min 256 paletteMaxColors) (rgb : BitVec 32) (numPixels : Nat) :
    ∃ pal', paletteInsert paletteMaxColors bpp16 pal rgb numPixels = some (pal',
      if numDistinct (calls ++ [(rgb, numPixels)]) ≤ min 256 paletteMaxColors
        then numDistinct (calls ++ [(rgb, numPixels)]) else 0) := by
  have hnum := h.numColors_eq
  rw [numDistinct_append]
  by_cases hrgb : rgb ∈ calls.map Prod.fst
  · obtain ⟨pal', hinsert, -⟩ := h.insert_old (by omega) hrgb paletteMaxColors numPixels
    rw [if_pos hrgb, if_pos hlimit, ← hnum]
    exact ⟨pal', hinsert⟩
  · rw [if_neg hrgb]
    by_cases hfull : pal.numColors = 256 ∨ pal.numColors = paletteMaxColors
    · rw [if_neg (by omega)]
      exact ⟨_, h.insert_full (by omega) hrgb hfull numPixels⟩
    · obtain ⟨pal', hinsert, -⟩ := h.insert_new (by omega) hrgb
        (show pal.numColors ≠ paletteMaxColors by omega) numPixels
      rw [if_pos (by omega), ← hnum]
      exact ⟨pal', hinsert⟩

/-- The palette is exact as long as it does not have to hold more than 256 or `paletteMaxColors` colours, and
`PaletteInsert` returns 0 just when it would have to. -/
theorem palette_exact (pal : Palette) (bpp16 : Bool) (paletteMaxColors : Nat) (calls : List (BitVec 32 × Nat))
    (hlimit : numDistinct calls ≤ min 256 paletteMaxColors) (rgb : BitVec 32) (numPixels : Nat) :
    ∃ pal', insertAll paletteMaxColors bpp16 pal.reset calls = some pal' ∧ PaletteExact bpp16 calls pal' ∧
      pal'.numColors = numDistinct calls ∧
      ∃ pal'', paletteInsert paletteMaxColors bpp16 pal' rgb numPixels = some (pal'',
        if numDistinct (calls ++ [(rgb, numPixels)]) ≤ min 256 paletteMaxColors
          then numDistinct (calls ++ [(rgb, numPixels)]) else 0) := by
  obtain ⟨pal', hrun, hholds⟩ := insertAll_holds pal bpp16 hlimit
  exact ⟨pal', hrun, hholds.exact, hholds.numColors_eq, hholds.insert_returns hlimit rgb numPixels⟩

def emptyPalette : Palette where
  entry _ := { listNode := 0, numPixels := 0 }
  hash _ := none
  list _ := { next := none, idx := 0, rgb := 0 }
  numColors := 0

theorem palette_exact_three :
    ∃ pal', insertAll 2 true emptyPalette.reset [(5, 1), (7, 2), (5, 4)] = some pal' ∧
      PaletteExact true [(5, 1), (7, 2), (5, 4)] pal' ∧ pal'.numColors = numDistinct [(5, 1), (7, 2), (5, 4)] ∧
      ∃ pal'', paletteInsert 2 true pal' 9 1 = some (pal'',
        if numDistinct ([(5, 1), (7, 2), (5, 4)] ++ [(9, 1)]) ≤ min 256 2
          then numDistinct ([(5, 1), (7, 2), (5, 4)] ++ [(9, 1)]) else 0) :=
  palette_exact emptyPalette true 2 [(5, 1), (7, 2), (5, 4)] (by decide) 9 1

/-- One pixel of each of the first 256 colours. -/
def manyColours : List (BitVec 32 × Nat) := (List.range 256).map fun i => (BitVec.ofNat 32 i, 1)

theorem numDistinct_range {n : Nat} (hn : n ≤ 2 ^ 32) :
    numDistinct ((List.range n).map fun i => (BitVec.ofNat 32 i, 1)) = n := by
  induction n with
  | zero => rfl
  | succ n ih =>
    rw [List.range_succ, List.map_append, List.map_singleton, numDistinct_append, if_neg, ih (by omega)]
    simp only [List.map_map, List.mem_map, List.mem_range, Function.comp_apply, not_exists, not_and]
    intro i hi heq
    have hnat := congrArg BitVec.toNat heq
    simp only [BitVec.toNat_ofNat] at hnat
    omega

/-- The 257th colour is refused even if `paletteMaxColors` allows it, and a colour that is inserted for two depths
gets two entries. -/
theorem palette_limits :
    (¬ ∀ (pal pal' : Palette) (bpp16 : Bool) (paletteMaxColors : Nat) (calls : List (BitVec 32 × Nat))
        (rgb : BitVec 32) (numPixels : Nat), numDistinct calls ≤ paletteMaxColors →
          insertAll paletteMaxColors bpp16 pal.reset calls = some pal' →
          ∃ pal'', paletteInsert paletteMaxColors bpp16 pal' rgb numPixels = some (pal'',
            if numDistinct (calls ++ [(rgb, numPixels)]) ≤ paletteMaxColors
              then numDistinct (calls ++ [(rgb, numPixels)]) else 0)) ∧
      ((paletteInsert 256 true emptyPalette.reset 0x10000 1).bind fun pal =>
        (paletteInsert 256 false pal.1 0x10000 1).map Prod.snd) = some 2 := by
  constructor
  · intro h
    have hmany : numDistinct manyColours = 256 := numDistinct_range (by decide)
    have hmore := @numDistinct_range 257 (by decide)
    rw [List.range_succ, List.map_append] at hmore
    have hlimit : numDistinct manyColours ≤ min 256 257 := by
      rw [hmany]
      decide
    obtain ⟨pal', hrun, hholds⟩ := insertAll_holds emptyPalette true hlimit
    obtain ⟨pal₁, h₁⟩ := hholds.insert_returns hlimit 256 1
    obtain ⟨pal₂, h₂⟩ := h emptyPalette pal' true 257 manyColours 256 1 (by rw [hmany]; decide) hrun
    rw [h₁, show numDistinct (manyColours ++ [(256, 1)]) = 257 from hmore] at h₂
    simp at h₂
  · rfl

end Colama.Xvnc
