import Mathlib.Tactic
import Colama.Spice.RegionSpec

namespace Colama.Spice

open Lib Lib.Pieces

theorem mem_boxes_iff {bands : List Band} (h : Banded bands) (x y : Int) :
    (∃ b ∈ boxes bands, b.Mem x y) ↔ ColMem (eval bands y) x := by
  induction bands with
  | nil => simp [boxes]
  | cons p l ih =>
    have hhead : (∃ b ∈ p.boxes, b.Mem x y) ↔ (p.lo ≤ y ∧ y < p.hi) ∧ (eval p.val x).isSome := by
      rw [Band.boxes]
      induction p.val with
      | nil => simp
      | cons s ss ihs =>
        rw [List.map_cons, List.exists_mem_cons_iff, ihs, eval]
        split <;> simp_all [Box.Mem, Span.box]
    change (∃ b ∈ p.boxes ++ boxes l, b.Mem x y) ↔ _
    simp only [List.mem_append, or_and_right, exists_or]
    rw [hhead, ih h.tail, eval]
    split
    · rename_i hy
      rw [eval_tail_of_lt_hi h.normal hy.2]
      simp [hy]
    · rename_i hy
      simp [hy]

/-- Equal rows of spans have equal columns, and a row of a band has a column. -/
theorem row_eq_of_colMem {bands bands' : List Band} (h : Banded bands) (h' : Banded bands') {y : Int}
    (hc : ∀ x, ColMem (eval bands y) x ↔ ColMem (eval bands' y) x) : eval bands y = eval bands' y := by
  have hrow : ∀ {bands : List Band} {s}, Banded bands → eval bands y = some s →
      Normal s ∧ ∃ x, (eval s x).isSome := by
    intro bands s hb he
    induction bands with
    | nil => cases he
    | cons p l ih =>
      rw [eval] at he
      split at he
      · cases he
        exact ⟨hb.spans_normal p (.head _), hb.exists_col⟩
      · exact ih hb.tail he
  cases he : eval bands y with
  | none =>
    cases he' : eval bands' y with
    | none => rfl
    | some s' =>
      obtain ⟨-, x, hx⟩ := hrow h' he'
      rw [he, he'] at hc
      exact absurd ((hc x).mpr (by simpa using hx)) (by simp)
  | some s =>
    obtain ⟨hn, x, hx⟩ := hrow h he
    cases he' : eval bands' y with
    | none =>
      rw [he, he'] at hc
      exact absurd ((hc x).mp (by simpa using hx)) (by simp)
    | some s' =>
      rw [he, he'] at hc
      rw [eq_of_eval_eq hn (hrow h' he').1 (funext fun x => ?_)]
      have hx := hc x
      rw [colMem_some, colMem_some] at hx
      cases hs : eval s x <;> cases hs' : eval s' x <;> simp [hs, hs'] at hx ⊢

/-- Two regions in canonical form with the same points have the same rectangles. -/
theorem QRegion.Canonical.rectangles_eq {r r' : QRegion} (h : r.Canonical) (h' : r'.Canonical)
    (hm : ∀ x y, r.Mem x y ↔ r'.Mem x y) : r.rectangles = r'.rectangles := by
  obtain ⟨bands, hb, he⟩ := h.banded
  obtain ⟨bands', hb', he'⟩ := h'.banded
  have hbands : bands = bands' := by
    refine eq_of_eval_eq hb.normal hb'.normal (funext fun y => row_eq_of_colMem hb hb' fun x => ?_)
    rw [← mem_boxes_iff hb, ← mem_boxes_iff hb', ← he, ← he']
    exact hm x y
  rw [he, he', hbands]

theorem Bounds.eq {e e' : Box} {l : List Box} (h : Bounds e l) (h' : Bounds e' l) (hl : l ≠ []) :
    e = e' := by
  have hle : ∀ {e e'}, Bounds e l → Bounds e' l →
      e'.x1 ≤ e.x1 ∧ e'.y1 ≤ e.y1 ∧ e.x2 ≤ e'.x2 ∧ e.y2 ≤ e'.y2 := by
    intro e e' h h'
    obtain ⟨b₁, hb₁, h₁⟩ := h.x1_mem hl
    obtain ⟨b₂, hb₂, h₂⟩ := h.y1_mem hl
    obtain ⟨b₃, hb₃, h₃⟩ := h.x2_mem hl
    obtain ⟨b₄, hb₄, h₄⟩ := h.y2_mem hl
    have c₁ := h'.contains b₁ hb₁
    have c₂ := h'.contains b₂ hb₂
    have c₃ := h'.contains b₃ hb₃
    have c₄ := h'.contains b₄ hb₄
    simp only [subsumes, Bool.and_eq_true, decide_eq_true_eq] at c₁ c₂ c₃ c₄
    omega
  have := hle h h'
  have := hle h' h
  obtain ⟨x1, y1, x2, y2⟩ := e
  obtain ⟨x1', y1', x2', y2'⟩ := e'
  simp only [Box.mk.injEq] at *
  omega

theorem subsumes_iff {r1 r2 : Box} : subsumes r1 r2 = true ↔
    r1.x1 ≤ r2.x1 ∧ r2.x2 ≤ r1.x2 ∧ r1.y1 ≤ r2.y1 ∧ r2.y2 ≤ r1.y2 := by
  simp only [subsumes, Bool.and_eq_true, decide_eq_true_eq, ge_iff_le, and_assoc]

theorem extentCheck_iff {r1 r2 : Box} : extentCheck r1 r2 = true ↔
    r2.x1 < r1.x2 ∧ r1.x1 < r2.x2 ∧ r2.y1 < r1.y2 ∧ r1.y1 < r2.y2 := by
  simp only [extentCheck, Bool.not_eq_true', Bool.or_eq_false_iff, decide_eq_false_iff_not, not_le,
    ge_iff_le, and_assoc]

namespace QRegion

variable {r r1 r2 : QRegion}

theorem Canonical.extents_mem (h : r.Canonical) {x y : Int} (hm : r.Mem x y) : r.extents.Mem x y := by
  obtain ⟨b, hb, hx⟩ := hm
  have := subsumes_iff.1 (h.bounds.contains b hb)
  simp only [Box.Mem] at hx ⊢
  omega

theorem Canonical.box_good (h : r.Canonical) {b : Box} (hb : b ∈ r.rectangles) :
    b.x1 < b.x2 ∧ b.y1 < b.y2 := by
  obtain ⟨bands, hband, he⟩ := h.banded
  rw [he] at hb
  obtain ⟨p, hp, hb⟩ := List.mem_flatMap.mp hb
  obtain ⟨s, hs, rfl⟩ := List.mem_map.mp hb
  have hgood : ∀ {α : Type} {l : List (Piece Int α)}, Normal l → ∀ q ∈ l, q.lo < q.hi := by
    intro α l hl
    induction hl with
    | nil => intro q hq; cases hq
    | cons hlt _ _ ih =>
      intro q hq
      obtain rfl | hq := List.mem_cons.mp hq
      · exact hlt
      · exact ih q hq
  exact ⟨hgood (hband.spans_normal p hp) s hs, hgood hband.normal p hp⟩

theorem Canonical.notEmpty_iff (h : r.Canonical) : r.notEmpty ↔ ∃ x y, r.Mem x y := by
  have hne : r.notEmpty = true ↔ r.rectangles ≠ [] := by
    unfold notEmpty rectangles
    cases r.data <;> simp
  rw [hne]
  constructor
  · intro hr
    obtain ⟨b, hb⟩ := List.exists_mem_of_ne_nil _ hr
    have := h.box_good hb
    exact ⟨b.x1, b.y1, b, hb, le_rfl, this.1, le_rfl, this.2⟩
  · rintro ⟨x, y, b, hb, -⟩ hr
    rw [hr] at hb
    cases hb

/-- A region without `data` is the rectangle of its extents. -/
theorem mem_of_data_none (h : r.data = none) (x y : Int) : r.Mem x y ↔ r.extents.Mem x y := by
  simp [Mem, rectangles, h]

theorem Canonical.extents_good (h : r.Canonical) (hd : r.data = none) :
    r.extents.x1 < r.extents.x2 ∧ r.extents.y1 < r.extents.y2 :=
  h.box_good (by simp [rectangles, hd])

theorem Canonical.not_shared_of_extentCheck (h1 : r1.Canonical) (h2 : r2.Canonical)
    (hc : extentCheck r1.extents r2.extents = false) {x y : Int} (hx : r1.Mem x y) : ¬r2.Mem x y := by
  intro hy
  have e1 := h1.extents_mem hx
  have e2 := h2.extents_mem hy
  have := extentCheck_iff.not.mp (by rw [hc]; exact Bool.false_ne_true)
  simp only [Box.Mem] at e1 e2
  omega

theorem Canonical.not_mem_of_empty (h : r.Canonical) (he : r.notEmpty = false) (x y : Int) :
    ¬r.Mem x y := by
  intro hm
  have := h.notEmpty_iff.mpr ⟨x, y, hm⟩
  rw [he] at this
  cases this

end QRegion

/-- The bits that `region_test` sets when a region is empty or the extents are disjoint. -/
theorem holds_of_disjoint {r1 r2 : QRegion} (h1 : r1.Canonical) (h2 : r2.Canonical)
    (h : (!r1.notEmpty || !r2.notEmpty || !extentCheck r1.extents r2.extents) = true) (f : Flag) :
    (Mask.zero.setIf r1.notEmpty .leftExclusive).setIf r2.notEmpty .rightExclusive f = true ↔
      f.Holds r1 r2 := by
  have hdisj : ∀ x y, r1.Mem x y → ¬r2.Mem x y := by
    intro x y hx hy
    simp only [Bool.or_eq_true, Bool.not_eq_true'] at h
    obtain (he | he) | hc := h
    · exact h1.not_mem_of_empty he x y hx
    · exact h2.not_mem_of_empty he x y hy
    · exact h1.not_shared_of_extentCheck h2 hc hx hy
  rw [Mask.setIf_iff, Mask.setIf_iff, h1.notEmpty_iff, h2.notEmpty_iff]
  cases f with
  | leftExclusive =>
    simp only [Mask.zero, Flag.Holds, Flag.Asks, and_true, reduceCtorEq, and_false, or_false,
      Bool.false_eq_true, false_or]
    constructor
    · rintro ⟨x, y, hx⟩
      exact ⟨x, y, hx, hdisj x y hx⟩
    · rintro ⟨x, y, hx, -⟩
      exact ⟨x, y, hx⟩
  | rightExclusive =>
    simp only [Mask.zero, Flag.Holds, Flag.Asks, and_true, reduceCtorEq, and_false, or_false,
      Bool.false_eq_true, false_or]
    constructor
    · rintro ⟨x, y, hx⟩
      exact ⟨x, y, hx, fun hy => hdisj x y hy hx⟩
    · rintro ⟨x, y, hx, -⟩
      exact ⟨x, y, hx⟩
  | shared =>
    simp only [Mask.zero, Flag.Holds, Flag.Asks, reduceCtorEq, and_false, or_false,
      Bool.false_eq_true, false_iff]
    rintro ⟨x, y, hx, hy⟩
    exact hdisj x y hx hy

/-- Of two boxes with an area, the second has a point outside the first unless it is contained. -/
theorem exists_outside_iff {e1 e2 : Box} (h2 : e2.x1 < e2.x2 ∧ e2.y1 < e2.y2) :
    (∃ x y, e2.Mem x y ∧ ¬e1.Mem x y) ↔ (!subsumes e1 e2) = true := by
  rw [Bool.not_eq_true', ← Bool.not_eq_true, subsumes_iff]
  simp only [Box.Mem]
  constructor
  · rintro ⟨x, y, hx, hy⟩
    omega
  · intro hn
    by_cases hlow : e1.x1 ≤ e2.x1 ∧ e1.y1 ≤ e2.y1
    · exact ⟨e2.x2 - 1, e2.y2 - 1, by omega, by omega⟩
    · exact ⟨e2.x1, e2.y1, by omega, by omega⟩

theorem holds_of_rects {r1 r2 : QRegion} (h1 : r1.Canonical) (h2 : r2.Canonical)
    (hd1 : r1.data = none) (hd2 : r2.data = none)
    (hc : extentCheck r1.extents r2.extents = true) (f : Flag) :
    ((Mask.zero.set .shared).setIf (!subsumes r1.extents r2.extents) .rightExclusive).setIf
      (!subsumes r2.extents r1.extents) .leftExclusive f = true ↔ f.Holds r1 r2 := by
  have g1 := h1.extents_good hd1
  have g2 := h2.extents_good hd2
  rw [extentCheck_iff] at hc
  simp only [Mask.setIf_iff, Mask.set_iff, Flag.Holds, QRegion.mem_of_data_none hd1,
    QRegion.mem_of_data_none hd2]
  cases f with
  | leftExclusive =>
    simp only [Mask.zero, Flag.Asks, and_true, reduceCtorEq, and_false, or_false,
      Bool.false_eq_true, false_or]
    exact (exists_outside_iff g1).symm
  | rightExclusive =>
    simp only [Mask.zero, Flag.Asks, and_true, reduceCtorEq, and_false, or_false,
      Bool.false_eq_true, false_or]
    exact (exists_outside_iff g2).symm
  | shared =>
    simp only [Mask.zero, Flag.Asks, Box.Mem, or_true, true_or, true_iff]
    exact ⟨max r1.extents.x1 r2.extents.x1, max r1.extents.y1 r2.extents.y1, by omega, by omega⟩

/-- A rectangle around a region that is not a rectangle has a point that the region lacks. -/
theorem exists_outside_of_data {r e : QRegion} (h : r.Canonical) (he : e.Canonical)
    (hd : r.data ≠ none) (hde : e.data = none) (hsub : subsumes e.extents r.extents = true) :
    (∀ x y, r.Mem x y → e.Mem x y) ∧ ∃ x y, e.Mem x y ∧ ¬r.Mem x y := by
  have hin : ∀ x y, r.Mem x y → e.Mem x y := by
    intro x y hx
    have := h.extents_mem hx
    rw [subsumes_iff] at hsub
    rw [QRegion.mem_of_data_none hde]
    simp only [Box.Mem] at this ⊢
    omega
  refine ⟨hin, ?_⟩
  by_contra hn
  have hrects : r.rectangles = e.rectangles := h.rectangles_eq he fun x y =>
    ⟨hin x y, fun hx => by_contra fun hr => hn ⟨x, y, hx, hr⟩⟩
  refine hd (h.data_none.mpr ?_)
  rw [hrects]
  exact he.data_none.mp hde

/-- From the top of the upper one of two lists of bands, all of their points are swept. -/
theorem areaHolds_start_iff {r1 r2 : QRegion} {p q : Band} {l k : List Band} (hl : Banded (p :: l))
    (hk : Banded (q :: k)) (h1 : r1.rectangles = boxes (p :: l)) (h2 : r2.rectangles = boxes (q :: k))
    (f : Flag) : AreaHolds (min p.lo q.lo) (p :: l) (q :: k) f ↔ f.Holds r1 r2 := by
  have hm1 : ∀ x y, r1.Mem x y ↔ ColMem (eval (p :: l) y) x := fun x y => by
    rw [← mem_boxes_iff hl, ← h1]
    rfl
  have hm2 : ∀ x y, r2.Mem x y ↔ ColMem (eval (q :: k) y) x := fun x y => by
    rw [← mem_boxes_iff hk, ← h2]
    rfl
  have hsome : ∀ {bands : List Band} {x y}, ColMem (eval bands y) x → (eval bands y).isSome := by
    rintro bands x y ⟨s, hs, -⟩
    rw [hs]
    rfl
  simp only [Flag.Holds, hm1, hm2]
  constructor
  · rintro ⟨y, -, x, h⟩
    exact ⟨x, y, h⟩
  · rintro ⟨x, y, h⟩
    refine ⟨y, ?_, x, h⟩
    obtain h | h := Flag.or_of_asks h
    · exact (min_le_left _ _).trans (lo_le_of_isSome hl.normal (hsome h))
    · exact (min_le_right _ _).trans (lo_le_of_isSome hk.normal (hsome h))

theorem testGeneric_iff {r1 r2 : QRegion} (h1 : r1.Canonical) (h2 : r2.Canonical)
    (hn1 : r1.rectangles ≠ []) (hn2 : r2.rectangles ≠ []) (query : Mask) (f : Flag) :
    testGeneric r1 r2 query f = true ↔ query f ∧ f.Holds r1 r2 := by
  obtain ⟨bands1, hb1, he1⟩ := h1.banded
  obtain ⟨bands2, hb2, he2⟩ := h2.banded
  match bands1, bands2 with
  | [], _ => exact absurd he1 hn1
  | _ :: _, [] => exact absurd he2 hn2
  | p :: l, q :: k =>
    obtain ⟨b1, t1, hbox1, hlo1, -⟩ := findBand_boxes hb1
    obtain ⟨b2, t2, hbox2, hlo2, -⟩ := findBand_boxes hb2
    obtain ⟨out, hout, hcomp⟩ := testGenericLoop_computes query .zero hb1 hb2
      (.start hb1.normal hb2.normal)
    have hg : testGeneric r1 r2 query = out.and query := by
      rw [← hout, hbox1, hbox2, testGeneric, he1, he2, hbox1, hbox2, ← hlo1, ← hlo2]
    rw [hg, hcomp.and_iff, areaHolds_start_iff hb1 hb2 he1 he2]
    simp [Mask.zero]

/-- The query that `region_test` answers when it is asked for `query`. -/
def effectiveQuery (query : UInt32) : UInt32 := if query ≠ 0 then query else regionTestAll

theorem Mask.ofBits_iff (w : UInt32) (f : Flag) : Mask.ofBits w f = true ↔ w &&& f.bit ≠ 0 := by
  simp [Mask.ofBits]

theorem ofBits_query (query : UInt32) :
    Mask.ofBits (if query ≠ 0 then query &&& regionTestAll else regionTestAll) =
      Mask.ofBits (effectiveQuery query) := by
  funext f
  rw [effectiveQuery]
  split
  · have hf : regionTestAll &&& f.bit = f.bit := by cases f <;> decide
    simp only [Mask.ofBits, UInt32.and_assoc, hf]
  · rfl

theorem Mask.bits_and_bit (m : Mask) (f : Flag) : m.bits &&& f.bit ≠ 0 ↔ m f = true := by
  have key : ∀ a b c : Bool, ∀ f : Flag,
      (((if a then Flag.leftExclusive.bit else 0) ||| (if b then Flag.rightExclusive.bit else 0) |||
        (if c then Flag.shared.bit else 0)) &&& f.bit ≠ 0) ↔
      Flag.casesOn (motive := fun _ => Bool) f a b c = true := by
    intro a b c f
    cases f <;> revert a b c <;> decide
  rw [Mask.bits, key]
  cases f <;> rfl

theorem Mask.bits_and_rest (m : Mask) : m.bits &&& ~~~regionTestAll = 0 := by
  have key : ∀ a b c : Bool,
      ((if a then Flag.leftExclusive.bit else 0) ||| (if b then Flag.rightExclusive.bit else 0) |||
        (if c then Flag.shared.bit else 0)) &&& ~~~regionTestAll = 0 := by
    decide
  exact key _ _ _

theorem Mask.bits_inj (m m' : Mask) : m.bits = m'.bits ↔ ∀ f, m f = true ↔ m' f = true := by
  constructor
  · intro h f
    rw [← Mask.bits_and_bit, ← Mask.bits_and_bit, h]
  · intro h
    rw [show m = m' from funext fun f => Bool.eq_iff_iff.mpr (h f)]

/-- The flags of `query` that hold, in whichever way `region_test` finds them. -/
theorem regionTest_eq_bits (rgn : Nat → QRegion) (reg1 reg2 : Nat) (query : UInt32)
    (h1 : (rgn reg1).Canonical) (h2 : (rgn reg2).Canonical) :
    ∃ m : Mask, regionTest rgn reg1 reg2 query = m.bits ∧
      ∀ f, m f = true ↔ Mask.ofBits (effectiveQuery query) f ∧ f.Holds (rgn reg1) (rgn reg2) := by
  have hand : ∀ {m : Mask}, (∀ f, m f = true ↔ f.Holds (rgn reg1) (rgn reg2)) → ∀ f,
      m.and (Mask.ofBits (effectiveQuery query)) f = true ↔
        Mask.ofBits (effectiveQuery query) f ∧ f.Holds (rgn reg1) (rgn reg2) := by
    intro m hm f
    rw [Mask.and, Bool.and_eq_true, hm, and_comm]
  rw [regionTest, ofBits_query]
  split
  · rename_i h
    exact ⟨_, rfl, hand (holds_of_disjoint h1 h2 h)⟩
  rename_i h
  simp only [Bool.or_eq_true, Bool.not_eq_true', not_or, Bool.not_eq_false] at h
  obtain ⟨⟨hn1, hn2⟩, hc⟩ := h
  obtain ⟨x1, y1, hx1⟩ := h1.notEmpty_iff.mp hn1
  obtain ⟨x2, y2, hx2⟩ := h2.notEmpty_iff.mp hn2
  split
  · rename_i hd
    exact ⟨_, rfl, hand (holds_of_rects h1 h2 hd.1 hd.2 hc)⟩
  rename_i hd
  split
  · rename_i hs
    obtain ⟨hin, x, y, hx⟩ := exists_outside_of_data h1 h2 (fun hd1 => hd ⟨hd1, hs.1⟩) hs.1 hs.2
    refine ⟨_, rfl, hand fun f => ?_⟩
    cases f with
    | leftExclusive => simpa [Mask.zero, Flag.Holds, Flag.Asks] using hin
    | rightExclusive => simpa [Flag.Holds, Flag.Asks] using ⟨x, y, hx⟩
    | shared => simpa [Flag.Holds, Flag.Asks] using ⟨x1, y1, hx1, hin _ _ hx1⟩
  split
  · rename_i hs
    obtain ⟨hin, x, y, hx⟩ := exists_outside_of_data h2 h1 (fun hd2 => hd ⟨hs.1, hd2⟩) hs.1 hs.2
    refine ⟨_, rfl, hand fun f => ?_⟩
    cases f with
    | leftExclusive => simpa [Flag.Holds, Flag.Asks] using ⟨x, y, hx⟩
    | rightExclusive => simpa [Mask.zero, Flag.Holds, Flag.Asks] using hin
    | shared => simpa [Flag.Holds, Flag.Asks] using ⟨x2, y2, hin _ _ hx2, hx2⟩
  split
  · rename_i hp
    subst hp
    refine ⟨_, rfl, hand fun f => ?_⟩
    cases f with
    | leftExclusive => simp [Mask.zero, Flag.Holds, Flag.Asks]
    | rightExclusive => simp [Mask.zero, Flag.Holds, Flag.Asks]
    | shared => simpa [Flag.Holds, Flag.Asks] using ⟨x1, y1, hx1⟩
  · refine ⟨_, rfl, testGeneric_iff h1 h2 ?_ ?_ _⟩
    · obtain ⟨b, hb, -⟩ := hx1
      exact List.ne_nil_of_mem hb
    · obtain ⟨b, hb, -⟩ := hx2
      exact List.ne_nil_of_mem hb

/-- What `pixman_region32_intersect` leaves in a region that `pixman_region32_init` has set up: an
empty result keeps the corner of the extents it finds there. -/
structure Intersection (i r1 r2 : QRegion) : Prop where
  canonical : i.Canonical
  mem_iff : ∀ x y, i.Mem x y ↔ r1.Mem x y ∧ r2.Mem x y
  extents_of_empty : i.rectangles = [] → i.extents = ⟨0, 0, 0, 0⟩

/-- An empty region that has kept the corner of the extents it once had. -/
def QRegion.Stray (r : QRegion) : Prop := r.rectangles = [] ∧ r.extents ≠ ⟨0, 0, 0, 0⟩

theorem regionIsEqual_iff {i r1 r2 : QRegion} (hi : Intersection i r1 r2) (h1 : r1.Canonical) :
    regionIsEqual i r1 = true ↔ (∀ x y, r1.Mem x y → r2.Mem x y) ∧ ¬r1.Stray := by
  simp only [regionIsEqual, Bool.and_eq_true, decide_eq_true_eq]
  constructor
  · rintro ⟨hext, hrect⟩
    refine ⟨fun x y hx => ?_, fun hs => hs.2 ?_⟩
    · have hmem : i.Mem x y := by
        rw [QRegion.Mem, hrect]
        exact hx
      exact ((hi.mem_iff x y).mp hmem).2
    · rw [← hext, hi.extents_of_empty (hrect.trans hs.1)]
  · rintro ⟨hin, hstray⟩
    have hrect : i.rectangles = r1.rectangles := hi.canonical.rectangles_eq h1 fun x y => by
      rw [hi.mem_iff]
      exact and_iff_left_of_imp (hin x y)
    refine ⟨?_, hrect⟩
    by_cases hnil : r1.rectangles = []
    · by_contra hne
      refine hstray ⟨hnil, fun he => hne ?_⟩
      rw [he, hi.extents_of_empty (hrect.trans hnil)]
    · exact (hrect ▸ hi.canonical.bounds).eq h1.bounds hnil

theorem Intersection.symm {i r1 r2 : QRegion} (h : Intersection i r1 r2) : Intersection i r2 r1 :=
  ⟨h.canonical, fun x y => (h.mem_iff x y).trans and_comm, h.extents_of_empty⟩

/-- The flags that the slow test finds: an empty region off the origin counts as exclusive. -/
def SlowHolds (r1 r2 : QRegion) : Flag → Prop
  | .leftExclusive => Flag.leftExclusive.Holds r1 r2 ∨ r1.Stray
  | .rightExclusive => Flag.rightExclusive.Holds r1 r2 ∨ r2.Stray
  | .shared => Flag.shared.Holds r1 r2

theorem slowRegionTest_eq_bits {intersect : QRegion → QRegion → QRegion} {r1 r2 : QRegion}
    (hi : Intersection (intersect r1 r2) r1 r2) (h1 : r1.Canonical) (h2 : r2.Canonical)
    (query : UInt32) : ∃ m : Mask, slowRegionTest intersect r1 r2 query = m.bits ∧
      ∀ f, m f = true ↔ Mask.ofBits query f ∧ SlowHolds r1 r2 f := by
  refine ⟨_, rfl, fun f => ?_⟩
  have hshared : (intersect r1 r2).notEmpty = true ↔ Flag.shared.Holds r1 r2 := by
    rw [hi.canonical.notEmpty_iff]
    simp only [hi.mem_iff]
    rfl
  have hleft : ¬regionIsEqual (intersect r1 r2) r1 = true ↔ SlowHolds r1 r2 .leftExclusive := by
    rw [regionIsEqual_iff hi h1, not_and_or, not_not]
    simp [SlowHolds, Flag.Holds, Flag.Asks]
  have hright : ¬regionIsEqual (intersect r1 r2) r2 = true ↔ SlowHolds r1 r2 .rightExclusive := by
    rw [regionIsEqual_iff hi.symm h2, not_and_or, not_not]
    simp [SlowHolds, Flag.Holds, Flag.Asks]
  cases f with
  | leftExclusive => simp [Mask.zero, Mask.ofBits, ← hleft]
  | rightExclusive => simp [Mask.zero, Mask.ofBits, ← hright]
  | shared => simp [Mask.zero, Mask.ofBits, SlowHolds, ← hshared]

theorem QRegion.Stray.not_mem {r : QRegion} (h : r.Stray) (x y : Int) : ¬r.Mem x y := by
  rintro ⟨b, hb, -⟩
  rw [h.1] at hb
  cases hb

theorem regionTest_and_bit (rgn : Nat → QRegion) (reg1 reg2 : Nat) (query : UInt32)
    (h1 : (rgn reg1).Canonical) (h2 : (rgn reg2).Canonical) (f : Flag) :
    regionTest rgn reg1 reg2 query &&& f.bit ≠ 0 ↔
      effectiveQuery query &&& f.bit ≠ 0 ∧ f.Holds (rgn reg1) (rgn reg2) := by
  obtain ⟨m, hm, hf⟩ := regionTest_eq_bits rgn reg1 reg2 query h1 h2
  rw [hm, Mask.bits_and_bit, hf, Mask.ofBits_iff]

/-- Asked for one flag, `region_test` returns zero exactly when the flag does not hold. -/
theorem regionTest_bit_ne_zero (rgn : Nat → QRegion) (reg1 reg2 : Nat)
    (h1 : (rgn reg1).Canonical) (h2 : (rgn reg2).Canonical) (f : Flag) :
    regionTest rgn reg1 reg2 f.bit ≠ 0 ↔ f.Holds (rgn reg1) (rgn reg2) := by
  obtain ⟨m, hm, hf⟩ := regionTest_eq_bits rgn reg1 reg2 f.bit h1 h2
  have hq : ∀ g, Mask.ofBits (effectiveQuery f.bit) g = true ↔ g = f := by
    intro g
    cases f <;> cases g <;> decide
  have hzero : m.bits = 0 ↔ ∀ g, m g = true ↔ Mask.zero g = true := Mask.bits_inj m .zero
  rw [hm, Ne, hzero]
  simp only [hf, hq]
  simp [Mask.zero]

theorem regionContains_iff (rgn : Nat → QRegion) (rgn1 other : Nat)
    (h1 : (rgn rgn1).Canonical) (h2 : (rgn other).Canonical) :
    regionContains rgn rgn1 other = true ↔ ∀ x y, (rgn other).Mem x y → (rgn rgn1).Mem x y := by
  have h := regionTest_bit_ne_zero rgn rgn1 other h1 h2 .rightExclusive
  rw [regionContains, decide_eq_true_eq, ← not_iff_not, ← Ne, h]
  simp [Flag.Holds, Flag.Asks]

theorem regionIntersects_iff (rgn : Nat → QRegion) (rgn1 rgn2 : Nat)
    (h1 : (rgn rgn1).Canonical) (h2 : (rgn rgn2).Canonical) :
    regionIntersects rgn rgn1 rgn2 = true ↔ ∃ x y, (rgn rgn1).Mem x y ∧ (rgn rgn2).Mem x y := by
  have h := regionTest_bit_ne_zero rgn rgn1 rgn2 h1 h2 .shared
  rw [regionIntersects, Bool.and_eq_true, decide_eq_true_eq, h]
  refine and_iff_right_of_imp fun ⟨x, y, hx, _⟩ => ?_
  have := h1.extents_mem hx
  rw [regionBoundsIntersects, extentCheck_iff]
  simp only [Box.Mem] at this
  omega

/-- `region_test` answers for the sets of points of its arguments, and so do the slow test and the
two functions that are built on `region_test`. -/
structure TestsSets (intersect : QRegion → QRegion → QRegion) (rgn : Nat → QRegion)
    (reg1 reg2 : Nat) (query : UInt32) : Prop where
  bits : ∀ f : Flag, regionTest rgn reg1 reg2 query &&& f.bit ≠ 0 ↔
    effectiveQuery query &&& f.bit ≠ 0 ∧ f.Holds (rgn reg1) (rgn reg2)
  rest : regionTest rgn reg1 reg2 query &&& ~~~regionTestAll = 0
  slow : regionTest rgn reg1 reg2 query =
    slowRegionTest intersect (rgn reg1) (rgn reg2) (effectiveQuery query)
  contains : regionContains rgn reg1 reg2 = true ↔
    ∀ x y, (rgn reg2).Mem x y → (rgn reg1).Mem x y
  intersects : regionIntersects rgn reg1 reg2 = true ↔
    ∃ x y, (rgn reg1).Mem x y ∧ (rgn reg2).Mem x y

theorem slow_eq_iff {intersect : QRegion → QRegion → QRegion} (rgn : Nat → QRegion)
    (reg1 reg2 : Nat) (query : UInt32) (h1 : (rgn reg1).Canonical) (h2 : (rgn reg2).Canonical)
    (hi : Intersection (intersect (rgn reg1) (rgn reg2)) (rgn reg1) (rgn reg2)) :
    regionTest rgn reg1 reg2 query =
        slowRegionTest intersect (rgn reg1) (rgn reg2) (effectiveQuery query) ↔
      ¬(effectiveQuery query &&& Flag.leftExclusive.bit ≠ 0 ∧ (rgn reg1).Stray) ∧
        ¬(effectiveQuery query &&& Flag.rightExclusive.bit ≠ 0 ∧ (rgn reg2).Stray) := by
  obtain ⟨m, hm, hf⟩ := regionTest_eq_bits rgn reg1 reg2 query h1 h2
  obtain ⟨m', hm', hf'⟩ := slowRegionTest_eq_bits hi h1 h2 (effectiveQuery query)
  have hleft : (rgn reg1).Stray → ¬Flag.leftExclusive.Holds (rgn reg1) (rgn reg2) :=
    fun hs ⟨x, y, hx, _⟩ => hs.not_mem x y hx
  have hright : (rgn reg2).Stray → ¬Flag.rightExclusive.Holds (rgn reg1) (rgn reg2) :=
    fun hs ⟨x, y, hx, _⟩ => hs.not_mem x y hx
  rw [hm, hm', Mask.bits_inj]
  simp only [hf, hf', Mask.ofBits_iff]
  constructor
  · intro h
    have hl := h .leftExclusive
    have hr := h .rightExclusive
    simp only [SlowHolds] at hl hr
    tauto
  · rintro ⟨hl, hr⟩ (_ | _ | _) <;> simp only [SlowHolds] <;> tauto

theorem testsSets_iff {intersect : QRegion → QRegion → QRegion} (rgn : Nat → QRegion)
    (reg1 reg2 : Nat) (query : UInt32) (h1 : (rgn reg1).Canonical) (h2 : (rgn reg2).Canonical)
    (hi : Intersection (intersect (rgn reg1) (rgn reg2)) (rgn reg1) (rgn reg2)) :
    TestsSets intersect rgn reg1 reg2 query ↔
      ¬(effectiveQuery query &&& Flag.leftExclusive.bit ≠ 0 ∧ (rgn reg1).Stray) ∧
        ¬(effectiveQuery query &&& Flag.rightExclusive.bit ≠ 0 ∧ (rgn reg2).Stray) := by
  rw [← slow_eq_iff rgn reg1 reg2 query h1 h2 hi]
  constructor
  · exact fun h => h.slow
  · intro h
    obtain ⟨m, hm, -⟩ := regionTest_eq_bits rgn reg1 reg2 query h1 h2
    exact {
      bits := regionTest_and_bit rgn reg1 reg2 query h1 h2
      rest := by rw [hm, Mask.bits_and_rest]
      slow := h
      contains := regionContains_iff rgn reg1 reg2 h1 h2
      intersects := regionIntersects_iff rgn reg1 reg2 h1 h2 }

theorem canonical_rect {e : Box} (hx : e.x1 < e.x2) (hy : e.y1 < e.y2) : (⟨e, none⟩ : QRegion).Canonical where
  banded := by
    refine ⟨[⟨e.y1, e.y2, [⟨e.x1, e.x2, ()⟩]⟩], ⟨?_, ?_, ?_⟩, rfl⟩
    · exact .cons hy (fun q hq => by cases hq) .nil
    · simp
    · simpa using .cons hx (fun q hq => by cases hq) .nil
  data_none := by simp [QRegion.rectangles]
  bounds := by constructor <;> simp [QRegion.rectangles, subsumes]

theorem canonical_empty (x y : Int) : (⟨⟨x, y, x, y⟩, some []⟩ : QRegion).Canonical where
  banded := ⟨[], ⟨.nil, by simp, by simp⟩, rfl⟩
  data_none := by simp [QRegion.rectangles]
  bounds := by constructor <;> simp [QRegion.rectangles]

theorem testsSets_overlapping_rects :
    TestsSets (fun _ _ => ⟨⟨5, 5, 10, 10⟩, none⟩)
      (fun n => if n = 0 then ⟨⟨0, 0, 10, 10⟩, none⟩ else ⟨⟨5, 5, 20, 20⟩, none⟩) 0 1 0 := by
  refine (testsSets_iff _ 0 1 0 (canonical_rect (by decide) (by decide))
    (canonical_rect (by decide) (by decide)) ⟨canonical_rect (by decide) (by decide), ?_, ?_⟩).mpr
    ⟨fun h => absurd h.2.1 (by decide), fun h => absurd h.2.1 (by decide)⟩
  · intro x y
    simp only [QRegion.mem_of_data_none, Nat.one_ne_zero, if_true, if_false, Box.Mem]
    omega
  · exact fun h => absurd h (by decide)

/-- A region that was emptied by subtraction keeps its corner, here `(5, 5)`, and the slow test
then finds it to be different from its empty intersection with the other region. -/
theorem not_testsSets_empty_off_origin :
    Intersection ⟨⟨0, 0, 0, 0⟩, some []⟩ ⟨⟨5, 5, 5, 5⟩, some []⟩ ⟨⟨0, 0, 10, 10⟩, none⟩ ∧
    ¬TestsSets (fun _ _ => ⟨⟨0, 0, 0, 0⟩, some []⟩)
      (fun n => if n = 0 then ⟨⟨5, 5, 5, 5⟩, some []⟩ else ⟨⟨0, 0, 10, 10⟩, none⟩) 0 1 1 := by
  refine ⟨⟨canonical_empty 0 0, ?_, fun _ => rfl⟩, fun h => absurd h.slow (by decide)⟩
  simp [QRegion.Mem, QRegion.rectangles]

end Colama.Spice
