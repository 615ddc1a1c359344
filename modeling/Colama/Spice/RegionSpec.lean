import Mathlib.Tactic
import Colama.Spice.Region

namespace Colama.Spice

open Lib Lib.Pieces

abbrev Span := Piece Int Unit

/-- A row of spans that is repeated from `lo` to `hi`. -/
abbrev Band := Piece Int (List Span)

def Span.box (b : Band) (s : Span) : Box := ⟨s.lo, b.lo, s.hi, b.hi⟩

def Band.boxes (b : Band) : List Box := b.val.map (Span.box b)

def boxes (bands : List Band) : List Box := bands.flatMap Band.boxes

/-- The bands are sorted and coalesced, and so are the spans of each band. -/
structure Banded (bands : List Band) : Prop where
  normal : Normal bands
  spans_ne : ∀ b ∈ bands, b.val ≠ []
  spans_normal : ∀ b ∈ bands, Normal b.val

def Box.Mem (x y : Int) (b : Box) : Prop := b.x1 ≤ x ∧ x < b.x2 ∧ b.y1 ≤ y ∧ y < b.y2

/-- The point `(x, y)` lies in the region. -/
def QRegion.Mem (r : QRegion) (x y : Int) : Prop := ∃ b ∈ r.rectangles, b.Mem x y

/-- The smallest box around the boxes; an empty region has some box without area. -/
structure Bounds (e : Box) (l : List Box) : Prop where
  contains : ∀ b ∈ l, subsumes e b
  x1_mem : l ≠ [] → ∃ b ∈ l, b.x1 = e.x1
  y1_mem : l ≠ [] → ∃ b ∈ l, b.y1 = e.y1
  x2_mem : l ≠ [] → ∃ b ∈ l, b.x2 = e.x2
  y2_mem : l ≠ [] → ∃ b ∈ l, b.y2 = e.y2
  degenerate : l = [] → e.x1 = e.x2 ∧ e.y1 = e.y2

/-- The canonical form that pixman keeps its regions in. -/
structure QRegion.Canonical (r : QRegion) : Prop where
  banded : ∃ bands, Banded bands ∧ r.rectangles = boxes bands
  data_none : r.data = none ↔ r.rectangles.length = 1
  bounds : Bounds r.extents r.rectangles

/-- What a flag asks of a point, given whether it lies in the one region and in the other. -/
def Flag.Asks : Flag → Prop → Prop → Prop
  | .leftExclusive, a, b => a ∧ ¬b
  | .rightExclusive, a, b => b ∧ ¬a
  | .shared, a, b => a ∧ b

/-- Some point answers the flag for the two regions. -/
def Flag.Holds (f : Flag) (r1 r2 : QRegion) : Prop := ∃ x y, f.Asks (r1.Mem x y) (r2.Mem x y)

/-- Starting from `res`, the bits of `query` are computed to be those of `F`. A computation may
stop as soon as it has all of `query`. -/
structure Computes (query res out : Mask) (F : Flag → Prop) : Prop where
  sound : ∀ f, out f → res f ∨ F f
  mono : ∀ f, res f → out f
  complete : ∀ f, query f → F f → out f

namespace Computes

variable {query res res' out : Mask} {F S F' : Flag → Prop}

theorem covers_iff : res.covers query ↔ ∀ f, query f → res f := by
  simp only [Mask.covers, Bool.and_eq_true, decide_eq_true_eq, Bool.le_iff_imp]
  constructor
  · rintro ⟨⟨h₁, h₂⟩, h₃⟩ (_ | _ | _)
    · exact h₁
    · exact h₂
    · exact h₃
  · exact fun h => ⟨⟨h _, h _⟩, h _⟩

theorem of_iff (hres : ∀ f, res' f ↔ res f ∨ F f) : Computes query res res' F where
  sound f hf := (hres f).mp hf
  mono f hf := (hres f).mpr (.inl hf)
  complete f _ hf := (hres f).mpr (.inr hf)

/-- The first computation finds the flags of `S`, and `F'` is left to the second one. -/
theorem trans (h : Computes query res res' S) (h' : Computes query res' out F')
    (hF : ∀ f, F f ↔ S f ∨ F' f) : Computes query res out F where
  sound f hf := by
    rw [hF, ← or_assoc]
    exact (h'.sound f hf).imp_left (h.sound f)
  mono f hf := h'.mono f (h.mono f hf)
  complete f hq hf := by
    obtain hs | hf' := (hF f).mp hf
    · exact h'.mono f (h.complete f hq hs)
    · exact h'.complete f hq hf'

theorem stop (h : Computes query res out S) (hF : ∀ f, S f → F f) (hc : out.covers query) :
    Computes query res out F where
  sound f hf := (h.sound f hf).imp_right (hF f)
  mono := h.mono
  complete f hq _ := covers_iff.1 hc f hq

theorem congr (h : Computes query res out S) (hF : ∀ f, F f ↔ S f) : Computes query res out F where
  sound f hf := (h.sound f hf).imp_right (hF f).mpr
  mono := h.mono
  complete f hq hf := h.complete f hq ((hF f).mp hf)

theorem and_iff (h : Computes query res out F) (f : Flag) :
    out.and query f = true ↔ query f ∧ (res f ∨ F f) := by
  have h₁ := h.sound f
  have h₂ := h.mono f
  have h₃ := h.complete f
  rw [Mask.and, Bool.and_eq_true]
  tauto

end Computes

@[simp] theorem Mask.set_iff (res : Mask) (f g : Flag) : res.set f g = true ↔ res g ∨ g = f := by
  simp [Mask.set]

@[simp] theorem Mask.setIf_iff (res : Mask) (c : Bool) (f g : Flag) :
    res.setIf c f g = true ↔ res g ∨ (c ∧ g = f) := by
  cases c <;> simp [Mask.setIf]

/-- Some column from `c` on answers the flag for the two rows of spans. -/
def RowHolds (c : Int) (s1 s2 : List Span) (f : Flag) : Prop :=
  Meets c s1 s2 fun o o' => f.Asks (o.isSome = true) (o'.isSome = true)

theorem testBandRects_iff (res : Mask) (r1 r2 : Box) (f : Flag) :
    testBandRects res r1 r2 f = true ↔ res f ∨ testBandRects .zero r1 r2 f := by
  unfold testBandRects
  split
  · simp [Mask.zero]
    tauto
  · split <;> simp [Mask.zero]

section Row

variable {p q : Span} {l k : List Span} {c : Int} {b1 b2 : Band}

theorem Normal.hi_lt_lo (h : Normal (p :: l)) : ∀ t ∈ l.head?, p.hi < t.lo := by
  intro t ht
  obtain ⟨hle, hne⟩ := h.before t ht
  exact lt_of_le_of_ne hle fun he => hne he rfl

/-- The front span that begins first has a column of its own. -/
theorem exclusive_before (hl : Normal (p :: l)) (hk : Normal (q :: k))
    (ha : Aligned (· < ·) c (p :: l) (q :: k)) (h : p.lo < q.lo) :
    ∃ x, c ≤ x ∧ (eval (p :: l) x).isSome ∧ ¬(eval (q :: k) x).isSome := by
  have hc := ha.left_hi p rfl
  have hlo := ha.left_lo p rfl q rfl
  refine ⟨max p.lo c, le_max_right _ _, ?_, ?_⟩
  · rw [eval_cons_of_mem (le_max_left _ _) (max_lt hl.lo_lt_hi hc)]
    rfl
  · rw [eval_of_lt_lo hk (by omega)]
    simp

/-- The front span that reaches behind the other one has a column of its own. -/
theorem exclusive_behind (hk : Normal (q :: k)) (ha : Aligned (· < ·) c (p :: l) (q :: k))
    (hlo : p.lo < q.hi) (h : q.hi < p.hi) :
    ∃ x, c ≤ x ∧ (eval (p :: l) x).isSome ∧ ¬(eval (q :: k) x).isSome := by
  refine ⟨q.hi, le_of_lt (ha.right_hi q rfl), ?_, ?_⟩
  · rw [eval_cons_of_mem (le_of_lt hlo) h]
    rfl
  · have := eval_hi_ne hk
    cases he : eval (q :: k) q.hi with
    | none => simp
    | some u => exact absurd he this

theorem shared_of_overlap (ha : Aligned (· < ·) c (p :: l) (q :: k))
    (h : max p.lo q.lo < min p.hi q.hi) :
    ∃ x, c ≤ x ∧ (eval (p :: l) x).isSome ∧ (eval (q :: k) x).isSome := by
  have h₁ := ha.left_lo p rfl q rfl
  have h₂ := ha.right_lo p rfl q rfl
  refine ⟨max p.lo q.lo, by omega, ?_, ?_⟩
  · rw [eval_cons_of_mem (le_max_left _ _) (by omega)]
    rfl
  · rw [eval_cons_of_mem (le_max_right _ _) (by omega)]
    rfl

theorem rowHolds_of_testBandRects (hl : Normal (p :: l)) (hk : Normal (q :: k))
    (ha : Aligned (· < ·) c (p :: l) (q :: k)) (f : Flag)
    (h : testBandRects .zero (Span.box b1 p) (Span.box b2 q) f) : RowHolds c (p :: l) (q :: k) f := by
  have hp := hl.lo_lt_hi
  have hq := hk.lo_lt_hi
  have hleft (h : p.lo < q.lo ∨ (p.lo < q.hi ∧ q.hi < p.hi)) :
      RowHolds c (p :: l) (q :: k) .leftExclusive := by
    obtain h | h := h
    · exact exclusive_before hl hk ha h
    · exact exclusive_behind hk ha h.1 h.2
  have hright (h : q.lo < p.lo ∨ (q.lo < p.hi ∧ p.hi < q.hi)) :
      RowHolds c (p :: l) (q :: k) .rightExclusive := by
    obtain ⟨x, hx, h₁, h₂⟩ : ∃ x, c ≤ x ∧ (eval (q :: k) x).isSome ∧ ¬(eval (p :: l) x).isSome := by
      obtain h | h := h
      · exact exclusive_before hk hl ha.symm h
      · exact exclusive_behind hl ha.symm h.1 h.2
    exact ⟨x, hx, h₁, h₂⟩
  unfold testBandRects at h
  split at h
  · rename_i ho
    simp only [Span.box] at ho
    simp only [Mask.setIf_iff, Mask.set_iff, Bool.or_eq_true, decide_eq_true_eq] at h
    simp only [Span.box] at h
    obtain ((h | rfl) | ⟨h, rfl⟩) | ⟨h, rfl⟩ := h
    · cases h
    · exact shared_of_overlap ha ho
    · exact hleft (by omega)
    · exact hright (by omega)
  · rename_i ho
    simp only [Span.box] at ho
    by_cases hlt : p.lo < q.lo
    · obtain rfl : f = .leftExclusive := by simpa [Mask.zero, Span.box, hlt] using h
      exact hleft (.inl hlt)
    · obtain rfl : f = .rightExclusive := by simpa [Mask.zero, Span.box, hlt] using h
      exact hright (by omega)

/-- The columns up to the end of the first span that ends are all accounted for. -/
theorem testBandRects_of_front {x m : Int} (hm : m = min p.hi q.hi) (hx : x < m) (f : Flag)
    (h : f.Asks ((front p x).isSome = true) ((front q x).isSome = true)) :
    testBandRects .zero (Span.box b1 p) (Span.box b2 q) f := by
  have hfront (s : Span) : (front s x).isSome = true ↔ s.lo ≤ x := by
    unfold front
    split <;> simp_all
  rw [hfront, hfront] at h
  unfold testBandRects
  cases f with
  | leftExclusive =>
    obtain ⟨h₁, h₂⟩ := h
    have : p.lo < q.lo := by omega
    split <;> simp [Span.box, Mask.zero, this]
  | rightExclusive =>
    obtain ⟨h₁, h₂⟩ := h
    have : q.lo < p.lo := by omega
    have hn : ¬p.lo < q.lo := by omega
    split <;> simp [Span.box, Mask.zero, this, hn]
  | shared =>
    obtain ⟨h₁, h₂⟩ := h
    rw [if_pos (by simp only [Span.box]; omega)]
    simp

theorem rowHolds_cons_iff (b1 b2 : Band) (hl : Normal (p :: l)) (hk : Normal (q :: k))
    (ha : Aligned (· < ·) c (p :: l) (q :: k)) {m : Int} (hm : m = min p.hi q.hi) (f : Flag) :
    RowHolds c (p :: l) (q :: k) f ↔
      testBandRects .zero (Span.box b1 p) (Span.box b2 q) f ∨
        RowHolds m (advance m (p :: l)) (advance m (q :: k)) f := by
  have hc : c ≤ m := by
    rw [hm]
    exact le_min (le_of_lt (ha.left_hi p rfl)) (le_of_lt (ha.right_hi q rfl))
  have hstep := meets_cons_iff hl hk hm hc fun o o' => f.Asks (o.isSome = true) (o'.isSome = true)
  constructor
  · intro h
    obtain ⟨x, -, hx, h⟩ | h := hstep.mp h
    · exact .inl (testBandRects_of_front hm hx f h)
    · exact .inr h
  · rintro (h | h)
    · exact rowHolds_of_testBandRects hl hk ha f h
    · exact hstep.mpr (.inr h)

theorem rowHolds_left (hl : Normal (p :: l)) (hc : c < p.hi) (f : Flag) :
    RowHolds c (p :: l) [] f ↔ f = .leftExclusive := by
  constructor
  · rintro ⟨x, -, h⟩
    cases f with
    | leftExclusive => rfl
    | rightExclusive => simp [Flag.Asks] at h
    | shared => simp [Flag.Asks] at h
  · rintro rfl
    refine ⟨max p.lo c, le_max_right _ _, ?_, by simp⟩
    rw [eval_cons_of_mem (le_max_left _ _) (max_lt hl.lo_lt_hi hc)]
    rfl

theorem rowHolds_right (hk : Normal (q :: k)) (hc : c < q.hi) (f : Flag) :
    RowHolds c [] (q :: k) f ↔ f = .rightExclusive := by
  constructor
  · rintro ⟨x, -, h⟩
    cases f with
    | leftExclusive => simp [Flag.Asks] at h
    | rightExclusive => rfl
    | shared => simp [Flag.Asks] at h
  · rintro rfl
    refine ⟨max q.lo c, le_max_right _ _, ?_, by simp⟩
    rw [eval_cons_of_mem (le_max_left _ _) (max_lt hk.lo_lt_hi hc)]
    rfl

theorem not_rowHolds_nil (f : Flag) : ¬RowHolds c [] [] f := by
  rintro ⟨x, -, h⟩
  cases f <;> simp [Flag.Asks] at h

theorem map_advance {m : Int} {b : Band} : (advance m (p :: l)).map (Span.box b) =
    if (Span.box b p).x2 = m then l.map (Span.box b) else Span.box b p :: l.map (Span.box b) := by
  rw [advance]
  split <;> rename_i h
  · rw [if_pos (by exact h)]
  · rw [if_neg (by exact h), List.map_cons]

end Row

theorem testBand_computes (b1 b2 : Band) (query res : Mask) {c : Int} {s1 s2 : List Span}
    (hl : Normal s1) (hk : Normal s2) (ha : Aligned (· < ·) c s1 s2) :
    Computes query res (testBand query res (s1.map (Span.box b1)) (s2.map (Span.box b2)))
      (RowHolds c s1 s2) := by
  induction hn : s1.length + s2.length using Nat.strong_induction_on generalizing res c s1 s2 with
  | _ n ih =>
    match s1, s2 with
    | [], [] =>
      rw [List.map_nil, List.map_nil, testBand.eq_4]
      exact ⟨fun f => .inl, fun f => id, fun f _ h => absurd h (not_rowHolds_nil f)⟩
    | p :: l, [] =>
      rw [List.map_nil, List.map_cons, testBand]
      have hF := rowHolds_left hl (ha.left_hi p rfl)
      exact ⟨fun f => by simp [hF], fun f => by simp; tauto, fun f _ => by simp [hF]; tauto⟩
    | [], q :: k =>
      rw [List.map_nil, List.map_cons, testBand]
      have hF := rowHolds_right hk (ha.right_hi q rfl)
      exact ⟨fun f => by simp [hF], fun f => by simp; tauto, fun f _ => by simp [hF]; tauto⟩
    | p :: l, q :: k =>
      have hres := testBandRects_iff res (Span.box b1 p) (Span.box b2 q)
      have hF := rowHolds_cons_iff b1 b2 hl hk ha (m := min p.hi q.hi) rfl
      rw [List.map_cons, List.map_cons, testBand]
      split
      · rename_i hcov
        exact (Computes.of_iff hres).stop (fun f h => (hF f).mpr (.inl h)) hcov
      · refine (Computes.of_iff hres).trans ?_ hF
        have ha' := Aligned.advance (R := (· < ·)) hl hk rfl (Normal.hi_lt_lo hl) (Normal.hi_lt_lo hk)
        have hrec := ih _ (hn ▸ length_advance_add_lt rfl) (testBandRects res (Span.box b1 p) (Span.box b2 q))
          hl.advance hk.advance ha' rfl
        rw [map_advance, map_advance] at hrec
        exact hrec

/-- The column `x` of a row that may be missing. -/
def ColMem (row : Option (List Span)) (x : Int) : Prop := ∃ s, row = some s ∧ (eval s x).isSome

/-- Some point from row `c` on answers the flag for the two lists of bands. -/
def AreaHolds (c : Int) (bands1 bands2 : List Band) (f : Flag) : Prop :=
  Meets c bands1 bands2 fun o o' => ∃ x, f.Asks (ColMem o x) (ColMem o' x)

@[simp] theorem not_colMem_none (x : Int) : ¬ColMem none x := by
  rintro ⟨s, h, -⟩
  cases h

@[simp] theorem colMem_some (s : List Span) (x : Int) : ColMem (some s) x ↔ (eval s x).isSome := by
  constructor
  · rintro ⟨t, h, ht⟩
    cases h
    exact ht
  · exact fun h => ⟨s, rfl, h⟩

theorem Flag.or_of_asks {f : Flag} {a b : Prop} (h : f.Asks a b) : a ∨ b := by
  cases f with
  | leftExclusive => exact .inl h.1
  | rightExclusive => exact .inr h.1
  | shared => exact .inl h.1

theorem Flag.eq_left_of_asks {f : Flag} {a b : Prop} (h : f.Asks a b) (hb : ¬b) :
    f = .leftExclusive := by
  cases f with
  | leftExclusive => rfl
  | rightExclusive => exact absurd h.1 hb
  | shared => exact absurd h.2 hb

theorem Flag.eq_right_of_asks {f : Flag} {a b : Prop} (h : f.Asks a b) (ha : ¬a) :
    f = .rightExclusive := by
  cases f with
  | leftExclusive => exact absurd h.1 ha
  | rightExclusive => rfl
  | shared => exact absurd h.1 ha

namespace Banded

variable {p : Band} {l : List Band}

theorem tail (h : Banded (p :: l)) : Banded l :=
  ⟨h.normal.tail, fun b hb => h.spans_ne b (.tail _ hb), fun b hb => h.spans_normal b (.tail _ hb)⟩

theorem advance {m : Int} (h : Banded (p :: l)) : Banded (advance m (p :: l)) := by
  rw [Pieces.advance]
  split
  · exact h.tail
  · exact h

/-- A band has a column, because its row of spans is not empty. -/
theorem exists_col (h : Banded (p :: l)) : ∃ x, (eval p.val x).isSome := by
  have hne := h.spans_ne p (.head _)
  have hn := h.spans_normal p (.head _)
  cases hv : p.val with
  | nil => exact absurd hv hne
  | cons s ss =>
    rw [hv] at hn
    exact ⟨s.lo, by rw [eval_cons_of_mem le_rfl hn.lo_lt_hi]; rfl⟩

end Banded

theorem y1_of_mem_boxes {p : Band} {l : List Band} (h : Normal (p :: l)) :
    ∀ b ∈ boxes l, p.hi ≤ b.y1 := by
  induction l generalizing p with
  | nil => intro b hb; cases hb
  | cons q l ih =>
    intro b hb
    obtain hb | hb := List.mem_append.mp hb
    · obtain ⟨s, -, rfl⟩ := List.mem_map.mp hb
      exact h.hi_le_lo
    · have := ih h.tail b hb
      have := h.hi_le_lo
      have := h.tail.lo_lt_hi
      omega

/-- `FIND_BAND` cuts off exactly the first band. -/
theorem findBand_boxes {p : Band} {l : List Band} (h : Banded (p :: l)) :
    ∃ r t, boxes (p :: l) = r :: t ∧ r.y1 = p.lo ∧ r.y2 = p.hi ∧ findBand r t = (p.boxes, boxes l) := by
  cases hv : p.val with
  | nil => exact absurd hv (h.spans_ne p (.head _))
  | cons s ss =>
    have hboxes : p.boxes = Span.box p s :: ss.map (Span.box p) := by rw [Band.boxes, hv, List.map_cons]
    refine ⟨Span.box p s, ss.map (Span.box p) ++ boxes l, ?_, rfl, rfl, ?_⟩
    · change p.boxes ++ boxes l = _
      rw [hboxes, List.cons_append]
    have hin : ∀ b ∈ ss.map (Span.box p), decide (b.y1 = (Span.box p s).y1) = true := by
      intro b hb
      obtain ⟨s', -, rfl⟩ := List.mem_map.mp hb
      simp [Span.box]
    have hout : (boxes l).takeWhile (fun b => decide (b.y1 = (Span.box p s).y1)) = [] ∧
        (boxes l).dropWhile (fun b => decide (b.y1 = (Span.box p s).y1)) = boxes l := by
      cases hl : boxes l with
      | nil => exact ⟨rfl, rfl⟩
      | cons b bs =>
        have hy := y1_of_mem_boxes h.normal b (by rw [hl]; exact .head _)
        have hlt := h.normal.lo_lt_hi
        have hd : ¬b.y1 = (Span.box p s).y1 := by
          simp only [Span.box]
          omega
        exact ⟨List.takeWhile_cons_of_neg (by simpa using hd), List.dropWhile_cons_of_neg (by simpa using hd)⟩
    rw [findBand, List.takeWhile_append_of_pos hin, List.dropWhile_append_of_pos hin, hout.1, hout.2,
      List.append_nil, ← hboxes]

section Area

variable {p q : Band} {l k : List Band} {c : Int} {r1 r2 : Box}

/-- The rows of both bands, seen from the first row that they share. -/
def RowsHold (p q : Band) (f : Flag) : Prop :=
  ∃ x, f.Asks ((eval p.val x).isSome = true) ((eval q.val x).isSome = true)

theorem Band.colMem_front (y x : Int) : ColMem (front p y) x ↔ p.lo ≤ y ∧ (eval p.val x).isSome := by
  unfold front
  split <;> simp_all

theorem setOption_iff (res : Mask) (o : Option Flag) (f : Flag) :
    res.setOption o f = true ↔ res f ∨ o = some f := by
  cases o with
  | none => simp [Mask.setOption]
  | some g =>
    rw [Mask.setOption, Mask.set_iff, Option.some.injEq]
    exact or_congr_right eq_comm

/-- Rows that only one of the bands has, above the first row that both have. -/
theorem areaHolds_of_exclusiveRows (hl : Banded (p :: l)) (hk : Banded (q :: k))
    (ha : Aligned (· ≤ ·) c (p :: l) (q :: k)) (h1 : r1.y1 = p.lo ∧ r1.y2 = p.hi)
    (h2 : r2.y1 = q.lo ∧ r2.y2 = q.hi) (f : Flag) (h : exclusiveRows c r1 r2 = some f) :
    AreaHolds c (p :: l) (q :: k) f := by
  have hcp := ha.left_hi p rfl
  have hcq := ha.right_hi q rfl
  have hlo := ha.left_lo p rfl q rfl
  have hlo' := ha.right_lo p rfl q rfl
  have hp := hl.normal.lo_lt_hi
  have hq := hk.normal.lo_lt_hi
  unfold exclusiveRows at h
  rw [h1.1, h1.2, h2.1, h2.2] at h
  split at h
  · rename_i hlt
    split at h
    · cases h
      obtain ⟨x, hx⟩ := hl.exists_col
      refine ⟨max p.lo c, le_max_right _ _, x, ?_, ?_⟩
      · rw [eval_cons_of_mem (le_max_left _ _) (by omega)]
        simpa using hx
      · rw [eval_of_lt_lo hk.normal (by omega)]
        simp
    · cases h
  · split at h
    · rename_i hlt
      split at h
      · cases h
        obtain ⟨x, hx⟩ := hk.exists_col
        refine ⟨max q.lo c, le_max_right _ _, x, ?_, ?_⟩
        · rw [eval_cons_of_mem (le_max_left _ _) (by omega)]
          simpa using hx
        · rw [eval_of_lt_lo hl.normal (by omega)]
          simp
      · cases h
    · cases h

theorem areaHolds_of_rowsHold (ha : Aligned (· ≤ ·) c (p :: l) (q :: k)) (f : Flag)
    (h : max p.lo q.lo < min p.hi q.hi) (hr : RowsHold p q f) : AreaHolds c (p :: l) (q :: k) f := by
  have hlo := ha.left_lo p rfl q rfl
  have hlo' := ha.right_lo p rfl q rfl
  obtain ⟨x, hx⟩ := hr
  refine ⟨max p.lo q.lo, by omega, x, ?_⟩
  rw [eval_cons_of_mem (le_max_left _ _) (by omega), eval_cons_of_mem (le_max_right _ _) (by omega)]
  simpa using hx

/-- The rows up to the end of the first band that ends are all accounted for. -/
theorem of_asks_front {x y : Int} (hc : c ≤ y) (hy : y < min p.hi q.hi)
    (h1 : r1.y1 = p.lo ∧ r1.y2 = p.hi) (h2 : r2.y1 = q.lo ∧ r2.y2 = q.hi) (f : Flag)
    (h : f.Asks (ColMem (front p y) x) (ColMem (front q y) x)) :
    exclusiveRows c r1 r2 = some f ∨ (max p.lo q.lo < min p.hi q.hi ∧ RowsHold p q f) := by
  rw [Band.colMem_front, Band.colMem_front] at h
  by_cases hp : p.lo ≤ y
  · by_cases hq : q.lo ≤ y
    · simp only [hp, hq, true_and] at h
      exact .inr ⟨by omega, x, h⟩
    · obtain rfl := Flag.eq_left_of_asks h (fun hb => hq hb.1)
      left
      rw [exclusiveRows, h1.1, h1.2, h2.1, h2.2, if_pos (by omega), if_pos (by omega)]
  · obtain rfl := Flag.eq_right_of_asks h (fun hb => hp hb.1)
    have hq := h.1.1
    left
    rw [exclusiveRows, h1.1, h1.2, h2.1, h2.2, if_neg (by omega), if_pos (by omega), if_pos (by omega)]

theorem areaHolds_cons_iff (hl : Banded (p :: l)) (hk : Banded (q :: k))
    (ha : Aligned (· ≤ ·) c (p :: l) (q :: k)) (h1 : r1.y1 = p.lo ∧ r1.y2 = p.hi)
    (h2 : r2.y1 = q.lo ∧ r2.y2 = q.hi) {m : Int} (hm : m = min p.hi q.hi) (f : Flag) :
    AreaHolds c (p :: l) (q :: k) f ↔
      exclusiveRows c r1 r2 = some f ∨ ((max p.lo q.lo < m ∧ RowsHold p q f) ∨
        AreaHolds m (advance m (p :: l)) (advance m (q :: k)) f) := by
  have hc : c ≤ m := by
    rw [hm]
    exact le_min (le_of_lt (ha.left_hi p rfl)) (le_of_lt (ha.right_hi q rfl))
  have hstep := meets_cons_iff hl.normal hk.normal hm hc
    fun o o' => ∃ x, f.Asks (ColMem o x) (ColMem o' x)
  rw [← or_assoc]
  constructor
  · intro h
    obtain ⟨y, hcy, hy, x, h⟩ | h := hstep.mp h
    · rw [hm] at hy ⊢
      exact .inl (of_asks_front hcy hy h1 h2 f h)
    · exact .inr h
  · rintro ((h | ⟨h, hr⟩) | h)
    · exact areaHolds_of_exclusiveRows hl hk ha h1 h2 f h
    · exact areaHolds_of_rowsHold ha f (hm ▸ h) hr
    · exact hstep.mpr (.inr h)

theorem areaHolds_left (hl : Banded (p :: l)) (hc : c < p.hi) (f : Flag) :
    AreaHolds c (p :: l) [] f ↔ f = .leftExclusive := by
  constructor
  · rintro ⟨y, -, x, h⟩
    exact Flag.eq_left_of_asks h (by simp)
  · rintro rfl
    obtain ⟨x, hx⟩ := hl.exists_col
    refine ⟨max p.lo c, le_max_right _ _, x, ?_, by simp⟩
    rw [eval_cons_of_mem (le_max_left _ _) (max_lt hl.normal.lo_lt_hi hc)]
    simpa using hx

theorem areaHolds_right (hk : Banded (q :: k)) (hc : c < q.hi) (f : Flag) :
    AreaHolds c [] (q :: k) f ↔ f = .rightExclusive := by
  constructor
  · rintro ⟨y, -, x, h⟩
    exact Flag.eq_right_of_asks h (by simp)
  · rintro rfl
    obtain ⟨x, hx⟩ := hk.exists_col
    refine ⟨max q.lo c, le_max_right _ _, x, ?_, by simp⟩
    rw [eval_cons_of_mem (le_max_left _ _) (max_lt hk.normal.lo_lt_hi hc)]
    simpa using hx

theorem not_areaHolds_nil (f : Flag) : ¬AreaHolds c [] [] f := by
  rintro ⟨y, -, x, h⟩
  cases f <;> simp [Flag.Asks] at h

/-- On two whole bands `test_band` computes the flags of their rows. -/
theorem testBand_boxes (hl : Banded (p :: l)) (hk : Banded (q :: k)) (query res : Mask) :
    Computes query res (testBand query res p.boxes q.boxes) (RowsHold p q) := by
  have hnl := hl.spans_normal p (.head _)
  have hnk := hk.spans_normal q (.head _)
  cases hp : p.val with
  | nil => exact absurd hp (hl.spans_ne p (.head _))
  | cons s ss =>
    cases hq : q.val with
    | nil => exact absurd hq (hk.spans_ne q (.head _))
    | cons t ts =>
      rw [hp] at hnl
      rw [hq] at hnk
      have h := testBand_computes p q query res hnl hnk (.start hnl hnk)
      rw [← hp, ← hq] at h
      refine h.congr fun f => ⟨?_, fun ⟨x, _, hx⟩ => ⟨x, hx⟩⟩
      rintro ⟨x, hx⟩
      refine ⟨x, ?_, hx⟩
      rw [hp, hq] at hx
      obtain h | h := Flag.or_of_asks hx
      · exact (min_le_left _ _).trans (lo_le_of_isSome hnl h)
      · exact (min_le_right _ _).trans (lo_le_of_isSome hnk h)

end Area

theorem boxes_advance {p : Band} {l : List Band} {m : Int} {r : Box} {t : List Box}
    (hb : boxes (p :: l) = r :: t) (hy : r.y2 = p.hi) (hf : findBand r t = (p.boxes, boxes l)) :
    boxes (advance m (p :: l)) = if r.y2 = m then (findBand r t).2 else r :: t := by
  rw [advance, hy, hf]
  split
  · rfl
  · exact hb

theorem testGenericLoop_computes (query res : Mask) {c : Int} {bands1 bands2 : List Band}
    (hl : Banded bands1) (hk : Banded bands2) (ha : Aligned (· ≤ ·) c bands1 bands2) :
    ∃ out, testGenericLoop query c res (boxes bands1) (boxes bands2) = out.and query ∧
      Computes query res out (AreaHolds c bands1 bands2) := by
  induction hn : bands1.length + bands2.length using Nat.strong_induction_on
    generalizing res c bands1 bands2 with
  | _ n ih =>
    match bands1, bands2 with
    | [], [] =>
      refine ⟨res, by rw [boxes, List.flatMap_nil, testGenericLoop], ?_⟩
      exact .of_iff fun f => by simp [not_areaHolds_nil]
    | p :: l, [] =>
      obtain ⟨r, t, hb, -⟩ := findBand_boxes hl
      refine ⟨res.set .leftExclusive, by rw [hb, boxes, List.flatMap_nil, testGenericLoop], ?_⟩
      exact .of_iff fun f => by rw [Mask.set_iff, areaHolds_left hl (ha.left_hi p rfl)]
    | [], q :: k =>
      obtain ⟨r, t, hb, -⟩ := findBand_boxes hk
      refine ⟨res.set .rightExclusive, by rw [hb, boxes, List.flatMap_nil, testGenericLoop], ?_⟩
      exact .of_iff fun f => by rw [Mask.set_iff, areaHolds_right hk (ha.right_hi q rfl)]
    | p :: l, q :: k =>
      obtain ⟨r1, t1, hb1, hlo1, hhi1, hf1⟩ := findBand_boxes hl
      obtain ⟨r2, t2, hb2, hlo2, hhi2, hf2⟩ := findBand_boxes hk
      have hm : min r1.y2 r2.y2 = min p.hi q.hi := by rw [hhi1, hhi2]
      have hF := areaHolds_cons_iff hl hk ha ⟨hlo1, hhi1⟩ ⟨hlo2, hhi2⟩ hm
      have hexcl : Computes query res (res.setOption (exclusiveRows c r1 r2))
          (fun f => exclusiveRows c r1 r2 = some f) := .of_iff (setOption_iff res _)
      rw [hb1, hb2, testGenericLoop]
      split
      · rename_i hcov
        rw [Bool.and_eq_true] at hcov
        exact ⟨_, rfl, hexcl.stop (fun f h => (hF f).mpr (.inl h)) hcov.2⟩
      -- the band itself, which is tested only when the two bands have a common row
      have hytop : (if r1.y1 < r2.y1 then r2.y1 else r1.y1) = max p.lo q.lo := by
        rw [hlo1, hlo2]
        split <;> omega
      rw [hytop, hf1, hf2]
      set res' := res.setOption (exclusiveRows c r1 r2)
      set m := min r1.y2 r2.y2
      have hband : Computes query res' (if m > max p.lo q.lo then testBand query res' p.boxes q.boxes
          else res') (fun f => max p.lo q.lo < m ∧ RowsHold p q f) := by
        split
        · rename_i hgt
          exact (testBand_boxes hl hk query res').congr fun f => and_iff_right hgt
        · rename_i hgt
          exact .of_iff fun f => by simp [hgt]
      dsimp only
      generalize (if m > max p.lo q.lo then testBand query res' p.boxes q.boxes else res') = band
        at hband ⊢
      split
      · rename_i hcov
        rw [Bool.and_eq_true] at hcov
        exact ⟨_, rfl, (hexcl.trans hband fun f => Iff.rfl).stop
          (fun f h => (hF f).mpr (by tauto)) hcov.2⟩
      · have ha' := Aligned.advance (R := (· ≤ ·)) hl.normal hk.normal hm
          (fun t ht => (hl.normal.before t ht).1) (fun t ht => (hk.normal.before t ht).1)
        obtain ⟨out, hout, hcomp⟩ :=
          ih _ (hn ▸ length_advance_add_lt hm) band hl.advance hk.advance ha' rfl
        rw [boxes_advance hb1 hhi1 hf1, boxes_advance hb2 hhi2 hf2, hf1, hf2] at hout
        exact ⟨out, hout, hexcl.trans (hband.trans hcomp fun f => Iff.rfl) hF⟩

end Colama.Spice
