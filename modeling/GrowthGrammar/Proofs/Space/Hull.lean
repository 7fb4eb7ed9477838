import GrowthGrammar.Proofs.Double.Value
import GrowthGrammar.Space.Bounds

/-!
# Bounds as a hull

The lesser and the greater of two doubles are one selection by two orders, the former of the two
(`former`), and along each axis the bounds of some poses are a fold of this selection. The former of
a list is one of its elements, and no number of the list comes before it (`Orders.firstBy_foldl`),
wherever in the list something stands that is not a number. As the selection is associative, the
bounds of two lists put together are found from the bounds of both (`Bounds.ofPoses?_append`).
`bounds_hull` says all this of `Bounds.ofPoses?`.
-/

namespace GrowthGrammar

open Double (value)

/-! ## Two orders of doubles -/

/-- Two relations on doubles are the strict and the weak order of a key, and what they do not tell
apart is equal. What is not a number is in no relation. -/
structure Orders (before notAfter : Float → Float → Prop) (key : Float → ℚ) : Prop where
  before_iff : ∀ {x y}, before x y ↔ x.isNaN = false ∧ y.isNaN = false ∧ key x < key y
  notAfter_iff : ∀ {x y}, notAfter x y ↔ x.isNaN = false ∧ y.isNaN = false ∧ key x ≤ key y
  antisymm : ∀ {x y}, notAfter x y → notAfter y x → (x == y) = true

/-- The order of doubles is that of their values. -/
theorem orders_lt : Orders (· < ·) (· ≤ ·) value where
  before_iff := Double.lt_iff
  notAfter_iff := Double.le_iff
  antisymm hxy hyx := by
    obtain ⟨hx, hy, hle⟩ := Double.le_iff.1 hxy
    exact Double.beq_iff.2 ⟨hx, hy, le_antisymm hle (Double.le_iff.1 hyx).2.2⟩

/-- The converse order is that of the negated values. -/
theorem orders_gt : Orders (· > ·) (· ≥ ·) (- value ·) where
  before_iff := by
    intro x y
    rw [gt_iff_lt, Double.lt_iff, neg_lt_neg_iff, and_left_comm]
  notAfter_iff := by
    intro x y
    rw [ge_iff_le, Double.le_iff, neg_le_neg_iff, and_left_comm]
  antisymm hxy hyx := orders_lt.antisymm hyx hxy

/-- The double is one of the list, and no number of the list comes before it. It is not a number
only if nothing in the list is one. -/
structure FirstBy (notAfter : Float → Float → Prop) (xs : List Float) (x : Float) : Prop where
  mem : x ∈ xs
  notAfter : ∀ y ∈ xs, y.isNaN = false → notAfter x y
  isNaN : x.isNaN = true → ∀ y ∈ xs, y.isNaN = true

/-- Two doubles are numerically the same: they are equal, or both are not numbers. -/
def SameNumber (x y : Float) : Prop := (x == y) = true ∨ x.isNaN = true ∧ y.isNaN = true

namespace Orders

variable {before notAfter : Float → Float → Prop} {key : Float → ℚ} {x y z : Float}
  {xs ys : List Float} (h : Orders before notAfter key)

include h

theorem notAfter_self (hx : x.isNaN = false) : notAfter x x :=
  h.notAfter_iff.2 ⟨hx, hx, le_rfl⟩

theorem notAfter_trans (hxy : notAfter x y) (hyz : notAfter y z) : notAfter x z := by
  obtain ⟨hx, -, hxy⟩ := h.notAfter_iff.1 hxy
  obtain ⟨-, hz, hyz⟩ := h.notAfter_iff.1 hyz
  exact h.notAfter_iff.2 ⟨hx, hz, hxy.trans hyz⟩

theorem notAfter_of_before (hxy : before x y) : notAfter x y := by
  obtain ⟨hx, hy, hlt⟩ := h.before_iff.1 hxy
  exact h.notAfter_iff.2 ⟨hx, hy, hlt.le⟩

theorem notAfter_of_not_before (hx : x.isNaN = false) (hy : y.isNaN = false)
    (hyx : ¬ before y x) : notAfter x y :=
  h.notAfter_iff.2 ⟨hx, hy, not_lt.1 fun hlt => hyx (h.before_iff.2 ⟨hy, hx, hlt⟩)⟩

theorem before_of_notAfter (hxy : notAfter x y) (hyz : before y z) : before x z := by
  obtain ⟨hx, -, hle⟩ := h.notAfter_iff.1 hxy
  obtain ⟨-, hz, hlt⟩ := h.before_iff.1 hyz
  exact h.before_iff.2 ⟨hx, hz, hle.trans_lt hlt⟩

theorem before_of_before_of_notAfter (hxy : before x y) (hyz : notAfter y z) : before x z := by
  obtain ⟨hx, -, hlt⟩ := h.before_iff.1 hxy
  obtain ⟨-, hz, hle⟩ := h.notAfter_iff.1 hyz
  exact h.before_iff.2 ⟨hx, hz, hlt.trans_le hle⟩

/-- Alone a double comes first. -/
theorem firstBy_singleton (x : Float) : FirstBy notAfter [x] x where
  mem := List.mem_singleton_self x
  notAfter y hy hnumber := by
    obtain rfl := List.mem_singleton.1 hy
    exact h.notAfter_self hnumber
  isNaN hx y hy := by rwa [List.mem_singleton.1 hy]

/-- What comes first of a list and of what comes first of another one, comes first of both. -/
theorem firstBy_append (hx : FirstBy notAfter xs x) (hy : FirstBy notAfter (x :: ys) y) :
    FirstBy notAfter (xs ++ ys) y where
  mem := by
    rcases List.mem_cons.1 hy.mem with rfl | hmem
    · exact List.mem_append_left _ hx.mem
    · exact List.mem_append_right _ hmem
  notAfter z hz hnumber := by
    rcases List.mem_append.1 hz with hz | hz
    · have hxz := hx.notAfter z hz hnumber
      have hyx := hy.notAfter x List.mem_cons_self (h.notAfter_iff.1 hxz).1
      exact h.notAfter_trans hyx hxz
    · exact hy.notAfter z (List.mem_cons_of_mem _ hz) hnumber
  isNaN hnan z hz := by
    rcases List.mem_append.1 hz with hz | hz
    · exact hx.isNaN (hy.isNaN hnan x List.mem_cons_self) z hz
    · exact hy.isNaN hnan z (List.mem_cons_of_mem _ hz)

/-- What comes first of the same doubles is numerically the same. -/
theorem sameNumber_of_firstBy (hx : FirstBy notAfter xs x) (hy : FirstBy notAfter ys y)
    (hmem : ∀ z, z ∈ xs ↔ z ∈ ys) : SameNumber x y := by
  cases hnan : x.isNaN with
  | true => exact .inr ⟨hnan, hx.isNaN hnan y ((hmem y).2 hy.mem)⟩
  | false =>
    have hyx : notAfter y x := hy.notAfter x ((hmem x).1 hx.mem) hnan
    have hxy : notAfter x y := hx.notAfter y ((hmem y).2 hy.mem) (h.notAfter_iff.1 hyx).1
    exact .inl (h.antisymm hxy hyx)

end Orders

/-! ## The former of two doubles -/

/-- Of two doubles the one that comes before the other. An operand that is not a number is ignored,
and of two equal ones the first is taken. -/
def former (before : Float → Float → Prop) [DecidableRel before] (x y : Float) : Float :=
  if x.isNaN then y else if before y x then y else x

theorem lesser_eq_former : lesser = former (· < ·) := rfl

theorem greater_eq_former : greater = former (· > ·) := rfl

section
variable {before notAfter : Float → Float → Prop} [DecidableRel before] {key : Float → ℚ}
  {x y : Float}

@[simp] theorem former_self (x : Float) : former before x x = x := by
  rw [former, ite_self, ite_self]

theorem former_of_isNaN (hx : x.isNaN = true) : former before x y = y := if_pos hx

theorem former_of_before (h : before y x) : former before x y = y := by
  rw [former, if_pos h, ite_self]

theorem former_of_not_before (hx : x.isNaN = false) (h : ¬ before y x) :
    former before x y = x := by
  rw [former, hx, if_neg Bool.false_ne_true, if_neg h]

namespace Orders

variable (h : Orders before notAfter key)

include h

/-- The former of two doubles comes first of the two. -/
theorem firstBy_former (x y : Float) : FirstBy notAfter [x, y] (former before x y) := by
  cases hx : x.isNaN with
  | true =>
    rw [former_of_isNaN hx]
    refine ⟨by simp, ?_, ?_⟩
    · rintro z (_ | ⟨_, _ | ⟨_, ⟨⟩⟩⟩) hnumber
      · cases hx.symm.trans hnumber
      · exact h.notAfter_self hnumber
    · rintro hy z (_ | ⟨_, _ | ⟨_, ⟨⟩⟩⟩)
      · exact hx
      · exact hy
  | false =>
    by_cases hyx : before y x
    · have hy := (h.before_iff.1 hyx).1
      rw [former_of_before hyx]
      refine ⟨by simp, ?_, fun hnan => nomatch hnan.symm.trans hy⟩
      rintro z (_ | ⟨_, _ | ⟨_, ⟨⟩⟩⟩) -
      · exact h.notAfter_of_before hyx
      · exact h.notAfter_self hy
    · rw [former_of_not_before hx hyx]
      refine ⟨by simp, ?_, fun hnan => nomatch hnan.symm.trans hx⟩
      rintro z (_ | ⟨_, _ | ⟨_, ⟨⟩⟩⟩) hnumber
      · exact h.notAfter_self hx
      · exact h.notAfter_of_not_before hx hnumber hyx

/-- It does not matter which two of three doubles are compared first. -/
theorem former_assoc (x y z : Float) :
    former before (former before x y) z = former before x (former before y z) := by
  cases hx : x.isNaN with
  | true => rw [former_of_isNaN hx, former_of_isNaN hx]
  | false =>
    by_cases hyx : before y x
    · -- the former of the last two does not come after the second, so it comes before the first
      have hy : y.isNaN = false := (h.before_iff.1 hyx).1
      have hfirst : notAfter (former before y z) y :=
        (h.firstBy_former y z).notAfter y (by simp) hy
      rw [former_of_before hyx, former_of_before (h.before_of_notAfter hfirst hyx)]
    · rw [former_of_not_before hx hyx]
      cases hy : y.isNaN with
      | true => rw [former_of_isNaN hy]
      | false =>
        by_cases hzy : before z y
        · rw [former_of_before hzy]
        · have hxy : notAfter x y := h.notAfter_of_not_before hx hy hyx
          have hzx : ¬ before z x := fun hzx => hzy (h.before_of_before_of_notAfter hzx hxy)
          rw [former_of_not_before hy hzy, former_of_not_before hx hyx,
            former_of_not_before hx hzx]

/-- A fold of the former of two finds what comes first of a list. The induction is on the list: its
first two doubles are put together. -/
theorem firstBy_foldl (x : Float) (xs : List Float) :
    FirstBy notAfter (x :: xs) (xs.foldl (former before) x) := by
  induction xs generalizing x with
  | nil => exact h.firstBy_singleton x
  | cons y xs ih => exact h.firstBy_append (h.firstBy_former x y) (ih (former before x y))

/-- A fold that goes on in another list gives the former of the two folds. -/
theorem foldl_append_cons (x y : Float) (xs ys : List Float) :
    (xs ++ y :: ys).foldl (former before) x =
      former before (xs.foldl (former before) x) (ys.foldl (former before) y) := by
  have hassoc : Std.Associative (former before) := ⟨h.former_assoc⟩
  rw [List.foldl_append, List.foldl_cons, List.foldl_assoc]

end Orders

end

/-! ## Coordinates -/

/-- The axes of space. -/
inductive Axis where
  | x
  | y
  | z

namespace Vec3

variable {α : Type}

/-- The coordinate along an axis. -/
def along (v : Vec3 α) : Axis → α
  | .x => v.x
  | .y => v.y
  | .z => v.z

theorem ext_along {u v : Vec3 α} (h : ∀ a, u.along a = v.along a) : u = v :=
  Vec3.ext (h .x) (h .y) (h .z)

@[simp] theorem along_lesser (u v : Vec3 Float) (a : Axis) :
    (u.lesser v).along a = GrowthGrammar.lesser (u.along a) (v.along a) := by
  cases a <;> rfl

@[simp] theorem along_greater (u v : Vec3 Float) (a : Axis) :
    (u.greater v).along a = GrowthGrammar.greater (u.along a) (v.along a) := by
  cases a <;> rfl

end Vec3

/-- The coordinates of some poses along an axis. -/
def coordinates (a : Axis) (poses : List (Pose Float)) : List Float :=
  poses.map (·.position.along a)

/-! ## Bounds -/

namespace Bounds

/-- Two boxes are numerically the same: their corners have the same coordinates. -/
def Same (b c : Bounds) : Prop :=
  ∀ a, SameNumber (b.low.along a) (c.low.along a) ∧ SameNumber (b.high.along a) (c.high.along a)

/-- The box of two boxes: the lesser of the low corners and the greater of the high ones. -/
def union (b c : Bounds) : Bounds := ⟨b.low.lesser c.low, b.high.greater c.high⟩

/-- Along an axis a box is widened by the coordinates of the positions that it is to hold. -/
theorem along_foldl_extend (a : Axis) (b : Bounds) (poses : List (Pose Float)) :
    (poses.foldl (fun b q => b.extend q.position) b).low.along a =
        (coordinates a poses).foldl (former (· < ·)) (b.low.along a) ∧
      (poses.foldl (fun b q => b.extend q.position) b).high.along a =
        (coordinates a poses).foldl (former (· > ·)) (b.high.along a) := by
  induction poses generalizing b with
  | nil => exact ⟨rfl, rfl⟩
  | cons q poses ih =>
    obtain ⟨hlow, hhigh⟩ := ih (b.extend q.position)
    rw [extend, Vec3.along_lesser, lesser_eq_former] at hlow
    rw [extend, Vec3.along_greater, greater_eq_former] at hhigh
    exact ⟨hlow, hhigh⟩

/-- Along an axis the bounds of some poses are the former of their coordinates, by one order and by
its converse. -/
theorem along_ofPoses? {p : Pose Float} {poses : List (Pose Float)} {b : Bounds}
    (h : ofPoses? (p :: poses) = some b) (a : Axis) :
    b.low.along a = (coordinates a poses).foldl (former (· < ·)) (p.position.along a) ∧
      b.high.along a = (coordinates a poses).foldl (former (· > ·)) (p.position.along a) := by
  obtain rfl := Option.some.inj h
  have hfold := along_foldl_extend a ⟨p.position, p.position⟩ (p :: poses)
  -- the first position is compared with itself once
  simpa only [coordinates, List.map_cons, List.foldl_cons, former_self] using hfold

theorem ofPoses?_eq_none_iff {poses : List (Pose Float)} :
    ofPoses? poses = none ↔ poses = [] := by
  cases poses with
  | nil => exact iff_of_true rfl rfl
  | cons p poses => exact iff_of_false (Option.some_ne_none _) (List.cons_ne_nil p poses)

/-- Along an axis the low corner of the bounds has the least coordinate of the poses, and the high
corner the greatest one. -/
theorem firstBy_ofPoses? {poses : List (Pose Float)} {b : Bounds} (h : ofPoses? poses = some b)
    (a : Axis) :
    FirstBy (· ≤ ·) (coordinates a poses) (b.low.along a) ∧
      FirstBy (· ≥ ·) (coordinates a poses) (b.high.along a) := by
  cases poses with
  | nil => cases h
  | cons p poses =>
    obtain ⟨hlow, hhigh⟩ := along_ofPoses? h a
    rw [hlow, hhigh]
    exact ⟨orders_lt.firstBy_foldl _ _, orders_gt.firstBy_foldl _ _⟩

/-- Poses at the same positions have numerically the same bounds. -/
theorem same_of_positions {ps qs : List (Pose Float)} {b c : Bounds} (hb : ofPoses? ps = some b)
    (hc : ofPoses? qs = some c)
    (h : ∀ v, v ∈ ps.map (·.position) ↔ v ∈ qs.map (·.position)) : b.Same c := by
  intro a
  have hmem : ∀ x, x ∈ coordinates a ps ↔ x ∈ coordinates a qs := by
    have hmap : ∀ rs : List (Pose Float),
        coordinates a rs = (rs.map (·.position)).map (·.along a) := fun rs => by
      rw [List.map_map]
      rfl
    intro x
    rw [hmap, hmap, List.mem_map, List.mem_map]
    simp only [h]
  obtain ⟨hlow, hhigh⟩ := firstBy_ofPoses? hb a
  obtain ⟨hlow', hhigh'⟩ := firstBy_ofPoses? hc a
  exact ⟨orders_lt.sameNumber_of_firstBy hlow hlow' hmem,
    orders_gt.sameNumber_of_firstBy hhigh hhigh' hmem⟩

/-- The bounds of two lists of poses put together are the box of their bounds. -/
theorem ofPoses?_append {ps qs : List (Pose Float)} {b c : Bounds} (hb : ofPoses? ps = some b)
    (hc : ofPoses? qs = some c) : ofPoses? (ps ++ qs) = some (b.union c) := by
  cases ps with
  | nil => cases hb
  | cons p ps =>
    cases qs with
    | nil => cases hc
    | cons q qs =>
      obtain ⟨d, hd⟩ : ∃ d, ofPoses? (p :: (ps ++ q :: qs)) = some d := ⟨_, rfl⟩
      have hparts : ∀ a, coordinates a (ps ++ q :: qs) =
          coordinates a ps ++ q.position.along a :: coordinates a qs := fun a =>
        List.map_append
      have hlow : d.low = (b.union c).low := Vec3.ext_along fun a => by
        rw [(along_ofPoses? hd a).1, hparts, orders_lt.foldl_append_cons, union,
          Vec3.along_lesser, (along_ofPoses? hb a).1, (along_ofPoses? hc a).1, lesser_eq_former]
      have hhigh : d.high = (b.union c).high := Vec3.ext_along fun a => by
        rw [(along_ofPoses? hd a).2, hparts, orders_gt.foldl_append_cons, union,
          Vec3.along_greater, (along_ofPoses? hb a).2, (along_ofPoses? hc a).2, greater_eq_former]
      cases d
      cases hlow
      cases hhigh
      exact hd

end Bounds

/-- There are bounds of any poses but of none at all. Along each axis their low corner has the least
of the coordinates that are numbers and their high corner the greatest one, each the coordinate of a
pose; neither is a number only if no pose has one there. So poses at the same positions, in any
order and number, have numerically the same bounds, and the bounds of two lists put together are the
box of their bounds. -/
theorem bounds_hull (ps qs : List (Pose Float)) :
    (Bounds.ofPoses? ps = none ↔ ps = []) ∧
    (∀ b, Bounds.ofPoses? ps = some b → ∀ a,
      FirstBy (· ≤ ·) (coordinates a ps) (b.low.along a) ∧
      FirstBy (· ≥ ·) (coordinates a ps) (b.high.along a)) ∧
    ((∀ v, v ∈ ps.map (·.position) ↔ v ∈ qs.map (·.position)) →
      Option.Rel Bounds.Same (Bounds.ofPoses? ps) (Bounds.ofPoses? qs)) ∧
    ∀ b c, Bounds.ofPoses? ps = some b → Bounds.ofPoses? qs = some c →
      Bounds.ofPoses? (ps ++ qs) = some (b.union c) := by
  refine ⟨Bounds.ofPoses?_eq_none_iff, fun b hb => Bounds.firstBy_ofPoses? hb, fun hpositions => ?_,
    fun b c hb hc => Bounds.ofPoses?_append hb hc⟩
  have hnone : Bounds.ofPoses? ps = none ↔ Bounds.ofPoses? qs = none := by
    rw [Bounds.ofPoses?_eq_none_iff, Bounds.ofPoses?_eq_none_iff,
      ← List.map_eq_nil_iff (f := Pose.position), ← List.map_eq_nil_iff (f := Pose.position),
      List.eq_nil_iff_forall_not_mem, List.eq_nil_iff_forall_not_mem]
    exact forall_congr' fun v => not_congr (hpositions v)
  cases hb : Bounds.ofPoses? ps with
  | none =>
    rw [hnone.1 hb]
    exact .none
  | some b =>
    cases hc : Bounds.ofPoses? qs with
    | none => cases hb.symm.trans (hnone.2 hc)
    | some c => exact .some (Bounds.same_of_positions hb hc hpositions)

/-- A first coordinate that is not a number does not hide the others. -/
theorem bounds_hull_of_nan :
    ∃ b, Bounds.ofPoses? [⟨⟨0 / 0, 0, 1⟩, Quat.identity, 1⟩, ⟨⟨3, 2, 0⟩, Quat.identity, 1⟩] =
        some b ∧
      b.low.along .x = 3 ∧
      FirstBy (· ≤ ·) [0 / 0, 3] (b.low.along .x) := by
  obtain ⟨-, hhull, -, -⟩ :=
    bounds_hull [⟨⟨0 / 0, 0, 1⟩, Quat.identity, 1⟩, ⟨⟨3, 2, 0⟩, Quat.identity, 1⟩] []
  exact ⟨_, rfl, by decide, (hhull _ rfl .x).1⟩

end GrowthGrammar
