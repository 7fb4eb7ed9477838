import GrowthGrammar.Space.Pose
import Mathlib.Algebra.Field.Basic
import Mathlib.Tactic.LinearCombination
import Mathlib.Tactic.Ring

/-!
# The laws of turning

Over a commutative ring the formulas for quaternions obey the laws of turning: composition is
associative (`Quat.compose_assoc`), norms multiply (`Quat.normSq_compose`), and for quaternions of
norm one a composition turns as its parts do, one after the other (`Quat.rotate_compose`). A rigid
motion of a pose (`Pose.moved`) therefore commutes with everything that is done in the frame of the
pose. Over a field, a turn about the third axis has norm one if sine and cosine lie on the unit
circle (`Quat.normSq_aboutZ`).
-/

namespace GrowthGrammar

/-! ## Coordinates -/

namespace Vec3

variable {α : Type}

theorem add_def [Add α] (u v : Vec3 α) : u + v = ⟨u.x + v.x, u.y + v.y, u.z + v.z⟩ := rfl

theorem sub_def [Sub α] (u v : Vec3 α) : u - v = ⟨u.x - v.x, u.y - v.y, u.z - v.z⟩ := rfl

theorem mul_def [Mul α] (u : Vec3 α) (s : α) : u * s = ⟨u.x * s, u.y * s, u.z * s⟩ := rfl

theorem add_swap [AddCommGroup α] (u v w : Vec3 α) : u + v + w = u + w + v := by
  simp only [add_def, add_right_comm]

end Vec3

namespace Quat

section
variable {α : Type} [CommRing α] {p q : Quat α}

/-- The order in which three turns are put together does not matter. -/
theorem compose_assoc (p q r : Quat α) : (p.compose q).compose r = p.compose (q.compose r) := by
  ext <;> simp only [compose] <;> ring

/-- The norm of a composition is the product of the norms. -/
theorem normSq_compose (p q : Quat α) : (p.compose q).normSq = p.normSq * q.normSq := by
  simp only [normSq, compose]
  ring

/-- A composition of quaternions of norm one has norm one. -/
theorem normSq_compose_eq_one (hp : p.normSq = 1) (hq : q.normSq = 1) :
    (p.compose q).normSq = 1 := by
  rw [normSq_compose, hp, hq, mul_one]

/-- A sum is turned term by term. -/
theorem rotate_add (q : Quat α) (u v : Vec3 α) : q.rotate (u + v) = q.rotate u + q.rotate v := by
  ext <;> simp only [rotate, vector, Vec3.cross, Vec3.add_def, Vec3.mul_def] <;> ring

/-- How far a composition is from turning by its second part first, for quaternions of any norm. -/
theorem rotate_compose_add (p q : Quat α) (v : Vec3 α) :
    (p.compose q).rotate v = p.rotate (q.rotate v) + (q.rotate v - v) * (p.normSq - 1) +
      (p.rotate v - v) * (q.normSq - 1) := by
  ext <;> simp only [rotate, compose, normSq, vector, Vec3.cross, Vec3.add_def, Vec3.sub_def,
    Vec3.mul_def] <;> ring

/-- A composition of quaternions of norm one turns by its second part first. -/
theorem rotate_compose (hp : p.normSq = 1) (hq : q.normSq = 1) (v : Vec3 α) :
    (p.compose q).rotate v = p.rotate (q.rotate v) := by
  rw [rotate_compose_add, hp, hq, sub_self]
  ext <;> simp [Vec3.add_def, Vec3.mul_def]

end

/-- A turn about the third axis has norm one, if this axis has length one and sine and cosine lie on
the unit circle. -/
theorem normSq_aboutZ {α : Type} [Field α] [BEq α] [Trig α]
    (pythagoras : ∀ x : α, Trig.sin x ^ 2 + Trig.cos x ^ 2 = 1)
    (hlength : (Vec3.zAxis : Vec3 α).length = 1) (angle : α) : (aboutZ angle).normSq = 1 := by
  rw [aboutZ, aboutAxis, hlength]
  split
  · simp [identity, normSq]
  · have h := pythagoras (angle / 2)
    simp only [normSq, Vec3.zAxis, div_one]
    linear_combination h

end Quat

/-! ## Rigid motions -/

namespace Pose

variable {α : Type} [CommRing α] {g : Quat α} {p : Pose α}

/-- The pose after the whole space was turned by `g` and moved by `t`. -/
def moved (g : Quat α) (t : Vec3 α) (p : Pose α) : Pose α :=
  ⟨g.rotate p.position + t, g.compose p.rotation, p.stepLength⟩

/-- A motion of space and a turn in the frame of the pose commute. -/
theorem moved_turn (g : Quat α) (t : Vec3 α) (p : Pose α) (q : Quat α) :
    (p.turn q).moved g t = (p.moved g t).turn q := by
  simp only [moved, turn, Quat.compose_assoc]

/-- A motion of space and a move in the frame of the pose commute. -/
theorem moved_move (hg : g.normSq = 1) (hp : p.rotation.normSq = 1) (t offset : Vec3 α) :
    (p.move offset).moved g t = (p.moved g t).move offset := by
  simp only [moved, move, Quat.rotate_add, Quat.rotate_compose hg hp]
  rw [Vec3.add_swap]

end Pose

end GrowthGrammar
