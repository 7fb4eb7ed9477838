import GrowthGrammar.Proofs.Space.Rotation

/-!
# Turning is rigid

Over a commutative ring the quaternions form a monoid under composition, with norms that multiply,
and turning by a quaternion of norm one keeps the scalar product and the vector product of two
vectors. For quaternions of other norms `Quat.dot_rotate_add` and `Quat.cross_rotate_add` say how
far the products are from being kept, as `Quat.rotate_compose_add` does for compositions.
`Pose.turning_laws` collects the laws, down to what they mean for a pose that is turned and moved.
-/

namespace GrowthGrammar

variable {α : Type} [CommRing α]

namespace Quat

/-- Nothing is turned first. -/
theorem identity_compose (q : Quat α) : identity.compose q = q := by
  ext <;> simp [compose, identity]

/-- Nothing is turned last. -/
theorem compose_identity (q : Quat α) : q.compose identity = q := by
  ext <;> simp [compose, identity]

/-- How far turning is from keeping a scalar product, for quaternions of any norm. -/
theorem dot_rotate_add (q : Quat α) (u v : Vec3 α) :
    (q.rotate u).dot (q.rotate v) =
      u.dot v + 4 * (q.vector.cross u).dot (q.vector.cross v) * (q.normSq - 1) := by
  simp only [rotate, normSq, vector, Vec3.cross, Vec3.dot, Vec3.add_def, Vec3.mul_def]
  ring

/-- A quaternion of another norm keeps no lengths. -/
example :
    let q : Quat ℤ := ⟨1, 0, 0, 1⟩
    (q.rotate ⟨0, 1, 0⟩).dot (q.rotate ⟨0, 1, 0⟩) = 5 := by
  decide

/-- Turning by a quaternion of norm one keeps the scalar product. -/
theorem dot_rotate {q : Quat α} (hq : q.normSq = 1) (u v : Vec3 α) :
    (q.rotate u).dot (q.rotate v) = u.dot v := by
  rw [dot_rotate_add, hq, sub_self, mul_zero, add_zero]

/-- How far turning is from keeping a vector product, for quaternions of any norm. -/
theorem cross_rotate_add (q : Quat α) (u v : Vec3 α) :
    (q.rotate u).cross (q.rotate v) =
      q.rotate (u.cross v) + q.vector * (4 * q.vector.dot (u.cross v) * (q.normSq - 1)) := by
  ext <;> simp only [rotate, normSq, vector, Vec3.cross, Vec3.dot, Vec3.add_def, Vec3.mul_def] <;>
    ring

/-- Turning by a quaternion of norm one keeps the vector product. -/
theorem cross_rotate {q : Quat α} (hq : q.normSq = 1) (u v : Vec3 α) :
    (q.rotate u).cross (q.rotate v) = q.rotate (u.cross v) := by
  rw [cross_rotate_add, hq, sub_self, mul_zero]
  ext <;> simp [Vec3.add_def, Vec3.mul_def]

end Quat

namespace Pose

/-- Two turns in a row are one turn by their composition. -/
theorem turn_turn (s : Pose α) (p q : Quat α) : (s.turn p).turn q = s.turn (p.compose q) := by
  simp only [turn, Quat.compose_assoc]

/-- A move after a turn is a move by the turned offset before it. -/
theorem position_turn_move {s : Pose α} {p : Quat α} (hs : s.rotation.normSq = 1)
    (hp : p.normSq = 1) (v : Vec3 α) :
    ((s.turn p).move v).position = (s.move (p.rotate v)).position := by
  simp only [turn, move, Quat.rotate_compose hs hp]

/-- The laws of turning over a commutative ring: composition is associative and has a unit, norms
multiply, a composition of quaternions of norm one turns as its parts do, and such a quaternion
keeps scalar and vector products. So a pose that is turned and then moved ends where a move by the
turned offset takes it, and two turns are one. -/
theorem turning_laws (α : Type) [CommRing α] :
    (∀ p q r : Quat α, (p.compose q).compose r = p.compose (q.compose r)) ∧
    (∀ p : Quat α, Quat.identity.compose p = p ∧ p.compose Quat.identity = p) ∧
    (∀ p q : Quat α, (p.compose q).normSq = p.normSq * q.normSq) ∧
    (∀ p q : Quat α, p.normSq = 1 → q.normSq = 1 → ∀ v,
      (p.compose q).rotate v = p.rotate (q.rotate v)) ∧
    (∀ p : Quat α, p.normSq = 1 → ∀ u v,
      (p.rotate u).dot (p.rotate v) = u.dot v ∧
      p.rotate (u.cross v) = (p.rotate u).cross (p.rotate v)) ∧
    (∀ (s : Pose α) (p : Quat α), s.rotation.normSq = 1 → p.normSq = 1 → ∀ v,
      ((s.turn p).move v).position = (s.move (p.rotate v)).position) ∧
    ∀ (s : Pose α) (p q : Quat α), (s.turn p).turn q = s.turn (p.compose q) := by
  refine ⟨Quat.compose_assoc, fun p => ⟨p.identity_compose, p.compose_identity⟩,
    Quat.normSq_compose, fun p q hp hq v => Quat.rotate_compose hp hq v, fun p hp u v => ?_,
    fun s p hs hp v => position_turn_move hs hp v, turn_turn⟩
  exact ⟨Quat.dot_rotate hp u v, (Quat.cross_rotate hp u v).symm⟩

/-- The laws for two quaternions over the rationals with different axes, and a pose that is turned
already. -/
theorem turning_laws_rational :
    let p : Quat ℚ := ⟨2 / 3, 1 / 3, 0, 2 / 3⟩
    let q : Quat ℚ := ⟨0, 3 / 5, 0, 4 / 5⟩
    let u : Vec3 ℚ := ⟨1, 2, 3⟩
    let v : Vec3 ℚ := ⟨-1, 0, 5⟩
    let s : Pose ℚ := ⟨u, q, 1⟩
    (p.normSq = 1 ∧ q.normSq = 1) ∧ (p.compose q).rotate v = p.rotate (q.rotate v) ∧
      ((p.rotate u).dot (p.rotate v) = u.dot v ∧
        p.rotate (u.cross v) = (p.rotate u).cross (p.rotate v)) ∧
      ((s.turn p).move v).position = (s.move (p.rotate v)).position := by
  intro p q u v s
  have hp : p.normSq = 1 := by norm_num [p, Quat.normSq]
  have hq : q.normSq = 1 := by norm_num [q, Quat.normSq]
  obtain ⟨-, -, -, hcompose, hproducts, hmove, -⟩ := turning_laws ℚ
  exact ⟨⟨hp, hq⟩, hcompose p q hp hq v, hproducts p hp u v, hmove s p hq hp v⟩

end Pose

end GrowthGrammar
