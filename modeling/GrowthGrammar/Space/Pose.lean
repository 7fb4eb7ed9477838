import GrowthGrammar.Space.Quat

/-!
# Poses

A pose is what a walk carries along: a position, an orientation and the length of the next step.
-/

namespace GrowthGrammar

/-- A position, an orientation and a step length. -/
@[ext] structure Pose (α : Type) where
  position : Vec3 α
  rotation : Quat α
  stepLength : α
  deriving BEq, Repr

namespace Pose

variable {α : Type}

/-- The pose at the origin, turned by nothing, with the given step length. -/
def atOrigin [OfNat α 0] [OfNat α 1] (stepLength : α) : Pose α :=
  ⟨Vec3.zero, Quat.identity, stepLength⟩

/-- The pose at the origin with the step length one is where a walk starts by default. -/
instance [OfNat α 0] [OfNat α 1] : Inhabited (Pose α) := ⟨atOrigin 1⟩

/-- Turns the pose in its own frame. -/
def turn [Add α] [Sub α] [Mul α] (p : Pose α) (q : Quat α) : Pose α :=
  { p with rotation := p.rotation.compose q }

/-- Moves the pose by an offset given in its own frame. -/
def move [Add α] [Sub α] [Mul α] [OfNat α 2] (p : Pose α) (offset : Vec3 α) : Pose α :=
  { p with position := p.position + p.rotation.rotate offset }

/-- The same place and orientation with another step length. -/
def withStepLength (p : Pose α) (stepLength : α) : Pose α := { p with stepLength }

end Pose

end GrowthGrammar
