import GrowthGrammar.Space.Pose

/-!
# Bounds

The bounds of a figure are the least box with sides along the axes that holds its positions.
-/

namespace GrowthGrammar

/-- A box with sides along the axes, given by two opposite corners. -/
structure Bounds where
  low : Vec3 Float
  high : Vec3 Float

namespace Bounds

/-- The box widened to hold a position. -/
def extend (b : Bounds) (position : Vec3 Float) : Bounds :=
  ⟨b.low.lesser position, b.high.greater position⟩

/-- The bounds of some poses, or `none` if there are none. -/
def ofPoses? : List (Pose Float) → Option Bounds
  | [] => none
  | p :: poses =>
    some ((p :: poses).foldl (fun b q => b.extend q.position) ⟨p.position, p.position⟩)

end Bounds

end GrowthGrammar
