/-!
# Vectors

Vectors of three numbers with the operations that poses are built from. The numbers are those of any
type with the arithmetic that an operation uses, so that a law of the formulas can be stated where
it holds: over a commutative ring, say, and not over doubles. Doubles have two operations of their
own, `lesser` and `greater`, which ignore an operand that is not a number.
-/

namespace GrowthGrammar

/-- The functions of lengths and angles that turning about an axis needs. -/
class Trig (α : Type) where
  sqrt : α → α
  sin : α → α
  cos : α → α

instance : Trig Float := ⟨Float.sqrt, Float.sin, Float.cos⟩

/-- A vector of three numbers. -/
@[ext] structure Vec3 (α : Type) where
  x : α
  y : α
  z : α
  deriving BEq, Repr

namespace Vec3

variable {α : Type}

/-- The zero vector. -/
def zero [OfNat α 0] : Vec3 α := ⟨0, 0, 0⟩

/-- The direction in which a figure grows in its own frame. -/
def up [OfNat α 0] [OfNat α 1] : Vec3 α := ⟨0, 1, 0⟩

/-- The axis about which a figure turns. -/
def zAxis [OfNat α 0] [OfNat α 1] : Vec3 α := ⟨0, 0, 1⟩

instance [Add α] : Add (Vec3 α) := ⟨fun u v => ⟨u.x + v.x, u.y + v.y, u.z + v.z⟩⟩

instance [Sub α] : Sub (Vec3 α) := ⟨fun u v => ⟨u.x - v.x, u.y - v.y, u.z - v.z⟩⟩

/-- A vector times a number. -/
instance [Mul α] : HMul (Vec3 α) α (Vec3 α) := ⟨fun u s => ⟨u.x * s, u.y * s, u.z * s⟩⟩

/-- The sum of the products of the coordinates. -/
def dot [Add α] [Mul α] (u v : Vec3 α) : α := u.x * v.x + u.y * v.y + u.z * v.z

/-- The vector product. -/
def cross [Sub α] [Mul α] (u v : Vec3 α) : Vec3 α :=
  ⟨u.y * v.z - u.z * v.y, u.z * v.x - u.x * v.z, u.x * v.y - u.y * v.x⟩

/-- The length of a vector. -/
def length [Add α] [Mul α] [Trig α] (u : Vec3 α) : α := Trig.sqrt (u.dot u)

/-- The length of the difference of two vectors. -/
def distance [Add α] [Sub α] [Mul α] [Trig α] (u v : Vec3 α) : α := (u - v).length

end Vec3

/-- The lesser of two doubles. An operand that is not a number is ignored, and of two equal ones the
first is taken. -/
def lesser (x y : Float) : Float := if x.isNaN then y else if y < x then y else x

/-- The greater of two doubles. An operand that is not a number is ignored, and of two equal ones
the first is taken. -/
def greater (x y : Float) : Float := if x.isNaN then y else if x < y then y else x

namespace Vec3

/-- The lesser of every coordinate. -/
def lesser (u v : Vec3 Float) : Vec3 Float :=
  ⟨GrowthGrammar.lesser u.x v.x, GrowthGrammar.lesser u.y v.y, GrowthGrammar.lesser u.z v.z⟩

/-- The greater of every coordinate. -/
def greater (u v : Vec3 Float) : Vec3 Float :=
  ⟨GrowthGrammar.greater u.x v.x, GrowthGrammar.greater u.y v.y, GrowthGrammar.greater u.z v.z⟩

end Vec3

end GrowthGrammar
