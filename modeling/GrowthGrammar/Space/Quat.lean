import GrowthGrammar.Space.Vec3

/-!
# Orientations

An orientation is a quaternion `(x, y, z, w)` of norm one. `Quat.compose p q` is the orientation
that turns by `q` in the frame of `p`, and `Quat.rotate` turns a vector. Nothing here brings a
quaternion back to norm one.
-/

namespace GrowthGrammar

/-- A quaternion with the vector part `(x, y, z)` and the scalar part `w`. -/
@[ext] structure Quat (α : Type) where
  x : α
  y : α
  z : α
  w : α
  deriving BEq, Repr

namespace Quat

variable {α : Type}

/-- The orientation that turns nothing. -/
def identity [OfNat α 0] [OfNat α 1] : Quat α := ⟨0, 0, 0, 1⟩

/-- The turn by an angle, in radians, about an axis of any length. About the zero vector there is no
turn. -/
def aboutAxis [Add α] [Mul α] [Div α] [OfNat α 0] [OfNat α 1] [OfNat α 2] [BEq α] [Trig α]
    (axis : Vec3 α) (angle : α) : Quat α :=
  let length := axis.length
  if length == 0 then identity
  else
    let half := angle / 2
    let k := Trig.sin half / length
    ⟨axis.x * k, axis.y * k, axis.z * k, Trig.cos half⟩

/-- The turn by an angle about the third axis. -/
def aboutZ [Add α] [Mul α] [Div α] [OfNat α 0] [OfNat α 1] [OfNat α 2] [BEq α] [Trig α]
    (angle : α) : Quat α :=
  aboutAxis Vec3.zAxis angle

/-- The product of two quaternions: the turn by `q` in the frame of `p`. -/
def compose [Add α] [Sub α] [Mul α] (p q : Quat α) : Quat α where
  x := p.w * q.x + p.x * q.w + p.y * q.z - p.z * q.y
  y := p.w * q.y - p.x * q.z + p.y * q.w + p.z * q.x
  z := p.w * q.z + p.x * q.y - p.y * q.x + p.z * q.w
  w := p.w * q.w - p.x * q.x - p.y * q.y - p.z * q.z

/-- The vector part. -/
def vector (q : Quat α) : Vec3 α := ⟨q.x, q.y, q.z⟩

/-- A vector turned by an orientation. -/
def rotate [Add α] [Sub α] [Mul α] [OfNat α 2] (q : Quat α) (v : Vec3 α) : Vec3 α :=
  let t := q.vector.cross v * (2 : α)
  v + t * q.w + q.vector.cross t

/-- The sum of the squares of the four coordinates. -/
def normSq [Add α] [Mul α] (q : Quat α) : α := q.x * q.x + q.y * q.y + q.z * q.z + q.w * q.w

end Quat

end GrowthGrammar
