import GrowthGrammar.Grammar.Engine
import GrowthGrammar.Space.Pose
import GrowthGrammar.Walk.Basic

/-!
# The stock plant

Five actions move and turn a pose, two of them at random: `F` advances a step, `B` shrinks the step,
`Q` makes a jittered small step, and `+` and `-` turn by a random angle. The symbols `X` and `Y` are
for the grammar alone and do nothing. How far the actions go is a `Habit`; the actions themselves
are formulas over any numbers with the arithmetic that they use.
-/

namespace GrowthGrammar.Plant

/-- The proportions of a plant. -/
structure Habit (α : Type) where
  /-- The step is multiplied by this when it shrinks. -/
  shrink : α
  /-- The widest turn, in radians. -/
  maxAngle : α
  /-- The step over this is the least detail. -/
  leastDivisor : α
  /-- The step over this is the greatest detail. -/
  greatestDivisor : α
  /-- The step over this is the widest jitter. -/
  jitterDivisor : α

/-- The proportions of the stock plant. -/
def Habit.stock : Habit Float := ⟨0.65, 1.25, 15, 3, 5⟩

/-- What a symbol of a plant does. -/
inductive Action where
  | forward
  | shrink
  | detail
  | turnPositive
  | turnNegative
  deriving DecidableEq, Repr

namespace Action

/-- The symbol that an action claims. -/
def symbol : Action → Symbol
  | .forward => 'F'
  | .shrink => 'B'
  | .detail => 'Q'
  | .turnPositive => '+'
  | .turnNegative => '-'

/-- The actions in the order in which a table takes them. -/
def all : List Action := [.forward, .shrink, .detail, .turnPositive, .turnNegative]

variable {ρ α : Type} [Add α] [Sub α] [Mul α] [Div α] [Neg α] [OfNat α 0] [OfNat α 1] [OfNat α 2]
  [BEq α] [Trig α] [RandomSource ρ α]

/-- A real between zero and one, both included. -/
def unitDraw (id : StreamId) : StateM (Streams ρ) α := Streams.real id 0 1 true

/-- A small step along the growth axis, moved by a jitter. The jitter is drawn first. -/
def detailOffset (habit : Habit α) (id : StreamId) (step : α) :
    StateM (Streams ρ) (Vec3 α) := do
  let x ← unitDraw id
  let y ← unitDraw id
  let z ← unitDraw id
  let along ← Streams.real id (step / habit.leastDivisor) (step / habit.greatestDivisor) true
  let jitter := (⟨x, y, z⟩ : Vec3 α) * (step / habit.jitterDivisor)
  return ⟨0, along, 0⟩ + jitter

/-- The next pose. -/
def perform (habit : Habit α) (id : StreamId) (p : Pose α) :
    Action → StateM (Streams ρ) (Pose α)
  | .forward => return p.move ((Vec3.up : Vec3 α) * p.stepLength)
  | .shrink => return p.withStepLength (p.stepLength * habit.shrink)
  | .detail => return p.move (← detailOffset habit id p.stepLength)
  | .turnPositive => return p.turn (Quat.aboutZ (habit.maxAngle * (← unitDraw id)))
  | .turnNegative => return p.turn (Quat.aboutZ (-habit.maxAngle * (← unitDraw id)))

/-- The instruction of an action. It keeps the handle that it is given. -/
def instruction (habit : Habit α) (a : Action) : Instruction ρ (Pose α) where
  symbol := a.symbol
  run context _ := return context.withState (← a.perform habit context.stream context.state)

end Action

section

variable {ρ α : Type} [Add α] [Sub α] [Mul α] [Div α] [Neg α] [OfNat α 0] [OfNat α 1] [OfNat α 2]
  [BEq α] [Trig α] [RandomSource ρ α]

/-- The five actions and the inert symbols `X` and `Y`. -/
def instructions (habit : Habit α) : List (Instruction ρ (Pose α)) :=
  Action.all.map (Action.instruction habit) ++ [.inert 'X', .inert 'Y']

/-- The table of a plant's instructions. -/
def table? (habit : Habit α) : Except InstructionError (InstructionTable ρ (Pose α)) :=
  InstructionTable.ofList? (instructions habit)

end

/-- The rules of the stock plant. -/
def rules : List Rule :=
  [⟨'X', Word.ofString "[B-FY][B+FY]FX", 1⟩, ⟨'Y', Word.ofString "[B-FY]", 1⟩,
    ⟨'F', Word.ofString "QQQ", 1⟩]

/-- The grammar of the stock plant: a trunk that forks into shrinking branches, every advance of
which is refined into details. -/
def grammar? (generations : Nat) : Except GrammarError Grammar :=
  Grammar.new? (Word.ofString "FFX") rules generations

end GrowthGrammar.Plant
