import GrowthGrammar.Decimal.Layout
import GrowthGrammar.Space.Bounds

/-!
# What a program prints

A program is a function to a `Transcript`: its exit code and the texts that it prints on its two
streams. The parts of texts that several programs share stand here too.
-/

namespace GrowthGrammar.Program

/-- An exit code and what was printed. -/
structure Transcript where
  code : Nat
  output : String
  errors : String
  deriving DecidableEq, Repr

/-- Text, each line of which is ended by a line feed. -/
def unlines (lines : List String) : String := String.join (lines.map (· ++ "\n"))

/-- A program that printed some lines and was content. -/
def Transcript.done (lines : List String) : Transcript := ⟨0, unlines lines, ""⟩

/-- A program that gave up with a message. -/
def Transcript.failed (message : String) : Transcript := ⟨1, "", unlines ["ERROR: " ++ message]⟩

/-- A vector with three places. -/
def vectorText (v : Vec3 Float) : String :=
  "(" ++ fixedText 3 v.x ++ ", " ++ fixedText 3 v.y ++ ", " ++ fixedText 3 v.z ++ ")"

/-- The two corners of some bounds. -/
def boundsText (b : Bounds) : String := vectorText b.low ++ " .. " ++ vectorText b.high

end GrowthGrammar.Program
