import GrowthGrammar.Proofs.Plant.Table
import GrowthGrammar.Proofs.Random.Uniform
import GrowthGrammar.Proofs.Space.Rotation
import GrowthGrammar.Proofs.Walk.Transport
import Mathlib.Analysis.SpecialFunctions.Trigonometric.Basic

/-!
# Moving a plant

Read over a field, with a sine and a cosine on the unit circle, the actions of a plant commute with
the rigid motions of space (`Action.perform_moved`): what they draw depends on the step length and
not on the place or the orientation, and all they do is done in the frame of the pose. So a plant
that starts elsewhere, or in another orientation, grows into the same figure there (`trace_moved`).
-/

namespace GrowthGrammar.Plant

section
variable {ρ α : Type} [Field α] [BEq α] [Trig α] [RandomSource ρ α] {habit : Habit α}

/-- An action behind a motion of space does what it does before the motion, with the same draws. -/
theorem Action.perform_moved {g : Quat α} (hg : g.normSq = 1) (t : Vec3 α) {p : Pose α}
    (hp : p.rotation.normSq = 1) (a : Action) (stream : StreamId) (streams : Streams ρ) :
    a.perform habit stream (p.moved g t) streams =
      Prod.map (Pose.moved g t) id (a.perform habit stream p streams) := by
  have hmove : ∀ offset, (p.moved g t).move offset = (p.move offset).moved g t := fun offset =>
    (Pose.moved_move hg hp t offset).symm
  have hturn : ∀ q, (p.moved g t).turn q = (p.turn q).moved g t := fun q =>
    (Pose.moved_turn g t p q).symm
  have hstep : (p.moved g t).stepLength = p.stepLength := rfl
  cases a with
  | forward => exact Prod.ext (hmove (Vec3.up * p.stepLength)) rfl
  | shrink => rfl
  | detail =>
    rw [perform_detail, perform_detail, hstep]
    generalize detailOffset habit stream p.stepLength streams = drawn
    exact Prod.ext (hmove drawn.1) rfl
  | turnPositive | turnNegative => exact Prod.ext (hturn _) rfl

section
variable (pythagoras : ∀ x : α, Trig.sin x ^ 2 + Trig.cos x ^ 2 = 1)
  (hlength : (Vec3.zAxis : Vec3 α).length = 1)
include pythagoras hlength

/-- No action changes the norm of an orientation of norm one. -/
theorem Action.normSq_perform {p : Pose α} (hp : p.rotation.normSq = 1) (a : Action)
    (stream : StreamId) (streams : Streams ρ) :
    (a.perform habit stream p streams).1.rotation.normSq = 1 := by
  have hturn : ∀ angle, (p.turn (Quat.aboutZ angle)).rotation.normSq = 1 := fun angle =>
    Quat.normSq_compose_eq_one hp (Quat.normSq_aboutZ pythagoras hlength angle)
  cases a with
  | forward | shrink | detail => exact hp
  | turnPositive | turnNegative => exact hturn _

variable {table : InstructionTable ρ (Pose α)} (ht : table? habit = .ok table)
include ht

/-- No instruction of a plant changes the norm of an orientation of norm one. -/
theorem preserves_normSq : table.Preserves fun context => context.state.rotation.normSq = 1 := by
  intro c context stack streams hp
  obtain ⟨a, -, hrun⟩ | ⟨-, hrun⟩ := lookup_cases ht c
  · rw [hrun]
    exact a.normSq_perform pythagoras hlength hp _ _
  · rw [hrun]
    exact hp

omit pythagoras hlength

/-- A motion of space carries the table of a plant to itself. -/
theorem carries_moved {g : Quat α} (hg : g.normSq = 1) (t : Vec3 α) :
    table.Carries (fun context => context.state.rotation.normSq = 1) (Pose.moved g t) table := by
  intro c context stack streams hp
  obtain ⟨a, -, hrun⟩ | ⟨-, hrun⟩ := lookup_cases ht c
  · rw [hrun]
    exact congrArg (Prod.map (context.map (Pose.moved g t)).withState id)
      (a.perform_moved hg t hp context.stream streams)
  · rw [hrun]
    rfl

end

end

/-- The walk of a plant is the same wherever it starts. Let the pose of the start be moved by a
rigid motion of space, a turn by a quaternion of norm one and then a translation: then the walk of a
well-nested word visits the same symbols at the same depths and positions, every visited pose is
moved in the same way, and the streams are left as before. All visited orientations have norm one if
the first one has. -/
theorem trace_moved {ρ α : Type} [Field α] [BEq α] [Trig α] [RandomSource ρ α]
    (pythagoras : ∀ x : α, Trig.sin x ^ 2 + Trig.cos x ^ 2 = 1)
    (hlength : (Vec3.zAxis : Vec3 α).length = 1) (habit : Habit α) {w : Word}
    (nested : WellNested w) {g : Quat α} (hg : g.normSq = 1) (t : Vec3 α)
    {initial : Context (Pose α)} (hinitial : initial.state.rotation.normSq = 1)
    (streams : Streams ρ) :
    ∃ table visits after, table? habit = .ok table ∧
      trace table initial streams w = ⟨.ok visits, after⟩ ∧
      trace table (initial.map (Pose.moved g t)) streams w =
        ⟨.ok (visits.map (Visit.map (Pose.moved g t))), after⟩ ∧
      ∀ v ∈ visits, v.state.rotation.normSq = 1 ∧ (v.state.moved g t).rotation.normSq = 1 := by
  obtain ⟨table, ht, -⟩ := exists_table (ρ := ρ) habit
  obtain ⟨b, rfl⟩ := wellNested_iff.1 nested
  have preserves := preserves_normSq pythagoras hlength ht
  have htrace := trace_word (keepsHandles_table ht) b initial streams
  have hmoved := trace_map preserves (carries_moved ht hg t) hinitial streams b.word
  rw [htrace] at hmoved
  refine ⟨table, _, _, ht, htrace, hmoved, fun v hv => ?_⟩
  have hunit := forall_mem_trace (J := fun p => p.rotation.normSq = 1) preserves hinitial
    (congrArg Outcome.result htrace) v hv
  exact ⟨hunit, Quat.normSq_compose_eq_one hg hunit⟩

/-! ## Real numbers -/

noncomputable instance : Trig ℝ := ⟨Real.sqrt, Real.sin, Real.cos⟩

/-- The unit draw of a word as a real number. -/
noncomputable def realOfWord (w : UInt64) : ℝ := unitFraction w / (2 ^ 52 : ℕ)

/-- Draws of real numbers take the words that draws of doubles take, and do not round. -/
noncomputable instance : RandomSource Generator ℝ where
  real low high inclusive rng :=
    if low < high then
      let scale := if inclusive then (high - low) / realOfWord 0xFFFFFFFFFFFFFFFF else high - low
      (realOfWord rng.next.1 * scale + low, rng.next.2)
    else (low, rng)

/-- The proportions of the stock plant as real numbers. -/
noncomputable def Habit.realStock : Habit ℝ := ⟨13 / 20, 5 / 4, 15, 3, 5⟩

/-- A tilt about the third axis, with the sides of a right triangle. -/
noncomputable def tilt : Quat ℝ := ⟨0, 0, 3 / 5, 4 / 5⟩

/-- A plant with a branch that turns, shrinks and makes a detail, tilted and moved in the space of
the real numbers. -/
theorem trace_moved_real :
    (∀ x : ℝ, Trig.sin x ^ 2 + Trig.cos x ^ 2 = 1) ∧ (Vec3.zAxis : Vec3 ℝ).length = 1 ∧
    WellNested ['F', '[', '+', 'B', 'Q', ']', 'F'] ∧ tilt.normSq = 1 ∧
    (Pose.atOrigin (2 : ℝ)).rotation.normSq = 1 ∧
    ∃ (table : InstructionTable Generator (Pose ℝ)) (visits : List (Visit (Pose ℝ)))
        (after : Streams Generator),
      table? Habit.realStock = .ok table ∧
      trace table ⟨.atOrigin 2, 0⟩ (.single (.ofSeed 7)) ['F', '[', '+', 'B', 'Q', ']', 'F'] =
        ⟨.ok visits, after⟩ ∧
      trace table (Context.map (Pose.moved tilt ⟨1, 2, 3⟩) ⟨.atOrigin 2, 0⟩) (.single (.ofSeed 7))
          ['F', '[', '+', 'B', 'Q', ']', 'F'] =
        ⟨.ok (visits.map (Visit.map (Pose.moved tilt ⟨1, 2, 3⟩))), after⟩ ∧
      ∀ v ∈ visits, v.state.rotation.normSq = 1 ∧
        (v.state.moved tilt ⟨1, 2, 3⟩).rotation.normSq = 1 := by
  have pythagoras : ∀ x : ℝ, Trig.sin x ^ 2 + Trig.cos x ^ 2 = 1 := Real.sin_sq_add_cos_sq
  have hlength : (Vec3.zAxis : Vec3 ℝ).length = 1 := by
    have hdot : (Vec3.zAxis : Vec3 ℝ).dot Vec3.zAxis = 1 := by simp [Vec3.dot, Vec3.zAxis]
    rw [Vec3.length, hdot]
    exact Real.sqrt_one
  have nested : WellNested ['F', '[', '+', 'B', 'Q', ']', 'F'] :=
    .symbol rfl (.branch (.symbol rfl (.symbol rfl (.symbol rfl .nil))) (.symbol rfl .nil))
  have htilt : tilt.normSq = 1 := by
    simp only [tilt, Quat.normSq]
    norm_num
  have hinitial : (⟨.atOrigin 2, 0⟩ : Context (Pose ℝ)).state.rotation.normSq = 1 := by
    simp [Pose.atOrigin, Quat.identity, Quat.normSq]
  obtain ⟨table, visits, after, htable, htrace, hmoved, hunit⟩ := trace_moved pythagoras hlength
    Habit.realStock nested htilt ⟨1, 2, 3⟩ hinitial (.single (Generator.ofSeed 7))
  exact ⟨pythagoras, hlength, nested, htilt, hinitial, table, visits, after, htable, htrace, hmoved,
    hunit⟩

end GrowthGrammar.Plant
