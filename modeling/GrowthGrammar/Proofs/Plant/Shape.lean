import GrowthGrammar.Proofs.Grammar.Substitution
import GrowthGrammar.Proofs.Plant.Tapering
import GrowthGrammar.Proofs.System.CleanLint
import GrowthGrammar.Proofs.Walk.Records
import GrowthGrammar.Proofs.Word.Depth
import Mathlib.Tactic.Ring

/-!
# The size and the shape of the stock plant

No symbol of the stock plant has two rules, so every expansion is the same word: two advances and
what the bud `X` grows into. The words of `X` and `Y` follow from those of the generation before
(`grown_bud`, `grown_arm`), and with them everything that can be counted in them: an arm gets longer
by the same symbols in every generation (`countP_grown_arm`), and a bud by two arms
(`countP_grown_bud`). The branches nest one deeper in every generation (`nests_grown_bud`).
`stock_plant_shape` collects this for all numbers of generations but zero.
-/

namespace GrowthGrammar.Plant

/-! ## What the symbols grow into -/

/-- What a branch of the stock plant holds: it shrinks, turns, advances and puts out an arm. -/
def arm (g : Grammar) (turn : Symbol) (n : ℕ) : Word :=
  Symbol.opening :: ('B' :: turn :: (g.grown n 'F' ++ g.grown n 'Y') ++ [Symbol.closing])

section
variable {g : Grammar} (hg : g.rules = rules)
include hg

theorem image_eq (c : Symbol) :
    g.image c = ((rules.filter (·.predecessor == c)).map (·.replacement)).headD [c] := by
  rw [Grammar.image, Grammar.rulesFor, hg]

/-- A symbol without a rule stays as it is. -/
theorem grown_of_no_rule {c : Symbol} (hc : ∀ r ∈ rules, r.predecessor ≠ c) (n : ℕ) :
    g.grown n c = [c] :=
  Grammar.grown_of_forall_ne (hg ▸ hc) n

/-- An advance is refined into details, which stay. -/
theorem grown_advance (n : ℕ) : g.grown (n + 1) 'F' = ['Q', 'Q', 'Q'] := by
  have himage : g.image 'F' = ['Q', 'Q', 'Q'] := image_eq hg 'F'
  rw [Grammar.grown, himage]
  simp only [List.flatMap_cons, List.flatMap_nil, grown_of_no_rule hg (c := 'Q') (by decide)]
  rfl

/-- The symbols of a branch grow one by one. -/
theorem flatMap_grown_arm (n : ℕ) {turn : Symbol} (hturn : ∀ r ∈ rules, r.predecessor ≠ turn) :
    [Symbol.opening, 'B', turn, 'F', 'Y', Symbol.closing].flatMap (g.grown n) = arm g turn n := by
  simp only [List.flatMap_cons, List.flatMap_nil, grown_of_no_rule hg hturn,
    grown_of_no_rule hg (c := Symbol.opening) (by decide),
    grown_of_no_rule hg (c := Symbol.closing) (by decide),
    grown_of_no_rule hg (c := 'B') (by decide)]
  simp [arm]

theorem grown_arm (n : ℕ) : g.grown (n + 1) 'Y' = arm g '-' n := by
  have himage : g.image 'Y' = [Symbol.opening, 'B', '-', 'F', 'Y', Symbol.closing] :=
    image_eq hg 'Y'
  rw [Grammar.grown, himage, flatMap_grown_arm hg n (by decide)]

/-- A bud puts out two arms and goes on behind an advance. -/
theorem grown_bud (n : ℕ) :
    g.grown (n + 1) 'X' = arm g '-' n ++ arm g '+' n ++ (g.grown n 'F' ++ g.grown n 'X') := by
  have himage : g.image 'X' = [Symbol.opening, 'B', '-', 'F', 'Y', Symbol.closing] ++
      [Symbol.opening, 'B', '+', 'F', 'Y', Symbol.closing] ++ ['F', 'X'] := image_eq hg 'X'
  rw [Grammar.grown, himage, List.flatMap_append, List.flatMap_append,
    flatMap_grown_arm hg n (by decide), flatMap_grown_arm hg n (by decide)]
  simp

end

/-! ## Counting symbols -/

section
variable {g : Grammar} (p : Symbol → Bool)

/-- The symbols of a branch are the four that stand in every branch and those that grow inside. -/
theorem countP_arm (turn : Symbol) (n : ℕ) :
    (arm g turn n).countP p = [Symbol.opening, 'B', turn, Symbol.closing].countP p +
      ((g.grown n 'F').countP p + (g.grown n 'Y').countP p) := by
  simp only [arm, List.countP_cons, List.countP_append, List.countP_nil]
  ring

variable (hg : g.rules = rules)
include hg

/-- In every generation the branch of an arm grows by the same symbols: by a branch that is
refined. -/
theorem countP_grown_arm (n : ℕ) :
    (g.grown (n + 1) 'Y').countP p =
      ['[', 'B', '-', 'F', 'Y', ']'].countP p +
        n * ['[', 'B', '-', 'Q', 'Q', 'Q', ']'].countP p := by
  induction n with
  | zero =>
    rw [grown_arm hg, countP_arm, Nat.zero_mul]
    simp only [Grammar.grown, List.countP_cons, List.countP_nil, Symbol.opening, Symbol.closing]
    ring
  | succ n ih =>
    rw [grown_arm hg, countP_arm, grown_advance hg, ih]
    simp only [List.countP_cons, List.countP_nil, Symbol.opening, Symbol.closing]
    ring

/-- A bud grows by two arms of every length so far, and by the advances between them. Both senses of
a turn count the same. -/
theorem countP_grown_bud (hturn : p '+' = p '-') (n : ℕ) :
    (g.grown (n + 1) 'X').countP p =
      2 * (n + 1) * ['[', 'B', '-', 'F', 'Y', ']'].countP p +
        n * (n + 1) * ['[', 'B', '-', 'Q', 'Q', 'Q', ']'].countP p +
        ['F', 'X'].countP p + n * ['Q', 'Q', 'Q'].countP p := by
  have harms : ∀ n, (g.grown (n + 1) 'X').countP p = 2 * (g.grown (n + 1) 'Y').countP p +
      ((g.grown n 'F').countP p + (g.grown n 'X').countP p) := by
    intro n
    have hsame : (arm g '+' n).countP p = (arm g '-' n).countP p := by
      rw [countP_arm, countP_arm]
      simp only [List.countP_cons, hturn]
    rw [grown_bud hg, grown_arm hg, List.countP_append, List.countP_append, List.countP_append,
      hsame, Nat.two_mul]
  rw [harms, countP_grown_arm p hg]
  induction n with
  | zero =>
    simp only [Grammar.grown, List.countP_cons, List.countP_nil]
    ring
  | succ n ih =>
    rw [harms, countP_grown_arm p hg, ih, grown_advance hg]
    ring

/-- The symbols of a word of the stock plant. -/
theorem countP_grown_start (hturn : p '+' = p '-') (n : ℕ) :
    (['F', 'F', 'X'].flatMap (g.grown (n + 1))).countP p =
      2 * (n + 1) * ['[', 'B', '-', 'F', 'Y', ']'].countP p +
        n * (n + 1) * ['[', 'B', '-', 'Q', 'Q', 'Q', ']'].countP p +
        ['F', 'X'].countP p + (n + 2) * ['Q', 'Q', 'Q'].countP p := by
  simp only [List.flatMap_cons, List.flatMap_nil, List.countP_append, List.countP_nil,
    grown_advance hg, countP_grown_bud p hg hturn]
  ring

/-! ## Depth -/

omit p

theorem nests_grown_advance (n : ℕ) : (g.grown n 'F').Nests 0 := by
  cases n with
  | zero => exact .symbol rfl Word.nests_nil
  | succ n =>
    rw [grown_advance hg]
    exact .symbol rfl (.symbol rfl (.symbol rfl Word.nests_nil))

/-- A branch nests one deeper than the arm in it. -/
theorem nests_arm {turn : Symbol} (hturn : Symbol.isMarker turn = false) {n : ℕ}
    (harm : (g.grown n 'Y').Nests n) : (arm g turn n).Nests (n + 1) := by
  have hinside := (nests_grown_advance hg n).append harm
  rw [Nat.zero_max] at hinside
  exact Word.Nests.branch (.symbol rfl (.symbol hturn hinside))

/-- The branches of an arm nest one deeper in every generation. -/
theorem nests_grown_arm (n : ℕ) : (g.grown n 'Y').Nests n := by
  induction n with
  | zero => exact .symbol rfl Word.nests_nil
  | succ n ih =>
    rw [grown_arm hg]
    exact nests_arm hg rfl ih

/-- The two arms that a bud puts out last nest deepest. -/
theorem nests_grown_bud (n : ℕ) : (g.grown n 'X').Nests n := by
  induction n with
  | zero => exact .symbol rfl Word.nests_nil
  | succ n ih =>
    have harm := nests_grown_arm hg n
    have hminus : (arm g '-' n).Nests (n + 1) := nests_arm hg rfl harm
    have hplus : (arm g '+' n).Nests (n + 1) := nests_arm hg rfl harm
    have hbud := (hminus.append hplus).append ((nests_grown_advance hg n).append ih)
    rw [← grown_bud hg, Nat.max_self, Nat.zero_max, Nat.max_eq_left n.le_succ] at hbud
    exact hbud

/-- A bud ends with an advance and a bud. -/
theorem suffix_grown_bud (n : ℕ) : ['F', 'X'] <:+ g.grown (n + 1) 'X' := by
  induction n with
  | zero =>
    rw [grown_bud hg]
    exact List.suffix_append _ _
  | succ n ih =>
    rw [grown_bud hg, ← List.append_assoc]
    exact ih.trans (List.suffix_append _ _)

end

/-! ## The stock plant -/

/-- The size and the shape that a word of the stock plant has in a generation. -/
structure StockShape (n : ℕ) (w : Word) : Prop where
  length : w.length = 7 * n ^ 2 + 8 * n + 5
  /-- The symbols that are no markers. -/
  symbols : w.countP (!Symbol.isMarker ·) = 5 * n ^ 2 + 6 * n + 5
  balance? : w.balance? = some 0
  maxDepth : w.maxDepth = n
  bud : w.count 'X' = 1
  tip : ['F', 'X'] <:+ w

/-- From the first generation on, what the start word grows into has the shape of the stock
plant. -/
theorem stockShape_grown {g : Grammar} (hg : g.rules = rules) {n : ℕ} (hn : 1 ≤ n) :
    StockShape n (['F', 'F', 'X'].flatMap (g.grown n)) := by
  obtain ⟨n, rfl⟩ := Nat.exists_eq_add_of_le' hn
  have hword : ['F', 'F', 'X'].flatMap (g.grown (n + 1)) =
      g.grown (n + 1) 'F' ++ (g.grown (n + 1) 'F' ++ g.grown (n + 1) 'X') := by
    simp
  have hnests := (nests_grown_advance hg (n + 1)).append
    ((nests_grown_advance hg (n + 1)).append (nests_grown_bud hg (n + 1)))
  rw [← hword, Nat.zero_max, Nat.zero_max] at hnests
  refine ⟨?_, ?_, hnests.balance?, hnests.maxDepth, ?_, ?_⟩
  · have hall := countP_grown_start (g := g) (fun _ => true) hg rfl n
    simp only [List.countP_true, List.length_cons, List.length_nil] at hall
    rw [hall]
    ring
  · rw [countP_grown_start (g := g) _ hg rfl n]
    have h₁ : ['[', 'B', '-', 'F', 'Y', ']'].countP (!Symbol.isMarker ·) = 4 := rfl
    have h₂ : ['[', 'B', '-', 'Q', 'Q', 'Q', ']'].countP (!Symbol.isMarker ·) = 5 := rfl
    have h₃ : ['F', 'X'].countP (!Symbol.isMarker ·) = 2 := rfl
    have h₄ : ['Q', 'Q', 'Q'].countP (!Symbol.isMarker ·) = 3 := rfl
    rw [h₁, h₂, h₃, h₄]
    ring
  · rw [List.count, countP_grown_start (g := g) _ hg rfl n]
    have h₁ : ['[', 'B', '-', 'F', 'Y', ']'].countP (· == 'X') = 0 := rfl
    have h₂ : ['[', 'B', '-', 'Q', 'Q', 'Q', ']'].countP (· == 'X') = 0 := rfl
    have h₃ : ['F', 'X'].countP (· == 'X') = 1 := rfl
    have h₄ : ['Q', 'Q', 'Q'].countP (· == 'X') = 0 := rfl
    rw [h₁, h₂, h₃, h₄, Nat.mul_zero, Nat.mul_zero, Nat.mul_zero]
  · rw [hword, ← List.append_assoc]
    exact (suffix_grown_bud hg n).trans (List.suffix_append _ _)

/-- The stock plant has one size and one shape in every generation from the first one on. For every
expansion seed, whatever the engine was asked before, and whatever generator it is given, the
expansion has this shape; and to generate with the plant's instructions succeeds, from every pose
and with every seed of the walk, with one state for each symbol that is no marker. -/
theorem stock_plant_shape {n : ℕ} (hn : 1 ≤ n) (seed : ExpansionSeed) :
    ∃ g table e, grammar? n = .ok g ∧ stockTable? = .ok table ∧ Engine.new? g seed = .ok e ∧
      ∀ past : List Engine.Call,
        (∀ {ρ : Type} [RandomBits ρ] (rng : ρ),
          StockShape n ((past.foldl Engine.after e).expandWith rng).1) ∧
        ∀ fresh, StockShape n ((past.foldl Engine.after e).expand fresh).1 ∧
          ∀ (initial : Pose Float) (walkSeed : UInt64),
            let system : System (Pose Float) :=
              ⟨past.foldl Engine.after e, table, initial, walkSeed⟩
            ∃ states, (system.generate fresh).1 =
                .ok ⟨((past.foldl Engine.after e).expand fresh).1, states⟩ ∧
              states.length = 5 * n ^ 2 + 6 * n + 5 := by
  obtain ⟨g, hg, hstart, hrules, hgenerations⟩ := exists_grammar n
  obtain ⟨table, htable, -⟩ := exists_table (ρ := Generator) Habit.stock
  obtain ⟨e, he, hgrammar, -⟩ := Engine.exists_new? g seed
  refine ⟨g, table, e, hg, htable, he, fun past => ?_⟩
  have hpast : (past.foldl Engine.after e).grammar = g :=
    (Engine.grammar_foldl_after e past).trans hgrammar
  have det : (past.foldl Engine.after e).grammar.Deterministic := by
    rw [hpast, Grammar.Deterministic, hrules]
    decide
  have hwith : ∀ {ρ : Type} [RandomBits ρ] (rng : ρ),
      StockShape n ((past.foldl Engine.after e).expandWith rng).1 := by
    intro ρ _ rng
    rw [Engine.expandWith, Engine.deriveTimes_of_deterministic det, hpast, hstart, hgenerations]
    exact stockShape_grown hrules hn
  refine ⟨hwith, fun fresh => ?_⟩
  have hexpand : StockShape n ((past.foldl Engine.after e).expand fresh).1 :=
    hwith (ρ := Generator) _
  refine ⟨hexpand, fun initial walkSeed => ?_⟩
  obtain ⟨states, hstates, hlength⟩ := exists_evaluate_length table ⟨initial, 0⟩
    (.single (.ofSeed walkSeed)) hexpand.balance?
  exact ⟨states, System.generate_fst_of_evaluate hstates, hlength.trans hexpand.symbols⟩

/-- The stock plant of ten generations has 785 symbols and 565 states. -/
theorem stock_plant_shape_ten :
    1 ≤ 10 ∧ ∃ g table e, grammar? 10 = .ok g ∧ stockTable? = .ok table ∧
      Engine.new? g (.fixed 0) = .ok e ∧ (e.expand (.ofSeed 1)).1.length = 785 ∧
      (e.expand (.ofSeed 1)).1.maxDepth = 10 ∧
      ∃ states, ((⟨e, table, .atOrigin 1, 0⟩ : System (Pose Float)).generate (.ofSeed 1)).1 =
          .ok ⟨(e.expand (.ofSeed 1)).1, states⟩ ∧ states.length = 565 := by
  have hten : 1 ≤ 10 := by decide
  obtain ⟨g, table, e, hg, htable, he, hall⟩ := stock_plant_shape hten (.fixed 0)
  obtain ⟨hshape, hgenerate⟩ := (hall []).2 (.ofSeed 1)
  exact ⟨hten, g, table, e, hg, htable, he, hshape.length, hshape.maxDepth,
    hgenerate (.atOrigin 1) 0⟩

end GrowthGrammar.Plant
