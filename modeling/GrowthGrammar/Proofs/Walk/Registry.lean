import GrowthGrammar.Walk.Table
import Mathlib.Data.List.Nodup

/-!
# Registering instructions

If the symbols of some instructions are no markers and are all different, a table takes every one of
them, and holds for each symbol the instruction that claims it (`exists_foldlM_register`).
-/

namespace GrowthGrammar.InstructionTable

variable {ρ S : Type}

/-- An instruction with a free symbol is taken, and the other symbols keep theirs. -/
theorem exists_offer {t : InstructionTable ρ S} {i : Instruction ρ S}
    (hmarker : Symbol.isMarker i.symbol = false) (hfree : t.instructions[i.symbol]? = none) :
    ∃ t', t.offer i = (.ok (), t') ∧
      ∀ c, t'.instructions[c]? = if i.symbol == c then some i else t.instructions[c]? := by
  have hcontains : t.contains i.symbol = false := by
    rw [contains, Std.HashMap.contains_eq_isSome_getElem?, hfree]
    rfl
  refine ⟨⟨t.instructions.insert i.symbol i⟩, ?_, fun c => Std.HashMap.getElem?_insert⟩
  simp [offer, hmarker, hcontains]

/-- Instructions with different symbols, all of them free, are taken one after the other. -/
theorem exists_foldlM_register {instructions : List (Instruction ρ S)} {t : InstructionTable ρ S}
    (hmarker : ∀ i ∈ instructions, Symbol.isMarker i.symbol = false)
    (hdistinct : (instructions.map (·.symbol)).Nodup)
    (hfree : ∀ i ∈ instructions, t.instructions[i.symbol]? = none) :
    ∃ t', instructions.foldlM register t = .ok t' ∧
      ∀ c, t'.instructions[c]? =
        (instructions.find? (·.symbol == c)).or t.instructions[c]? := by
  induction instructions generalizing t with
  | nil => exact ⟨t, rfl, fun c => rfl⟩
  | cons i instructions ih =>
    obtain ⟨hi, hinstructions⟩ := List.forall_mem_cons.1 hmarker
    obtain ⟨hfirst, hrest⟩ := List.nodup_cons.1 hdistinct
    obtain ⟨next, hoffer, hget⟩ := exists_offer hi (hfree i List.mem_cons_self)
    have hnext : t.register i = .ok next := by rw [register, hoffer]
    have hother : ∀ j ∈ instructions, i.symbol ≠ j.symbol := fun j hj heq =>
      hfirst (List.mem_map.2 ⟨j, hj, heq.symm⟩)
    obtain ⟨t', ht', hget'⟩ := ih hinstructions hrest fun j hj => by
      rw [hget, if_neg (by simpa using hother j hj)]
      exact hfree j (List.mem_cons_of_mem _ hj)
    refine ⟨t', ?_, fun c => ?_⟩
    · rw [List.foldlM_cons, hnext]
      exact ht'
    · rw [hget', hget, List.find?_cons]
      by_cases hc : i.symbol = c
      · -- no later instruction has the symbol of the first one
        have hnone : instructions.find? (·.symbol == c) = none := by
          refine List.find?_eq_none.2 fun j hj hjc => hother j hj ?_
          rw [hc, eq_of_beq hjc]
        simp [hc, hnone]
      · have hne : (i.symbol == c) = false := beq_eq_false_iff_ne.2 hc
        simp [hne]

end GrowthGrammar.InstructionTable
