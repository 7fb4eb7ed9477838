import GrowthGrammar.Word.Basic
import Mathlib.Data.List.Nodup

/-!
# Words in the order of code points

`Word.sorted` puts the symbols of a word in the order of their code points and keeps each of them
(`Word.mem_sorted`). A word without repeated symbols is then strictly increasing
(`Word.pairwise_lt_sorted`), and it is known from its symbols alone (`Word.sorted_congr`).
-/

namespace GrowthGrammar.Word

@[simp] theorem mem_sorted {w : Word} {c : Symbol} : c ∈ w.sorted ↔ c ∈ w := by
  simp [sorted]

@[simp] theorem length_sorted (w : Word) : w.sorted.length = w.length := List.length_mergeSort w

/-- A sorted word is in the order of code points. -/
theorem pairwise_sorted (w : Word) : w.sorted.Pairwise (· ≤ ·) := by
  have htrans : ∀ c d e : Symbol, decide (c ≤ d) → decide (d ≤ e) → decide (c ≤ e) :=
    fun c d e => by simpa using Char.le_trans
  have htotal : ∀ c d : Symbol, (decide (c ≤ d) || decide (d ≤ c)) = true :=
    fun c d => by simpa using Char.le_total c d
  simpa [sorted] using List.pairwise_mergeSort htrans htotal w

/-- A sorted word without repeated symbols is strictly increasing. -/
theorem pairwise_lt_sorted {w : Word} (hw : w.Nodup) : w.sorted.Pairwise (· < ·) := by
  have hnodup : w.sorted.Nodup := (List.mergeSort_perm w _).nodup_iff.2 hw
  refine (w.pairwise_sorted.and hnodup).imp fun ⟨hle, hne⟩ => ?_
  exact Char.not_le.1 fun hge => hne (Char.le_antisymm hle hge)

/-- Words of the same symbols, each of them once, have the same order of code points. -/
theorem sorted_congr {u v : Word} (hu : u.Nodup) (hv : v.Nodup) (h : ∀ c, c ∈ u ↔ c ∈ v) :
    u.sorted = v.sorted := by
  have hperm : u.sorted.Perm v.sorted :=
    (List.mergeSort_perm u _).trans
      (((List.perm_ext_iff_of_nodup hu hv).2 h).trans (List.mergeSort_perm v _).symm)
  exact hperm.eq_of_pairwise (fun c d _ _ => Char.le_antisymm) u.pairwise_sorted v.pairwise_sorted

end GrowthGrammar.Word
