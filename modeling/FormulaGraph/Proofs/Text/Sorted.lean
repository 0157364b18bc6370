import FormulaGraph.Proofs.Evaluation.Walk
import FormulaGraph.Text.Sorted
import Mathlib.Data.List.Lex
/-!
# The order of names

Texts are compared by the numbers of their code points, and these tell them apart
(`numbers_injective`). So the order is total and antisymmetric: names can be put in increasing order
in one way only, and two lists have the same names exactly when these are the same in increasing
order without repetitions (`sortedUnique_eq_iff`).
-/
namespace FormulaGraph

theorem CodePoint.toNat_injective : Function.Injective CodePoint.toNat :=
  Function.LeftInverse.injective CodePoint.ofNat_toNat

namespace Text

theorem numbers_injective : Function.Injective numbers := by
  intro s t h
  have hpoints : s.points = t.points := List.map_injective_iff.2 CodePoint.toNat_injective h
  cases s
  cases t
  exact congrArg mk hpoints

theorem sorted_perm (names : List Text) : (sorted names).Perm names := List.mergeSort_perm names _

theorem mem_sorted {name : Text} {names : List Text} : name ∈ sorted names ↔ name ∈ names :=
  (sorted_perm names).mem_iff

theorem pairwise_sorted (names : List Text) :
    (sorted names).Pairwise fun a b => a.numbers ≤ b.numbers := by
  have hle : ∀ a b : Text, (!b.numbers.lex a.numbers) = true ↔ a.numbers ≤ b.numbers := by
    intro a b
    rw [Bool.not_eq_true', ← not_lt]
    exact List.lex_eq_false_iff_ge
  refine (List.pairwise_mergeSort ?_ ?_ names).imp fun {a b} h => (hle a b).1 h
  · intro a b c hab hbc
    rw [hle] at hab hbc ⊢
    exact hab.trans hbc
  · intro a b
    rw [Bool.or_eq_true, hle, hle]
    exact le_total a.numbers b.numbers

/-- Names in increasing order are determined by which there are, and how often. -/
theorem sorted_eq_of_perm {names names' : List Text} (h : names.Perm names') :
    sorted names = sorted names' := by
  refine List.Perm.eq_of_pairwise ?_ (pairwise_sorted names) (pairwise_sorted names') ?_
  · exact fun a b _ _ hab hba => numbers_injective (le_antisymm hab hba)
  · exact (sorted_perm names).trans (h.trans (sorted_perm names').symm)

/-- Where no name is there twice, each is below all that are behind it. -/
theorem pairwise_lt_sorted {names : List Text} (h : names.Nodup) :
    (sorted names).Pairwise fun a b => a.numbers < b.numbers := by
  have hne : (sorted names).Pairwise (· ≠ ·) := (sorted_perm names).nodup_iff.2 h
  refine ((pairwise_sorted names).and hne).imp fun {a b} hab => ?_
  exact lt_of_le_of_ne hab.1 fun heq => hab.2 (numbers_injective heq)

theorem mem_sortedUnique {name : Text} {names : List Text} :
    name ∈ sortedUnique names ↔ name ∈ names := by
  rw [sortedUnique, mem_sorted, List.mem_eraseDups]

theorem sortedUnique_eq_iff {names names' : List Text} :
    sortedUnique names = sortedUnique names' ↔ ∀ name, name ∈ names ↔ name ∈ names' := by
  constructor
  · intro h name
    rw [← mem_sortedUnique, h, mem_sortedUnique]
  · intro h
    refine sorted_eq_of_perm ((List.perm_ext_iff_of_nodup ?_ ?_).2 fun name => ?_)
    · exact Registry.nodup_eraseDups names
    · exact Registry.nodup_eraseDups names'
    · rw [List.mem_eraseDups, List.mem_eraseDups, h]

end Text

end FormulaGraph
