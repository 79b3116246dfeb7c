import Mathlib.Data.Finset.Card
import Mathlib.Tactic.Common

/-!
# Quorums

Among at most `n` members of which at most `f` are faulty, `3 * f < n`, any
two sets of `n - f` members share one that is not faulty.
-/

namespace Quorum

variable {α : Type*} {U A B F : Finset α} {n f : ℕ}

theorem exists_good (hA : n - f ≤ A.card) (hF : F.card ≤ f) (hf : 3 * f < n) :
    ∃ x ∈ A, x ∉ F :=
  Finset.exists_mem_notMem_of_card_lt_card (by omega)

theorem exists_good_inter [DecidableEq α] (hU : U.card ≤ n) (hA : A ⊆ U) (hB : B ⊆ U) (hAc : n - f ≤ A.card)
    (hBc : n - f ≤ B.card) (hF : F.card ≤ f) (hf : 3 * f < n) : ∃ x ∈ A, x ∈ B ∧ x ∉ F := by
  have hunion : (A ∪ B).card ≤ n := (Finset.card_le_card (Finset.union_subset hA hB)).trans hU
  have hsum := Finset.card_union_add_card_inter A B
  obtain ⟨x, hx, hF⟩ := Finset.exists_mem_notMem_of_card_lt_card
    (show F.card < (A ∩ B).card by omega)
  exact ⟨x, (Finset.mem_inter.mp hx).1, (Finset.mem_inter.mp hx).2, hF⟩

end Quorum
