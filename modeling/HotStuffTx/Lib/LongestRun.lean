import Mathlib.Data.List.Induction
import Mathlib.Order.MinMax
import Mathlib.Order.Nat
import Mathlib.Tactic.Common

/-!
# The longest run of a property in a list

A counter runs along the list and starts again where the property fails; the
largest value it takes is the length of the longest block of consecutive
elements with the property.
-/

namespace LongestRun

variable {α : Type _} (p : α → Bool)

/-- The longest run so far, and the one that is open. -/
def step (s : Nat × Nat) (a : α) : Nat × Nat :=
  if p a then (max s.1 (s.2 + 1), s.2 + 1) else (s.1, 0)

def longest (l : List α) : Nat := (l.foldl (step p) (0, 0)).1

/-- `k` elements from position `j` on have the property. -/
def RunAt (l : List α) (j k : Nat) : Prop :=
  j + k ≤ l.length ∧ ∀ i < k, ∃ a, l[j + i]? = some a ∧ p a

variable {p} {l : List α} {a : α}

theorem RunAt.append (h : RunAt p l j k) (m : List α) : RunAt p (l ++ m) j k := by
  obtain ⟨hlen, hall⟩ := h
  refine ⟨hlen.trans (by simp), fun i hi => ?_⟩
  rw [List.getElem?_append_left (by omega)]
  exact hall i hi

/-- The open run ends at the end of the list; no longer one does. -/
theorem le_open_iff (l : List α) (k : Nat) :
    k ≤ (l.foldl (step p) (0, 0)).2 ↔ k ≤ l.length ∧ RunAt p l (l.length - k) k := by
  induction l using List.reverseRecOn generalizing k with
  | nil =>
    constructor
    · intro h
      obtain rfl := Nat.le_zero.mp h
      exact ⟨le_rfl, le_rfl, nofun⟩
    · exact And.left
  | append_singleton l a ih =>
    rw [List.foldl_append, List.foldl_cons, List.foldl_nil, List.length_append, List.length_singleton]
    cases k with
    | zero => exact iff_of_true (Nat.zero_le _) ⟨Nat.zero_le _, by simp, nofun⟩
    | succ k =>
      by_cases ha : p a
      · rw [step, if_pos ha, Nat.succ_le_succ_iff, ih k]
        constructor
        · rintro ⟨hk, -, hall⟩
          refine ⟨Nat.succ_le_succ hk, by simp; omega, fun i hi => ?_⟩
          rw [show l.length + 1 - (k + 1) + i = l.length - k + i by omega]
          rcases Nat.lt_succ_iff_lt_or_eq.mp hi with hi | rfl
          · rw [List.getElem?_append_left (by omega)]
            exact hall i hi
          · rw [Nat.sub_add_cancel hk, List.getElem?_concat_length]
            exact ⟨a, rfl, ha⟩
        · rintro ⟨hk, -, hall⟩
          refine ⟨Nat.succ_le_succ_iff.mp hk, by omega, fun i hi => ?_⟩
          obtain ⟨b, hb, hpb⟩ := hall i (by omega)
          rw [show l.length + 1 - (k + 1) + i = l.length - k + i by omega,
            List.getElem?_append_left (by omega)] at hb
          exact ⟨b, hb, hpb⟩
      · rw [step, if_neg ha]
        refine iff_of_false (by omega) ?_
        rintro ⟨hk, -, hall⟩
        obtain ⟨b, hb, hpb⟩ := hall k (Nat.lt_succ_self k)
        rw [show l.length + 1 - (k + 1) + k = l.length by omega, List.getElem?_concat_length] at hb
        cases hb
        exact ha hpb

theorem le_longest_iff (hk : 0 < k) : k ≤ longest p l ↔ ∃ j, RunAt p l j k := by
  induction l using List.reverseRecOn with
  | nil =>
    refine iff_of_false (by simp [longest]; omega) ?_
    rintro ⟨j, hlen, -⟩
    rw [List.length_nil] at hlen
    omega
  | append_singleton l a ih =>
    have hopen := le_open_iff (p := p) (l ++ [a]) k
    rw [List.foldl_append, List.foldl_cons, List.foldl_nil] at hopen
    rw [longest, List.foldl_append, List.foldl_cons, List.foldl_nil]
    by_cases ha : p a
    · rw [step, if_pos ha] at hopen ⊢
      simp only at hopen ⊢
      rw [le_max_iff, hopen]
      constructor
      · rintro (h | ⟨-, h⟩)
        · obtain ⟨j, hj⟩ := ih.mp h
          exact ⟨j, hj.append [a]⟩
        · exact ⟨_, h⟩
      · rintro ⟨j, hlen, hall⟩
        rw [List.length_append, List.length_singleton] at hlen
        rcases Nat.lt_or_eq_of_le hlen with hlt | heq
        · refine .inl (ih.mpr ⟨j, by omega, fun i hi => ?_⟩)
          obtain ⟨b, hb, hpb⟩ := hall i hi
          rw [List.getElem?_append_left (by omega)] at hb
          exact ⟨b, hb, hpb⟩
        · refine .inr ⟨by simp; omega, ?_⟩
          rw [show (l ++ [a]).length - k = j by simp; omega]
          exact ⟨by simp; omega, hall⟩
    · rw [step, if_neg ha]
      refine Iff.trans ih ⟨?_, ?_⟩
      · rintro ⟨j, hj⟩
        exact ⟨j, hj.append [a]⟩
      · rintro ⟨j, hlen, hall⟩
        rw [List.length_append, List.length_singleton] at hlen
        refine ⟨j, ?_, fun i hi => ?_⟩
        · by_contra hlt
          obtain ⟨b, hb, hpb⟩ := hall (k - 1) (by omega)
          rw [show j + (k - 1) = l.length by omega, List.getElem?_concat_length] at hb
          cases hb
          exact ha hpb
        · obtain ⟨b, hb, hpb⟩ := hall i hi
          rcases Nat.lt_or_ge (j + i) l.length with hlt | hge
          · rw [List.getElem?_append_left hlt] at hb
            exact ⟨b, hb, hpb⟩
          · rw [show j + i = l.length by omega, List.getElem?_concat_length] at hb
            cases hb
            exact absurd hpb ha

end LongestRun
