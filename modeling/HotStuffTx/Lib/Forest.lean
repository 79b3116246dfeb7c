import Mathlib.Data.List.Basic
import Mathlib.Data.List.Nodup

/-!
# Parent forests

A partial parent function makes a set a forest. `Ext par a b` says that `b`
is `a` or descends from it; `Height par root b k` says that `b` hangs `k`
steps below `root`; `Path par a l b` lists the elements passed on the way
from `a`, exclusive, down to `b`.
-/

namespace Forest

variable {α : Type*} {par : α → Option α}

/-- `b` is `a` or descends from it. -/
inductive Ext (par : α → Option α) (a : α) : α → Prop
  | refl : Ext par a a
  | step : par c = some b → Ext par a b → Ext par a c

/-- `b` hangs `k` steps below `root`. -/
inductive Height (par : α → Option α) (root : α) : α → ℕ → Prop
  | zero : Height par root root 0
  | succ : par c = some b → Height par root b k → Height par root c (k + 1)

/-- `l` lists what lies on the way from `a`, exclusive, to `b`, inclusive. -/
inductive Path (par : α → Option α) (a : α) : List α → α → Prop
  | nil : Path par a [] a
  | snoc : Path par a l b → par c = some b → Path par a (l ++ [c]) c

-- ---------------------------------------------------------------------------
-- Descent
-- ---------------------------------------------------------------------------

theorem Ext.trans (hab : Ext par a b) (hbc : Ext par b c) : Ext par a c := by
  induction hbc with
  | refl => exact hab
  | step hp _ ih => exact .step hp ih

theorem Ext.of_par (hp : par c = some b) : Ext par b c := .step hp .refl

theorem Ext.eq_or_par (h : Ext par a c) : a = c ∨ ∃ b, par c = some b ∧ Ext par a b := by
  cases h with
  | refl => exact .inl rfl
  | step hp h => exact .inr ⟨_, hp, h⟩

/-- The ancestors of one element are on one line. -/
theorem Ext.total (ha : Ext par a c) (hb : Ext par b c) : Ext par a b ∨ Ext par b a := by
  induction ha with
  | refl => exact .inr hb
  | step hp ha ih =>
    rcases hb.eq_or_par with rfl | ⟨d, hd, hb⟩
    · exact .inl (.step hp ha)
    · cases hp.symm.trans hd
      exact ih hb

-- ---------------------------------------------------------------------------
-- Heights
-- ---------------------------------------------------------------------------

theorem Height.ext (hb : Height par root b k) : Ext par root b := by
  induction hb with
  | zero => exact .refl
  | succ hp _ ih => exact .step hp ih

theorem Height.ancestor (hb : Height par root b j) (hij : i ≤ j) :
    ∃ a, Ext par a b ∧ Height par root a i := by
  induction hb with
  | zero =>
    obtain rfl := Nat.le_zero.mp hij
    exact ⟨root, .refl, .zero⟩
  | @succ c b j hp hb ih =>
    rcases Nat.lt_or_eq_of_le hij with hlt | rfl
    · obtain ⟨a, ha, hi⟩ := ih (Nat.le_of_lt_succ hlt)
      exact ⟨a, .step hp ha, hi⟩
    · exact ⟨c, .refl, .succ hp hb⟩

theorem Path.height (h : Path par root l b) : Height par root b l.length := by
  induction h with
  | nil => exact .zero
  | snoc _ hp ih => simpa using Height.succ hp ih

section
variable {root : α} (hroot : par root = none)
include hroot

theorem Height.unique (hi : Height par root b i) (hj : Height par root b j) : i = j := by
  induction hi generalizing j with
  | zero =>
    cases hj with
    | zero => rfl
    | succ hp _ => simp [hroot] at hp
  | succ hp _ ih =>
    cases hj with
    | zero => simp [hroot] at hp
    | succ hq hj =>
      cases hp.symm.trans hq
      rw [ih hj]

theorem Height.of_par (h : Height par root c k) (hp : par c = some b) :
    ∃ j, k = j + 1 ∧ Height par root b j := by
  cases h with
  | zero => simp [hroot] at hp
  | succ hq h =>
    cases hp.symm.trans hq
    exact ⟨_, rfl, h⟩

/-- What a rooted element descends from is rooted, and no higher. -/
theorem Ext.height (h : Ext par a b) (hb : Height par root b j) :
    ∃ i ≤ j, Height par root a i := by
  induction h generalizing j with
  | refl => exact ⟨j, Nat.le_refl j, hb⟩
  | step hp _ ih =>
    obtain ⟨k, rfl, hk⟩ := hb.of_par hroot hp
    obtain ⟨i, hi, ha⟩ := ih hk
    exact ⟨i, by omega, ha⟩

theorem Ext.height_le (h : Ext par a b) (ha : Height par root a i) (hb : Height par root b j) :
    i ≤ j := by
  obtain ⟨i', hi, ha'⟩ := h.height hroot hb
  rwa [ha.unique hroot ha']

theorem Ext.eq_of_height (h : Ext par a b) (ha : Height par root a i)
    (hb : Height par root b i) : a = b := by
  rcases h.eq_or_par with rfl | ⟨c, hc, h⟩
  · rfl
  · obtain ⟨j, rfl, hj⟩ := hb.of_par hroot hc
    have := h.height_le hroot ha hj
    omega

/-- One element has one ancestor at each height. -/
theorem Ext.unique_at (ha : Ext par a c) (hb : Ext par b c) (hi : Height par root a i)
    (hj : Height par root b i) : a = b := by
  rcases ha.total hb with h | h
  · exact h.eq_of_height hroot hi hj
  · exact (h.eq_of_height hroot hj hi).symm

/-- Of two ancestors of one element the lower number is the ancestor of the other. -/
theorem Ext.of_height_le (ha : Ext par a c) (hb : Ext par b c) (hi : Height par root a i)
    (hj : Height par root b j) (hij : i ≤ j) : Ext par a b := by
  rcases ha.total hb with h | h
  · exact h
  · have := h.height_le hroot hj hi
    obtain rfl : i = j := by omega
    exact h.eq_of_height hroot hj hi ▸ .refl

-- ---------------------------------------------------------------------------
-- Paths from the root
-- ---------------------------------------------------------------------------

theorem Path.unique (h : Path par root l b) (h' : Path par root l' b) : l = l' := by
  induction h generalizing l' with
  | nil =>
    cases h' with
    | nil => rfl
    | snoc _ hp => simp [hroot] at hp
  | snoc _ hp ih =>
    cases h' with
    | nil => simp [hroot] at hp
    | snoc h' hq =>
      cases hp.symm.trans hq
      rw [ih h']

theorem Path.mem_iff (h : Path par root l b) : x ∈ l ↔ Ext par x b ∧ x ≠ root := by
  induction h with
  | nil =>
    simp only [List.not_mem_nil, false_iff, not_and, not_not]
    intro hx
    rcases hx.eq_or_par with rfl | ⟨_, hp, _⟩
    · rfl
    · simp [hroot] at hp
  | @snoc l b c _ hp ih =>
    simp only [List.mem_append, ih, List.mem_singleton]
    constructor
    · rintro (⟨hx, hne⟩ | rfl)
      · exact ⟨.step hp hx, hne⟩
      · exact ⟨.refl, by rintro rfl; simp [hroot] at hp⟩
    · rintro ⟨hx, hne⟩
      rcases hx.eq_or_par with rfl | ⟨d, hd, hx⟩
      · exact .inr rfl
      · cases hp.symm.trans hd
        exact .inl ⟨hx, hne⟩

/-- A path from the root meets the heights in order. -/
theorem Path.map_height (h : Path par root l b) (hf : ∀ x ∈ l, Height par root x (f x)) :
    l.map f = List.range' 1 l.length := by
  induction h with
  | nil => rfl
  | @snoc l b c h hp ih =>
    have hc := (hf c (by simp)).unique hroot (.succ hp h.height)
    rw [List.map_append, ih fun x hx => hf x (List.mem_append_left _ hx), List.length_append,
      List.length_singleton, List.range'_1_concat, List.map_singleton, hc, Nat.add_comm]

theorem Path.nodup (h : Path par root l b) : l.Nodup := by
  induction h with
  | nil => exact List.nodup_nil
  | @snoc l b c h hp ih =>
    refine List.nodup_append.mpr ⟨ih, List.nodup_singleton c, ?_⟩
    rintro x hx y hy rfl
    obtain rfl := List.mem_singleton.mp hy
    obtain ⟨i, hi, hx⟩ := ((h.mem_iff hroot).mp hx).1.height hroot h.height
    have := hx.unique hroot (.succ hp h.height)
    omega

end

theorem Path.ext (h : Path par a l b) : Ext par a b := by
  induction h with
  | nil => exact .refl
  | snoc _ hp ih => exact .step hp ih

theorem Path.congr {par' : α → Option α} (h : Path par a l b) (hp : ∀ x ∈ l, par' x = par x) :
    Path par' a l b := by
  induction h with
  | nil => exact .nil
  | snoc _ hc ih =>
    refine .snoc (ih fun x hx => hp x (List.mem_append_left _ hx)) ?_
    rw [hp _ (by simp), hc]

theorem Path.append (h : Path par a l b) (h' : Path par b l' c) : Path par a (l ++ l') c := by
  induction h' with
  | nil => simpa using h
  | snoc _ hp ih => simpa using Path.snoc ih hp

theorem Ext.path (h : Ext par a b) : ∃ l, Path par a l b := by
  induction h with
  | refl => exact ⟨[], .nil⟩
  | step hp _ ih =>
    obtain ⟨l, hl⟩ := ih
    exact ⟨_, .snoc hl hp⟩

theorem Path.getLast? (h : Path par a l b) : (a :: l).getLast? = some b := by
  cases h with
  | nil => rfl
  | snoc h hp => rw [← List.cons_append, List.getLast?_concat]

/-- A path passes from each element to a child of it. -/
theorem Path.par_of_append (h : Path par a l b) (heq : a :: l = l₁ ++ c :: d :: l₂) :
    par d = some c := by
  induction h generalizing l₂ with
  | nil =>
    have := congrArg List.length heq
    simp at this
    omega
  | @snoc l b e h hp ih =>
    rw [← List.cons_append] at heq
    rcases List.eq_nil_or_concat l₂ with rfl | ⟨l₃, x, rfl⟩
    · have heq : (a :: l) ++ [e] = (l₁ ++ [c]) ++ [d] := by simpa using heq
      obtain ⟨hinit, hed⟩ := List.append_inj' heq rfl
      cases hed
      have hlast := h.getLast?
      rw [hinit, List.getLast?_concat] at hlast
      cases hlast
      exact hp
    · have heq : (a :: l) ++ [e] = (l₁ ++ c :: d :: l₃) ++ [x] := by simpa using heq
      exact ih (List.append_inj' heq rfl).1

/-- Descent between two elements is the prefix order of their paths. -/
theorem Path.prefix_of_ext (hroot : par root = none) (h : Path par root l b)
    (h' : Path par root l' b') (hb : Ext par b b') : l <+: l' := by
  obtain ⟨m, hm⟩ := hb.path
  exact ⟨m, (h.append hm).unique hroot h'⟩

end Forest
