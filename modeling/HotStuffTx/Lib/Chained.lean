import HotStuffTx.Lib.Forest

/-!
# Votes along chains

Members vote for blocks of a forest; a block with enough votes is certified.
A vote for `v` may lock its member on an ancestor `a` (`locks v a`), and a
member votes for a later `w` only under a certified block `L` that `w`
descends from and that is no lower than any lock of an earlier vote
(`Strict`). Then a certified block that locks on `b` forces every certified
block at or above `b` to descend from `b`.
-/

namespace Chained

open Forest

variable {B R : Type*} (par : B → Option B) (root : B) (votes : R → B → Prop)
  (locks : B → B → Prop) (Cert : B → Prop)

/-- The vote of `r` for `w` was cast under a certified block strictly below
`w`, no lower than what the earlier votes of `r` lock. -/
def Strict (r : R) (w : B) : Prop :=
  ∃ L, (Cert L ∨ L = root) ∧ Ext par L w ∧ L ≠ w ∧
    ∀ v a i j k l, votes r v → locks v a → Height par root v i → Height par root w j → i < j →
      Height par root a k → Height par root L l → k ≤ l

variable {par root}

/-- A certified block at or above `b` descends from `b`, once a certified `c`
locks on `b` and the heights up to that of `c` are settled. -/
theorem certified_ext (hroot : par root = none) (hrooted : ∀ b, Cert b → ∃ k, Height par root b k)
    (hquorum : ∀ v w, Cert v → Cert w → ∃ r, votes r v ∧ Strict par root votes locks Cert r w)
    (hb : Height par root b i) (hc : Height par root c j) (hcert : Cert c) (hlock : locks c b)
    (hlow : ∀ w k, Cert w → Height par root w k → i ≤ k → k ≤ j → Ext par b w)
    (hw : Cert w) (hk : Height par root w k) (hik : i ≤ k) : Ext par b w := by
  induction k using Nat.strongRecOn generalizing w with
  | ind k ih =>
    by_cases hkj : k ≤ j
    · exact hlow w k hw hk hik hkj
    · obtain ⟨r, hv, L, hL, hext, hne, hrule⟩ := hquorum c w hcert hw
      obtain ⟨l, hlk, hl⟩ := hext.height hroot hk
      have hil : i ≤ l := hrule c b j k i l hv hlock hc hk (by omega) hb hl
      have hlt : l < k := by
        refine Nat.lt_of_le_of_ne hlk ?_
        rintro rfl
        exact hne (hext.eq_of_height hroot hl hk)
      rcases hL with hL | rfl
      · exact (ih l hlt hL hl hil).trans hext
      · obtain rfl := hl.unique hroot .zero
        obtain rfl : i = 0 := by omega
        cases hb
        exact hk.ext

end Chained
