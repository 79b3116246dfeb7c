import HotStuffTx.Entity

/-!
# What a hash stands for

The hash function has no collisions, so a hash stands for at most one
serialised block, in every replica and at every time. This fixes, once for a
whole run, the parent forest, the certified block and the commands of every
block, whoever has it stored.
-/

namespace HotStuffTx

open Forest

namespace Setup

variable {Hash Sig : Type} (S : Setup Hash Sig)

open Classical in
/-- The block a hash is of, where it is one. -/
noncomputable def wireOf (h : Hash) : Option (WireBlock Hash Sig) :=
  if hw : ∃ w, S.hash w = h then some hw.choose else none

/-- The direct parent. -/
noncomputable def par (h : Hash) : Option Hash := (S.wireOf h).bind (·.parentHashes.head?)

/-- The block certified by the certificate a block carries. -/
noncomputable def target (h : Hash) : Option Hash := (S.wireOf h).map (·.qc.objHash)

noncomputable def cmdsOf (h : Hash) : List Hash := (S.wireOf h).elim [] (·.cmds)

theorem wireOf_hash (w : WireBlock Hash Sig) : S.wireOf (S.hash w) = some w := by
  have hw : ∃ w', S.hash w' = S.hash w := ⟨w, rfl⟩
  simp only [wireOf, hw, ↓reduceDIte, Option.some.injEq]
  exact S.hash_inj hw.choose_spec

theorem wireOf_eq_some : S.wireOf h = some w ↔ S.hash w = h := by
  constructor
  · intro hw
    simp only [wireOf] at hw
    split at hw
    · rename_i hex
      cases hw
      exact hex.choose_spec
    · cases hw
  · rintro rfl
    exact S.wireOf_hash w

theorem wireOf_genesis : S.wireOf S.genesis = none := by
  rw [Option.eq_none_iff_forall_ne_some]
  intro w hw
  exact S.hash_ne_genesis w (S.wireOf_eq_some.mp hw)

@[simp] theorem par_genesis : S.par S.genesis = none := by simp [par, wireOf_genesis]

@[simp] theorem target_genesis : S.target S.genesis = none := by simp [target, wireOf_genesis]

@[simp] theorem cmdsOf_genesis : S.cmdsOf S.genesis = [] := by simp [cmdsOf, wireOf_genesis]

/-- `h` hangs `k` blocks above the genesis block. -/
abbrev Height (h : Hash) (k : Nat) : Prop := Forest.Height S.par S.genesis h k

/-- `b` is `a` or descends from it along `parents[0]`. -/
abbrev Ext (a b : Hash) : Prop := Forest.Ext S.par a b

theorem ne_genesis_of_par (h : S.par b = some p) : b ≠ S.genesis := by
  rintro rfl
  simp at h

theorem ext_genesis (h : S.Ext a S.genesis) : a = S.genesis := by
  rcases h.eq_or_par with rfl | ⟨_, hp, _⟩
  · rfl
  · simp at hp

end Setup

end HotStuffTx
