import HotStuffTx.Writes

/-!
# What delivery fixes

No call and no frame changes the height, the parents or the content of a
delivered block.
-/

set_option linter.unusedSectionVars false

namespace HotStuffTx

open Core

variable {Hash Sig : Type} [DecidableEq Hash]

namespace Core

/-- Delivered blocks stay delivered, with their heights, parents and content. -/
def Keeps (s s' : Core Hash Sig) : Prop :=
  ∀ x b, s.storage x = some b → b.delivered = true → ∃ b', s'.storage x = some b' ∧ b.Kept b'

variable {S : Setup Hash Sig} {s s' s'' : Core Hash Sig}

theorem Keeps.of_storage (h : s'.storage = s.storage) : Keeps s s' :=
  fun _ b hb _ => ⟨b, h ▸ hb, rfl, rfl, rfl, rfl⟩

theorem Keeps.refl : Keeps s s := .of_storage rfl

theorem Keeps.trans (h : Keeps s s') (h' : Keeps s' s'') : Keeps s s'' := by
  intro x b hb hd
  obtain ⟨b', hb', hk⟩ := h x b hb hd
  obtain ⟨b'', hb'', hk'⟩ := h' x b' hb' (hk.delivered.trans hd)
  exact ⟨b'', hb'', hk'.delivered.trans hk.delivered, hk'.height.trans hk.height,
    hk'.parents.trans hk.parents, hk'.wire.trans hk.wire⟩

theorem Keeps.delivered (h : Keeps s s') (hx : s.delivered x = true) : s'.delivered x = true := by
  obtain ⟨b, hb⟩ := exists_of_delivered hx
  obtain ⟨b', hb', hk⟩ := h x b hb (delivered_of hb ▸ hx)
  rw [delivered_of hb', hk.delivered, ← delivered_of hb, hx]

theorem OnlyAt.keeps (h : OnlyAt n s s') (hn : s.delivered n = false) : Keeps s s' := by
  intro x b hb hd
  have hne : x ≠ n := by
    rintro rfl
    rw [delivered_of hb, hd] at hn
    cases hn
  exact ⟨b, (h x hne).trans hb, rfl, rfl, rfl, rfl⟩

/-- A write to other members. -/
theorem Keeps.modifyBlk {f : Block Hash Sig → Block Hash Sig} (hf : ∀ b, Block.Kept b (f b)) :
    Keeps s (s.modifyBlk n f) := by
  intro x b hb hd
  by_cases hxn : x = n
  · subst hxn
    rw [modifyBlk_eq hb]
    exact ⟨f b, storage_setBlk_self, hf b⟩
  · exact ⟨b, (OnlyAt.modifyBlk x hxn).trans hb, rfl, rfl, rfl, rfl⟩

/-- The calls may store any block. -/
theorem keeps_allows : Allows (fun _ => True) (@Keeps Hash Sig) where
  trans := .trans
  beside hst _ := .of_storage hst
  edit := .modifyBlk
  store hn _ := by
    refine OnlyAt.keeps (fun x hx => Function.update_of_ne hx _ _) ?_
    simp [delivered, hn]
  deliver hd _ hs _ := hs.keeps hd

end Core

theorem Replica.step_keeps {S : Setup Hash Sig} {O : Options} (r : Replica Hash Sig)
    (e : Event Hash Sig) : Keeps r.core (r.step S O e).core :=
  keeps_allows.replica .of_storage fun c _ => c.within

end HotStuffTx
