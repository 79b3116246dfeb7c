import HotStuffTx.Consensus
import HotStuffTx.Content
import HotStuffTx.Lib.Triple

/-!
# The stored blocks

`StoreOk` is what holds of the storage of every replica whatever is delivered
to it: a delivered block is linked to a delivered parent one height below and
to a stored block its certificate names. `Grow` is what no call undoes.
-/

set_option linter.unusedSectionVars false

namespace HotStuffTx

open Forest

namespace Core

variable {Hash Sig : Type} [DecidableEq Hash] {S : Setup Hash Sig} {s s' s'' : Core Hash Sig}

-- ---------------------------------------------------------------------------
-- Reads after writes
-- ---------------------------------------------------------------------------

/-- The storage with `b` as the object under `h`. -/
def setBlk (s : Core Hash Sig) (h : Hash) (b : Block Hash Sig) : Core Hash Sig :=
  { s with storage := Function.update s.storage h (some b) }

theorem modifyBlk_eq (hb : s.storage h = some b) : s.modifyBlk h f = s.setBlk h (f b) := by
  simp [modifyBlk, setBlk, hb]

@[simp] theorem setBlk_setBlk : (s.setBlk h b).setBlk h b' = s.setBlk h b' := by
  simp [setBlk]

@[simp] theorem storage_setBlk_self : (s.setBlk h b).storage h = some b := by simp [setBlk]

theorem storage_setBlk : (s.setBlk h b).storage x = if x = h then some b else s.storage x := by
  simp [setBlk, Function.update_apply]

theorem height_setBlk : (s.setBlk h b).height x = if x = h then b.height else s.height x := by
  simp only [height, storage_setBlk]
  split <;> rfl

theorem parents_setBlk : (s.setBlk h b).parents x = if x = h then b.parents else s.parents x := by
  simp only [parents, storage_setBlk]
  split <;> rfl

theorem qcRef_setBlk : (s.setBlk h b).qcRef x = if x = h then b.qcRef else s.qcRef x := by
  simp only [qcRef, storage_setBlk]
  split <;> rfl

theorem delivered_setBlk :
    (s.setBlk h b).delivered x = if x = h then b.delivered else s.delivered x := by
  simp only [delivered, storage_setBlk]
  split <;> rfl

theorem decision_setBlk :
    (s.setBlk h b).decision x = if x = h then b.decision else s.decision x := by
  simp only [decision, storage_setBlk]
  split <;> rfl

theorem voted_setBlk : (s.setBlk h b).voted x = if x = h then b.voted else s.voted x := by
  simp only [voted, storage_setBlk]
  split <;> rfl

theorem selfQc_setBlk : (s.setBlk h b).selfQc x = if x = h then b.selfQc else s.selfQc x := by
  simp only [selfQc, storage_setBlk]
  split <;> rfl

theorem cmds_setBlk : (s.setBlk h b).cmds x = if x = h then b.cmds else s.cmds x := by
  simp only [cmds, storage_setBlk]
  split <;> rfl

theorem isBlkFetched_setBlk :
    (s.setBlk h b).isBlkFetched x = (decide (x = h) || s.isBlkFetched x) := by
  simp only [isBlkFetched, storage_setBlk]
  split <;> simp_all

section
variable {h : Hash} {b : Block Hash Sig} (hb : s.storage h = some b)
include hb

theorem height_of : s.height h = b.height := by simp [height, hb]
theorem parents_of : s.parents h = b.parents := by simp [parents, hb]
theorem qcRef_of : s.qcRef h = b.qcRef := by simp [qcRef, hb]
theorem delivered_of : s.delivered h = b.delivered := by simp [delivered, hb]
theorem decision_of : s.decision h = b.decision := by simp [decision, hb]
theorem voted_of : s.voted h = b.voted := by simp [voted, hb]
theorem selfQc_of : s.selfQc h = b.selfQc := by simp [selfQc, hb]
theorem cmds_of : s.cmds h = b.cmds := by simp [cmds, hb]
theorem isBlkFetched_of : s.isBlkFetched h = true := by simp [isBlkFetched, hb]

end

theorem exists_of_delivered (h : s.delivered x = true) : ∃ b, s.storage x = some b := by
  cases hb : s.storage x with
  | none => simp [delivered, hb] at h
  | some b => exact ⟨b, rfl⟩

theorem isBlkFetched_iff : s.isBlkFetched x = true ↔ ∃ b, s.storage x = some b := by
  simp [isBlkFetched, Option.isSome_iff_exists]

-- ---------------------------------------------------------------------------
-- What always holds of the storage
-- ---------------------------------------------------------------------------

structure StoreOk (S : Setup Hash Sig) (s : Core Hash Sig) : Prop where
  genesis : ∃ b, s.storage S.genesis = some b ∧ b.delivered = true ∧ b.decision = true ∧
    b.height = 0 ∧ b.parents = [] ∧ b.qcRef = some S.genesis ∧ b.cmds = []
  wire : s.storage h = some b → h ≠ S.genesis → S.wireOf h = some b.wire
  link : h ≠ S.genesis → 0 < s.height h ∨ s.delivered h = true →
    ∃ p, S.par h = some p ∧ (s.parents h).head? = some p ∧ s.delivered p = true ∧
      s.height h = s.height p + 1
  ref : h ≠ S.genesis → s.delivered h = true →
    ∃ t, S.target h = some t ∧ s.qcRef h = some t ∧ s.isBlkFetched t = true
  undelivered : s.delivered h = false → s.qcRef h = none ∧ s.decision h = false

/-- A block with a place in the forest. -/
def Placed (S : Setup Hash Sig) (s : Core Hash Sig) (h : Hash) : Prop :=
  h = S.genesis ∨ 0 < s.height h

namespace StoreOk

variable (hs : StoreOk S s)
include hs

omit hs in
theorem of_storage (hs : StoreOk S s) (h : s'.storage = s.storage) : StoreOk S s' := by
  obtain ⟨hg, hw, hl, hr, hu⟩ := hs
  simp only [Core.height, Core.parents, Core.delivered, Core.qcRef, Core.isBlkFetched, Core.decision,
    ← h] at hg hw hl hr hu
  exact ⟨hg, hw, hl, hr, hu⟩

theorem height_genesis : s.height S.genesis = 0 := by
  obtain ⟨b, hb, _, _, h, _⟩ := hs.genesis
  rw [height_of hb, h]

theorem delivered_genesis : s.delivered S.genesis = true := by
  obtain ⟨b, hb, h, _⟩ := hs.genesis
  rw [delivered_of hb, h]

theorem decision_genesis : s.decision S.genesis = true := by
  obtain ⟨b, hb, _, h, _⟩ := hs.genesis
  rw [decision_of hb, h]

theorem placed_of_delivered (h : s.delivered x = true) : Placed S s x := by
  by_cases hx : x = S.genesis
  · exact .inl hx
  · obtain ⟨p, _, _, _, hp⟩ := hs.link hx (.inr h)
    exact .inr (by omega)

theorem delivered_of_qcRef (h : s.qcRef x = some t) : s.delivered x = true := by
  cases hd : s.delivered x with
  | false => simp [(hs.undelivered hd).1] at h
  | true => rfl

theorem delivered_of_decision (h : s.decision x = true) : s.delivered x = true := by
  cases hd : s.delivered x with
  | false => simp [(hs.undelivered hd).2] at h
  | true => rfl

theorem qcRef_target (h : s.qcRef x = some t) (hx : x ≠ S.genesis) : S.target x = some t := by
  obtain ⟨t', ht, hr, _⟩ := hs.ref hx (hs.delivered_of_qcRef h)
  cases h.symm.trans hr
  exact ht

/-- The member `height` of a placed block is its height in the forest. -/
theorem height (h : Placed S s x) : S.Height x (s.height x) := by
  induction hn : s.height x using Nat.strongRecOn generalizing x with
  | ind n ih =>
    by_cases hx : x = S.genesis
    · subst hx
      rw [← hn, hs.height_genesis]
      exact .zero
    · have hpos : 0 < s.height x := h.resolve_left hx
      obtain ⟨p, hp, _, hd, hk⟩ := hs.link hx (.inl hpos)
      rw [← hn, hk]
      exact .succ hp (ih _ (by omega) (hs.placed_of_delivered hd) rfl)

theorem height_eq (h : Placed S s x) (hk : S.Height x k) : s.height x = k :=
  (hs.height h).unique S.par_genesis hk

/-- What a placed block properly descends from is delivered. -/
theorem delivered_of_ext (h : Placed S s x) (he : S.Ext a x) : a = x ∨ s.delivered a = true := by
  induction he with
  | refl => exact .inl rfl
  | @step c b hp _ ih =>
    obtain ⟨p, hpar, _, hd, _⟩ := hs.link (S.ne_genesis_of_par hp)
      (.inl (h.resolve_left (S.ne_genesis_of_par hp)))
    cases hp.symm.trans hpar
    rcases ih (hs.placed_of_delivered hd) with rfl | ha
    · exact .inr hd
    · exact .inr ha

theorem isBlkFetched_of_placed (h : Placed S s x) : s.isBlkFetched x = true := by
  rcases h with rfl | h
  · obtain ⟨b, hb, _⟩ := hs.genesis
    exact isBlkFetched_of hb
  · cases hb : s.storage x with
    | none => simp [Core.height, hb] at h
    | some b => exact isBlkFetched_of hb

theorem parents_head (h : s.delivered x = true) : (s.parents x).head? = S.par x := by
  by_cases hx : x = S.genesis
  · obtain ⟨b, hb, _, _, _, hp, _⟩ := hs.genesis
    simp [hx, parents_of hb, hp]
  · obtain ⟨p, hp, hh, _⟩ := hs.link hx (.inr h)
    rw [hh, hp]

theorem cmds (h : s.isBlkFetched x = true) : s.cmds x = S.cmdsOf x := by
  obtain ⟨b, hb⟩ := isBlkFetched_iff.mp h
  by_cases hx : x = S.genesis
  · obtain ⟨b', hb', _, _, _, _, _, hc⟩ := hs.genesis
    simp [hx, cmds_of hb', hc]
  · rw [cmds_of hb, Setup.cmdsOf, hs.wire hb hx]
    rfl

/-- The loops that climb down `parents[0]` from a placed block end, at its
ancestor of the height they look for. -/
theorem walk_eq (h : Placed S s x) (k : Nat) :
    ∃ q e, s.walk k x = some (q, e) ∧ Path S.par e q.reverse x ∧
      S.Height e (min k (s.height x)) ∧ ∀ y ∈ q, k < s.height y := by
  unfold walk
  induction hn : s.height x using Nat.strongRecOn generalizing x with
  | ind n ih =>
    by_cases hk : k < s.height x
    · have hx : x ≠ S.genesis := by
        rintro rfl
        simp [hs.height_genesis] at hk
      obtain ⟨p, hp, hhead, hd, hheight⟩ := hs.link hx (.inl (by omega))
      obtain ⟨q, e, hw, hpath, he, hq⟩ :=
        ih (s.height p) (by omega) (hs.placed_of_delivered hd) rfl
      refine ⟨x :: q, e, ?_, ?_, ?_, ?_⟩
      · rw [← hn, hheight, walkFrom, if_pos hk, hhead]
        simp [hw]
      · simpa using Path.snoc hpath hp
      · rwa [show min k n = min k (s.height p) by omega]
      · simpa [hk] using hq
    · refine ⟨[], x, ?_, .nil, ?_, by simp⟩
      · cases n <;> simp [walkFrom, hk]
      · rw [show min k n = s.height x by omega]
        exact hs.height h

theorem walk_ends (ha : Placed S s a) (hb : Placed S s b) (hw : s.walk (s.height a) b = some (q, e)) :
    e = a ↔ S.Ext a b := by
  obtain ⟨q', e', hw', hpath, he, _⟩ := hs.walk_eq hb (s.height a)
  cases hw.symm.trans hw'
  constructor
  · rintro rfl
    exact hpath.ext
  · intro hext
    have hle := hext.height_le S.par_genesis (hs.height ha) (hs.height hb)
    rw [show min (s.height a) (s.height b) = s.height a by omega] at he
    exact hpath.ext.unique_at S.par_genesis hext he (hs.height ha)

theorem checkAncestry_iff (ha : Placed S s a) (hb : Placed S s b) :
    s.checkAncestry a b = true ↔ S.Ext a b := by
  obtain ⟨q, e, hw, _⟩ := hs.walk_eq hb (s.height a)
  simp [checkAncestry, hw, hs.walk_ends ha hb hw]

end StoreOk

end Core

end HotStuffTx
