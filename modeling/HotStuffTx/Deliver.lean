import HotStuffTx.Store

/-!
# Storing and delivering blocks

What `add_blk`, `on_deliver_blk` and the bookkeeping of votes write. None of
them touches the members the protocol decides with; `Stores` is that frame,
with what it does to the blocks.
-/

set_option linter.unusedSectionVars false

namespace HotStuffTx

open Forest

namespace Core

variable {Hash Sig : Type} [DecidableEq Hash] {S : Setup Hash Sig} {s s' s'' : Core Hash Sig}

-- ---------------------------------------------------------------------------
-- Growth
-- ---------------------------------------------------------------------------

/-- What no call takes back. -/
structure Grow (s s' : Core Hash Sig) : Prop where
  fetched : s.isBlkFetched h = true → s'.isBlkFetched h = true
  height : 0 < s.height h → s'.height h = s.height h
  delivered : s.delivered h = true → s'.delivered h = true
  decision : s.decision h = true → s'.decision h = true

namespace Grow

theorem of_storage (h : s'.storage = s.storage) : Grow s s' where
  fetched hf := by simpa [isBlkFetched, h] using hf
  height _ := by simp [Core.height, h]
  delivered hd := by simpa [Core.delivered, h] using hd
  decision hd := by simpa [Core.decision, h] using hd

theorem refl : Grow s s := of_storage rfl

theorem trans (h : Grow s s') (h' : Grow s' s'') : Grow s s'' where
  fetched hf := h'.fetched (h.fetched hf)
  height hp := by rw [h'.height (by rwa [h.height hp]), h.height hp]
  delivered hd := h'.delivered (h.delivered hd)
  decision hd := h'.decision (h.decision hd)

theorem placed (h : Grow s s') (hp : Placed S s x) : Placed S s' x :=
  hp.imp_right fun hp => by rwa [h.height hp]

theorem height_eq (h : Grow s s') (hs : StoreOk S s) (hs' : StoreOk S s') (hp : Placed S s x) :
    s'.height x = s.height x :=
  hs'.height_eq (h.placed hp) (hs.height hp)

end Grow

-- ---------------------------------------------------------------------------
-- One write
-- ---------------------------------------------------------------------------

/-- `b'` may take the place of what is stored under `h`. -/
structure Writable (S : Setup Hash Sig) (s : Core Hash Sig) (h : Hash) (b' : Block Hash Sig) :
    Prop where
  wire : S.wireOf h = some b'.wire
  keep : s.storage h = some b → (b.delivered = true → b'.delivered = true) ∧
    (0 < b.height → b'.height = b.height) ∧ b'.decision = b.decision
  fresh : s.storage h = none → b'.decision = false
  link : 0 < b'.height ∨ b'.delivered = true →
    ∃ p, S.par h = some p ∧ b'.parents.head? = some p ∧ s.delivered p = true ∧
      b'.height = s.height p + 1
  ref : b'.delivered = true →
    ∃ t, S.target h = some t ∧ b'.qcRef = some t ∧ (t = h ∨ s.isBlkFetched t = true)
  undelivered : b'.delivered = false → b'.qcRef = none ∧ b'.decision = false

namespace Writable

variable {h : Hash} {b' : Block Hash Sig} (hw : Writable S s h b')
include hw

theorem ne_genesis : h ≠ S.genesis := by
  rintro rfl
  simpa [S.wireOf_genesis] using hw.wire

theorem grow : Grow s (s.setBlk h b') where
  fetched hf := by simp [isBlkFetched_setBlk, hf]
  height {x} hx := by
    rw [height_setBlk]
    split
    · subst x
      cases hb : s.storage h with
      | none => simp [Core.height, hb] at hx
      | some b =>
        rw [height_of hb] at hx ⊢
        exact (hw.keep hb).2.1 hx
    · rfl
  delivered {x} hx := by
    rw [delivered_setBlk]
    split
    · subst x
      obtain ⟨b, hb⟩ := exists_of_delivered hx
      rw [delivered_of hb] at hx
      exact (hw.keep hb).1 hx
    · exact hx
  decision {x} hx := by
    rw [decision_setBlk]
    split
    · subst x
      cases hb : s.storage h with
      | none => simp [Core.decision, hb] at hx
      | some b =>
        rw [decision_of hb] at hx
        rw [(hw.keep hb).2.2, hx]
    · exact hx

theorem decision_eq : (s.setBlk h b').decision x = s.decision x := by
  rw [decision_setBlk]
  split
  · subst x
    cases hb : s.storage h with
    | none => simp [Core.decision, hb, hw.fresh hb]
    | some b => rw [decision_of hb, (hw.keep hb).2.2]
  · rfl

theorem storeOk (hs : StoreOk S s) : StoreOk S (s.setBlk h b') where
  genesis := by
    rw [storage_setBlk, if_neg hw.ne_genesis.symm]
    exact hs.genesis
  wire {x b} hb hx := by
    rw [storage_setBlk] at hb
    split at hb
    · subst x
      cases hb
      exact hw.wire
    · exact hs.wire hb hx
  link {x} hx hl := by
    have hlink : ∃ p, S.par x = some p ∧ ((s.setBlk h b').parents x).head? = some p ∧
        s.delivered p = true ∧ (s.setBlk h b').height x = s.height p + 1 := by
      simp only [height_setBlk, parents_setBlk, delivered_setBlk] at hl ⊢
      split at hl
      · subst x
        simpa using hw.link hl
      · rename_i hne
        simpa [hne] using hs.link hx hl
    obtain ⟨p, hp, hhead, hd, hk⟩ := hlink
    refine ⟨p, hp, hhead, hw.grow.delivered hd, ?_⟩
    rw [hk, height_setBlk]
    split
    · subst p
      obtain ⟨b, hb⟩ := exists_of_delivered hd
      have hpos := (hs.placed_of_delivered hd).resolve_left hw.ne_genesis
      rw [height_of hb] at hpos ⊢
      rw [(hw.keep hb).2.1 hpos]
    · rfl
  ref {x} hx hd := by
    rw [delivered_setBlk] at hd
    rw [qcRef_setBlk]
    split at hd
    · subst x
      obtain ⟨t, ht, hr, hf⟩ := hw.ref hd
      exact ⟨t, ht, by simpa using hr, by simpa [isBlkFetched_setBlk] using hf⟩
    · rename_i hne
      obtain ⟨t, ht, hr, hf⟩ := hs.ref hx hd
      exact ⟨t, ht, by simpa [hne] using hr, hw.grow.fetched hf⟩
  undelivered {x} hd := by
    rw [delivered_setBlk] at hd
    rw [qcRef_setBlk, decision_setBlk]
    split at hd
    · subst x
      simpa using hw.undelivered hd
    · rename_i hne
      simpa [hne] using hs.undelivered hd

end Writable

-- ---------------------------------------------------------------------------
-- on_deliver_blk
-- ---------------------------------------------------------------------------

theorem setBlk_self (hb : s.storage h = some b) : s.setBlk h b = s := by
  simp [setBlk, ← hb]

theorem modifyBlk_setBlk : (s.setBlk h b).modifyBlk h f = s.setBlk h (f b) := by
  rw [modifyBlk_eq storage_setBlk_self, setBlk_setBlk]

theorem head_takeWhile {l : List Hash} {c : Hash → Bool} (hl : l.head? = some p) (hp : c p = true) :
    (l.takeWhile c).head? = some p := by
  cases l with
  | nil => cases hl
  | cons a l =>
    cases hl
    simp [hp]

theorem par_of_wire {b : Block Hash Sig} (h : S.wireOf x = some b.wire) :
    S.par x = b.parentHashes.head? := by
  simp [Setup.par, h, Block.wire]

theorem target_of_wire {b : Block Hash Sig} (h : S.wireOf x = some b.wire) :
    S.target x = some b.qc.objHash := by
  simp [Setup.target, h, Block.wire, QuorumCert.serialize]

/-- What delivery needs of a block. -/
structure Ready (s : Core Hash Sig) (b : Block Hash Sig) : Prop where
  parents : ∀ p ∈ b.parentHashes, s.delivered p = true
  nonempty : b.parentHashes ≠ []
  fetched : s.isBlkFetched b.qc.objHash = true

section
variable {b : Block Hash Sig} {h : Hash}

/-- The writes of a delivery up to and including that of `height`. -/
theorem writable_parents (hs : StoreOk S s) (hwire : S.wireOf h = some b.wire)
    (hd : b.delivered = false) (hdec : b.decision = false) (hsd : s.delivered h = false)
    (href : b.qcRef = none)
    (hk : k = s.height h ∨ ∃ p, b.parentHashes.head? = some p ∧ s.delivered p = true ∧
      k = s.height p + 1) :
    Writable S s h { b with parents := b.parentHashes.takeWhile (s.delivered ·), height := k } := by
  have hplace : 0 < k → ∃ p, b.parentHashes.head? = some p ∧ s.delivered p = true ∧
      k = s.height p + 1 := by
    intro hpos
    rcases hk with rfl | hk
    · have hne : h ≠ S.genesis := by
        rintro rfl
        simp [S.wireOf_genesis] at hwire
      obtain ⟨p, hp, _, hpd, hkp⟩ := hs.link hne (.inl hpos)
      exact ⟨p, (par_of_wire hwire).symm.trans hp, hpd, hkp⟩
    · exact hk
  refine ⟨hwire, ?_, fun _ => hdec, ?_, fun h => by simp [hd] at h, fun _ => ⟨href, hdec⟩⟩
  · intro b₀ hb₀
    refine ⟨fun h => by simp [← delivered_of hb₀, hsd] at h, fun hpos => ?_, ?_⟩
    · rcases hk with hk | ⟨p, hp, _, hk⟩
      · exact hk.trans (height_of hb₀)
      · have hne : h ≠ S.genesis := by
          rintro rfl
          simp [S.wireOf_genesis] at hwire
        obtain ⟨p', hp', _, _, hkp⟩ := hs.link hne (.inl (by rwa [height_of hb₀]))
        rw [par_of_wire hwire, hp] at hp'
        cases hp'
        rw [← height_of hb₀, hkp]
        exact hk
    · rw [← decision_of hb₀, (hs.undelivered hsd).2]
      exact hdec
  · rintro (hpos | h)
    · obtain ⟨p, hp, hpd, hkp⟩ := hplace hpos
      exact ⟨p, (par_of_wire hwire).trans hp, head_takeWhile hp hpd, hpd, hkp⟩
    · simp [hd] at h

/-- The block a delivery leaves behind. -/
def deliver (s : Core Hash Sig) (b : Block Hash Sig) (p : Hash) : Block Hash Sig :=
  { b with
    parents := b.parentHashes.takeWhile (s.delivered ·)
    height := s.height p + 1
    qcRef := some b.qc.objHash
    delivered := true }

theorem writable_deliver (hwire : S.wireOf h = some b.wire) (hs : StoreOk S s)
    (hdec : b.decision = false) (hsd : s.delivered h = false) (hp : b.parentHashes.head? = some p)
    (hpd : s.delivered p = true) (hf : b.qc.objHash = h ∨ s.isBlkFetched b.qc.objHash = true) :
    Writable S s h (s.deliver b p) := by
  have hpar : S.par h = some p := (par_of_wire hwire).trans hp
  refine ⟨hwire, ?_, fun _ => hdec, fun _ => ⟨p, hpar, head_takeWhile hp hpd, hpd, rfl⟩,
    fun _ => ⟨_, target_of_wire hwire, rfl, hf⟩, fun h => by cases h⟩
  intro b₀ hb₀
  refine ⟨fun _ => rfl, fun hpos => ?_, ?_⟩
  · obtain ⟨p', hp', _, _, hkp⟩ := hs.link (S.ne_genesis_of_par hpar) (.inl (by rwa [height_of hb₀]))
    cases hpar.symm.trans hp'
    rw [← height_of hb₀, hkp]
    rfl
  · rw [← decision_of hb₀, (hs.undelivered hsd).2]
    exact hdec

/-- Delivery of the undelivered object `b` under `h`, which may have been
stored by `on_propose` with its derived members set. -/
theorem onDeliverBlk_setBlk (hs : StoreOk S s) (hwire : S.wireOf h = some b.wire)
    (hd : b.delivered = false) (hdec : b.decision = false) (hsd : s.delivered h = false)
    (hb : b.height = s.height h ∧ b.qcRef = none ∨ Ready s b) :
    Triple (onDeliverBlk h) (s.setBlk h b)
      (fun r s' => r = true ∧ ∃ p, b.parentHashes.head? = some p ∧ Writable S s h (s.deliver b p) ∧
        s' = { s.setBlk h (s.deliver b p) with
          tails := s.tails.filter (· ∉ b.parentHashes) ++ [h] })
      (fun e s' => e ≠ .safetyBreached ∧ ¬ Ready s b ∧
        ∃ l k, Writable S s h { b with parents := l, height := k } ∧
          (s.isBlkFetched b.qc.objHash = true → k = b.height) ∧
          s' = s.setBlk h { b with parents := l, height := k }) := by
  have hdel : (s.setBlk h b).delivered = s.delivered := by
    funext x
    rw [delivered_setBlk]
    split
    · subst x
      rw [hd, hsd]
    · rfl
  have href : ¬ Ready s b → b.qcRef = none := fun hr => (hb.resolve_right hr).2
  have hk : ¬ Ready s b → b.height = s.height h := fun hr => (hb.resolve_right hr).1
  unfold onDeliverBlk
  refine .get_bind ?_
  simp only [storage_setBlk_self, hdel]
  refine .ite (fun h => by simp [hd] at h) fun _ => .modify_bind (.ite (fun hall => ?_) fun hall => ?_)
  · rw [modifyBlk_setBlk]
    have hall' : ∀ p ∈ b.parentHashes, s.delivered p = true := by simpa using hall
    cases hp : b.parentHashes.head? with
    | none =>
      have hr : ¬ Ready s b := fun hr => hr.nonempty (List.head?_eq_none_iff.mp hp)
      exact .throw' ⟨by simp, hr, _, _,
        writable_parents hs hwire hd hdec hsd (href hr) (.inl (hk hr)), fun _ => rfl, rfl⟩
    | some p =>
      have hpd : s.delivered p = true := hall' p (List.mem_of_mem_head? hp)
      have hph : p ≠ h := by
        rintro rfl
        simp [hsd] at hpd
      refine .modify_bind (.ite (fun hf => ?_) fun hf => .throw_bind ?_)
      · refine .modify_bind (.modify_bind (.modify_bind (.pure' ⟨rfl, p, rfl, ?_, ?_⟩)))
        · refine writable_deliver hwire hs hdec hsd hp hpd ?_
          simpa [isBlkFetched_setBlk] using hf
        · rw [height_setBlk, if_neg hph]
          simp [modifyBlk, setBlk, deliver]
      · have hr : ¬ Ready s b := fun hr => hf (by simp [isBlkFetched_setBlk, hr.fetched])
        rw [modifyBlk_setBlk, height_setBlk, if_neg hph]
        exact ⟨by simp, hr, _, _,
          writable_parents hs hwire hd hdec hsd (href hr) (.inr ⟨p, hp, hpd, rfl⟩),
          fun hfetched => absurd (by simp [isBlkFetched_setBlk, hfetched]) hf, rfl⟩
  · have hr : ¬ Ready s b := fun hr => hall (by simpa using hr.parents)
    rw [modifyBlk_setBlk]
    exact .throw_bind ⟨by simp, hr, _, _,
      writable_parents hs hwire hd hdec hsd (href hr) (.inl (hk hr)), fun _ => rfl, rfl⟩

/-- A parent that is not delivered ends the delivery of a block. -/
theorem onDeliverBlk_undelivered (hd : b.delivered = false) (hsd : s.delivered h = false)
    (hp : ¬ ∀ p ∈ b.parentHashes, s.delivered p = true) :
    Triple (onDeliverBlk h) (s.setBlk h b) (fun _ _ => False)
      (fun e s' => e = .blockNotDelivered ∧
        s' = s.setBlk h { b with parents := b.parentHashes.takeWhile (s.delivered ·) }) := by
  have hdel : (s.setBlk h b).delivered = s.delivered := by
    funext x
    rw [delivered_setBlk]
    split
    · subst x
      rw [hd, hsd]
    · rfl
  unfold onDeliverBlk
  refine .get_bind ?_
  simp only [storage_setBlk_self, hdel]
  refine .ite (fun h => by simp [hd] at h) fun _ => .modify_bind (.ite (fun hall => ?_) fun _ => ?_)
  · exact absurd (by simpa using hall) hp
  · rw [modifyBlk_setBlk]
    exact .throw_bind ⟨rfl, rfl⟩

end

-- ---------------------------------------------------------------------------
-- The frame
-- ---------------------------------------------------------------------------

/-- From `s` to `s'` blocks were stored, delivered or voted for, and nothing
was decided. -/
structure Stores (S : Setup Hash Sig) (s s' : Core Hash Sig) : Prop where
  ok : StoreOk S s'
  grow : Grow s s'
  decision : s'.decision = s.decision
  selfQc : s'.selfQc h = some q → s.selfQc h = some q ∨ q.objHash = h
  hqc : s'.hqc = s.hqc
  bLock : s'.bLock = s.bLock
  bExec : s'.bExec = s.bExec
  vheight : s'.vheight = s.vheight
  id : s'.id = s.id
  out : s'.out = s.out

/-- No vote was counted. -/
structure SameVotes (s s' : Core Hash Sig) : Prop where
  voted : s'.voted = s.voted
  selfQc : s'.selfQc = s.selfQc

namespace Stores

theorem refl (hs : StoreOk S s) : Stores S s s :=
  ⟨hs, .refl, rfl, .inl, rfl, rfl, rfl, rfl, rfl, rfl⟩

theorem trans (h : Stores S s s') (h' : Stores S s' s'') : Stores S s s'' where
  ok := h'.ok
  grow := h.grow.trans h'.grow
  decision := h'.decision.trans h.decision
  selfQc hq := (h'.selfQc hq).elim h.selfQc .inr
  hqc := h'.hqc.trans h.hqc
  bLock := h'.bLock.trans h.bLock
  bExec := h'.bExec.trans h.bExec
  vheight := h'.vheight.trans h.vheight
  id := h'.id.trans h.id
  out := h'.out.trans h.out

theorem of_writable (hs : StoreOk S s) (hw : Writable S s h b')
    (hq : b'.selfQc = s.selfQc h ∨ ∃ q, b'.selfQc = some q ∧ q.objHash = h) :
    Stores S s (s.setBlk h b') where
  ok := hw.storeOk hs
  grow := hw.grow
  decision := funext fun _ => hw.decision_eq
  selfQc {x q} hx := by
    rw [selfQc_setBlk] at hx
    split at hx
    · subst x
      rcases hq with hq | ⟨q', hq, hobj⟩
      · exact .inl (hq ▸ hx)
      · cases hq.symm.trans hx
        exact .inr hobj
    · exact .inl hx
  hqc := rfl
  bLock := rfl
  bExec := rfl
  vheight := rfl
  id := rfl
  out := rfl

/-- Writes to `voted` and `self_qc`, of the genesis block also. -/
theorem of_votes {b : Block Hash Sig} (hs : StoreOk S s) (hb : s.storage h = some b)
    (hq : q.objHash = h) : Stores S s (s.setBlk h { b with voted := vs, selfQc := some q }) := by
  generalize hs' : s.setBlk h { b with voted := vs, selfQc := some q } = s'
  have hheight : s'.height = s.height := by
    funext x
    rw [← hs', height_setBlk]
    split <;> simp_all [height_of hb]
  have hparents : s'.parents = s.parents := by
    funext x
    rw [← hs', parents_setBlk]
    split <;> simp_all [parents_of hb]
  have hqcRef : s'.qcRef = s.qcRef := by
    funext x
    rw [← hs', qcRef_setBlk]
    split <;> simp_all [qcRef_of hb]
  have hdel : s'.delivered = s.delivered := by
    funext x
    rw [← hs', delivered_setBlk]
    split <;> simp_all [delivered_of hb]
  have hdec : s'.decision = s.decision := by
    funext x
    rw [← hs', decision_setBlk]
    split <;> simp_all [decision_of hb]
  have hfetched : s'.isBlkFetched = s.isBlkFetched := by
    funext x
    rw [← hs', isBlkFetched_setBlk]
    by_cases hx : x = h <;> simp_all [isBlkFetched_of hb]
  refine ⟨⟨?_, ?_, ?_, ?_, ?_⟩, ⟨?_, ?_, ?_, ?_⟩, hdec, ?_, ?_, ?_, ?_, ?_, ?_, ?_⟩
  · obtain ⟨g, hg, hrest⟩ := hs.genesis
    rw [← hs', storage_setBlk]
    split
    · rename_i hx
      subst hx
      cases hb.symm.trans hg
      exact ⟨_, rfl, hrest⟩
    · exact ⟨g, hg, hrest⟩
  · intro x c hc hx
    rw [← hs', storage_setBlk] at hc
    split at hc
    · subst x
      cases hc
      exact (hs.wire hb hx :)
    · exact hs.wire hc hx
  · rw [hheight, hparents, hdel]
    exact hs.link
  · rw [hdel, hqcRef, hfetched]
    exact hs.ref
  · rw [hdel, hqcRef, hdec]
    exact hs.undelivered
  · exact fun h => hfetched ▸ h
  · exact fun _ => by rw [hheight]
  · exact fun h => hdel ▸ h
  · exact fun h => hdec ▸ h
  · intro x q' hx
    rw [← hs', selfQc_setBlk] at hx
    split at hx
    · subst x
      cases hx
      exact .inr hq
    · exact .inl hx
  all_goals subst hs'; rfl

theorem of_storage (hs : StoreOk S s) (hst : s'.storage = s.storage)
    (hrest : (s'.hqc, s'.bLock, s'.bExec, s'.vheight, s'.id, s'.out) =
      (s.hqc, s.bLock, s.bExec, s.vheight, s.id, s.out)) : Stores S s s' := by
  simp only [Prod.mk.injEq] at hrest
  obtain ⟨h1, h2, h3, h4, h5, h6⟩ := hrest
  refine ⟨hs.of_storage hst, .of_storage hst, ?_, ?_, h1, h2, h3, h4, h5, h6⟩
  · funext x
    simp [Core.decision, hst]
  · intro x q hq
    exact .inl (by simpa [Core.selfQc, hst] using hq)

end Stores

theorem SameVotes.of_setBlk (hv : b'.voted = s.voted h) (hq : b'.selfQc = s.selfQc h) :
    SameVotes s (s.setBlk h b') where
  voted := by
    funext x
    rw [voted_setBlk]
    split <;> simp_all
  selfQc := by
    funext x
    rw [selfQc_setBlk]
    split <;> simp_all

-- ---------------------------------------------------------------------------
-- The calls
-- ---------------------------------------------------------------------------

theorem addBlk_spec : Triple (addBlk S b) s
    (fun h s' => h = S.hash b.wire ∧ (s.isBlkFetched h = true ∧ s' = s ∨
      s.storage h = none ∧ s' = s.setBlk h b)) (fun _ _ => False) := by
  unfold addBlk
  refine .get_bind (.ite (fun hf => .pure' ⟨rfl, .inl ⟨hf, rfl⟩⟩) fun hf => ?_)
  refine .modify_bind (.pure' ⟨rfl, .inr ⟨?_, rfl⟩⟩)
  simpa [isBlkFetched] using hf

/-- What a call of the network layer does to the object under `h`. -/
inductive StoreStep (S : Setup Hash Sig) (s : Core Hash Sig) (h : Hash) : Core Hash Sig → Prop
  | skip : StoreStep S s h s
  | write (hw : Writable S s h b') (hd : b'.delivered = s.delivered h)
      (hk : (∀ b, s.storage h = some b → s.isBlkFetched b.qc.objHash = true) →
        b'.height = s.height h)
      (hv : SameVotes s (s.setBlk h b')) : StoreStep S s h (s.setBlk h b')
  | deliver (hw : Writable S s h b') (hf : s.isBlkFetched h = true) (hd : s.delivered h = false)
      (hd' : b'.delivered = true) (hv : SameVotes s (s.setBlk h b')) : StoreStep S s h
        { s.setBlk h b' with tails := s.tails.filter (· ∉ b'.parentHashes) ++ [h] }

namespace StoreStep

theorem stores (h : StoreStep S s n s') (hs : StoreOk S s) : Stores S s s' := by
  cases h with
  | skip => exact .refl hs
  | @write b' hw hd hk hv =>
    refine .of_writable hs hw (.inl ?_)
    rw [← hv.selfQc, selfQc_of storage_setBlk_self]
  | @deliver b' hw hf hd hd' hv =>
    have hw' : Stores S s (s.setBlk n b') := .of_writable hs hw (.inl (by
      rw [← hv.selfQc, selfQc_of storage_setBlk_self]))
    exact hw'.trans (.of_storage hw'.ok rfl rfl)

theorem sameVotes (h : StoreStep S s n s') : SameVotes s s' := by
  cases h with
  | skip => exact ⟨rfl, rfl⟩
  | write hw hd hk hv => exact hv
  | deliver hw hf hd hd' hv => exact ⟨hv.voted, hv.selfQc⟩

end StoreStep

/-- A block as `Block::unserialize` makes it. -/
structure Fresh (b : Block Hash Sig) : Prop where
  height : b.height = 0
  qcRef : b.qcRef = none
  selfQc : b.selfQc = none
  delivered : b.delivered = false
  decision : b.decision = false
  voted : b.voted = []

theorem fresh_unserialize (h : Block.unserialize w = some b) : Fresh b := by
  obtain ⟨qc, _, rfl⟩ := Option.map_eq_some_iff.mp h
  exact ⟨rfl, rfl, rfl, rfl, rfl, rfl⟩

theorem addBlk_step (hb : Fresh b) : Triple (addBlk S b) s (fun h s' => StoreStep S s h s' ∧
      s'.delivered = s.delivered ∧ s'.height = s.height) (fun _ _ => False) := by
  refine addBlk_spec.mono ?_ fun _ _ h => h
  rintro h s' ⟨rfl, ⟨_, rfl⟩ | ⟨hn, rfl⟩⟩
  · exact ⟨.skip, rfl, rfl⟩
  · have hd : b.delivered = s.delivered (S.hash b.wire) := by simp [hb.delivered, delivered, hn]
    refine ⟨.write ⟨S.wireOf_hash _, ?_, fun _ => hb.decision, ?_, ?_, fun _ => ⟨hb.qcRef, hb.decision⟩⟩
      hd (fun _ => ?_) (.of_setBlk ?_ ?_), ?_, ?_⟩
    · exact fun h => by simp [hn] at h
    · exact fun h => by simp [hb.height, hb.delivered] at h
    · exact fun h => by simp [hb.delivered] at h
    · simp [hb.height, height, hn]
    · simp [hb.voted, voted, hn]
    · simp [hb.selfQc, selfQc, hn]
    · funext x
      rw [delivered_setBlk]
      split
      · rename_i hx
        rw [hx, hd]
      · rfl
    · funext x
      rw [height_setBlk]
      split
      · rename_i hx
        simp [hx, hb.height, height, hn]
      · rfl

theorem onDeliverBlk_step (hs : StoreOk S s) :
    Triple (onDeliverBlk h) s (fun _ s' => StoreStep S s h s')
      (fun e s' => e ≠ .safetyBreached ∧ StoreStep S s h s') := by
  cases hb : s.storage h with
  | none =>
    unfold onDeliverBlk
    refine .get_bind ?_
    simp only [hb]
    exact .throw' ⟨nofun, .skip⟩
  | some b =>
    cases hd : b.delivered with
    | true =>
      unfold onDeliverBlk
      refine .get_bind ?_
      simp only [hb]
      exact .ite (fun _ => .pure' .skip) (fun h => absurd hd h)
    | false =>
      have hsd : s.delivered h = false := (delivered_of hb).trans hd
      have hne : h ≠ S.genesis := by
        rintro rfl
        simp [hs.delivered_genesis] at hsd
      obtain ⟨hr, hdec⟩ := hs.undelivered hsd
      rw [qcRef_of hb] at hr
      rw [decision_of hb] at hdec
      have hspec := onDeliverBlk_setBlk hs (hs.wire hb hne) hd hdec hsd
        (.inl ⟨(height_of hb).symm, hr⟩)
      rw [setBlk_self hb] at hspec
      refine hspec.mono ?_ ?_
      · rintro _ s' ⟨_, p, _, hw, rfl⟩
        exact .deliver hw (isBlkFetched_of hb) hsd rfl (.of_setBlk (voted_of hb).symm (selfQc_of hb).symm)
      · rintro _ s' ⟨he, _, l, k, hw, hk, rfl⟩
        refine ⟨he, .write hw (delivered_of hb).symm (fun hf => ?_)
          (.of_setBlk (voted_of hb).symm (selfQc_of hb).symm)⟩
        exact (hk (hf b hb)).trans (height_of hb).symm

end Core

end HotStuffTx
