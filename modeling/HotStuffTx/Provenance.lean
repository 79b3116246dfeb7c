import HotStuffTx.Votes

/-!
# Where a step takes what it writes from

`Effect` sorts the steps by what they do to the blocks, `hqc`, the lock and
`b_exec`. From it a delivered block is traced back to the call that brought it,
and a counted vote to the call or the frame that cast it.
-/

set_option linter.unusedSectionVars false

namespace HotStuffTx

open Core Forest

variable {Hash Sig : Type} [DecidableEq Hash]

namespace Core

/-- Nothing the protocol decides with has changed but `vheight`. -/
structure SameChain (s s' : Core Hash Sig) : Prop where
  storage : s'.storage = s.storage
  hqc : s'.hqc = s.hqc
  bLock : s'.bLock = s.bLock
  bExec : s'.bExec = s.bExec

end Core

namespace Replica

/-- The vote the next frame casts for the replica itself. -/
def SelfVote (S : Setup Hash Sig) (r : Replica Hash Sig) (v : Vote Hash Sig) (s₁ : Core Hash Sig) :
    Prop :=
  ∃ prop rest, r.stack = .vote prop true :: rest ∧ v = r.core.castVote S prop.blk ∧
    s₁ = r.core.sent S prop.proposer prop.blk

/-- The call or the frame that brings a vote. -/
def Brings (S : Setup Hash Sig) (r : Replica Hash Sig) (e : Event Hash Sig)
    (v : Vote Hash Sig) (s₁ : Core Hash Sig) : Prop :=
  e = .call (.receiveVote v) ∧ s₁ = r.core ∨ e = .resume ∧ r.SelfVote S v s₁

/-- `update` runs for the delivered block `n` in the state `s₁`, which
`on_propose` has first stored its block in. -/
def Mid (S : Setup Hash Sig) (r : Replica Hash Sig) (e : Event Hash Sig) (s₁ : Core Hash Sig)
    (n : Hash) : Prop :=
  s₁ = r.core ∧ r.core.delivered n = true ∨ ∃ cmds parents extra,
    e = .call (.propose cmds parents extra) ∧ Proposed S r.core cmds parents extra n s₁

inductive Effect (S : Setup Hash Sig) (O : Options) (r : Replica Hash Sig) :
    Event Hash Sig → Core Hash Sig → Prop
  | quiet {e s'} (h : SameChain r.core s') : Effect S O r e s'
  | store {c n s'} (hst : StoreStep S r.core n s')
      (hn : c = .deliver n ∨ s'.delivered = r.core.delivered)
      (hc : c = .deliver n ∨ ∃ w, c = .addBlk w) : Effect S O r (.call c) s'
  | update {e s₁ n s₂ s'} (hm : r.Mid S e s₁ n)
      (hu : Updated O.build s₁ n s₂ ∨ Refused O.build s₁ n .safetyBreached s₂)
      (h : SameChain s₂ s') : Effect S O r e s'
  | count {e v s₁ fs s'} (h : SameChain r.core s₁)
      (hv : r.Brings S e v s₁)
      (hc : Counted S s₁ v fs s') : Effect S O r e s'
  | miscount {e v s₁ x s'} (h : SameChain r.core s₁)
      (hv : r.Brings S e v s₁)
      (hc : Miscounted S s₁ v x s') : Effect S O r e s'

end Replica

section
variable {S : Setup Hash Sig} {O : Options} {s s' s'' : Core Hash Sig} {r r' : Replica Hash Sig}

theorem Core.SameChain.refl : SameChain s s := ⟨rfl, rfl, rfl, rfl⟩

theorem Core.SameChain.settlePm : SameChain s (s.settlePm p st) := by
  unfold Core.settlePm
  split <;> exact ⟨rfl, rfl, rfl, rfl⟩

theorem Core.SameChain.tailReceived : SameChain s (s.tailReceived blk) := by
  unfold Core.tailReceived
  split <;> exact ⟨rfl, rfl, rfl, rfl⟩

theorem Core.SameChain.sent : SameChain s (s.sent S dst blk) := ⟨rfl, rfl, rfl, rfl⟩

theorem Core.Judged.sameChain (hj : Judged S s n op s') : SameChain s s' := by
  cases hj <;> exact ⟨rfl, rfl, rfl, rfl⟩

namespace Replica

theorem call_effect {c : Call Hash Sig} (hp : c.Post S O r.core fs s') :
    Effect S O r (.call c) s' := by
  cases c with
  | addBlk w =>
    obtain ⟨-, n, hst, hd, -⟩ := hp
    exact .store hst (.inr hd) (.inr ⟨w, rfl⟩)
  | deliver blk => exact .store hp.2 (.inl rfl) (.inl rfl)
  | propose cmds parents extra =>
    obtain ⟨n, s₁, s₂, op, hprop, hu, -, hj, -⟩ := hp
    exact .update (.inr ⟨_, _, _, rfl, hprop⟩) (.inl hu) hj.sameChain
  | receiveProposal prop =>
    cases hp with
    | own _ hj => exact .quiet hj.sameChain
    | other _ hd hu hj => exact .update (.inl ⟨rfl, hd⟩) (.inl hu) hj.sameChain
  | receiveVote v =>
    rcases hp with ⟨-, rfl⟩ | hp
    · exact .quiet .refl
    · exact .count .refl (.inl ⟨rfl, rfl⟩) hp
  | asyncQcFinish blk => obtain ⟨-, pms, rfl | rfl⟩ := hp <;> exact .quiet ⟨rfl, rfl, rfl, rfl⟩
  | rejectPm pm =>
    obtain ⟨-, rfl⟩ := hp
    exact .quiet .settlePm

theorem call_thrown_effect (h : CoreOk S r.core) {c : Call Hash Sig}
    (hp : c.Thrown S O r.core e s') : Effect S O r (.call c) s' := by
  cases c with
  | addBlk w => exact hp.elim
  | deliver blk => exact .store hp.2 (.inl rfl) (.inl rfl)
  | propose cmds parents extra =>
    rcases hp with ⟨-, rfl⟩ | ⟨n, s₁, hprop, hr | ⟨-, hu⟩⟩
    · exact .quiet .refl
    · obtain rfl := ((h.stores (hprop.stores h.store)).1.refused hr).1
      exact .update (.inr ⟨_, _, _, rfl, hprop⟩) (.inr hr) .refl
    · exact .update (.inr ⟨_, _, _, rfl, hprop⟩) (.inl hu) .refl
  | receiveProposal prop =>
    obtain ⟨-, ⟨-, rfl⟩ | ⟨hd, hr⟩⟩ := hp
    · exact .quiet .refl
    · obtain rfl := (h.refused hr).1
      exact .update (.inl ⟨rfl, hd⟩) (.inr hr) .refl
  | receiveVote v =>
    rcases hp with ⟨-, rfl⟩ | hp
    · exact .quiet .refl
    · exact .miscount .refl (.inl ⟨rfl, rfl⟩) hp
  | asyncQcFinish blk => exact hp.elim
  | rejectPm pm => exact hp.elim

theorem frame_effect {f : Frame Hash} (hs : r.stack = f :: rest) (hp : f.Post S r.core fs s') :
    Effect S O r .resume s' := by
  cases f with
  | qcFinish blk =>
    rcases hp with ⟨-, -, rfl⟩ | ⟨p, -, -, rfl⟩
    · exact .quiet .refl
    · exact .quiet .settlePm
  | qcErase blk =>
    obtain ⟨-, rfl⟩ := hp
    exact .quiet ⟨rfl, rfl, rfl, rfl⟩
  | receiveProposal_ prop op =>
    obtain ⟨-, rfl⟩ := hp
    exact .quiet .tailReceived
  | vote prop op =>
    rcases hp with ⟨-, rfl⟩ | ⟨rfl, ⟨-, rfl⟩ | hp⟩
    · exact .quiet .refl
    · exact .quiet .sent
    · exact .count .sent (.inr ⟨rfl, prop, rest, hs, rfl, rfl⟩) hp
  | propose_ prop =>
    obtain ⟨-, rfl⟩ := hp
    exact .quiet ⟨rfl, rfl, rfl, rfl⟩
  | broadcast prop =>
    obtain ⟨-, rfl⟩ := hp
    exact .quiet ⟨rfl, rfl, rfl, rfl⟩

theorem Stepped.effect (h : CoreOk S r.core) (hs : Stepped S O r e r') :
    Effect S O r e r'.core := by
  cases hs with
  | call hp => exact call_effect hp
  | callThrew hp => exact call_thrown_effect h hp
  | idle => exact .quiet .refl
  | frame hs hp => exact frame_effect hs hp
  | @frameThrew f rest x s' hs hp =>
    cases f with
    | vote prop op =>
      obtain ⟨rfl, ⟨-, rfl⟩ | hp⟩ := hp
      · exact .quiet .sent
      · exact .miscount .sent (.inr ⟨rfl, prop, rest, hs, rfl, rfl⟩) hp
    | _ => exact hp.elim

end Replica

-- ---------------------------------------------------------------------------
-- Delivered blocks
-- ---------------------------------------------------------------------------

theorem Core.Updated.same (h : CoreOk S s) (hu : Updated build s n s') :
    s'.height = s.height ∧ s'.qcRef = s.qcRef ∧ s'.delivered = s.delivered := by
  cases hu with
  | idle => exact ⟨rfl, rfl, rfl⟩
  | advanced =>
    obtain ⟨hheight, -, hq, -, hdel⟩ := s.same_advance build _ _
    exact ⟨hheight, hq, hdel⟩
  | @committed b t c _ hb ht hd hc hrun =>
    obtain ⟨hheight, -, hq, -, hdel⟩ := s.same_advance build t b.qc
    obtain ⟨l, s₁, -, hdec, rfl⟩ := h.commit_ok hb ht hd hc hrun
    obtain ⟨hheight', -, hq', hdel', -⟩ := hdec.same
    exact ⟨hheight'.trans hheight, hq'.trans hq, hdel'.trans hdel⟩

theorem Core.ran_delivered_eq (h : CoreOk S s)
    (hu : Updated build s n s₂ ∨ Refused build s n e s₂) (hs : SameChain s₂ s') :
    s'.delivered = s.delivered := by
  rw [(eq_of_storage hs.storage).2.2.2.2]
  rcases hu with hu | hr
  · exact (hu.same h).2.2
  · exact (eq_of_storage (h.refused hr).2.2.2.1).2.2.2.2

/-- What is delivered after a write to the object under `h` and nothing else. -/
theorem Core.delivered_of_setBlk {s' : Core Hash Sig} (hst : s'.storage = (s.setBlk h b).storage)
    (hx : s'.delivered x = true) : s.delivered x = true ∨ x = h := by
  by_cases hxh : x = h
  · exact .inr hxh
  · simp only [delivered, hst, storage_setBlk, if_neg hxh] at hx
    exact .inl hx

theorem Core.delivered_votes {b : Block Hash Sig} (hb : s.storage h = some b) :
    (s.setBlk h { b with voted := vs, selfQc := q }).delivered = s.delivered := by
  funext x
  rw [delivered_setBlk]
  split
  · subst x
    rw [delivered_of hb]
  · rfl

theorem Core.Counted.delivered_eq (hc : Counted S s v fs s') : s'.delivered = s.delivered := by
  cases hc with
  | part hb => exact delivered_votes hb
  | full hb => exact (eq_of_storage storage_updateHqc).2.2.2.2.trans (delivered_votes hb)

theorem Core.StoreStep.delivered (h : StoreStep S s n s') (hx : s'.delivered x = true) :
    s.delivered x = true ∨ x = n ∧ s.isBlkFetched n = true := by
  cases h with
  | skip => exact .inl hx
  | @write b' hw hd =>
    rcases delivered_of_setBlk rfl hx with hx | rfl
    · exact .inl hx
    · rw [delivered_of storage_setBlk_self, hd] at hx
      exact .inl hx
  | deliver hw hf => exact (delivered_of_setBlk rfl hx).imp_right fun hx => ⟨hx, hf⟩

namespace Core.Proposed

variable {cmds parents : List Hash} {extra : List UInt8} {n : Hash}
  (hp : Proposed S s cmds parents extra n s')
include hp

theorem delivered_self : s'.delivered n = true := by
  cases hp with
  | intro _ _ _ hd => simp [delivered, hd]

theorem target_eq (h : CoreOk S s) : S.target n = some s.hqc.1 := by
  cases hp with
  | intro _ hwire =>
    rw [target_of_wire hwire]
    exact congrArg some h.hqcObj

theorem delivered (hx : s'.delivered x = true) : s.delivered x = true ∨ x = n := by
  cases hp
  exact delivered_of_setBlk rfl hx

theorem ne_genesis : n ≠ S.genesis := by
  cases hp with
  | intro _ _ hw => exact hw.ne_genesis

theorem wire_eq : ∃ p, parents.head? = some p ∧
    S.wireOf n = some (s.newBlock cmds parents extra p).wire := by
  cases hp with
  | intro hp hwire => exact ⟨_, hp, hwire⟩

theorem selfQc_eq : s'.selfQc x = if x = n then some (.create S n) else s.selfQc x := by
  cases hp with
  | intro _ _ _ _ _ hq => exact selfQc_setBlk.trans (by rw [hq])

theorem par_eq : ∃ p, parents.head? = some p ∧ S.par n = some p := by
  cases hp with
  | intro hp hwire =>
    exact ⟨_, hp, (par_of_wire hwire).trans hp⟩

theorem voted_eq : s'.voted = s.voted := by
  cases hp with
  | intro _ _ _ _ hv _ _ =>
    funext x
    refine voted_setBlk.trans ?_
    split
    · rename_i hx
      rw [hv, hx]
    · rfl

end Core.Proposed

/-- The state `update` runs in. -/
theorem Replica.Mid.spec (h : CoreOk S r.core) (hm : r.Mid S e s n) : CoreOk S s ∧
    Stores S r.core s ∧ s.delivered n = true ∧ s.voted = r.core.voted ∧
    ∀ x, s.delivered x = true → r.core.delivered x = true ∨
      x ≠ S.genesis ∧ S.target x = some r.core.hqc.1 := by
  rcases hm with ⟨rfl, hd⟩ | ⟨cmds, parents, extra, -, hp⟩
  · exact ⟨h, .refl h.store, hd, rfl, fun x hx => .inl hx⟩
  · have hst := hp.stores h.store
    refine ⟨(h.stores hst).1, hst, hp.delivered_self, hp.voted_eq, fun x hx => ?_⟩
    rcases hp.delivered hx with hx | rfl
    · exact .inl hx
    · exact .inr ⟨hp.ne_genesis, hp.target_eq h⟩

/-- A newly delivered block was passed to `on_deliver_blk`, or is proposed on `hqc`. -/
theorem Replica.Effect.delivered (h : CoreOk S r.core) (hs : Effect S O r e s')
    (hx : s'.delivered x = true) : r.core.delivered x = true ∨
      e = .call (.deliver x) ∧ r.core.isBlkFetched x = true ∨
      x ≠ S.genesis ∧ S.target x = some r.core.hqc.1 := by
  cases hs with
  | quiet hq => exact .inl ((eq_of_storage hq.storage).2.2.2.2 ▸ hx)
  | store hst hn =>
    rcases hn with rfl | hn
    · rcases hst.delivered hx with hx | ⟨rfl, hf⟩
      · exact .inl hx
      · exact .inr (.inl ⟨rfl, hf⟩)
    · exact .inl (hn ▸ hx)
  | update hm hu hq =>
    obtain ⟨hok, -, -, -, hdel⟩ := hm.spec h
    exact (hdel x (ran_delivered_eq hok hu hq ▸ hx)).imp_right .inr
  | count hq _ hc =>
    rw [hc.delivered_eq, (eq_of_storage hq.storage).2.2.2.2] at hx
    exact .inl hx
  | miscount hq _ hc =>
    cases hc with
    | intro hb =>
      rw [delivered_votes hb, (eq_of_storage hq.storage).2.2.2.2] at hx
      exact .inl hx

-- ---------------------------------------------------------------------------
-- hqc, the lock and b_exec
-- ---------------------------------------------------------------------------

/-- What `update` for `n` makes of `hqc`, the lock and `b_exec`, once it goes
past its first test. -/
structure Ran (S : Setup Hash Sig) (build : Build) (s : Core Hash Sig) (n : Hash)
    (b : Block Hash Sig) (t : Hash) (s' : Core Hash Sig) : Prop where
  stored : s.storage n = some b
  ne : n ≠ S.genesis
  qcRef : s.qcRef n = some t
  target : S.target n = some t
  obj : b.qc.objHash = t
  undecided : s.decision t = false
  hqc : s'.hqc = (s.advance build t b.qc).hqc
  bLock : s'.bLock = (s.advance build t b.qc).bLock
  bExec : s'.bExec = s.bExec ∨ s.commitTarget build t = some s'.bExec

theorem Core.bExec_advance : (s.advance build t qc).bExec = s.bExec := by
  unfold advance raiseLock updateHqc
  repeat' split
  all_goals rfl

theorem Core.ran_spec (h : CoreOk S s) (hu : Updated build s n s₂ ∨ Refused build s n e s₂)
    (hq : SameChain s₂ s') :
    SameChain s s' ∧ (∀ t, s.qcRef n = some t → s.decision t = true) ∨
      ∃ b t, Ran S build s n b t s' := by
  have hran {b : Block Hash Sig} {t} (hb : s.storage n = some b) (ht : b.qcRef = some t)
      (hd : s.decision t = false) (hhqc : s₂.hqc = (s.advance build t b.qc).hqc)
      (hlock : s₂.bLock = (s.advance build t b.qc).bLock)
      (hexec : s₂.bExec = s.bExec ∨ s.commitTarget build t = some s₂.bExec) :
      ∃ b t, Ran S build s n b t s' := by
    obtain ⟨hne, htarget, hobj, -⟩ := h.qc_of_stored hb ht hd
    exact ⟨b, t, hb, hne, (qcRef_of hb).trans ht, htarget, hobj, hd, hq.hqc.trans hhqc,
      hq.bLock.trans hlock, by rwa [hq.bExec]⟩
  rcases hu with hu | hr
  · cases hu with
    | idle hdec => exact .inl ⟨hq, hdec⟩
    | advanced hb ht hd hc => exact .inr (hran hb ht hd rfl rfl (.inl bExec_advance))
    | committed hb ht hd hc hrun =>
      obtain ⟨l, s₁, -, hdec, rfl⟩ := h.commit_ok hb ht hd hc hrun
      exact .inr (hran hb ht hd hdec.hqc hdec.bLock (.inr hc))
  · cases hr with
    | intro hb ht hd hc hrun =>
      obtain ⟨-, rfl, -⟩ := h.commit_error hb ht hd hc hrun
      exact .inr (hran hb ht hd rfl rfl (.inl bExec_advance))

-- ---------------------------------------------------------------------------
-- Cited blocks
-- ---------------------------------------------------------------------------

/-- A delivered block carries a certificate of `x`. -/
def Core.Cites (S : Setup Hash Sig) (s : Core Hash Sig) (x : Hash) : Prop :=
  ∃ m, m ≠ S.genesis ∧ s.delivered m = true ∧ S.target m = some x

/-- A certificate for `v` commits `a`: `v` is at the end of a chain of direct
parents that certify one another. -/
def Setup.Locks (S : Setup Hash Sig) : Build → Hash → Hash → Prop
  | .threeStep, v, a =>
    ∃ l, S.target v = some l ∧ S.par v = some l ∧ S.target l = some a ∧ S.par l = some a
  | .twoStep, v, a => S.target v = some a ∧ S.par v = some a

theorem Core.Cites.grow (hc : Cites S s x) (hg : Grow s s') : Cites S s' x := by
  obtain ⟨m, hm, hd, ht⟩ := hc
  exact ⟨m, hm, hg.delivered hd, ht⟩

theorem Setup.Locks.height (hl : S.Locks build v a) (hv : S.Height v k) :
    ∃ i < k, S.Height a i ∧ S.Ext a v := by
  cases build with
  | threeStep =>
    obtain ⟨l, -, hvl, -, hla⟩ := hl
    obtain ⟨j, rfl, hj⟩ := hv.of_par S.par_genesis hvl
    obtain ⟨i, rfl, hi⟩ := hj.of_par S.par_genesis hla
    exact ⟨i, by omega, hi, .step hvl (.of_par hla)⟩
  | twoStep =>
    obtain ⟨i, rfl, hi⟩ := hv.of_par S.par_genesis hl.2
    exact ⟨i, by omega, hi, .of_par hl.2⟩

theorem Core.CoreOk.ne_genesis (h : CoreOk S s) (hd : s.decision x = false) : x ≠ S.genesis := by
  rintro rfl
  simp [h.store.decision_genesis] at hd

/-- What is decided is no higher than the lock. -/
theorem Core.CoreOk.decided_le (h : CoreOk S s) (hd : s.decision x = true) (ha : S.Ext a x)
    (hk : S.Height a k) : k ≤ s.height s.bLock :=
  Nat.le_trans (((ha.trans (h.decision.mp hd)).height_le S.par_genesis hk
    (h.store.height (h.store.placed_of_delivered h.delivered_bExec)))) h.bExec_le_bLock

theorem Core.CoreOk.cites_lockTarget (h : CoreOk S s) (hn : s.delivered n = true)
    (hne : n ≠ S.genesis) (ht : S.target n = some t) (hd : s.decision t = false)
    (hl : s.lockTarget build t = some l) : Cites S s l := by
  cases build with
  | threeStep =>
    obtain ⟨hq, -⟩ := Option.filter_eq_some_iff.mp hl
    have hne := h.ne_genesis hd
    exact ⟨t, hne, h.store.delivered_of_qcRef hq, h.store.qcRef_target hq hne⟩
  | twoStep =>
    cases hl
    exact ⟨n, hne, hn, ht⟩

/-- The block to commit sits below a chain of certified blocks. -/
theorem Core.CoreOk.cites_commitTarget (h : CoreOk S s) (hn : s.delivered n = true)
    (hne : n ≠ S.genesis) (ht : S.target n = some t) (hd : s.decision t = false)
    (hc : s.commitTarget build t = some c) : ∃ l, S.Locks build t c ∧ S.par t = some l ∧
      (Cites S s t ∧ t ≠ S.genesis) ∧ (Cites S s l ∧ l ≠ S.genesis) ∧
      Cites S s c ∧ c ≠ S.genesis ∧ s.decision c = false ∧ s.delivered c = true := by
  obtain ⟨l, hl, hq, hp, hdec, hcd, hld, hthree⟩ := commitTarget_spec h.store hc
  have htne := h.ne_genesis hd
  have hcl := h.cites_lockTarget hn hne ht hd hl
  have hlne := S.ne_genesis_of_par hp
  have htarget := h.store.qcRef_target hq hlne
  have hct : Cites S s t := ⟨n, hne, hn, ht⟩
  have hcc : Cites S s c := ⟨l, hlne, hld, htarget⟩
  have hcne := h.ne_genesis hdec
  cases build with
  | threeStep =>
    obtain ⟨hqt, hpt⟩ := hthree rfl
    exact ⟨l, ⟨l, h.store.qcRef_target hqt htne, hpt, htarget, hp⟩, hpt, ⟨hct, htne⟩, ⟨hcl, hlne⟩,
      hcc, hcne, hdec, hcd⟩
  | twoStep =>
    cases hl
    exact ⟨c, ⟨htarget, hp⟩, hp, ⟨hct, htne⟩, ⟨hcc, hcne⟩, hcc, hcne, hdec, hcd⟩

namespace Ran

variable {b : Block Hash Sig} {t n : Hash} (hr : Ran S build s n b t s')
include hr

theorem hqc_cases : s'.hqc = s.hqc ∨ s'.hqc = (t, b.qc) := by
  rw [hr.hqc]
  unfold advance raiseLock updateHqc
  repeat' split
  all_goals simp

theorem bLock_cases (h : CoreOk S s) (hn : s.delivered n = true) : s'.bLock = s.bLock ∨ Cites S s s'.bLock := by
  have hlock : (s.updateHqc t b.qc).bLock = s.bLock := by
    unfold updateHqc
    split <;> rfl
  rw [hr.bLock]
  cases hl : s.lockTarget build t with
  | none =>
    simp only [advance, hl, hlock]
    exact .inl trivial
  | some l =>
    simp only [advance, hl, raiseLock]
    split
    · exact .inr (h.cites_lockTarget hn hr.ne hr.target hr.undecided hl)
    · exact .inl hlock

end Ran

theorem Core.le_ran_bLock (h : CoreOk S s) (hu : Updated build s n s')
    (hr : Ran S build s n b t s') (hl : s.lockTarget build t = some l) :
    s.height l ≤ s'.height s'.bLock := by
  rw [(hu.same h).1, hr.bLock]
  exact h.le_advance _ hl

/-- Where `update` throws, the block it would commit is off the committed chain. -/
theorem Core.CoreOk.refused_spec (h : CoreOk S s) (hn : s.delivered n = true)
    (hr : Refused build s n e s') : ∃ t l c, S.Locks build t c ∧ S.par t = some l ∧
      (Cites S s t ∧ t ≠ S.genesis) ∧ (Cites S s l ∧ l ≠ S.genesis) ∧ (Cites S s c ∧ c ≠ S.genesis) ∧
      s.decision c = false ∧ s.delivered c = true ∧ ¬ S.Ext s.bExec c := by
  cases hr with
  | @intro b t c _ hb ht hd hc hrun =>
    obtain ⟨hne, htarget, -, -⟩ := h.qc_of_stored hb ht hd
    obtain ⟨l, hlock, hp, hct, hcl, hcc, hcne, hdec, hcd⟩ :=
      h.cites_commitTarget hn hne htarget hd hc
    obtain ⟨-, -, hnext⟩ := h.commit_error hb ht hd hc hrun
    rw [bExec_advance] at hnext
    exact ⟨t, l, c, hlock, hp, hct, hcl, ⟨hcc, hcne⟩, hdec, hcd, hnext⟩

/-- Once `update` has run for `n`, the lock is at or above what `n` locks. -/
theorem Core.ran_locked (h : CoreOk S s) (hn : s.delivered n = true)
    (hu : Updated build s n s') (hl : S.Locks build n a) (hk : S.Height a k) :
    k ≤ s'.height s'.bLock := by
  have hle : s.height s.bLock ≤ s'.height s'.bLock := (h.updated hu).2.bLock
  have hparent {x p} (hp : S.par x = some p) (hx : s.delivered x = true) : s.delivered p = true := by
    obtain ⟨p', hp', -, hd, -⟩ := h.store.link (S.ne_genesis_of_par hp) (.inr hx)
    cases hp.symm.trans hp'
    exact hd
  have hcert {x t} (ht : S.target x = some t) (hp : S.par x = some t) (hx : s.delivered x = true) :
      s.qcRef x = some t := by
    obtain ⟨t', ht', hq, -⟩ := h.store.ref (S.ne_genesis_of_par hp) hx
    cases ht.symm.trans ht'
    exact hq
  have hrun := ran_spec h (.inl hu) (e := .safetyBreached) .refl
  cases build with
  | threeStep =>
    obtain ⟨l, htl, hpl, hta, hpa⟩ := hl
    have hq := hcert htl hpl hn
    have hld := hparent hpl hn
    rcases hrun with ⟨-, hdec⟩ | ⟨b, t, hr⟩
    · exact Nat.le_trans (h.decided_le (hdec _ hq) (.of_par hpa) hk) hle
    · cases hq.symm.trans hr.qcRef
      by_cases hd : s.decision a = true
      · exact Nat.le_trans (h.decided_le hd .refl hk) hle
      · have hlock := le_ran_bLock h hu hr (l := a) (by simp [lockTarget, hcert hta hpa hld, hd])
        rwa [h.store.height_eq (h.store.placed_of_delivered (hparent hpa hld)) hk] at hlock
  | twoStep =>
    have hq := hcert hl.1 hl.2 hn
    rcases hrun with ⟨-, hdec⟩ | ⟨b, t, hr⟩
    · exact Nat.le_trans (h.decided_le (hdec _ hq) .refl hk) hle
    · cases hq.symm.trans hr.qcRef
      have hlock := le_ran_bLock h hu hr rfl
      rwa [h.store.height_eq (h.store.placed_of_delivered (hparent hl.2 hn)) hk] at hlock

/-- In the two-step build the lock is then at or above the certified block too. -/
theorem Core.ran_twoStep (h : CoreOk S s) (hu : Updated .twoStep s n s')
    (hq : s.qcRef n = some q) : s'.height q ≤ s'.height s'.bLock := by
  rcases ran_spec h (.inl hu) (e := .safetyBreached) .refl with ⟨-, hdec⟩ | ⟨b, t, hr⟩
  · have hd := hdec _ hq
    have hqd := h.store.delivered_of_decision hd
    rw [congrFun (hu.same h).1 q]
    refine Nat.le_trans ?_ (h.updated hu).2.bLock
    exact h.decided_le hd .refl (h.store.height (h.store.placed_of_delivered hqd))
  · cases hq.symm.trans hr.qcRef
    rw [congrFun (hu.same h).1 q]
    exact le_ran_bLock h hu hr rfl

-- ---------------------------------------------------------------------------
-- Counted votes
-- ---------------------------------------------------------------------------

theorem Core.SameVotes.of_storage (h : s'.storage = s.storage) : SameVotes s s' := by
  refine ⟨?_, ?_⟩ <;> funext x
  · simp [Core.voted, h]
  · simp [Core.selfQc, h]

theorem Core.SameVotes.trans (h : SameVotes s s') (h' : SameVotes s' s'') : SameVotes s s'' :=
  ⟨h'.voted.trans h.voted, h'.selfQc.trans h.selfQc⟩

theorem Core.Updated.sameVotes (h : CoreOk S s) (hu : Updated build s n s') : SameVotes s s' := by
  cases hu with
  | idle => exact .of_storage rfl
  | advanced => exact .of_storage storage_advance
  | @committed b t c _ hb ht hd hc hrun =>
    obtain ⟨l, s₁, -, hdec, rfl⟩ := h.commit_ok hb ht hd hc hrun
    exact (SameVotes.of_storage storage_advance).trans (hdec.votes.trans (.of_storage rfl))

theorem Core.ran_sameVotes (h : CoreOk S s)
    (hu : Updated build s n s₂ ∨ Refused build s n e s₂) (hs : SameChain s₂ s') :
    SameVotes s s' := by
  refine SameVotes.trans ?_ (.of_storage hs.storage)
  rcases hu with hu | hr
  · exact hu.sameVotes h
  · exact .of_storage (h.refused hr).2.2.2.1

theorem Core.voted_setBlk_votes {b : Block Hash Sig} : (s.setBlk h { b with voted := vs, selfQc := q }).voted x =
    if x = h then vs else s.voted x := voted_setBlk

/-- A counted vote joins the votes for its block. -/
theorem Core.Counted.voted (hc : Counted S s v fs s') : v.voter ∉ s.voted v.blkHash ∧
    s'.voted x = if x = v.blkHash then v.voter :: s.voted x else s.voted x := by
  cases hc with
  | part hb _ hv =>
    rw [voted_setBlk_votes]
    refine ⟨voted_of hb ▸ hv, ?_⟩
    split
    · rename_i hx
      rw [hx, voted_of hb]
    · rfl
  | full hb _ hv =>
    rw [congrFun (SameVotes.of_storage storage_updateHqc).voted x, voted_setBlk_votes]
    refine ⟨voted_of hb ▸ hv, ?_⟩
    split
    · rename_i hx
      rw [hx, voted_of hb]
    · rfl

theorem Core.Miscounted.voted (hc : Miscounted S s v e s') : v.voter ∉ s.voted v.blkHash ∧
    s'.voted x = if x = v.blkHash then v.voter :: s.voted x else s.voted x := by
  cases hc with
  | intro hb _ hv =>
    rw [voted_setBlk_votes]
    refine ⟨voted_of hb ▸ hv, ?_⟩
    split
    · rename_i hx
      rw [hx, voted_of hb]
    · rfl

theorem Core.Counted.rest (hc : Counted S s v fs s') : s'.bLock = s.bLock ∧ s'.bExec = s.bExec ∧
    (s'.hqc = s.hqc ∨ ∃ q, s'.hqc = (v.blkHash, q) ∧ s'.selfQc v.blkHash = some q ∧
      0 < s'.height v.blkHash ∧ (s'.voted v.blkHash).length = S.nmajority) := by
  cases hc with
  | part => exact ⟨rfl, rfl, .inl rfl⟩
  | @full b q hb hd hv hn hq =>
    generalize hs₁ : s.setBlk v.blkHash { b with voted := v.voter :: b.voted, selfQc := some q } = s₁
    have hb₁ : s₁.storage v.blkHash = some { b with voted := v.voter :: b.voted, selfQc := some q } := by
      rw [← hs₁, storage_setBlk_self]
    have hvotes : SameVotes s₁ (s₁.updateHqc v.blkHash q) := .of_storage storage_updateHqc
    rw [(s₁.same_updateHqc v.blkHash q).1, hvotes.voted, hvotes.selfQc, voted_of hb₁, selfQc_of hb₁]
    have hrest : s₁.bLock = s.bLock ∧ s₁.bExec = s.bExec ∧ s₁.hqc = s.hqc := by
      rw [← hs₁]
      exact ⟨rfl, rfl, rfl⟩
    unfold updateHqc
    split
    · rename_i hlt
      exact ⟨hrest.1, hrest.2.1, .inr ⟨q, rfl, rfl, Nat.zero_lt_of_lt hlt, hn⟩⟩
    · exact ⟨hrest.1, hrest.2.1, .inl hrest.2.2⟩

theorem Core.Miscounted.rest (hc : Miscounted S s v e s') : s'.hqc = s.hqc ∧
    s'.bLock = s.bLock ∧ s'.bExec = s.bExec := by
  cases hc
  exact ⟨rfl, rfl, rfl⟩

theorem Replica.Effect.voted (h : CoreOk S r.core) (hs : Effect S O r e s') (x : Hash) :
    s'.voted x = r.core.voted x ∨ ∃ v s₁, r.Brings S e v s₁ ∧ s'.out = s₁.out ∧ v.blkHash = x ∧
      v.voter ∉ r.core.voted x ∧ s'.voted x = v.voter :: r.core.voted x := by
  cases hs with
  | quiet hq => exact .inl (congrFun (SameVotes.of_storage hq.storage).voted x)
  | store hst => exact .inl (congrFun hst.sameVotes.voted x)
  | update hm hu hq =>
    obtain ⟨hok, -, -, hv, -⟩ := hm.spec h
    exact .inl (congrFun ((ran_sameVotes hok hu hq).voted.trans hv) x)
  | @count e v s₁ fs s' hq hv hc =>
    have hsame := (SameVotes.of_storage hq.storage).voted
    obtain ⟨hnew, hvoted⟩ := hc.voted (x := x)
    rw [hsame] at hnew hvoted
    by_cases hx : x = v.blkHash
    · subst hx
      exact .inr ⟨v, s₁, hv, hc.out_eq, rfl, hnew, by rw [hvoted, if_pos rfl]⟩
    · exact .inl (by rw [hvoted, if_neg hx])
  | @miscount e v s₁ err s' hq hv hc =>
    have hsame := (SameVotes.of_storage hq.storage).voted
    obtain ⟨hnew, hvoted⟩ := hc.voted (x := x)
    rw [hsame] at hnew hvoted
    by_cases hx : x = v.blkHash
    · subst hx
      exact .inr ⟨v, s₁, hv, hc.out_eq, rfl, hnew, by rw [hvoted, if_pos rfl]⟩
    · exact .inl (by rw [hvoted, if_neg hx])

-- ---------------------------------------------------------------------------
-- 'safety breached'
-- ---------------------------------------------------------------------------

theorem Replica.Stepped.breached (hs : Stepped S O r e r')
    (ht : r'.thrown = r.thrown ++ [.safetyBreached]) :
    ∃ s₁ n, r.Mid S e s₁ n ∧ Refused O.build s₁ n .safetyBreached r'.core := by
  cases hs with
  | call => simp at ht
  | idle => simp at ht
  | frame => simp at ht
  | @callThrew c e s' hp =>
    obtain rfl : e = .safetyBreached := by simpa using ht
    cases c with
    | addBlk w => exact hp.elim
    | deliver blk => exact absurd rfl hp.1
    | propose cmds parents extra =>
      rcases hp with ⟨he, -⟩ | ⟨n, s₁, hprop, hr | ⟨he, -⟩⟩
      · cases he
      · exact ⟨s₁, n, .inr ⟨_, _, _, rfl, hprop⟩, hr⟩
      · cases he
    | receiveProposal prop =>
      obtain ⟨-, ⟨he, -⟩ | ⟨hd, hr⟩⟩ := hp
      · cases he
      · exact ⟨r.core, prop.blk, .inl ⟨rfl, hd⟩, hr⟩
    | receiveVote v =>
      rcases hp with ⟨he, -⟩ | hp
      · cases he
      · exact absurd rfl hp.ne_safetyBreached
    | asyncQcFinish blk => exact hp.elim
    | rejectPm pm => exact hp.elim
  | @frameThrew f rest e s' hs hp =>
    obtain rfl : e = .safetyBreached := by simpa using ht
    cases f with
    | vote prop op =>
      obtain ⟨-, ⟨he, -⟩ | hp⟩ := hp
      · cases he
      · exact absurd rfl hp.ne_safetyBreached
    | _ => exact hp.elim

theorem Replica.Stepped.thrown_cases (hs : Stepped S O r e r') :
    r'.thrown = r.thrown ∨ ∃ x, r'.thrown = r.thrown ++ [x] := by
  cases hs with
  | call => exact .inl rfl
  | callThrew => exact .inr ⟨_, rfl⟩
  | idle => exact .inl rfl
  | frame => exact .inl rfl
  | frameThrew => exact .inr ⟨_, rfl⟩

end

end HotStuffTx
