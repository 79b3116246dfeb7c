import HotStuffTx.Update

/-!
# The committed chain

`CoreOk` is what holds of a replica after any calls: the blocks passed to
`do_consensus` are the path from the genesis block to `b_exec`, the `do_decide`
calls are those of that path in order, and the decided blocks are `b_exec` with
its ancestors. `Advances` is what moves only upwards.
-/

set_option linter.unusedSectionVars false

namespace HotStuffTx

open Forest

def Output.isCommit : Output Hash Sig → Bool
  | .consensus _ | .decide _ => true
  | .vote _ _ | .broadcast _ => false

/-- The blocks passed to `do_consensus`. -/
def committed (out : List (Output Hash Sig)) : List Hash :=
  out.filterMap fun | .consensus h => some h | _ => none

namespace Core

variable {Hash Sig : Type} [DecidableEq Hash]

structure CoreOk (S : Setup Hash Sig) (s : Core Hash Sig) : Prop where
  store : StoreOk S s
  selfQc : s.selfQc h = some q → q.objHash = h
  hqc : Placed S s s.hqc.1
  hqcObj : s.hqc.2.objHash = s.hqc.1
  bLock : Placed S s s.bLock
  chain : Path S.par S.genesis (committed s.out) s.bExec
  decision : s.decision h = true ↔ S.Ext h s.bExec
  log : s.out.filter Output.isCommit =
    (committed s.out).flatMap fun h => .consensus h :: s.decides h
  lag : s.bExec = S.genesis ∨ s.height s.bExec < s.height s.bLock

structure Advances (s s' : Core Hash Sig) : Prop where
  grow : Grow s s'
  hqc : s.height s.hqc.1 ≤ s'.height s'.hqc.1
  bLock : s.height s.bLock ≤ s'.height s'.bLock
  bExec : s.height s.bExec ≤ s'.height s'.bExec
  vheight : s.vheight ≤ s'.vheight
  id : s'.id = s.id
  out : s.out <+: s'.out

variable {S : Setup Hash Sig} {s s' s'' : Core Hash Sig}

theorem Advances.refl : Advances s s :=
  ⟨.refl, Nat.le_refl _, Nat.le_refl _, Nat.le_refl _, Nat.le_refl _, rfl, List.prefix_rfl⟩

theorem Advances.trans (h : Advances s s') (h' : Advances s' s'') : Advances s s'' where
  grow := h.grow.trans h'.grow
  hqc := Nat.le_trans h.hqc h'.hqc
  bLock := Nat.le_trans h.bLock h'.bLock
  bExec := Nat.le_trans h.bExec h'.bExec
  vheight := Nat.le_trans h.vheight h'.vheight
  id := h'.id.trans h.id
  out := h.out.trans h'.out

-- ---------------------------------------------------------------------------
-- The commit
-- ---------------------------------------------------------------------------

/-- The commit goes through where the block descends from `b_exec`, and is
refused, with nothing written, where it does not. -/
theorem commit_spec (hs : StoreOk S s) (hc : s.delivered c = true)
    (he : s.delivered s.bExec = true) : Triple (commit c) s
      (fun _ s' => ∃ l s₁, Path S.par s.bExec l c ∧ Decides s l s₁ ∧ s' = { s₁ with bExec := c })
      (fun e s' => e = .safetyBreached ∧ s' = s ∧ ¬ S.Ext s.bExec c) := by
  have hpc := hs.placed_of_delivered hc
  have hpe := hs.placed_of_delivered he
  obtain ⟨q, e, hw, hpath, -⟩ := hs.walk_eq hpc (s.height s.bExec)
  have hends := hs.walk_ends hpe hpc hw
  unfold commit
  refine .get_bind ?_
  simp only [hw]
  refine .ite (fun h => ?_) fun h => .throw_bind ⟨rfl, rfl, fun hext => h (hends.mpr hext)⟩
  subst h
  exact ⟨q.reverse, _, hpath, decides_foldl, rfl⟩

theorem commitTarget_spec (hs : StoreOk S s)
    (hc : s.commitTarget build t = some c) :
    ∃ l, s.lockTarget build t = some l ∧ s.qcRef l = some c ∧ S.par l = some c ∧
      s.decision c = false ∧ s.delivered c = true ∧ s.delivered l = true ∧
      (build = .threeStep → s.qcRef t = some l ∧ S.par t = some l) := by
  cases build with
  | threeStep =>
    obtain ⟨l, hl, hc⟩ := Option.bind_eq_some_iff.mp hc
    obtain ⟨hq, hdl⟩ := Option.filter_eq_some_iff.mp hl
    obtain ⟨hqc, hpc⟩ := Option.filter_eq_some_iff.mp hc
    simp only [Bool.and_eq_true, Bool.not_eq_eq_eq_not, Bool.not_true, decide_eq_true_eq] at hdl hpc
    obtain ⟨⟨hdc, hpt⟩, hpl⟩ := hpc
    have htd := hs.delivered_of_qcRef hq
    have hld := hs.delivered_of_qcRef hqc
    rw [hs.parents_head htd] at hpt
    rw [hs.parents_head hld] at hpl
    obtain ⟨p, hp, -, hcd, -⟩ := hs.link (S.ne_genesis_of_par hpl) (.inr hld)
    cases hpl.symm.trans hp
    exact ⟨l, hl, hqc, hpl, hdc, hcd, hld, fun _ => ⟨hq, hpt⟩⟩
  | twoStep =>
    obtain ⟨hqc, hpc⟩ := Option.filter_eq_some_iff.mp hc
    simp only [Bool.and_eq_true, Bool.not_eq_eq_eq_not, Bool.not_true, decide_eq_true_eq] at hpc
    obtain ⟨hdc, hpt⟩ := hpc
    have htd := hs.delivered_of_qcRef hqc
    rw [hs.parents_head htd] at hpt
    obtain ⟨p, hp, -, hcd, -⟩ := hs.link (S.ne_genesis_of_par hpt) (.inr htd)
    cases hpt.symm.trans hp
    exact ⟨t, rfl, hqc, hpt, hdc, hcd, htd, nofun⟩

theorem committed_flatMap {l : List Hash} :
    committed (l.flatMap fun h => .consensus h :: s.decides h) = l := by
  induction l with
  | nil => rfl
  | cons a l ih =>
    have hnil : (s.decides a).filterMap (fun | .consensus h => some h | _ => none) = [] := by
      simp only [decides, List.filterMap_eq_nil_iff, List.mem_mapIdx]
      rintro _ ⟨i, hi, rfl⟩
      rfl
    simp only [committed] at ih
    simp only [committed, List.flatMap_cons, List.cons_append, List.filterMap_cons,
      List.filterMap_append, hnil, ih, List.nil_append]

-- ---------------------------------------------------------------------------
-- What keeps CoreOk
-- ---------------------------------------------------------------------------

namespace CoreOk

variable (h : CoreOk S s)
include h

theorem delivered_bExec : s.delivered s.bExec = true :=
  h.store.delivered_of_decision (h.decision.mpr .refl)

theorem delivered_of_mem (hx : x ∈ committed s.out) : s.delivered x = true :=
  h.store.delivered_of_decision
    (h.decision.mpr ((h.chain.mem_iff S.par_genesis).mp hx).1)

theorem bExec_le_bLock : s.height s.bExec ≤ s.height s.bLock := by
  rcases h.lag with hg | hlt
  · rw [hg, h.store.height_genesis]
    exact Nat.zero_le _
  · exact Nat.le_of_lt hlt

theorem decides_eq (hs' : StoreOk S s') (hg : Grow s s') (hid : s'.id = s.id)
    (hx : x ∈ committed s.out) : s'.decides x = s.decides x := by
  have hd := h.delivered_of_mem hx
  have hp := h.store.placed_of_delivered hd
  have hf := h.store.isBlkFetched_of_placed hp
  simp only [decides, hid, h.store.cmds hf, hs'.cmds (hg.fetched hf),
    hg.height_eq h.store hs' hp]

/-- Storing blocks and writing to the members the protocol does not decide with. -/
theorem stores (hst : Stores S s s') : CoreOk S s' ∧ Advances s s' := by
  have hheight {x} (hx : Placed S s x) := hst.grow.height_eq h.store hst.ok hx
  have hexec := h.store.placed_of_delivered h.delivered_bExec
  refine ⟨⟨hst.ok, fun hq => ?_, ?_, ?_, ?_, ?_, ?_, ?_, ?_⟩, ⟨hst.grow, ?_, ?_, ?_, ?_, hst.id, ?_⟩⟩
  · exact (hst.selfQc hq).elim h.selfQc fun hobj => hobj
  · exact hst.hqc ▸ hst.grow.placed h.hqc
  · exact hst.hqc ▸ h.hqcObj
  · exact hst.bLock ▸ hst.grow.placed h.bLock
  · rw [hst.out, hst.bExec]
    exact h.chain
  · rw [hst.decision, hst.bExec]
    exact h.decision
  · rw [hst.out, h.log]
    refine List.flatMap_congr fun x hx => ?_
    rw [h.decides_eq hst.ok hst.grow hst.id hx]
  · rw [hst.bExec, hst.bLock, hheight hexec, hheight h.bLock]
    exact h.lag
  · exact Nat.le_of_eq (by rw [hst.hqc, hheight h.hqc])
  · exact Nat.le_of_eq (by rw [hst.bLock, hheight h.bLock])
  · exact Nat.le_of_eq (by rw [hst.bExec, hheight hexec])
  · exact Nat.le_of_eq hst.vheight.symm
  · exact hst.out ▸ List.prefix_rfl

/-- Calls of `do_vote` and `do_broadcast_proposal`. -/
theorem emit {o : Output Hash Sig} (ho : o.isCommit = false) :
    CoreOk S { s with out := s.out ++ [o] } ∧ Advances s { s with out := s.out ++ [o] } := by
  have hc : committed (s.out ++ [o]) = committed s.out := by
    cases o <;> simp_all [committed, Output.isCommit]
  refine ⟨⟨h.store.of_storage rfl, h.selfQc, h.hqc, h.hqcObj, h.bLock, ?_, h.decision, ?_, h.lag⟩,
    ⟨.of_storage rfl, Nat.le_refl _, Nat.le_refl _, Nat.le_refl _, Nat.le_refl _, rfl,
      List.prefix_append _ _⟩⟩
  · exact hc ▸ h.chain
  · simp only [hc, List.filter_append, h.log, List.filter_cons, ho, List.filter_nil]
    exact List.append_nil _

theorem setVheight (hv : s.vheight ≤ v) :
    CoreOk S { s with vheight := v } ∧ Advances s { s with vheight := v } :=
  ⟨⟨h.store.of_storage rfl, h.selfQc, h.hqc, h.hqcObj, h.bLock, h.chain, h.decision, h.log, h.lag⟩,
    ⟨.of_storage rfl, Nat.le_refl _, Nat.le_refl _, Nat.le_refl _, hv, rfl, List.prefix_rfl⟩⟩

theorem updateHqc (hobj : qc.objHash = t) :
    CoreOk S (s.updateHqc t qc) ∧ Advances s (s.updateHqc t qc) := by
  unfold Core.updateHqc
  split
  · rename_i hlt
    exact ⟨⟨h.store.of_storage rfl, h.selfQc, .inr (by exact Nat.zero_lt_of_lt hlt), hobj, h.bLock,
      h.chain, h.decision, h.log, h.lag⟩,
      ⟨.of_storage rfl, Nat.le_of_lt hlt, Nat.le_refl _, Nat.le_refl _, Nat.le_refl _, rfl,
        List.prefix_rfl⟩⟩
  · exact ⟨h, .refl⟩

theorem raiseLock : CoreOk S (s.raiseLock l) ∧ Advances s (s.raiseLock l) := by
  unfold Core.raiseLock
  split
  · rename_i hlt
    exact ⟨⟨h.store.of_storage rfl, h.selfQc, h.hqc, h.hqcObj, .inr (by exact Nat.zero_lt_of_lt hlt),
      h.chain, h.decision, h.log, h.lag.imp_right fun hlag => Nat.lt_trans hlag hlt⟩,
      ⟨.of_storage rfl, Nat.le_refl _, Nat.le_of_lt hlt, Nat.le_refl _, Nat.le_refl _, rfl,
        List.prefix_rfl⟩⟩
  · exact ⟨h, .refl⟩

theorem advance (build : Build) (hobj : qc.objHash = t) :
    CoreOk S (s.advance build t qc) ∧ Advances s (s.advance build t qc) := by
  obtain ⟨hok, hadv⟩ := h.updateHqc hobj
  unfold Core.advance
  split
  · exact ⟨hok, hadv⟩
  · exact ⟨hok.raiseLock.1, hadv.trans hok.raiseLock.2⟩

theorem commit {l : List Hash} (hpath : Path S.par s.bExec l c) (hcd : s.delivered c = true)
    (hlt : s.height c < s.height s.bLock) (hd : Decides s l s₁) :
    CoreOk S { s₁ with bExec := c } ∧ Advances s { s₁ with bExec := c } := by
  obtain ⟨hheight, -, -, hdel, hcmds, hfetched⟩ := hd.same
  have hchain := h.chain.append hpath
  have hmem {x} := hchain.mem_iff S.par_genesis (x := x)
  have hdx {x} (hx : S.Ext x c) : s.delivered x = true := by
    rcases h.store.delivered_of_ext (h.store.placed_of_delivered hcd) hx with rfl | hxd
    · exact hcd
    · exact hxd
  have hl : ∀ x ∈ l, s.delivered x = true :=
    fun x hx => hdx (hmem.mp (List.mem_append_right _ hx)).1
  have hs₁ : StoreOk S s₁ := hd.storeOk h.store hl
  have hdecides : s₁.decides = s.decides := by
    funext x
    simp only [decides, hd.id, hcmds, hheight]
  have hcommitted : committed s₁.out = committed s.out ++ l := by
    rw [hd.out, committed, List.filterMap_append]
    exact congrArg _ committed_flatMap
  have hexec : s.height s.bExec ≤ s.height c :=
    hpath.ext.height_le S.par_genesis
      (h.store.height (h.store.placed_of_delivered h.delivered_bExec))
      (h.store.height (h.store.placed_of_delivered hcd))
  have hgrow : Grow s { s₁ with bExec := c } := hd.grow.trans (.of_storage rfl)
  refine ⟨⟨hs₁.of_storage rfl, ?_, ?_, ?_, ?_, ?_, ?_, ?_, ?_⟩, ⟨hgrow, ?_, ?_, ?_, ?_, hd.id, ?_⟩⟩
  · intro x q hq
    exact h.selfQc (by rw [← hd.votes.selfQc]; exact hq)
  · exact hgrow.placed (hd.hqc ▸ h.hqc)
  · exact (hd.hqc ▸ h.hqcObj :)
  · exact hgrow.placed (hd.bLock ▸ h.bLock)
  · exact (hcommitted ▸ hchain :)
  · intro x
    refine (hd.decision (x := x)).trans ⟨?_, fun hx => ?_⟩
    · rintro (hx | ⟨hx, -⟩)
      · exact (h.decision.mp hx).trans hpath.ext
      · exact (hmem.mp (List.mem_append_right _ hx)).1
    · by_cases hg : x = S.genesis
      · exact .inl (hg ▸ h.store.decision_genesis)
      · rcases List.mem_append.mp (hmem.mpr ⟨hx, hg⟩) with hxl | hxl
        · exact .inl (h.decision.mpr ((h.chain.mem_iff S.par_genesis).mp hxl).1)
        · exact .inr ⟨hxl, h.store.isBlkFetched_of_placed (h.store.placed_of_delivered (hdx hx))⟩
  · show s₁.out.filter Output.isCommit = (committed s₁.out).flatMap fun h => .consensus h :: s₁.decides h
    rw [hcommitted, hdecides, hd.out, List.filter_append, h.log, List.flatMap_append]
    refine congrArg _ (List.filter_eq_self.mpr fun o ho => ?_)
    obtain ⟨x, -, ho⟩ := List.mem_flatMap.mp ho
    rcases List.mem_cons.mp ho with rfl | ho
    · rfl
    · obtain ⟨i, hi, rfl⟩ := List.mem_mapIdx.mp ho
      rfl
  · refine .inr ?_
    show s₁.height c < s₁.height s₁.bLock
    rw [hheight, hd.bLock]
    exact hlt
  · exact Nat.le_of_eq (by show _ = s₁.height s₁.hqc.1; rw [hheight, hd.hqc])
  · exact Nat.le_of_eq (by show _ = s₁.height s₁.bLock; rw [hheight, hd.bLock])
  · show _ ≤ s₁.height c
    rw [hheight]
    exact hexec
  · exact Nat.le_of_eq hd.vheight.symm
  · exact hd.out ▸ List.prefix_append _ _

/-- What is known of the block a delivered block names with its certificate. -/
theorem qc_of_stored (hb : s.storage n = some b) (ht : b.qcRef = some t)
    (hd : s.decision t = false) : n ≠ S.genesis ∧ S.target n = some t ∧ b.qc.objHash = t ∧
      s.isBlkFetched t = true := by
  have hne : n ≠ S.genesis := by
    rintro rfl
    obtain ⟨g, hg, -, -, -, -, hq, -⟩ := h.store.genesis
    cases hb.symm.trans hg
    cases ht.symm.trans hq
    simp [h.store.decision_genesis] at hd
  have hq : s.qcRef n = some t := by rw [qcRef_of hb, ht]
  obtain ⟨t', ht', hr, hf⟩ := h.store.ref hne (h.store.delivered_of_qcRef hq)
  cases hq.symm.trans hr
  rw [target_of_wire (h.store.wire hb hne)] at ht'
  exact ⟨hne, h.store.qcRef_target hq hne, by simpa using ht', hf⟩

theorem le_advance (qc : QuorumCert Hash Sig) (hl : s.lockTarget build t = some l) :
    s.height l ≤ s.height (s.advance build t qc).bLock := by
  have hheight : (s.updateHqc t qc).height = s.height :=
    (eq_of_storage storage_updateHqc).1
  simp only [Core.advance, hl, Core.raiseLock, hheight]
  split
  · exact Nat.le_refl _
  · omega

theorem commitTarget_lt (qc : QuorumCert Hash Sig) (hc : s.commitTarget build t = some c) :
    s.delivered c = true ∧ s.height c < s.height (s.advance build t qc).bLock := by
  obtain ⟨l, hl, -, hp, -, hcd, hld, -⟩ := commitTarget_spec h.store hc
  obtain ⟨p, hp', -, -, hk⟩ := h.store.link (S.ne_genesis_of_par hp) (.inr hld)
  cases hp.symm.trans hp'
  have := h.le_advance qc hl
  exact ⟨hcd, by omega⟩

/-- The commit of `update` runs in this state. -/
theorem committing {b : Block Hash Sig} (hb : s.storage n = some b) (ht : b.qcRef = some t)
    (hd : s.decision t = false) (hc : s.commitTarget build t = some c) :
    CoreOk S (s.advance build t b.qc) ∧ Advances s (s.advance build t b.qc) ∧
      (s.advance build t b.qc).delivered c = true ∧
      (s.advance build t b.qc).height c < (s.advance build t b.qc).height (s.advance build t b.qc).bLock := by
  obtain ⟨hok, hadv⟩ := h.advance build (h.qc_of_stored hb ht hd).2.2.1
  obtain ⟨hcd, hlt⟩ := h.commitTarget_lt b.qc hc
  obtain ⟨hheight, -, -, -, hdel⟩ := s.same_advance build t b.qc
  exact ⟨hok, hadv, by rwa [hdel], by rwa [hheight]⟩

theorem commit_ok {b : Block Hash Sig} (hb : s.storage n = some b) (ht : b.qcRef = some t)
    (hd : s.decision t = false) (hc : s.commitTarget build t = some c)
    (hrun : Core.commit c (s.advance build t b.qc) = .ok ⟨⟩ s') :
    ∃ l s₁, Path S.par (s.advance build t b.qc).bExec l c ∧ Decides (s.advance build t b.qc) l s₁ ∧
      s' = { s₁ with bExec := c } := by
  obtain ⟨hok, -, hcd, -⟩ := h.committing hb ht hd hc
  exact (commit_spec hok.store hcd hok.delivered_bExec).ok hrun

theorem commit_error {b : Block Hash Sig} (hb : s.storage n = some b) (ht : b.qcRef = some t)
    (hd : s.decision t = false) (hc : s.commitTarget build t = some c)
    (hrun : Core.commit c (s.advance build t b.qc) = .error e s') :
    e = .safetyBreached ∧ s' = s.advance build t b.qc ∧
      ¬ S.Ext (s.advance build t b.qc).bExec c := by
  obtain ⟨hok, -, hcd, -⟩ := h.committing hb ht hd hc
  exact (commit_spec hok.store hcd hok.delivered_bExec).error hrun

theorem updated (hu : Updated build s n s') : CoreOk S s' ∧ Advances s s' := by
  cases hu with
  | idle => exact ⟨h, .refl⟩
  | advanced hb ht hd hc => exact h.advance build (h.qc_of_stored hb ht hd).2.2.1
  | @committed b t c _ hb ht hd hc hrun =>
    obtain ⟨hok, hadv, hcd, hlt⟩ := h.committing hb ht hd hc
    obtain ⟨l, s₁, hpath, hdec, rfl⟩ := h.commit_ok hb ht hd hc hrun
    obtain ⟨hok', hadv'⟩ := hok.commit hpath hcd hlt hdec
    exact ⟨hok', hadv.trans hadv'⟩

/-- `update` throws only 'safety breached', and then has moved `hqc` and the
lock alone. -/
theorem refused (hr : Refused build s n e s') : e = .safetyBreached ∧ CoreOk S s' ∧ Advances s s' ∧
    s'.storage = s.storage ∧ s'.bExec = s.bExec ∧ s'.out = s.out ∧ s'.vheight = s.vheight := by
  cases hr with
  | @intro b t c _ hb ht hd hc hrun =>
    obtain ⟨hok, hadv, -, -⟩ := h.committing hb ht hd hc
    obtain ⟨rfl, rfl, -⟩ := h.commit_error hb ht hd hc hrun
    refine ⟨rfl, hok, hadv, storage_advance, ?_⟩
    unfold Core.advance Core.raiseLock Core.updateHqc
    repeat' split
    all_goals exact ⟨rfl, rfl, rfl⟩

end CoreOk

end Core

end HotStuffTx
