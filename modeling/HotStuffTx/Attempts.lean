import HotStuffTx.Formation
import HotStuffTx.HighTail
import HotStuffTx.Safe

/-!
# When `on_propose` goes through

`get_parents()` gives `hqc_tail`, while `vheight` follows the votes, and the
two may part: a vote for a branch off the block of `hqc` raises `vheight` past
every tail above that block. `Proposable` is what the state must meet for
`on_propose(cmds, get_parents())` to return; what it has left to run when the
first callback is reached never throws.
-/

set_option linter.unusedSectionVars false

namespace HotStuffTx

open Core Forest

variable {Hash Sig : Type} [DecidableEq Hash]

namespace Core

/-- The hash of the block `on_propose(cmds, get_parents(), extra)` builds. -/
def bnew (S : Setup Hash Sig) (s : Core Hash Sig) (cmds : List Hash) (extra : List UInt8) : Hash :=
  S.hash (s.newBlock cmds s.getParents extra s.hqcTail).wire

/-- `on_propose(cmds, get_parents(), extra)` reaches its first callback with a
new block above `vheight`. -/
def Succeeds (S : Setup Hash Sig) (build : Build) (s : Core Hash Sig) (cmds : List Hash)
    (extra : List UInt8) : Prop :=
  ∃ frames s', onPropose S build cmds s.getParents extra s = .ok frames s' ∧
    s.storage (s.bnew S cmds extra) = none ∧ s.vheight < s'.height (s.bnew S cmds extra)

/-- `hqc_tail` is as high as the last vote, the content is new, and what the
certificate of `hqc` commits descends from `b_exec`. -/
structure Proposable (S : Setup Hash Sig) (build : Build) (s : Core Hash Sig) (cmds : List Hash)
    (extra : List UInt8) : Prop where
  tail : s.vheight ≤ s.height s.hqcTail
  fresh : s.storage (s.bnew S cmds extra) = none
  commits : ∀ c, s.decision s.hqc.1 = false → s.commitTarget build s.hqc.1 = some c →
    s.checkAncestry s.bExec c = true

/-- What the certificate of `n` has `update` commit descends from `b_exec`. -/
def CommitsAbove (build : Build) (s : Core Hash Sig) (n : Hash) : Prop :=
  ∀ t, s.qcRef n = some t → s.decision t = false → ∀ c, s.commitTarget build t = some c →
    s.checkAncestry s.bExec c = true

instance (build : Build) (s : Core Hash Sig) (n : Hash) : Decidable (s.CommitsAbove build n) := by
  unfold CommitsAbove
  infer_instance

end Core

section
variable {S : Setup Hash Sig} {O : Options} {s s' s₁ s₂ : Core Hash Sig}

-- ---------------------------------------------------------------------------
-- The update of a proposal
-- ---------------------------------------------------------------------------

theorem Core.StoreOk.isBlkFetched_of_qcRef (hs : StoreOk S s) (hq : s.qcRef t = some l) :
    s.isBlkFetched l = true := by
  by_cases ht : t = S.genesis
  · obtain ⟨g, hg, -, -, -, -, hqg, -⟩ := hs.genesis
    rw [ht, qcRef_of hg, hqg] at hq
    cases hq
    exact isBlkFetched_of hg
  · obtain ⟨t', -, hr, hf⟩ := hs.ref ht (hs.delivered_of_qcRef hq)
    cases hq.symm.trans hr
    exact hf

/-- Storing a new block changes no commit. -/
theorem Core.Writable.commitTarget_eq {b : Block Hash Sig} (hw : Writable S s n b)
    (hs : StoreOk S s) (hn : s.storage n = none) (ht : s.isBlkFetched t = true) :
    (s.setBlk n b).commitTarget build t = s.commitTarget build t := by
  have hne {x} (hx : s.isBlkFetched x = true) : x ≠ n := by
    rintro rfl
    simp [isBlkFetched, hn] at hx
  have hqc {x} (hx : s.isBlkFetched x = true) : (s.setBlk n b).qcRef x = s.qcRef x := by
    rw [qcRef_setBlk, if_neg (hne hx)]
  have hpar {x} (hx : s.isBlkFetched x = true) : (s.setBlk n b).parents x = s.parents x := by
    rw [parents_setBlk, if_neg (hne hx)]
  have hdec x : (s.setBlk n b).decision x = s.decision x := hw.decision_eq
  cases build with
  | threeStep =>
    simp only [commitTarget, lockTarget, hqc ht, hpar ht, hdec]
    cases hl : s.qcRef t with
    | none => rfl
    | some l =>
      have hf := hs.isBlkFetched_of_qcRef hl
      cases hdl : s.decision l with
      | true => simp [Option.filter_some, hdl]
      | false => simp [Option.filter_some, hdl, hqc hf, hpar hf]
  | twoStep => simp only [commitTarget, hqc ht, hpar ht, hdec]

theorem Core.Updated.vheight_eq (h : CoreOk S s) (hu : Updated build s n s') :
    s'.vheight = s.vheight := by
  have hadv {t qc} : (s.advance build t qc).vheight = s.vheight := by
    unfold advance raiseLock updateHqc
    repeat' split
    all_goals rfl
  cases hu with
  | idle => rfl
  | advanced => exact hadv
  | @committed b t c _ hb ht hd hc hrun =>
    obtain ⟨l, s₁, -, hdec, rfl⟩ := h.commit_ok hb ht hd hc hrun
    exact hdec.vheight.trans hadv

/-- `check_ancestry` from `b_exec` to a block that could be committed. -/
theorem Core.CoreOk.checkAncestry_bExec (h : CoreOk S s) (hc : s.commitTarget build t = some c) :
    s.checkAncestry s.bExec c = true ↔ S.Ext s.bExec c := by
  obtain ⟨-, -, -, -, -, hcd, -⟩ := commitTarget_spec h.store hc
  exact h.store.checkAncestry_iff (h.store.placed_of_delivered h.delivered_bExec)
    (h.store.placed_of_delivered hcd)

theorem Core.Updated.commitsAbove (h : CoreOk S s) (hu : Updated build s n s') :
    CommitsAbove build s n := by
  intro t hq hdec c hc
  cases hu with
  | idle hidle => rw [hidle _ hq] at hdec; cases hdec
  | advanced hb ht _ hnone =>
    rw [qcRef_of hb, ht] at hq
    cases hq
    rw [hc] at hnone
    cases hnone
  | committed hb ht hd hc' hrun =>
    rw [qcRef_of hb, ht] at hq
    cases hq
    cases hc.symm.trans hc'
    obtain ⟨l, s₃, hpath, -⟩ := h.commit_ok hb ht hd hc hrun
    rw [bExec_advance] at hpath
    exact (h.checkAncestry_bExec hc).mpr hpath.ext

theorem Core.Refused.not_commitsAbove (h : CoreOk S s) (hr : Refused build s n e s') :
    ¬ CommitsAbove build s n := by
  intro hall
  cases hr with
  | intro hb ht hd hc hrun =>
    have hbreach := (h.commit_error hb ht hd hc hrun).2.2
    rw [bExec_advance] at hbreach
    exact hbreach ((h.checkAncestry_bExec hc).mp (hall _ ((qcRef_of hb).trans ht) hd _ hc))

/-- A block proposed on a delivered parent is one higher. -/
theorem Core.Proposed.height_eq {cmds parents : List Hash} {extra : List UInt8}
    (hp : Proposed S s cmds parents extra n s') (hhead : parents.head? = some p) :
    s'.height n = s.height p + 1 := by
  have hhead' := hp.par_eq
  cases hp with
  | @intro p' b ts _ _ hw hd _ _ _ =>
    obtain ⟨q, hq, -, -, hk⟩ := hw.link (.inr hd)
    obtain ⟨p'', hp'', hpar⟩ := hhead'
    cases hhead.symm.trans hp''
    cases hpar.symm.trans hq
    have : Core.height { s.setBlk n b with tails := ts } n = b.height := height_of storage_setBlk_self
    omega

variable {cmds : List Hash} {extra : List UInt8}

/-- The block proposed is the one whose hash was computed. -/
theorem Core.Proposed.bnew_eq (hp : Proposed S s cmds s.getParents extra n s') :
    n = s.bnew S cmds extra := by
  obtain ⟨p, hhead, hwire⟩ := hp.wire_eq
  cases hhead
  exact (S.wireOf_eq_some.mp hwire).symm

/-- What `update` looks at for a new block: the block of `hqc`, and what it commits. -/
theorem Core.Proposed.update_eq (h : CoreOk S s) {parents : List Hash}
    (hp : Proposed S s cmds parents extra n s₁) (hn : s.storage n = none) :
    s₁.qcRef n = some s.hqc.1 ∧ s₁.decision = s.decision ∧
      ∀ build, s₁.commitTarget build s.hqc.1 = s.commitTarget build s.hqc.1 := by
  have htarget := hp.target_eq h
  have hst := hp.stores h.store
  cases hp with
  | @intro p b ts _ _ hw hd _ _ _ =>
    obtain ⟨t, ht, hq, -⟩ := hw.ref hd
    cases htarget.symm.trans ht
    refine ⟨?_, hst.decision, fun build => ?_⟩
    · exact (qcRef_of (s := { s.setBlk n b with tails := ts }) storage_setBlk_self).trans hq
    · exact hw.commitTarget_eq h.store hn (h.store.isBlkFetched_of_placed h.hqc)

-- ---------------------------------------------------------------------------
-- The call
-- ---------------------------------------------------------------------------

/-- `on_propose` goes through exactly from a proposable state. -/
theorem Core.succeeds_iff (h : CoreOk S s) (hd : s.delivered s.hqcTail = true) :
    Succeeds S build s cmds extra ↔ Proposable S build s cmds extra := by
  have hparents : ∀ x ∈ s.getParents, s.delivered x = true := fun x hx => by
    rw [List.mem_singleton.mp hx]
    exact hd
  have hspec : Triple (onPropose S build cmds s.getParents extra) s _ _ := onPropose_spec h hparents
  have htail : s.getParents.head? = some s.hqcTail := rfl
  constructor
  · rintro ⟨frames, s', hrun, hfresh, hlt⟩
    obtain ⟨n, s₁, s₂, op, hp, hu, hv, hj, -⟩ := hspec.ok hrun
    obtain rfl := hp.bnew_eq
    have hok₁ := (h.stores (hp.stores h.store)).1
    have hheight := hp.height_eq htail
    have hjudged : s'.height = s₂.height := (eq_of_storage hj.sameChain.storage).1
    refine ⟨?_, hfresh, fun c hdec hc => ?_⟩
    · rw [hjudged, (hu.same hok₁).1, hheight] at hlt
      omega
    · obtain ⟨hq, hdec₁, hcommit⟩ := hp.update_eq h hfresh
      have hc₁ := (hcommit build).trans hc
      have hanc := hu.commitsAbove hok₁ _ hq (hdec₁ ▸ hdec) c hc₁
      rw [hok₁.checkAncestry_bExec hc₁, (hp.stores h.store).bExec] at hanc
      exact (h.checkAncestry_bExec hc).mpr hanc
  · intro hprop
    have hfresh := hprop.fresh
    cases hrun : onPropose S build cmds s.getParents extra s with
    | ok frames s' =>
      obtain ⟨n, s₁, s₂, op, hp, hu, -, hj, -⟩ := hspec.ok hrun
      obtain rfl := hp.bnew_eq
      have hok₁ := (h.stores (hp.stores h.store)).1
      refine ⟨frames, s', hrun, hfresh, ?_⟩
      have hjudged : s'.height = s₂.height := (eq_of_storage hj.sameChain.storage).1
      rw [hjudged, (hu.same hok₁).1, hp.height_eq htail]
      have := hprop.tail
      omega
    | error e s' =>
      exfalso
      rcases hspec.error hrun with ⟨-, -, hnil⟩ | ⟨n, s₁, hp, hr⟩
      · cases hnil
      obtain rfl := hp.bnew_eq
      have hst := hp.stores h.store
      have hok₁ := (h.stores hst).1
      obtain ⟨hq, hdec₁, hcommit⟩ := hp.update_eq h hfresh
      rcases hr with hr | ⟨-, hu, hle⟩
      · refine hr.not_commitsAbove hok₁ fun t hq' hdec c hc₁ => ?_
        cases hq.symm.trans hq'
        have hc := (hcommit build).symm.trans hc₁
        rw [hok₁.checkAncestry_bExec hc₁, hst.bExec, ← h.checkAncestry_bExec hc]
        exact hprop.commits c (hdec₁ ▸ hdec) hc
      · rw [hu.vheight_eq hok₁, hst.vheight, (hu.same hok₁).1, hp.height_eq htail] at hle
        have := hprop.tail
        omega

-- ---------------------------------------------------------------------------
-- The callbacks
-- ---------------------------------------------------------------------------

/-- The certificates a replica collects have a bit for each replica. -/
def Core.Sized (S : Setup Hash Sig) (s : Core Hash Sig) : Prop :=
  ∀ x q, s.selfQc x = some q → q.rids.length = S.nreplicas

theorem Core.Sized.getD (h : Sized S s) (hb : s.storage x = some b) :
    (b.selfQc.getD (.create S x)).rids.length = S.nreplicas := by
  cases hq : b.selfQc with
  | none => simp [QuorumCert.create]
  | some q => exact h x q (by rw [selfQc_of hb, hq])

theorem Core.Sized.setBlk {b : Block Hash Sig} (h : Sized S s)
    (hq : b.selfQc = some q) (hlen : q.rids.length = S.nreplicas) : Sized S (s.setBlk x b) := by
  intro y q' hq'
  rw [selfQc_setBlk] at hq'
  split at hq'
  · cases hq.symm.trans hq'
    exact hlen
  · exact h y q' hq'

theorem Core.SameVotes.sized (hv : SameVotes s s') (h : Sized S s) : Sized S s' :=
  fun x q hq => h x q (hv.selfQc ▸ hq)

theorem Replica.Effect.sized {r : Replica Hash Sig} (hs : Effect S O r e s') (hok : CoreOk S r.core)
    (h : Sized S r.core) : Sized S s' := by
  cases hs with
  | quiet hq => exact (SameVotes.of_storage hq.storage).sized h
  | store hst => exact hst.sameVotes.sized h
  | update hm hu hq =>
    obtain ⟨hok₁, -⟩ := hm.spec hok
    refine (ran_sameVotes hok₁ hu hq).sized ?_
    rcases hm with ⟨rfl, -⟩ | ⟨_, _, _, -, hp⟩
    · exact h
    · intro x q hx
      rw [hp.selfQc_eq] at hx
      split at hx
      · cases hx
        simp [QuorumCert.create]
      · exact h x q hx
  | count hq _ hc =>
    have h₁ := (SameVotes.of_storage hq.storage).sized h
    cases hc with
    | part hb _ _ _ hadd =>
      exact h₁.setBlk rfl ((QuorumCert.addPart_length hadd).trans (h₁.getD hb))
    | full hb _ _ _ hadd =>
      refine (SameVotes.of_storage storage_updateHqc).sized ?_
      exact h₁.setBlk rfl ((QuorumCert.addPart_length hadd).trans (h₁.getD hb))
  | miscount hq _ hc =>
    have h₁ := (SameVotes.of_storage hq.storage).sized h
    cases hc with
    | intro hb => exact h₁.setBlk rfl (h₁.getD hb)

/-- A vote of a replica of the configuration for a delivered block is counted. -/
theorem Core.onReceiveVote_returns (h : CoreOk S s) (hs : Sized S s) (hv : v.Valid S)
    (hd : s.delivered v.blkHash = true) :
    Triple (onReceiveVote S v) s (fun _ _ => True) (fun _ _ => False) := by
  refine onReceiveVote_spec.mono (fun _ _ _ => trivial) fun e s' he => ?_
  rcases he with ⟨-, -, hnd⟩ | hm
  · rw [hnd] at hd
    cases hd
  · cases hm with
    | intro hb _ _ hadd =>
      have hlt : v.voter.toNat < S.nreplicas := of_decide_eq_true hv.voter
      exact QuorumCert.addPart_ne_error (hv.obj.trans (objHash_self h hb).symm)
        ((hs.getD hb).symm ▸ hlt) hadd

/-- What is left of a call never throws. -/
theorem Core.resume_returns (h : CoreOk S s) (hs : Sized S s) (hid : S.hasReplica s.id = true)
    (f : Frame Hash) (hd : ∀ x, f.endorses = some x → s.delivered x = true) :
    Triple (resume S O.beatResp f) s (fun _ _ => True) (fun _ _ => False) := by
  cases f with
  | vote prop op =>
    unfold resume
    refine .get_bind (.ite (fun hop => .set_bind (.ite (fun _ => ?_) fun _ => .pure' trivial))
      fun _ => .pure' trivial)
    have hop : op = true := (Bool.and_eq_true _ _ ▸ hop).1
    subst hop
    refine onReceiveVote_returns (s := s.sent S prop.proposer prop.blk) (CoreOk.sent _ _ h).1 ?_
      (valid_castVote hid) (hd prop.blk rfl)
    exact SameVotes.sized (.of_storage rfl) hs
  | _ => exact (Frame.run_spec _).mono (fun _ _ _ => trivial) fun _ _ he => he.elim

/-- What a replica with disciplined callers keeps. -/
structure Watched.Fluent (S : Setup Hash Sig) (w : Watched Hash Sig) : Prop where
  ok : w.Ok S
  votes : Replica.VotesOk S w.replica
  sized : Sized S w.replica.core
  id : S.hasReplica w.replica.core.id = true

theorem Watched.Fluent.step {w : Watched Hash Sig} (h : w.Fluent S) (he : w.Disciplined S e) :
    (w.step S O e).Fluent S := by
  have hs := Replica.stepped (O := O) h.ok.core (h.ok.sound he)
  exact ⟨(h.ok.step he).1, h.votes.step hs, (hs.effect h.ok.core).sized h.ok.core h.sized,
    (hs.coreOk h.ok.core).2.id ▸ h.id⟩

theorem Watched.fluent_init {rid : ReplicaID} (hid : S.hasReplica rid = true) :
    (Watched.init S rid).Fluent S := by
  refine ⟨Watched.ok_init, Replica.votesOk_init, fun x q hq => ?_, hid⟩
  simp only [Watched.init, Replica.init, Core.init, selfQc, Function.update_apply] at hq
  split at hq
  · cases hq
    simp [QuorumCert.create]
  · cases hq

theorem Watched.Fluent.returns {w : Watched Hash Sig} (h : w.Fluent S) :
    (w.replica.step S O .resume).thrown = w.replica.thrown := by
  cases hst : w.replica.stack with
  | nil => simp only [Replica.step, hst]
  | cons f rest =>
    have hspec := resume_returns (O := O) h.ok.core h.sized h.id f fun x hx =>
      h.ok.tail.placed (h.votes.placed (.inr ⟨f, by simp [hst], hx⟩)).1
    cases hrun : resume S O.beatResp f w.replica.core with
    | ok fs s' => simp only [Replica.step, hst, Replica.runOn, hrun]
    | error e s' => exact (hspec.error hrun).elim

end

/-- In every reachable state `on_propose(cmds, get_parents())` goes through
exactly where the state is proposable, and what it has left to run then never
throws. -/
theorem proposal_attempts (S : Setup Hash Sig) (O : Options) (rid : ReplicaID)
    (hid : S.hasReplica rid = true) (es : List (Event Hash Sig))
    (h : Run.Allowed (Watched.step S O) (Watched.Disciplined S) (Watched.init S rid) es) :
    let w := Run.exec (Watched.step S O) (Watched.init S rid) es
    (∀ cmds extra, w.replica.core.Succeeds S O.build cmds extra ↔
      w.replica.core.Proposable S O.build cmds extra) ∧
    (w.replica.step S O .resume).thrown = w.replica.thrown := by
  intro w
  have hw : w.Fluent S := h.inv (Watched.fluent_init hid) fun _ _ h he => h.step he
  exact ⟨fun cmds extra => succeeds_iff hw.ok.core hw.ok.tail.tail, hw.returns⟩

theorem proposal_attempts_chain4 :
    let S := tableSetup 4 chain4
    let w := Run.exec (Watched.step S ⟨.threeStep, id⟩) (Watched.init S 0) (tableFeed chain4 1 3)
    w.replica.core.getParents = [1] ∧ w.replica.core.Succeeds S .threeStep [11] [] := by
  refine ⟨by decide +kernel, ?_⟩
  refine ((proposal_attempts (tableSetup 4 chain4) ⟨.threeStep, id⟩ 0 (by decide +kernel) _
    (by decide +kernel)).1 [11] []).mpr ⟨by decide +kernel, by decide +kernel, ?_⟩
  exact fun c hdec => absurd hdec (by decide +kernel)

/-- Block 2 extends block 1, and block 3 is a fork next to block 1; no block has
a certificate of another. -/
def fork3 : List (WireBlock Nat TableSig) :=
  [tableBlk 7 0 0 [11] [], tableBlk 7 1 0 [12] [], tableBlk 7 0 0 [14] []]

/-- Replica 0 proposes block 3, replica 1 block 1, and replica 6, which has only
heard of replica 1, block 2. Replica 0 receives blocks 1 and 2, and then the
votes of replicas 2 to 5 for block 3. -/
def fork3Run : List (ReplicaID × Event Nat TableSig) :=
  let propose (r : ReplicaID) (cmd parent : Nat) : List (ReplicaID × Event Nat TableSig) :=
    (r, .call (.propose [cmd] [parent] [])) :: List.replicate 4 (r, .resume)
  let feed (r : ReplicaID) (h : Nat) (p : ReplicaID) := (tableFeed fork3 h p).map fun e => (r, e)
  let vote (r : ReplicaID) : ReplicaID × Event Nat TableSig :=
    (0, .call (.receiveVote ⟨r, 3, ⟨3, (r, 3)⟩⟩))
  propose 0 14 0 ++ propose 1 11 0 ++ feed 6 1 1 ++ propose 6 12 1 ++ feed 0 1 1 ++ feed 0 2 6 ++
    ([2, 3, 4, 5].flatMap fun r => feed r 3 0) ++ [2, 3, 4, 5].map vote ++ [(0, .resume)]

/-- All replicas are honest. Replica 0 has voted for block 2 when its own block
3, one lower, is certified and becomes `hqc_tail`. -/
theorem proposal_attempts_fork3 :
    let S := tableSetup 7 fork3
    let sys := Run.exec (System.step S ⟨.threeStep, id⟩) (System.init S) fork3Run
    let own := (fork3Run.filter (·.1 = 0)).map (·.2)
    ∃ F : Faults S, F.byz = ∅ ∧
      Run.Allowed (System.step S ⟨.threeStep, id⟩) F.Admits (System.init S) fork3Run ∧
      Run.Allowed (Watched.step S ⟨.threeStep, id⟩) (Watched.Disciplined S) (Watched.init S 0) own ∧
      (sys 0).stack = [] ∧ (sys 0).thrown = [] ∧ (sys 0).core.getParents = [3] ∧
      ((sys 0).step S ⟨.threeStep, id⟩ (.call (.propose [15] [3] []))).thrown = [.notHigher] :=
  ⟨⟨∅, by decide +kernel⟩, rfl, by decide +kernel, by decide +kernel, by decide +kernel,
    by decide +kernel, by decide +kernel, by decide +kernel⟩

end HotStuffTx
