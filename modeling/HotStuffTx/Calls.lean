import HotStuffTx.Commit

/-!
# What the calls do

One description for each call of the core, from a state that is `CoreOk`: the
vote rule (`Judged`), a received proposal (`Received`), an own proposal
(`Proposed`) and a vote (`Counted`).
-/

set_option linter.unusedSectionVars false

namespace HotStuffTx

open Forest

namespace Core

variable {Hash Sig : Type} [DecidableEq Hash]

/-- The vote rule: the certificate of `n` is above the lock, or `n` extends it. -/
def Rule (S : Setup Hash Sig) (s : Core Hash Sig) (n : Hash) : Prop :=
  (∃ q, s.qcRef n = some q ∧ s.height s.bLock < s.height q) ∨ S.Ext s.bLock n

/-- What `opinion` returns, and leaves. -/
inductive Judged (S : Setup Hash Sig) (s : Core Hash Sig) (n : Hash) : Bool → Core Hash Sig → Prop
  | no : Judged S s n false s
  | yes (hv : s.vheight < s.height n) (hr : Rule S s n) :
      Judged S s n true { s with vheight := s.height n }

/-- `on_receive_proposal` up to its first callback. -/
inductive Received (S : Setup Hash Sig) (build : Build) (s : Core Hash Sig) (prop : Proposal Hash) :
    List (Frame Hash) → Core Hash Sig → Prop
  | own (hp : prop.proposer = s.id) (hj : Judged S s prop.blk op s') :
      Received S build s prop [.receiveProposal_ prop op] s'
  | other (hp : prop.proposer ≠ s.id) (hd : s.delivered prop.blk = true)
      (hu : Updated build s prop.blk s₁) (hj : Judged S s₁ prop.blk op s') :
      Received S build s prop
        (((s'.qcRef prop.blk).map Frame.qcFinish).toList ++ [.receiveProposal_ prop op]) s'

/-- `on_propose` up to its call of `update`: the block is stored and delivered
with an empty certificate of its own. -/
inductive Proposed (S : Setup Hash Sig) (s : Core Hash Sig) (cmds parents : List Hash)
    (extra : List UInt8) (n : Hash) : Core Hash Sig → Prop
  | intro (hp : parents.head? = some p)
      (hwire : S.wireOf n = some (s.newBlock cmds parents extra p).wire)
      (hw : Writable S s n b) (hd : b.delivered = true) (hv : b.voted = s.voted n)
      (hq : b.selfQc = some (.create S n))
      (ht : s.delivered n = true ∧ ts = s.tails.filter (· ∉ parents) ∨
        s.delivered n = false ∧ ts = s.tails.filter (· ∉ parents) ++ [n]) :
      Proposed S s cmds parents extra n { s.setBlk n b with tails := ts }

/-- `on_receive_vote` where it counts the vote. -/
inductive Counted (S : Setup Hash Sig) (s : Core Hash Sig) (v : Vote Hash Sig) :
    List (Frame Hash) → Core Hash Sig → Prop
  | part (hb : s.storage v.blkHash = some b) (hd : b.delivered = true) (hv : v.voter ∉ b.voted)
      (hn : b.voted.length + 1 < S.nmajority)
      (hq : (b.selfQc.getD (.create S v.blkHash)).addPart v.voter v.cert = .ok q) :
      Counted S s v [] (s.setBlk v.blkHash { b with voted := v.voter :: b.voted, selfQc := some q })
  | full (hb : s.storage v.blkHash = some b) (hd : b.delivered = true) (hv : v.voter ∉ b.voted)
      (hn : b.voted.length + 1 = S.nmajority)
      (hq : (b.selfQc.getD (.create S v.blkHash)).addPart v.voter v.cert = .ok q) :
      Counted S s v [.qcFinish v.blkHash]
        ((s.setBlk v.blkHash { b with voted := v.voter :: b.voted, selfQc := some q }).updateHqc
          v.blkHash q)

/-- `on_receive_vote` where `add_part` throws. -/
inductive Miscounted (S : Setup Hash Sig) (s : Core Hash Sig) (v : Vote Hash Sig) (e : CoreError) :
    Core Hash Sig → Prop
  | intro (hb : s.storage v.blkHash = some b) (hd : b.delivered = true)
      (hv : v.voter ∉ b.voted)
      (hq : (b.selfQc.getD (.create S v.blkHash)).addPart v.voter v.cert = .error e) :
      Miscounted S s v e (s.setBlk v.blkHash
        { b with voted := v.voter :: b.voted, selfQc := some (b.selfQc.getD (.create S v.blkHash)) })

variable {S : Setup Hash Sig} {s s' s'' : Core Hash Sig}

-- ---------------------------------------------------------------------------
-- Proposals
-- ---------------------------------------------------------------------------

/-- A block higher than every vote that extends the lock is voted for. -/
theorem opinion_votes (h : CoreOk S s) :
    Triple (opinion n) s (fun op s' => Judged S s n op s' ∧
      (s.vheight < s.height n → S.Ext s.bLock n → op = true)) (fun _ _ => False) := by
  unfold opinion
  refine .get_bind (.ite (fun hv => ?_) fun hv => .pure' ⟨.no, fun hlt => absurd hlt hv⟩)
  have hn : Placed S s n := .inr (by omega)
  refine .ite (fun hq => ?_) fun _ => ?_
  · obtain ⟨q, hq, hlt⟩ := (Option.any_eq_true _ _).mp hq
    exact .set_bind (.pure' ⟨.yes hv (.inl ⟨q, hq, by simpa using hlt⟩), fun _ _ => rfl⟩)
  · obtain ⟨q, e, hw, -⟩ := h.store.walk_eq hn (s.height s.bLock)
    have hend := h.store.walk_ends h.bLock hn hw
    simp only [hw]
    refine .ite (fun he => .set_bind (.pure' ⟨.yes hv (.inr (hend.mp he)), fun _ _ => rfl⟩))
      fun he => .pure' ⟨.no, fun _ hext => absurd (hend.mpr hext) he⟩

theorem opinion_spec (h : CoreOk S s) :
    Triple (opinion n) s (fun op s' => Judged S s n op s') (fun _ _ => False) :=
  (opinion_votes h).mono (fun _ _ h => h.1) fun _ _ h => h

theorem onReceiveProposal_spec (h : CoreOk S s) : Triple (onReceiveProposal build prop) s
    (fun fs s' => Received S build s prop fs s')
    (fun e s' => prop.proposer ≠ s.id ∧
      (e = .blockNotDelivered ∧ s' = s ∧ s.delivered prop.blk = false ∨
        s.delivered prop.blk = true ∧ Refused build s prop.blk e s')) := by
  unfold onReceiveProposal
  refine .get_bind (.ite (fun hp => ?_) fun hp => ?_)
  · refine .bind (opinion_spec h |>.mono (fun _ _ h => h) fun _ _ h => h.elim) fun op s' hj => ?_
    exact .ite (fun _ => .pure' (.own hp hj)) (fun hn => absurd hp hn)
  · unfold sanityCheckDelivered
    refine .bind (.get_bind (Q := fun _ s' => s' = s ∧ s.delivered prop.blk = true)
      (.ite (fun hd => .pure' ⟨rfl, hd⟩)
        fun hd => .throw' ⟨hp, .inl ⟨rfl, rfl, Bool.eq_false_iff.mpr hd⟩⟩)) ?_
    rintro _ s' ⟨rfl, hd⟩
    refine .bind ((update_spec h.store).mono (fun _ _ hu => hu)
      fun e s' hr => ⟨hp, .inr ⟨hd, hr⟩⟩) fun _ s₁ hu => ?_
    refine .bind ((opinion_spec (h.updated hu).1).mono (fun _ _ h => h) fun _ _ h => h.elim)
      fun op s' hj => ?_
    exact .ite (fun hn => absurd hn hp) fun _ => .get_bind (.pure' (.other hp hd hu hj))

theorem CoreOk.judged (h : CoreOk S s) (hj : Judged S s n op s') : CoreOk S s' ∧ Advances s s' := by
  cases hj with
  | no => exact ⟨h, .refl⟩
  | yes hv _ => exact h.setVheight (Nat.le_of_lt hv)

theorem CoreOk.received (h : CoreOk S s) (hr : Received S build s prop fs s') :
    CoreOk S s' ∧ Advances s s' := by
  cases hr with
  | own _ hj => exact h.judged hj
  | other _ _ hu hj =>
    obtain ⟨hok, hadv⟩ := h.updated hu
    exact ⟨(hok.judged hj).1, hadv.trans (hok.judged hj).2⟩

/-- Rewriting the votes of a stored block. -/
theorem writable_votes {b : Block Hash Sig} (hs : StoreOk S s) (hb : s.storage h = some b)
    (hne : h ≠ S.genesis) : Writable S s h { b with voted := vs, selfQc := q } where
  wire := (hs.wire hb hne :)
  keep hb' := by
    cases hb.symm.trans hb'
    exact ⟨fun h => h, fun _ => rfl, rfl⟩
  fresh hn := by simp [hb] at hn
  link hl := by
    have := hs.link hne (h := h)
    rw [height_of hb, delivered_of hb, parents_of hb] at this
    exact this hl
  ref hd := by
    obtain ⟨t, ht, hr, hf⟩ := hs.ref hne ((delivered_of hb).trans hd)
    exact ⟨t, ht, (qcRef_of hb).symm.trans hr, .inr hf⟩
  undelivered hd := by
    have := hs.undelivered ((delivered_of hb).trans hd)
    rwa [qcRef_of hb, decision_of hb] at this

section
variable {cmds parents ts : List Hash} {extra : List UInt8}

theorem setBlk_tails : ({ s with tails := ts }).setBlk h b = { s.setBlk h b with tails := ts } := rfl

theorem Proposed.stores (hp : Proposed S s cmds parents extra n s') (hs : StoreOk S s) :
    Stores S s s' := by
  cases hp with
  | intro _ _ hw _ _ hq _ =>
    have hst : Stores S s (s.setBlk n _) := .of_writable hs hw (.inr ⟨_, hq, rfl⟩)
    exact hst.trans (.of_storage hst.ok rfl rfl)

/-- Storing the proposed block throws only where a parent is not delivered, since
the block of `hqc` is stored, and then has written no other block. -/
theorem propose_store (h : CoreOk S s) (hp : parents.head? = some p) :
    Triple (do
        modify fun s => { s with tails := s.tails.filter (· ∉ parents) }
        let bnew ← addBlk S ((← get).newBlock cmds parents extra p)
        modify (·.modifyBlk bnew ({ · with selfQc := some (.create S bnew) }))
        let _ ← onDeliverBlk bnew
        return bnew) s
      (fun n s' => Proposed S s cmds parents extra n s')
      (fun e s' => (¬ ∀ x ∈ parents, s.delivered x = true) ∧ e = .blockNotDelivered ∧
        ∃ n b, S.wireOf n = some (s.newBlock cmds parents extra p).wire ∧
          b.decision = s.decision n ∧
          s' = ({ s with tails := s.tails.filter (· ∉ parents) }).setBlk n b) := by
  have hstore : StoreOk S { s with tails := s.tails.filter (· ∉ parents) } := h.store.of_storage rfl
  refine .modify_bind (.get_bind (.bind (addBlk_spec.mono (fun _ _ h => h) fun _ _ h => h.elim) ?_))
  generalize hb₀ : Core.newBlock { s with tails := s.tails.filter (· ∉ parents) } cmds parents extra p
    = b₀
  rintro n s₁ ⟨rfl, hs₁⟩
  have hb₀' : b₀ = s.newBlock cmds parents extra p := hb₀.symm
  generalize hn : S.hash b₀.wire = n at hs₁ ⊢
  have hwire : S.wireOf n = some b₀.wire := S.wireOf_eq_some.mpr hn
  -- whatever is stored under the hash has the content of the new block
  have hready {b : Block Hash Sig} (hb : b.wire = b₀.wire)
      (hd : ∀ x ∈ parents, s.delivered x = true) :
      Ready { s with tails := s.tails.filter (· ∉ parents) } b := by
    rw [hb₀'] at hb
    have hpar : b.parentHashes = parents := congrArg WireBlock.parentHashes hb
    have hobj : b.qc.objHash = s.hqc.2.objHash := congrArg (·.qc.objHash) hb
    refine ⟨?_, ?_, ?_⟩
    · rw [hpar]
      exact hd
    · rw [hpar]
      rintro rfl
      cases hp
    · rw [hobj, h.hqcObj]
      exact h.store.isBlkFetched_of_placed h.hqc
  have hdeliver {b : Block Hash Sig} (hb : b.wire = b₀.wire) (hbd : b.delivered = false)
      (hdec : b.decision = false) (hsd : s.delivered n = false) (hv : b.voted = s.voted n)
      (hq : b.selfQc = some (.create S n)) :
      Triple (onDeliverBlk n) (({ s with tails := s.tails.filter (· ∉ parents) }).setBlk n b)
        (fun _ s' => Proposed S s cmds parents extra n s')
        (fun e s' => (¬ ∀ x ∈ parents, s.delivered x = true) ∧ e = .blockNotDelivered ∧
          ∃ n b, S.wireOf n = some (s.newBlock cmds parents extra p).wire ∧
            b.decision = s.decision n ∧
            s' = ({ s with tails := s.tails.filter (· ∉ parents) }).setBlk n b) := by
    have hpar : b.parentHashes = parents := by
      rw [hb₀'] at hb
      exact congrArg WireBlock.parentHashes hb
    by_cases hd : ∀ x ∈ parents, s.delivered x = true
    swap
    · have hno : ¬ ∀ x ∈ b.parentHashes,
          Core.delivered { s with tails := s.tails.filter (· ∉ parents) } x = true := hpar ▸ hd
      have hsd' : Core.delivered { s with tails := s.tails.filter (· ∉ parents) } n = false := hsd
      refine (onDeliverBlk_undelivered hbd hsd' hno).mono (fun _ _ h => h.elim) ?_
      rintro e s' ⟨he, hs'⟩
      refine ⟨hd, he, n, _, hb₀' ▸ hwire, ?_, hs'⟩
      exact hdec.trans (h.store.undelivered hsd).2.symm
    refine (onDeliverBlk_setBlk hstore (hb ▸ hwire) hbd hdec hsd (.inr (hready hb hd))).mono ?_ ?_
    · rintro _ s' ⟨_, p', hp', hw, rfl⟩
      refine .intro (b := s.deliver b p') hp (hb₀' ▸ hwire) ?_ rfl hv hq (.inr ⟨hsd, ?_⟩)
      · exact ⟨hw.wire, hw.keep, hw.fresh, hw.link, hw.ref, hw.undelivered⟩
      · simp [hpar]
    · rintro _ _ ⟨-, hr, -⟩
      exact (hr (hready hb hd)).elim
  refine .modify_bind ?_
  rcases hs₁ with ⟨hf, rfl⟩ | ⟨hnone, rfl⟩
  · obtain ⟨b, hb⟩ := isBlkFetched_iff.mp hf
    have hb' : s.storage n = some b := hb
    have hne : n ≠ S.genesis := by
      rintro rfl
      simp [S.wireOf_genesis] at hwire
    have hbw : b.wire = b₀.wire := by
      have := h.store.wire hb' hne
      rw [hwire] at this
      exact (Option.some.inj this).symm
    rw [modifyBlk_eq hb]
    by_cases hbd : b.delivered = true
    · unfold onDeliverBlk
      refine .bind (.get_bind (Q := fun _ s' => Proposed S s cmds parents extra n s') ?_)
        fun _ s' hs' => .pure' hs'
      simp only [storage_setBlk_self]
      refine .ite (fun _ => .pure' ?_) fun hn => absurd hbd hn
      rw [setBlk_tails]
      have hw : Writable S s n { b with voted := b.voted, selfQc := some (.create S n) } :=
        writable_votes h.store hb' hne
      exact .intro hp (hb₀' ▸ hwire) hw hbd (voted_of hb').symm rfl
        (.inl ⟨(delivered_of hb').trans hbd, rfl⟩)
    · rw [Bool.not_eq_true] at hbd
      have hsd : s.delivered n = false := (delivered_of hb').trans hbd
      refine .bind (hdeliver ?_ ?_ ?_ hsd ?_ ?_) fun _ s' hs' => .pure' hs'
      · exact hbw
      · exact hbd
      · exact (decision_of hb').symm.trans (h.store.undelivered hsd).2
      · exact (voted_of hb').symm
      · rfl
  · have hnone' : s.storage n = none := hnone
    rw [modifyBlk_setBlk]
    refine .bind (hdeliver ?_ ?_ ?_ ?_ ?_ ?_) fun _ s' hs' => .pure' hs'
    · rfl
    · simp [hb₀', newBlock]
    · simp [hb₀', newBlock]
    · simp [delivered, hnone']
    · simp [hb₀', newBlock, voted, hnone']
    · rfl

theorem Proposed.height_pos (hp : Proposed S s cmds parents extra n s') : 0 < s'.height n := by
  cases hp with
  | @intro p b ts _ _ hw hd _ _ _ =>
    obtain ⟨p, -, -, -, hk⟩ := hw.link (.inr hd)
    have : Core.height { s.setBlk n b with tails := ts } n = b.height :=
      height_of storage_setBlk_self
    omega

/-- The block is stored and delivered first. -/
theorem onPropose_eq (hp : parents.head? = some p) : onPropose S build cmds parents extra = (do
      modify fun s => { s with tails := s.tails.filter (· ∉ parents) }
      let bnew ← addBlk S ((← get).newBlock cmds parents extra p)
      modify (·.modifyBlk bnew ({ · with selfQc := some (.create S bnew) }))
      let _ ← onDeliverBlk bnew
      return bnew) >>= fun bnew => do
    update build bnew
    let s ← get
    let prop : Proposal Hash := { proposer := s.id, blk := bnew }
    if s.height bnew ≤ s.vheight then throw .notHigher
    let frames ← onReceiveProposal build prop
    return frames ++ [.propose_ prop] := by
  simp only [onPropose, hp, bind_assoc, pure_bind]

/-- The replica votes for an own proposal that extends its lock. -/
theorem onPropose_votes (h : CoreOk S s) (hd : ∀ x ∈ parents, s.delivered x = true) :
    Triple (onPropose S build cmds parents extra) s
      (fun fs s' => ∃ n s₁ s₂ op, Proposed S s cmds parents extra n s₁ ∧ Updated build s₁ n s₂ ∧
        s₂.vheight < s₂.height n ∧ Judged S s₂ n op s' ∧
        fs = [.receiveProposal_ ⟨s.id, n⟩ op, .propose_ ⟨s.id, n⟩] ∧
        (S.Ext s₂.bLock n → op = true))
      (fun e s' => e = .emptyParents ∧ s' = s ∧ parents = [] ∨
        ∃ n s₁, Proposed S s cmds parents extra n s₁ ∧
          (Refused build s₁ n e s' ∨
            e = .notHigher ∧ Updated build s₁ n s' ∧ s'.height n ≤ s'.vheight)) := by
  cases hp : parents.head? with
  | none =>
    unfold onPropose
    simp only [hp]
    exact .throw' (.inl ⟨rfl, rfl, List.head?_eq_none_iff.mp hp⟩)
  | some p =>
    rw [onPropose_eq hp]
    refine .bind ((propose_store h hp).mono (fun _ _ h => h) fun _ _ h => absurd hd h.1)
      fun n s₁ hn => ?_
    have hst := hn.stores h.store
    have hok₁ := (h.stores hst).1
    refine .bind ((update_spec hok₁.store).mono (fun _ _ h => h) fun e s' hr =>
      .inr ⟨n, s₁, hn, .inl hr⟩) fun _ s₂ hu => ?_
    obtain ⟨hok₂, hadv₂⟩ := hok₁.updated hu
    have hid : s₂.id = s.id := hadv₂.id.trans hst.id
    refine .get_bind (.ite (fun hle => .throw_bind (.inr ⟨n, s₁, hn, .inr ⟨rfl, hu, hle⟩⟩))
      fun hlt => ?_)
    have hlt : s₂.vheight < s₂.height n := Nat.lt_of_not_le hlt
    unfold onReceiveProposal
    refine .bind (.get_bind (.ite (fun _ => ?_) fun hne => absurd rfl hne)) fun fs s' hr => .pure' hr
    refine .bind ((opinion_votes hok₂).mono (fun _ _ h => h) fun _ _ h => h.elim) fun op s' hj => ?_
    refine .ite (fun _ => .pure' ?_) fun hne => absurd rfl hne
    exact ⟨n, s₁, s₂, op, hn, hu, hlt, hj.1, by rw [hid]; rfl, hj.2 hlt⟩

theorem onPropose_spec (h : CoreOk S s) (hd : ∀ x ∈ parents, s.delivered x = true) :
    Triple (onPropose S build cmds parents extra) s
      (fun fs s' => ∃ n s₁ s₂ op, Proposed S s cmds parents extra n s₁ ∧ Updated build s₁ n s₂ ∧
        s₂.vheight < s₂.height n ∧ Judged S s₂ n op s' ∧
        fs = [.receiveProposal_ ⟨s.id, n⟩ op, .propose_ ⟨s.id, n⟩])
      (fun e s' => e = .emptyParents ∧ s' = s ∧ parents = [] ∨
        ∃ n s₁, Proposed S s cmds parents extra n s₁ ∧
          (Refused build s₁ n e s' ∨
            e = .notHigher ∧ Updated build s₁ n s' ∧ s'.height n ≤ s'.vheight)) := by
  refine (onPropose_votes h hd).mono ?_ fun _ _ h => h
  rintro fs s' ⟨n, s₁, s₂, op, hn, hu, hlt, hj, hfs, -⟩
  exact ⟨n, s₁, s₂, op, hn, hu, hlt, hj, hfs⟩

end

-- ---------------------------------------------------------------------------
-- Votes
-- ---------------------------------------------------------------------------

/-- A vote is passed over where the block has its votes, or this one. -/
theorem onReceiveVote_counts : Triple (onReceiveVote S v) s
    (fun fs s' => (fs = [] ∧ s' = s ∧
      (S.nmajority ≤ (s.voted v.blkHash).length ∨ v.voter ∈ s.voted v.blkHash)) ∨
        Counted S s v fs s')
    (fun e s' => e = .blockNotDelivered ∧ s' = s ∧ s.delivered v.blkHash = false ∨
      Miscounted S s v e s') := by
  unfold onReceiveVote sanityCheckDelivered
  refine .bind (.get_bind (Q := fun _ s' => s' = s ∧ s.delivered v.blkHash = true)
    (.ite (fun hd => .pure' ⟨rfl, hd⟩)
      fun hd => .throw' (.inl ⟨rfl, rfl, Bool.eq_false_iff.mpr hd⟩))) ?_
  rintro _ s' ⟨rfl, hd⟩
  obtain ⟨b, hb⟩ := exists_of_delivered hd
  rw [delivered_of hb] at hd
  refine .get_bind ?_
  simp only [voted_of hb, selfQc_of hb]
  refine .ite (fun hge => .pure' (.inl ⟨rfl, rfl, .inl hge⟩)) fun hlt => ?_
  refine .ite (fun hv => .pure' (.inl ⟨rfl, rfl, .inr hv⟩)) fun hv => .modify_bind (.modify_bind ?_)
  rw [modifyBlk_eq hb, modifyBlk_setBlk]
  cases hq : (b.selfQc.getD (.create S v.blkHash)).addPart v.voter v.cert with
  | error e => exact .throw' (.inr (.intro hb hd hv hq))
  | ok q =>
    refine .modify_bind (.ite (fun hn => .modify_bind (.pure' (.inr ?_))) fun hn => .pure' (.inr ?_))
    · rw [modifyBlk_setBlk]
      exact .full hb hd hv hn hq
    · rw [modifyBlk_setBlk]
      exact .part hb hd hv (by omega) hq

theorem onReceiveVote_spec : Triple (onReceiveVote S v) s
    (fun fs s' => fs = [] ∧ s' = s ∨ Counted S s v fs s')
    (fun e s' => e = .blockNotDelivered ∧ s' = s ∧ s.delivered v.blkHash = false ∨
      Miscounted S s v e s') :=
  onReceiveVote_counts.mono (fun _ _ h => h.imp_left fun h => ⟨h.1, h.2.1⟩) fun _ _ h => h

theorem objHash_self (h : CoreOk S s) (hb : s.storage n = some b) :
    (b.selfQc.getD (.create S n)).objHash = n := by
  cases hq : b.selfQc with
  | none => rfl
  | some q => exact h.selfQc ((selfQc_of hb).trans hq)

theorem Counted.coreOk (h : CoreOk S s) (hc : Counted S s v fs s') :
    CoreOk S s' ∧ Advances s s' := by
  cases hc with
  | part hb _ _ _ hq =>
    have hobj := (QuorumCert.addPart_ok hq).1.trans (objHash_self h hb)
    exact h.stores (.of_votes h.store hb hobj)
  | full hb _ _ _ hq =>
    have hobj := (QuorumCert.addPart_ok hq).1.trans (objHash_self h hb)
    obtain ⟨hok, hadv⟩ := h.stores (.of_votes h.store hb hobj)
    exact ⟨(hok.updateHqc hobj).1, hadv.trans (hok.updateHqc hobj).2⟩

theorem Miscounted.ne_safetyBreached (hc : Miscounted S s v e s') : e ≠ .safetyBreached := by
  rintro rfl
  cases hc with
  | intro hb _ _ hq =>
    unfold QuorumCert.addPart at hq
    split at hq
    · cases hq
    · split at hq
      · split at hq <;> cases hq
      · cases hq

theorem Miscounted.coreOk (h : CoreOk S s) (hc : Miscounted S s v e s') :
    CoreOk S s' ∧ Advances s s' := by
  cases hc with
  | intro hb _ _ _ => exact h.stores (.of_votes h.store hb (objHash_self h hb))

end Core

end HotStuffTx
