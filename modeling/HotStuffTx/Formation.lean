import HotStuffTx.Proposals
import HotStuffTx.Sample

/-!
# How certificates form

A replica counts the votes for a block in two members, `voted` and `self_qc`.
`on_propose` gives its block an empty certificate and leaves `voted` alone, so
the two agree as long as no block is proposed that votes were counted for.
-/

set_option linter.unusedSectionVars false

namespace HotStuffTx

open Core

variable {Hash Sig : Type} [DecidableEq Hash]

-- ---------------------------------------------------------------------------
-- What the callers promise
-- ---------------------------------------------------------------------------

/-- The network handlers pass on verified blocks and votes, the pacemaker
delivered parents. -/
def Core.Checked (S : Setup Hash Sig) (s : Core Hash Sig) : Event Hash Sig → Prop
  | .call (.deliver blk) => ∀ b, s.storage blk = some b → b.verify S = .ok true
  | .call (.propose _ parents _) => ∀ p ∈ parents, s.delivered p = true
  | .call (.receiveVote v) => v.verify S = .ok true
  | _ => True

instance (S : Setup Hash Sig) (s : Core Hash Sig) (e : Event Hash Sig) :
    Decidable (s.Checked S e) :=
  match e with
  | .call (.deliver blk) =>
    inferInstanceAs (Decidable (∀ b, s.storage blk = some b → b.verify S = .ok true))
  | .call (.propose _ parents _) => inferInstanceAs (Decidable (∀ p ∈ parents, s.delivered p = true))
  | .call (.receiveVote v) => inferInstanceAs (Decidable (v.verify S = .ok true))
  | .call (.addBlk _) | .call (.receiveProposal _) | .call (.asyncQcFinish _)
  | .call (.rejectPm _) | .resume => instDecidableTrue

/-- No vote has been counted for the block `on_propose` is about to build. -/
def Core.Unvoted (S : Setup Hash Sig) (s : Core Hash Sig) : Event Hash Sig → Prop
  | .call (.propose cmds parents extra) => ∀ p, parents.head? = some p →
      s.voted (S.hash (s.newBlock cmds parents extra p).wire) = []
  | _ => True

instance (S : Setup Hash Sig) (s : Core Hash Sig) (e : Event Hash Sig) :
    Decidable (s.Unvoted S e) :=
  match e with
  | .call (.propose cmds parents extra) => inferInstanceAs (Decidable (∀ p, parents.head? = some p →
      s.voted (S.hash (s.newBlock cmds parents extra p).wire) = []))
  | .call (.addBlk _) | .call (.deliver _) | .call (.receiveProposal _) | .call (.receiveVote _)
  | .call (.asyncQcFinish _) | .call (.rejectPm _) | .resume => instDecidableTrue

-- ---------------------------------------------------------------------------
-- The invariant
-- ---------------------------------------------------------------------------

/-- `q` holds valid signatures over `h` of the replicas in `voted` and no others. -/
structure Collected (S : Setup Hash Sig) (h : Hash) (q : QuorumCert Hash Sig)
    (voted : List ReplicaID) : Prop where
  obj : q.objHash = h
  length : q.rids.length = S.nreplicas
  signers : ∀ r, r ∈ q.signers ↔ r ∈ voted
  valid : ∀ r sig, (r, sig) ∈ q.sigs → S.hasReplica r = true ∧ S.verifySig r h sig = true

/-- A block with the content of `h` passes `Block::verify`. -/
def Setup.Verified (S : Setup Hash Sig) (h : Hash) : Prop :=
  ∀ b : Block Hash Sig, S.wireOf h = some b.wire → b.verify S = .ok true

structure Formed (S : Setup Hash Sig) (s : Core Hash Sig) : Prop where
  nodup : h ≠ S.genesis → (s.voted h).Nodup
  collected : h ≠ S.genesis → Collected S h ((s.selfQc h).getD (.create S h)) (s.voted h)
  verified : h ≠ S.genesis → s.delivered h = true → S.Verified h
  hqc : s.hqc.1 = S.genesis ∨ s.hqc.2.verify S = .ok true

section
variable {S : Setup Hash Sig} {O : Options} {s s' : Core Hash Sig} {r r' : Replica Hash Sig}

theorem Block.verify_congr {b b' : Block Hash Sig} (h : b.wire = b'.wire)
    (hb : b.verify S = .ok true) : b'.verify S = .ok true := by
  have hqc : b.qc.serialize = b'.qc.serialize := congrArg WireBlock.qc h
  have hobj : b.qc.objHash = b'.qc.objHash := congrArg WireQC.objHash hqc
  unfold Block.verify at hb ⊢
  rw [hobj] at hb
  split at hb
  · exact if_pos ‹_›
  · rw [if_neg ‹_›]
    exact QuorumCert.verify_congr hqc hb

theorem Setup.Verified.of_block {b : Block Hash Sig} (hw : S.wireOf h = some b.wire)
    (hb : b.verify S = .ok true) : S.Verified h := by
  intro b' hb'
  exact Block.verify_congr (Option.some.inj (hw.symm.trans hb')) hb

-- ---------------------------------------------------------------------------
-- Collecting votes
-- ---------------------------------------------------------------------------

namespace Collected

theorem create : Collected S h (.create S h) [] where
  obj := rfl
  length := by simp [QuorumCert.create]
  signers := by simp [QuorumCert.create, QuorumCert.signers]
  valid := by simp [QuorumCert.create]

variable {h : Hash} {q q' : QuorumCert Hash Sig} {vs : List ReplicaID} (hc : Collected S h q vs)
include hc

theorem length_eq (hvs : vs.Nodup) : q.signers.length = vs.length :=
  Nat.le_antisymm (List.Nodup.length_le_of_subset q.nodup fun r hr => (hc.signers r).mp hr)
    (List.Nodup.length_le_of_subset hvs fun r hr => (hc.signers r).mpr hr)

/-- A full certificate is accepted. -/
theorem verify (hvs : vs.Nodup) (hlen : vs.length = S.nmajority) : q.verify S = .ok true := by
  refine QuorumCert.verify_iff.mpr ⟨?_, fun r sig hs => ?_⟩
  · rw [hc.length_eq hvs, hlen]
  · rw [hc.obj]
    exact hc.valid r sig hs

theorem addPart {pc : PartCert Hash Sig} (hr : S.hasReplica x = true)
    (hsig : S.verifySig x h pc.sig = true) (hq : q.addPart x pc = .ok q') :
    Collected S h q' (x :: vs) := by
  obtain ⟨hobj, -, hsigners, hsigs⟩ := QuorumCert.addPart_ok hq
  refine ⟨hobj.trans hc.obj, (QuorumCert.addPart_length hq).trans hc.length, fun r => ?_, fun r sig hs => ?_⟩
  · rw [hsigners, hc.signers, List.mem_cons]
  · rcases hsigs r sig hs with hs | ⟨rfl, rfl⟩
    · exact hc.valid r sig hs
    · exact ⟨hr, hsig⟩

/-- `add_part` does not throw for a verified vote. -/
theorem addPart_ne_error {pc : PartCert Hash Sig} (hr : S.hasReplica x = true)
    (hobj : pc.objHash = h) : q.addPart x pc ≠ .error e := by
  have hlt : x.toNat < q.rids.length := by
    rw [hc.length]
    exact of_decide_eq_true hr
  exact QuorumCert.addPart_ne_error (hobj.trans hc.obj.symm) hlt

end Collected

-- ---------------------------------------------------------------------------
-- One step
-- ---------------------------------------------------------------------------

/-- A vote by a replica of the configuration with its valid signature. -/
structure Vote.Valid (S : Setup Hash Sig) (v : Vote Hash Sig) : Prop where
  voter : S.hasReplica v.voter = true
  obj : v.cert.objHash = v.blkHash
  sig : S.verifySig v.voter v.blkHash v.cert.sig = true

theorem Vote.valid_of_verify {v : Vote Hash Sig} (h : v.verify S = .ok true) : v.Valid S := by
  unfold Vote.verify at h
  split at h
  · rename_i hr
    simp only [Except.ok.injEq, Bool.and_eq_true, beq_iff_eq] at h
    exact ⟨hr, h.2, h.2 ▸ h.1⟩
  · cases h

theorem Core.valid_castVote (h : S.hasReplica s.id = true) : (s.castVote S blk).Valid S :=
  ⟨h, rfl, S.verify_sign _ _⟩

/-- Every vote that is counted is valid. -/
theorem Replica.Brings.valid {e : Event Hash Sig} {s₁ : Core Hash Sig} (hv : r.Brings S e v s₁)
    (he : r.core.Checked S e) (hid : S.hasReplica r.core.id = true) : v.Valid S := by
  rcases hv with ⟨rfl, -⟩ | ⟨-, _, _, -, rfl, -⟩
  · exact Vote.valid_of_verify he
  · exact valid_castVote hid

namespace Formed

variable (h : Formed S s)
include h

/-- Nothing but `hqc` and the derived members outside the certificates has changed. -/
theorem congr (hv : SameVotes s s') (hd : s'.delivered = s.delivered)
    (hq : s'.hqc.1 = S.genesis ∨ s'.hqc.2.verify S = .ok true) : Formed S s' where
  nodup hx := hv.voted ▸ h.nodup hx
  collected hx := hv.voted ▸ hv.selfQc ▸ h.collected hx
  verified hx hx' := h.verified hx (hd ▸ hx')
  hqc := hq

theorem sameChain (hs : SameChain s s') : Formed S s' :=
  h.congr (.of_storage hs.storage) (eq_of_storage hs.storage).2.2.2.2 (hs.hqc ▸ h.hqc)

theorem storeStep (hs : StoreOk S s) (hst : StoreStep S s n s')
    (hver : ∀ b, s.storage n = some b → b.verify S = .ok true ∨ s'.delivered = s.delivered) :
    Formed S s' where
  nodup hx := hst.sameVotes.voted ▸ h.nodup hx
  collected hx := hst.sameVotes.voted ▸ hst.sameVotes.selfQc ▸ h.collected hx
  verified {x} hx hd := by
    rcases hst.delivered hd with hd | ⟨rfl, hf⟩
    · exact h.verified hx hd
    · obtain ⟨b, hb⟩ := isBlkFetched_iff.mp hf
      rcases hver b hb with hb' | heq
      · exact .of_block (hs.wire hb hx) hb'
      · exact h.verified hx (heq ▸ hd)
  hqc := (hst.stores hs).hqc ▸ h.hqc

theorem proposed {cmds parents : List Hash} {extra : List UInt8} (hok : CoreOk S s)
    (hp : Proposed S s cmds parents extra n s') (hn : s.voted n = []) : Formed S s' := by
  have hv := hp.voted_eq
  have hhqc := (hp.stores hok.store).hqc
  refine ⟨fun hx => hv ▸ h.nodup hx, fun {x} hx => ?_, fun {x} hx hd => ?_, hhqc ▸ h.hqc⟩
  · rw [hv, hp.selfQc_eq]
    split
    · subst x
      rw [hn]
      exact .create
    · exact h.collected hx
  · rcases hp.delivered hd with hd | rfl
    · exact h.verified hx hd
    · obtain ⟨p, -, hw⟩ := hp.wire_eq
      refine .of_block hw ?_
      show (if s.hqc.2.objHash = S.genesis then _ else s.hqc.2.verify S) = _
      rw [hok.hqcObj]
      split
      · rfl
      · exact h.hqc.resolve_left ‹_›

theorem updated (hok : CoreOk S s) (hn : s.delivered n = true)
    (hu : Updated build s n s₂ ∨ Refused build s n e s₂) (hs : SameChain s₂ s') : Formed S s' := by
  refine h.congr (ran_sameVotes hok hu hs) (ran_delivered_eq hok hu hs) ?_
  rcases ran_spec hok hu hs with ⟨hsame, -⟩ | ⟨b, t, hr⟩
  · exact hsame.hqc ▸ h.hqc
  · rcases hr.hqc_cases with heq | heq
    · exact heq ▸ h.hqc
    · rw [heq]
      have hver := h.verified hr.ne hn b (hok.store.wire hr.stored hr.ne)
      unfold Block.verify at hver
      rw [hr.obj, if_neg (hok.ne_genesis hr.undecided)] at hver
      exact .inr hver

theorem counted (hv : v.Valid S) (hc : Counted S s v fs s') : Formed S s' := by
  have hcollect {b : Block Hash Sig} {q} (hb : s.storage v.blkHash = some b)
      (hq : (b.selfQc.getD (.create S v.blkHash)).addPart v.voter v.cert = .ok q)
      (hx : v.blkHash ≠ S.genesis) : Collected S v.blkHash q (v.voter :: b.voted) := by
    have hold := h.collected hx
    rw [selfQc_of hb, voted_of hb] at hold
    exact hold.addPart hv.voter hv.sig hq
  have hset {b : Block Hash Sig} {q} (hb : s.storage v.blkHash = some b) (hnew : v.voter ∉ b.voted)
      (hq : (b.selfQc.getD (.create S v.blkHash)).addPart v.voter v.cert = .ok q) :
      Formed S (s.setBlk v.blkHash { b with voted := v.voter :: b.voted, selfQc := some q }) := by
    refine ⟨fun {x} hx => ?_, fun {x} hx => ?_, fun hx hd => h.verified hx (delivered_votes hb ▸ hd), h.hqc⟩
    · rw [voted_setBlk]
      split
      · subst x
        exact List.nodup_cons.mpr ⟨hnew, voted_of hb ▸ h.nodup hx⟩
      · exact h.nodup hx
    · rw [voted_setBlk, selfQc_setBlk]
      split
      · subst x
        exact hcollect hb hq hx
      · exact h.collected hx
  cases hc with
  | part hb _ hnew _ hq => exact hset hb hnew hq
  | @full b q hb hd hnew hlen hq =>
    have hset := hset hb hnew hq
    refine hset.congr (.of_storage storage_updateHqc) (eq_of_storage storage_updateHqc).2.2.2.2 ?_
    unfold updateHqc
    split
    · by_cases hx : v.blkHash = S.genesis
      · exact .inl hx
      · refine .inr ((hcollect hb hq hx).verify ?_ hlen)
        exact List.nodup_cons.mpr ⟨hnew, voted_of hb ▸ h.nodup hx⟩
    · exact h.hqc

/-- Verified votes are never miscounted, but for the genesis block. -/
theorem miscounted (hv : v.Valid S) (hc : Miscounted S s v e s') : Formed S s' := by
  cases hc with
  | @intro b hb hd hnew hq =>
    have hx : v.blkHash = S.genesis := by
      by_contra hx
      have hold := h.collected hx
      rw [selfQc_of hb] at hold
      exact hold.addPart_ne_error hv.voter hv.obj hq
    refine ⟨fun {x} hx' => ?_, fun {x} hx' => ?_, fun hx hd => h.verified hx (delivered_votes hb ▸ hd), h.hqc⟩
    · rw [voted_setBlk, if_neg (hx ▸ hx')]
      exact h.nodup hx'
    · rw [voted_setBlk, selfQc_setBlk, if_neg (hx ▸ hx'), if_neg (hx ▸ hx')]
      exact h.collected hx'

end Formed

theorem Replica.Stepped.formed (h : Formed S r.core) (hok : CoreOk S r.core)
    (hid : S.hasReplica r.core.id = true) (hs : Stepped S O r e r') (he : r.core.Checked S e)
    (hf : r.core.Unvoted S e) : Formed S r'.core := by
  cases hs.effect hok with
  | quiet hq => exact h.sameChain hq
  | store hst hn =>
    refine h.storeStep hok.store hst fun b hb => ?_
    rcases hn with rfl | hn
    · exact .inl (he b hb)
    · exact .inr hn
  | update hm hu hq =>
    obtain ⟨hok₁, -, hn, -, -⟩ := hm.spec hok
    refine Formed.updated ?_ hok₁ hn hu hq
    rcases hm with ⟨rfl, -⟩ | ⟨cmds, parents, extra, rfl, hp⟩
    · exact h
    · refine h.proposed hok hp ?_
      obtain ⟨p, hp, hw⟩ := hp.wire_eq
      exact S.wireOf_eq_some.mp hw ▸ hf p hp
  | count hq hv hc => exact (h.sameChain hq).counted (hv.valid he hid) hc
  | miscount hq hv hc => exact (h.sameChain hq).miscounted (hv.valid he hid) hc

theorem Core.Checked.sound {e : Event Hash Sig} (he : r.core.Checked S e) : r.Sound e := by
  cases e with
  | resume => trivial
  | call c => cases c <;> first | exact he | trivial

theorem Core.formed_init {rid : ReplicaID} : Formed S (Core.init S rid) := by
  have hnone {x} (hx : x ≠ S.genesis) : (Core.init S rid).storage x = none := by
    simp [Core.init, hx]
  refine ⟨fun hx => ?_, fun hx => ?_, fun hx hd => ?_, .inl rfl⟩
  · simp [Core.voted, hnone hx]
  · simp only [Core.selfQc, Core.voted, hnone hx]
    exact .create
  · simp [Core.delivered, hnone hx] at hd

-- ---------------------------------------------------------------------------
-- Every run
-- ---------------------------------------------------------------------------

/-- `verify` accepts `q`, which has a majority of distinct valid signatures over `h`. -/
structure Certifies (S : Setup Hash Sig) (q : QuorumCert Hash Sig) (h : Hash) : Prop where
  obj : q.objHash = h
  verify : q.verify S = .ok true
  majority : S.nmajority ≤ q.signers.length
  nodup : q.signers.Nodup
  valid : ∀ r sig, (r, sig) ∈ q.sigs → S.hasReplica r = true ∧ S.verifySig r h sig = true

theorem certifies_of_verify {q : QuorumCert Hash Sig} (h : q.verify S = .ok true) :
    Certifies S q q.objHash :=
  ⟨rfl, h, (QuorumCert.verify_iff.mp h).1, q.nodup, (QuorumCert.verify_iff.mp h).2⟩

/-- A proposed block carries a certificate for the block of `hqc`. -/
theorem Core.Proposed.certifies {cmds parents : List Hash} {extra : List UInt8} {b : Block Hash Sig}
    (hok : CoreOk S s) (hver : s.hqc.2.verify S = .ok true) (hp : Proposed S s cmds parents extra n s₁)
    (hw : S.wireOf n = some b.wire) : Certifies S b.qc s.hqc.1 := by
  obtain ⟨p, -, hw'⟩ := hp.wire_eq
  have hqc : s.hqc.2.serialize = b.qc.serialize :=
    congrArg WireBlock.qc (Option.some.inj (hw'.symm.trans hw))
  have hobj : s.hqc.2.objHash = b.qc.objHash := congrArg WireQC.objHash hqc
  rw [← hok.hqcObj, hobj]
  exact certifies_of_verify (QuorumCert.verify_congr hqc hver)

end

/-- Where no block is proposed that votes were counted for, the certificate a
replica collects holds the votes it has counted, `hqc` is certified once it has
left the genesis block, and own proposals carry its certificate. -/
theorem qc_formation (S : Setup Hash Sig) (O : Options) (rid : ReplicaID)
    (hid : S.hasReplica rid = true) (es : List (Event Hash Sig))
    (h : Run.Allowed (Replica.step S O) (fun r e => r.core.Checked S e ∧ r.core.Unvoted S e)
      (Replica.init S rid) es) :
    let r := Run.exec (Replica.step S O) (Replica.init S rid) es
    (∀ x q, x ≠ S.genesis → r.core.selfQc x = some q → q.objHash = x ∧
      (∀ k, k ∈ q.signers ↔ k ∈ r.core.voted x) ∧
      ∀ k sig, (k, sig) ∈ q.sigs → S.hasReplica k = true ∧ S.verifySig k x sig = true) ∧
    (r.core.hqc.1 ≠ S.genesis → Certifies S r.core.hqc.2 r.core.hqc.1 ∧
      ∀ e, r.core.Checked S e → ∀ x, (r.step S O e).Proposes x → r.Proposes x ∨
        ∃ b, (r.step S O e).core.storage x = some b ∧ Certifies S b.qc r.core.hqc.1) ∧
    ∀ x, r.Proposes x → ∃ b, r.core.storage x = some b ∧
      (b.qc.objHash = S.genesis ∨ Certifies S b.qc b.qc.objHash) := by
  intro r
  obtain ⟨hok, hf, -, hprop⟩ : CoreOk S r.core ∧ Formed S r.core ∧ r.core.id = rid ∧
      ∀ x, r.Proposes x → x ≠ S.genesis ∧ r.core.delivered x = true := by
    refine h.inv (I := fun r => CoreOk S r.core ∧ Formed S r.core ∧ r.core.id = rid ∧
      ∀ x, r.Proposes x → x ≠ S.genesis ∧ r.core.delivered x = true)
      ⟨coreOk_init, formed_init, rfl, fun _ hx => absurd hx Replica.proposes_init⟩ ?_
    rintro r e ⟨hok, hf, hrid, hprop⟩ ⟨he, hu⟩
    have hs := Replica.stepped (O := O) hok he.sound
    obtain ⟨hok', hadv⟩ := hs.coreOk hok
    exact ⟨hok', hs.formed hf hok (hrid ▸ hid) he hu, hadv.id.trans hrid,
      fun x hx => hs.proposes_delivered hok hprop hx⟩
  refine ⟨fun x q hx hq => ?_, fun hne => ?_, fun x hx => ?_⟩
  · have hc := hf.collected hx
    rw [hq] at hc
    exact ⟨hc.obj, hc.signers, hc.valid⟩
  · have hver := hf.hqc.resolve_left hne
    refine ⟨hok.hqcObj ▸ certifies_of_verify hver, fun e he x hx => ?_⟩
    have hs := Replica.stepped (O := O) hok he.sound
    refine (hs.proposes hok hx).imp_right ?_
    rintro ⟨hd, cmds, parents, extra, s₁, -, hp⟩
    obtain ⟨b, hb⟩ := exists_of_delivered hd
    exact ⟨b, hb, hp.certifies hok hver ((hs.coreOk hok).1.store.wire hb hp.ne_genesis)⟩
  · obtain ⟨hne, hd⟩ := hprop x hx
    obtain ⟨b, hb⟩ := exists_of_delivered hd
    have hver := hf.verified hne hd b (hok.store.wire hb hne)
    refine ⟨b, hb, ?_⟩
    unfold Block.verify at hver
    split at hver
    · exact .inl ‹_›
    · exact .inr (certifies_of_verify hver)

/-- The vote of replica `voter` for block 1. -/
def voteOne (voter : ReplicaID) : Event Nat TableSig :=
  .call (.receiveVote { voter, blkHash := 1, cert := { objHash := 1, sig := (voter, 1) } })

/-- Replica 0 proposes block 1 and runs the callbacks, counting its own vote. -/
def proposeOne : List (Event Nat TableSig) :=
  .call (.propose [11] [0] []) :: List.replicate 4 .resume

theorem qc_formation_chain4 :
    let S := tableSetup 4 chain4
    let r := Run.exec (Replica.step S ⟨.threeStep, id⟩) (Replica.init S 0)
      (proposeOne ++ [voteOne 2, voteOne 1, .resume, .call (.propose [12] [1] []), .resume])
    r.core.hqc.1 = 1 ∧ r.core.hqc.2.signers = [1, 2, 0] ∧ Certifies S r.core.hqc.2 r.core.hqc.1 := by
  refine ⟨by decide +kernel, by decide +kernel, ?_⟩
  exact ((qc_formation (tableSetup 4 chain4) ⟨.threeStep, id⟩ 0 (by decide +kernel) _
    (by decide +kernel)).2.1 (by decide +kernel)).1

/-- The vote of replica 2 comes in before replica 0 proposes the block itself:
the certificate loses it and `voted` keeps it, so two signatures make `hqc`. -/
theorem qc_formation_earlyVote :
    let S := tableSetup 4 chain4
    let es := (tableFeed chain4 1 2).take 2 ++ voteOne 2 :: proposeOne ++ [voteOne 1]
    let r := Run.exec (Replica.step S ⟨.threeStep, id⟩) (Replica.init S 0) es
    Run.Allowed (Replica.step S ⟨.threeStep, id⟩) (fun r e => r.core.Checked S e) (Replica.init S 0) es ∧
      (r.core.selfQc 1).map (·.signers) = some [1, 0] ∧ r.core.voted 1 = [1, 0, 2] ∧
      r.core.hqc.1 = 1 ∧ r.core.hqc.2.verify S = .ok false := by
  decide +kernel

end HotStuffTx
