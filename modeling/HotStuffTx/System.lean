import HotStuffTx.Votes
import HotStuffTx.Sample
import HotStuffTx.Lib.Quorum

/-!
# The replicas together

A run of the system interleaves the steps of the honest replicas. What the
network and the Byzantine replicas do is in the arguments of the calls, so any
order, delay, loss and duplication of messages is some run. A certificate is
authentic where it holds no signature of an honest replica that the replica has
not made.
-/

set_option linter.unusedSectionVars false

namespace HotStuffTx

open Core

variable {Hash Sig : Type} [DecidableEq Hash]

abbrev System (Hash Sig : Type) := ReplicaID → Replica Hash Sig

namespace System

def init (S : Setup Hash Sig) : System Hash Sig := Replica.init S

/-- Replica `e.1` takes the step `e.2`. -/
def step (S : Setup Hash Sig) (O : Options) (sys : System Hash Sig)
    (e : ReplicaID × Event Hash Sig) : System Hash Sig :=
  Function.update sys e.1 ((sys e.1).step S O e.2)

end System

/-- At most `nfaulty` replicas are Byzantine. -/
structure Faults (S : Setup Hash Sig) where
  byz : Finset ReplicaID
  card_le : byz.card ≤ S.nfaulty

namespace Faults

variable {S : Setup Hash Sig} (F : Faults S)

def Honest (r : ReplicaID) : Prop := S.hasReplica r = true ∧ r ∉ F.byz

instance (r : ReplicaID) : Decidable (F.Honest r) := by unfold Honest; infer_instance

/-- An honest replica is called as its callers may. -/
def Sound (sys : System Hash Sig) (e : ReplicaID × Event Hash Sig) : Prop :=
  F.Honest e.1 ∧ (sys e.1).Sound e.2

instance (sys : System Hash Sig) (e : ReplicaID × Event Hash Sig) : Decidable (F.Sound sys e) := by
  unfold Sound
  infer_instance

/-- Signatures of honest replicas are not forged. -/
def Authentic (sys : System Hash Sig) (q : QuorumCert Hash Sig) : Prop :=
  ∀ r sig, (r, sig) ∈ q.sigs → F.Honest r → S.verifySig r q.objHash sig = true →
    (sys r).Signed q.objHash

instance (sys : System Hash Sig) (q : QuorumCert Hash Sig) : Decidable (F.Authentic sys q) :=
  decidable_of_iff (∀ p ∈ q.sigs, F.Honest p.1 → S.verifySig p.1 q.objHash p.2 = true →
    (sys p.1).Signed q.objHash) Prod.forall

/-- A majority whose honest members have all signed. -/
def Cert (sys : System Hash Sig) (h : Hash) : Prop :=
  ∃ Q : Finset ReplicaID, (∀ r ∈ Q, S.hasReplica r = true) ∧ S.nmajority ≤ Q.card ∧
    ∀ r ∈ Q, F.Honest r → (sys r).Signed h

variable {F} {sys : System Hash Sig}

theorem quorum_inter {A B : Finset ReplicaID} (hA : ∀ r ∈ A, S.hasReplica r = true)
    (hB : ∀ r ∈ B, S.hasReplica r = true) (hAc : S.nmajority ≤ A.card)
    (hBc : S.nmajority ≤ B.card) (hn : 0 < S.nreplicas) : ∃ r ∈ A, r ∈ B ∧ F.Honest r := by
  have hsub {C : Finset ReplicaID} (hC : ∀ r ∈ C, S.hasReplica r = true) :
      C ⊆ (Finset.range S.nreplicas).image UInt16.ofNat := by
    intro r hr
    have hlt : r.toNat < S.nreplicas := of_decide_eq_true (hC r hr)
    exact Finset.mem_image.mpr ⟨r.toNat, Finset.mem_range.mpr hlt, UInt16.ofNat_toNat⟩
  have hU : ((Finset.range S.nreplicas).image UInt16.ofNat).card ≤ S.nreplicas :=
    Finset.card_image_le.trans_eq (Finset.card_range _)
  obtain ⟨r, hrA, hrB, hr⟩ := Quorum.exists_good_inter hU (hsub hA) (hsub hB) hAc hBc F.card_le
    (S.three_nfaulty_lt hn)
  exact ⟨r, hrA, hrB, hA r hrA, hr⟩

/-- An accepted and authentic certificate is one. -/
theorem cert_of_verify {q : QuorumCert Hash Sig} (hv : q.verify S = .ok true)
    (ha : F.Authentic sys q) : F.Cert sys q.objHash := by
  obtain ⟨hcard, hsigs⟩ := QuorumCert.verify_iff.mp hv
  refine ⟨q.signers.toFinset, fun r hr => ?_, ?_, fun r hr hh => ?_⟩
  · obtain ⟨sig, hs⟩ := q.mem_signers.mp (List.mem_toFinset.mp hr)
    exact (hsigs r sig hs).1
  · have hnd : q.signers.Nodup := q.nodup
    rwa [List.toFinset_card_of_nodup hnd]
  · obtain ⟨sig, hs⟩ := q.mem_signers.mp (List.mem_toFinset.mp hr)
    exact ha r sig hs hh (hsigs r sig hs).2

theorem Cert.inter {a b : Hash} (ha : F.Cert sys a) (hb : F.Cert sys b) (hn : 0 < S.nreplicas) :
    ∃ r, F.Honest r ∧ (sys r).Signed a ∧ (sys r).Signed b := by
  obtain ⟨A, hA, hAc, hAs⟩ := ha
  obtain ⟨B, hB, hBc, hBs⟩ := hb
  obtain ⟨r, hrA, hrB, hr⟩ := quorum_inter hA hB hAc hBc hn (F := F)
  exact ⟨r, hr, hAs r hrA hr, hBs r hrB hr⟩

theorem Honest.pos (h : F.Honest r) : 0 < S.nreplicas :=
  Nat.zero_lt_of_lt (of_decide_eq_true h.1)

end Faults

section
variable {S : Setup Hash Sig} {O : Options} {F : Faults S} {sys : System Hash Sig}

theorem System.votesOk_step (sys : System Hash Sig) (h : ∀ r, Replica.VotesOk S (sys r)) (he : F.Sound sys e) :
    ∀ r, Replica.VotesOk S (sys.step S O e r) := by
  intro r
  unfold System.step
  by_cases hr : r = e.1
  · subst hr
    rw [Function.update_self]
    exact (h e.1).step (Replica.stepped (h e.1).core he.2)
  · rw [Function.update_of_ne hr]
    exact h r

theorem System.votesOk {es} (h : Run.Allowed (System.step S O) F.Sound (System.init S) es) (r : ReplicaID) :
    Replica.VotesOk S (Run.exec (System.step S O) (System.init S) es r) :=
  h.inv (I := fun sys => ∀ r, Replica.VotesOk S (sys r)) (fun _ => Replica.votesOk_init)
    (fun sys _ h he => System.votesOk_step sys h he) r

/-- A signed block has one height, and at that height nothing else is certified. -/
theorem Faults.Cert.unique (h : ∀ r, Replica.VotesOk S (sys r)) (ha : F.Cert sys a)
    (hb : F.Cert sys b) (hn : 0 < S.nreplicas) (hi : S.Height a k) (hj : S.Height b k) : a = b := by
  obtain ⟨r, -, hra, hrb⟩ := ha.inter hb hn
  have hplaced {x} (hx : (sys r).Signed x) : Placed S (sys r).core x :=
    .inr ((h r).placed (.inl hx)).1
  refine (h r).unique (.inl hra) (.inl hrb) ?_
  rw [(h r).core.store.height_eq (hplaced hra) hi, (h r).core.store.height_eq (hplaced hrb) hj]

/-- An honest replica votes once for a height, all honest replicas give a block
the same height, and two accepted certificates of one height are for one block. -/
theorem certificates_unique (S : Setup Hash Sig) (O : Options) (F : Faults S)
    (es : List (ReplicaID × Event Hash Sig))
    (h : Run.Allowed (System.step S O) F.Sound (System.init S) es) :
    let sys := Run.exec (System.step S O) (System.init S) es
    (∀ r, F.Honest r → ∀ a b, (sys r).Signed a → (sys r).Signed b →
      (sys r).core.height a = (sys r).core.height b → a = b) ∧
    (∀ r r', F.Honest r → F.Honest r' → ∀ b, (sys r).core.delivered b = true →
      (sys r').core.delivered b = true → (sys r).core.height b = (sys r').core.height b) ∧
    ∀ q q' : QuorumCert Hash Sig, q.verify S = .ok true → q'.verify S = .ok true →
      F.Authentic sys q → F.Authentic sys q' → ∀ r r', F.Honest r → F.Honest r' →
      (sys r).core.delivered q.objHash = true → (sys r').core.delivered q'.objHash = true →
      (sys r).core.height q.objHash = (sys r').core.height q'.objHash → q.objHash = q'.objHash := by
  intro sys
  have hok : ∀ r, Replica.VotesOk S (sys r) := System.votesOk h
  have hheight {r b} (hd : (sys r).core.delivered b = true) :
      S.Height b ((sys r).core.height b) :=
    (hok r).core.store.height ((hok r).core.store.placed_of_delivered hd)
  refine ⟨fun r _ a b ha hb => (hok r).unique (.inl ha) (.inl hb), ?_, ?_⟩
  · intro r r' _ _ b hd hd'
    exact (hheight hd).unique S.par_genesis (hheight hd')
  · intro q q' hv hv' ha ha' r r' hr _ hd hd' heq
    exact Faults.Cert.unique hok (Faults.cert_of_verify hv ha) (Faults.cert_of_verify hv' ha')
      hr.pos (hheight hd) (heq ▸ hheight hd')

/-- The first block of the chain reaches replicas 0 and 1 of 4. -/
def feedTwo : List (ReplicaID × Event Nat TableSig) :=
  (tableFeed chain4 1 3).map (0, ·) ++ (tableFeed chain4 1 3).map (1, ·)

theorem certificates_unique_feedTwo :
    let S := tableSetup 4 chain4
    let sys := Run.exec (System.step S ⟨.threeStep, id⟩) (System.init S) feedTwo
    (sys 0).core.height 1 = (sys 1).core.height 1 ∧
      ∀ b, (sys 0).Signed 1 → (sys 0).Signed b → (sys 0).core.height 1 = (sys 0).core.height b →
        1 = b := by
  have h := certificates_unique (tableSetup 4 chain4) ⟨.threeStep, id⟩ ⟨{3}, by decide +kernel⟩
    feedTwo (by decide +kernel)
  exact ⟨h.2.1 0 1 (by decide +kernel) (by decide +kernel) 1 (by decide +kernel)
    (by decide +kernel), h.1 0 (by decide +kernel) 1⟩

end

end HotStuffTx
