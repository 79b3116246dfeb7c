import HotStuffTx.System
import HotStuffTx.Provenance
import HotStuffTx.Lib.Chained

/-!
# Safe states

`Safe` relates the locks, votes and certificates of all honest replicas. A vote
is strict where it was cast under a certified ancestor no lower than what the
earlier votes of its replica lock; a certified block has a majority of strict
votes (`Firm`), and then any two decisive blocks are on one chain. The one vote
that need not be strict is by the first alternative of the vote rule, for a
block that does not descend from the block its certificate names; `Follows`
leaves it out.
-/

set_option linter.unusedSectionVars false

namespace HotStuffTx

open Core Forest

variable {Hash Sig : Type} [DecidableEq Hash]

-- ---------------------------------------------------------------------------
-- The runs
-- ---------------------------------------------------------------------------

/-- What the network layer lets through: verified blocks and votes without
forged signatures, proposals of other replicas, delivered parents. -/
def Faults.Admits {S : Setup Hash Sig} (F : Faults S) (sys : System Hash Sig) :
    ReplicaID × Event Hash Sig → Prop
  | (r, .call (.deliver blk)) => F.Honest r ∧ ∀ b, (sys r).core.storage blk = some b →
      b.verify S = .ok true ∧ F.Authentic sys b.qc
  | (r, .call (.propose _ parents _)) => F.Honest r ∧ ∀ p ∈ parents, (sys r).core.delivered p = true
  | (r, .call (.receiveProposal prop)) => F.Honest r ∧ prop.proposer ≠ r
  | (r, .call (.receiveVote v)) => F.Honest r ∧ v.verify S = .ok true ∧
      (F.Honest v.voter → (sys v.voter).Signed v.blkHash)
  | (r, _) => F.Honest r

instance {S : Setup Hash Sig} (F : Faults S) (sys : System Hash Sig)
    (e : ReplicaID × Event Hash Sig) : Decidable (F.Admits sys e) := by
  unfold Faults.Admits
  split <;> infer_instance

/-- The certificate of the proposed block is no reason to leave the lock: the
replica does not vote for the block, or the certified block is no higher than
the lock, or the block extends the lock, or it extends the certified block. -/
def Core.Follows (s : Core Hash Sig) : Event Hash Sig → Prop
  | .call (.receiveProposal prop) => s.height prop.blk ≤ s.vheight ∨
      s.checkAncestry s.bLock prop.blk = true ∨ ∀ q, s.qcRef prop.blk = some q →
        s.height q ≤ s.height s.bLock ∨
          s.height q < s.height prop.blk ∧ s.checkAncestry q prop.blk = true
  | .call (.propose _ parents _) => ∀ p, parents.head? = some p → s.height p + 1 ≤ s.vheight ∨
      s.height s.hqc.1 ≤ s.height s.bLock ∨ s.checkAncestry s.bLock p = true ∨
        s.checkAncestry s.hqc.1 p = true
  | _ => True

instance (s : Core Hash Sig) (e : Event Hash Sig) : Decidable (s.Follows e) :=
  match e with
  | .call (.receiveProposal prop) => inferInstanceAs (Decidable (s.height prop.blk ≤ s.vheight ∨
      s.checkAncestry s.bLock prop.blk = true ∨ ∀ q, s.qcRef prop.blk = some q →
        s.height q ≤ s.height s.bLock ∨
          s.height q < s.height prop.blk ∧ s.checkAncestry q prop.blk = true))
  | .call (.propose _ parents _) => inferInstanceAs (Decidable (∀ p, parents.head? = some p →
      s.height p + 1 ≤ s.vheight ∨ s.height s.hqc.1 ≤ s.height s.bLock ∨
        s.checkAncestry s.bLock p = true ∨ s.checkAncestry s.hqc.1 p = true))
  | .call (.addBlk _) | .call (.deliver _) | .call (.receiveVote _) | .call (.asyncQcFinish _)
  | .call (.rejectPm _) | .resume => instDecidableTrue

-- ---------------------------------------------------------------------------
-- The invariant
-- ---------------------------------------------------------------------------

section
variable (S : Setup Hash Sig) (O : Options) (F : Faults S) (sys : System Hash Sig)

/-- The vote of `r` for `w` was cast under a certified ancestor. -/
def StrictVote (r : ReplicaID) (w : Hash) : Prop :=
  Chained.Strict S.par S.genesis (fun r v => (sys r).Endorsed v) (S.Locks O.build) (F.Cert sys) r w

/-- A majority whose honest members have all voted strictly. -/
def Firm (w : Hash) : Prop :=
  ∃ Q : Finset ReplicaID, (∀ r ∈ Q, S.hasReplica r = true) ∧ S.nmajority ≤ Q.card ∧
    ∀ r ∈ Q, F.Honest r → (sys r).Signed w ∧ StrictVote S O F sys r w

/-- A certified chain commits `b`. -/
def Decisive (b : Hash) : Prop :=
  F.Cert sys b ∧ ∃ v l, F.Cert sys v ∧ F.Cert sys l ∧ S.Locks O.build v b ∧ S.par v = some l

structure Safe : Prop where
  votes : ∀ r, Replica.VotesOk S (sys r)
  ids : ∀ r, (sys r).core.id = r
  voted : ∀ r, F.Honest r → ∀ h, h ≠ S.genesis → ((sys r).core.voted h).Nodup ∧
    ∀ x ∈ (sys r).core.voted h, S.hasReplica x = true ∧ (F.Honest x → (sys x).Signed h)
  cited : ∀ r, F.Honest r → ∀ x, Cites S (sys r).core x → x = S.genesis ∨ F.Cert sys x
  hqc : ∀ r, F.Honest r → (sys r).core.hqc.1 = S.genesis ∨ F.Cert sys (sys r).core.hqc.1
  bLock : ∀ r, F.Honest r → (sys r).core.bLock = S.genesis ∨ F.Cert sys (sys r).core.bLock
  locked : ∀ r, F.Honest r → ∀ v a k, (sys r).Endorsed v → S.Locks O.build v a → S.Height a k →
    k ≤ (sys r).core.height (sys r).core.bLock
  strict : ∀ r, F.Honest r → ∀ w, (sys r).Endorsed w → StrictVote S O F sys r w ∨ Firm S O F sys w
  bExec : ∀ r, F.Honest r →
    (sys r).core.bExec = S.genesis ∨ Decisive S O F sys (sys r).core.bExec
  breached : ∀ r, F.Honest r → .safetyBreached ∉ (sys r).thrown

end

section
variable {S : Setup Hash Sig} {O : Options} {F : Faults S} {sys sys' : System Hash Sig}

-- ---------------------------------------------------------------------------
-- Decisive blocks
-- ---------------------------------------------------------------------------

namespace Safe

variable (h : Safe S O F sys)
include h

theorem height_signed (hx : (sys r).Endorsed x) : S.Height x ((sys r).core.height x) :=
  (h.votes r).core.store.height (.inr ((h.votes r).placed hx).1)

theorem height_cert (hn : 0 < S.nreplicas) (hc : F.Cert sys x) : ∃ k, S.Height x k := by
  obtain ⟨r, -, hs, -⟩ := hc.inter hc hn
  exact ⟨_, h.height_signed (.inl hs)⟩

theorem firm (hc : F.Cert sys w) : Firm S O F sys w := by
  obtain ⟨Q, hQ, hcard, hsigned⟩ := hc
  by_cases hf : Firm S O F sys w
  · exact hf
  · exact ⟨Q, hQ, hcard, fun r hr hh => ⟨hsigned r hr hh,
      (h.strict r hh w (.inl (hsigned r hr hh))).resolve_right hf⟩⟩

theorem cert_inter (hn : 0 < S.nreplicas) (hv : F.Cert sys v) (hw : F.Cert sys w) :
    ∃ r, (sys r).Endorsed v ∧ StrictVote S O F sys r w := by
  obtain ⟨A, hA, hAc, hAs⟩ := hv
  obtain ⟨B, hB, hBc, hBs⟩ := h.firm hw
  obtain ⟨r, hrA, hrB, hr⟩ := Faults.quorum_inter hA hB hAc hBc hn (F := F)
  exact ⟨r, .inl (hAs r hrA hr), (hBs r hrB hr).2⟩

/-- What lies between a decisive block and the block that commits it is certified. -/
theorem cert_between (hb : Decisive S O F sys b) (hl : S.Locks O.build v b)
    (hv : F.Cert sys v) (hp : S.par v = some l) (hcl : F.Cert sys l) (hbx : S.Ext b x)
    (hxv : S.Ext x v) (hk : S.Height v k) : F.Cert sys x := by
  rcases hxv.eq_or_par with rfl | ⟨l', hl', hxl⟩
  · exact hv
  cases hp.symm.trans hl'
  rcases hxl.eq_or_par with rfl | ⟨c, hc, hxc⟩
  · exact hcl
  obtain ⟨j, rfl, hj⟩ := hk.of_par S.par_genesis hp
  obtain ⟨i, rfl, hi⟩ := hj.of_par S.par_genesis hc
  obtain ⟨i', hi', hx⟩ := hxc.height S.par_genesis hi
  cases hO : O.build with
  | threeStep =>
    rw [hO] at hl
    obtain ⟨l'', -, hvl, -, hlb⟩ := hl
    cases hp.symm.trans hvl
    cases hc.symm.trans hlb
    have := hbx.height_le S.par_genesis hi hx
    obtain rfl : i = i' := by omega
    exact hbx.eq_of_height S.par_genesis hi hx ▸ hb.1
  | twoStep =>
    rw [hO] at hl
    cases hp.symm.trans hl.2
    have := hbx.height_le S.par_genesis hj hx
    omega

theorem decisive_ext (hn : 0 < S.nreplicas) (hb : Decisive S O F sys b) (hw : F.Cert sys w)
    (hi : S.Height b i) (hk : S.Height w k) (hik : i ≤ k) : S.Ext b w := by
  obtain ⟨hcb, v, l, hcv, hcl, hlock, hp⟩ := hb
  obtain ⟨j, hj⟩ := h.height_cert hn hcv
  refine Chained.certified_ext (fun r v => (sys r).Endorsed v) (S.Locks O.build) (F.Cert sys)
    S.par_genesis (fun _ hc => h.height_cert hn hc) (fun v w hv hw => h.cert_inter hn hv hw) hi hj
    hcv hlock ?_ hw hk hik
  intro w k hw hk hik hkj
  obtain ⟨_, hij, hi', hbv⟩ := hlock.height hj
  -- the ancestor of `v` at the height of `w` is certified, so it is `w`
  obtain ⟨x, hxv, hx⟩ := hj.ancestor hkj
  have hbx : S.Ext b x := hbv.of_height_le S.par_genesis hxv hi hx hik
  have hcx := h.cert_between ⟨hcb, v, l, hcv, hcl, hlock, hp⟩ hlock hcv hp hcl hbx hxv hj
  exact hcx.unique h.votes hw hn hx hk ▸ hbx

/-- Any two blocks committed by honest replicas are on one chain. -/
theorem exec_total (hr : F.Honest r) (hr' : F.Honest r') :
    S.Ext (sys r).core.bExec (sys r').core.bExec ∨ S.Ext (sys r').core.bExec (sys r).core.bExec := by
  have hheight {x} : S.Height (sys x).core.bExec ((sys x).core.height (sys x).core.bExec) :=
    (h.votes x).core.store.height
      ((h.votes x).core.store.placed_of_delivered (h.votes x).core.delivered_bExec)
  rcases h.bExec r hr with hg | hd
  · exact .inl (hg ▸ hheight.ext)
  rcases h.bExec r' hr' with hg | hd'
  · exact .inr (hg ▸ hheight.ext)
  rcases Nat.le_total ((sys r).core.height (sys r).core.bExec)
    ((sys r').core.height (sys r').core.bExec) with hle | hle
  · exact .inl (h.decisive_ext hr.pos hd hd'.1 hheight hheight hle)
  · exact .inr (h.decisive_ext hr.pos hd' hd.1 hheight hheight hle)

end Safe

-- ---------------------------------------------------------------------------
-- One step
-- ---------------------------------------------------------------------------

theorem Faults.Admits.sound {e : ReplicaID × Event Hash Sig} (he : F.Admits sys e) :
    F.Sound sys e := by
  obtain ⟨r, e⟩ := e
  cases e with
  | resume => exact ⟨he, trivial⟩
  | call c =>
    cases c with
    | propose => exact he
    | deliver => exact ⟨he.1, trivial⟩
    | receiveProposal => exact ⟨he.1, trivial⟩
    | receiveVote => exact ⟨he.1, trivial⟩
    | addBlk => exact ⟨he, trivial⟩
    | asyncQcFinish => exact ⟨he, trivial⟩
    | rejectPm => exact ⟨he, trivial⟩

namespace Safe

variable {r : ReplicaID} {e : Event Hash Sig} {r' : Replica Hash Sig} (h : Safe S O F sys)
  (hs : Replica.Stepped S O (sys r) e r')
include h hs

theorem advances (x : ReplicaID) :
    Advances (sys x).core (Function.update sys r r' x).core := by
  by_cases hx : x = r
  · subst hx
    rw [Function.update_self]
    exact (hs.coreOk (h.votes x).core).2
  · rw [Function.update_of_ne hx]
    exact .refl

theorem signed_mono (hx : (sys x).Signed w) : (Function.update sys r r' x).Signed w := by
  obtain ⟨dst, v, hv, hw⟩ := hx
  exact ⟨dst, v, (h.advances hs x).out.subset hv, hw⟩

theorem cert_mono (hc : F.Cert sys w) : F.Cert (Function.update sys r r') w := by
  obtain ⟨Q, hQ, hcard, hsigned⟩ := hc
  exact ⟨Q, hQ, hcard, fun x hx hh => h.signed_mono hs (hsigned x hx hh)⟩

/-- A replica endorses nothing new at or below the heights of its old votes. -/
theorem endorsed_old (hv : (Function.update sys r r' x).Endorsed v) (hi : S.Height v i)
    (hle : i ≤ (sys x).core.vheight) : (sys x).Endorsed v := by
  by_cases hx : x = r
  · subst hx
    rw [Function.update_self] at hv
    rcases hs.endorsed (h.votes x).core with hno | ⟨n, hn, honly⟩
    · exact hno v hv
    · refine (honly v hv).resolve_right ?_
      rintro rfl
      have hok := ((h.votes x).step hs)
      have := hok.core.store.height_eq (.inr (hok.placed hv).1) hi
      have := (hn.spec (h.votes x).core).1
      omega
  · rwa [Function.update_of_ne hx] at hv

theorem strict_mono (hw : (sys x).Endorsed w) (hst : StrictVote S O F sys x w) :
    StrictVote S O F (Function.update sys r r') x w := by
  obtain ⟨L, hL, hext, hne, hrule⟩ := hst
  refine ⟨L, hL.imp_left (h.cert_mono hs), hext, hne, fun v a i j k l hv hlock hi hj hij => ?_⟩
  refine hrule v a i j k l (h.endorsed_old hs hv hi ?_) hlock hi hj hij
  have := (h.votes x).core.store.height_eq (.inr ((h.votes x).placed hw).1) hj
  have := ((h.votes x).placed hw).2
  omega

theorem firm_mono (hf : Firm S O F sys w) : Firm S O F (Function.update sys r r') w := by
  obtain ⟨Q, hQ, hcard, hvotes⟩ := hf
  refine ⟨Q, hQ, hcard, fun x hx hh => ?_⟩
  obtain ⟨hsigned, hst⟩ := hvotes x hx hh
  exact ⟨h.signed_mono hs hsigned, h.strict_mono hs (.inl hsigned) hst⟩

theorem decisive_mono (hd : Decisive S O F sys b) : Decisive S O F (Function.update sys r r') b := by
  obtain ⟨hb, v, l, hv, hl, hlock, hp⟩ := hd
  exact ⟨h.cert_mono hs hb, v, l, h.cert_mono hs hv, h.cert_mono hs hl, hlock, hp⟩

omit hs in
/-- What the block of `update` and those below it cite is certified. -/
theorem cited_mid (hr : F.Honest r) (hm : (sys r).Mid S e s₁ n) (hc : Cites S s₁ x) :
    x = S.genesis ∨ F.Cert sys x := by
  obtain ⟨-, -, -, -, hdel⟩ := hm.spec (h.votes r).core
  obtain ⟨m, hm, hd, ht⟩ := hc
  rcases hdel m hd with hd | ⟨-, ht'⟩
  · exact h.cited r hr x ⟨m, hm, hd, ht⟩
  · cases ht.symm.trans ht'
    exact h.hqc r hr

theorem step_cited (he : F.Admits sys (r, e)) (hc : Cites S r'.core x) :
    x = S.genesis ∨ F.Cert sys x := by
  have hr : F.Honest r := he.sound.1
  obtain ⟨m, hm, hd, ht⟩ := hc
  rcases (hs.effect (h.votes r).core).delivered (h.votes r).core hd with hd | ⟨rfl, hf⟩ | ⟨-, ht'⟩
  · exact h.cited r hr x ⟨m, hm, hd, ht⟩
  · obtain ⟨b, hb⟩ := isBlkFetched_iff.mp hf
    obtain ⟨hverify, hauth⟩ := he.2 b hb
    rw [target_of_wire ((h.votes r).core.store.wire hb hm)] at ht
    cases ht
    unfold Block.verify at hverify
    split at hverify
    · rename_i hg
      exact .inl hg
    · exact .inr (Faults.cert_of_verify hverify hauth)
  · cases ht.symm.trans ht'
    exact h.hqc r hr

theorem step_bLock (hr : F.Honest r) : r'.core.bLock = S.genesis ∨ F.Cert sys r'.core.bLock := by
  have hold {s : Core Hash Sig} (hs : s.bLock = (sys r).core.bLock) :
      s.bLock = S.genesis ∨ F.Cert sys s.bLock := hs ▸ h.bLock r hr
  cases hs.effect (h.votes r).core with
  | quiet hq => exact hold hq.bLock
  | store hst => exact hold (hst.stores (h.votes r).core.store).bLock
  | update hm hu hq =>
    obtain ⟨hok, hst, hn, -, -⟩ := hm.spec (h.votes r).core
    rcases ran_spec hok hu hq with ⟨hsame, -⟩ | ⟨b, t, hran⟩
    · exact hold (hsame.bLock.trans hst.bLock)
    · rcases hran.bLock_cases hok hn with heq | hc
      · exact hold (heq.trans hst.bLock)
      · exact h.cited_mid hr hm hc
  | count hq _ hc => exact hold (hc.rest.1.trans hq.bLock)
  | miscount hq _ hc => exact hold (hc.rest.2.1.trans hq.bLock)

theorem step_bExec (hr : F.Honest r) :
    r'.core.bExec = S.genesis ∨ Decisive S O F sys r'.core.bExec := by
  have hold {s : Core Hash Sig} (hs : s.bExec = (sys r).core.bExec) :
      s.bExec = S.genesis ∨ Decisive S O F sys s.bExec := hs ▸ h.bExec r hr
  cases hs.effect (h.votes r).core with
  | quiet hq => exact hold hq.bExec
  | store hst => exact hold (hst.stores (h.votes r).core.store).bExec
  | update hm hu hq =>
    obtain ⟨hok, hst, hn, -, -⟩ := hm.spec (h.votes r).core
    rcases ran_spec hok hu hq with ⟨hsame, -⟩ | ⟨b, t, hran⟩
    · exact hold (hsame.bExec.trans hst.bExec)
    · rcases hran.bExec with heq | hc
      · exact hold (heq.trans hst.bExec)
      · obtain ⟨l, hlock, hp, ⟨hct, ht⟩, ⟨hcl, hl⟩, hcc, hc, -, -⟩ :=
          hok.cites_commitTarget hn hran.ne hran.target hran.undecided hc
        exact .inr ⟨(h.cited_mid hr hm hcc).resolve_left hc, t, l,
          (h.cited_mid hr hm hct).resolve_left ht, (h.cited_mid hr hm hcl).resolve_left hl, hlock, hp⟩
  | count hq _ hc => exact hold (hc.rest.2.1.trans hq.bExec)
  | miscount hq _ hc => exact hold (hc.rest.2.2.trans hq.bExec)

/-- `update` finds every block it would commit above `b_exec`, or decided. -/
theorem step_breached (hr : F.Honest r) : .safetyBreached ∉ r'.thrown := by
  have hold := h.breached r hr
  rcases hs.thrown_cases with heq | ⟨x, heq⟩
  · rwa [heq]
  · rw [heq, List.mem_append, List.mem_singleton]
    rintro (hx | rfl)
    · exact hold hx
    · obtain ⟨s₁, n, hm, href⟩ := hs.breached heq
      obtain ⟨hok, hst, hn, -, -⟩ := hm.spec (h.votes r).core
      obtain ⟨t, l, c, hlock, hp, ⟨hct, ht⟩, ⟨hcl, hl⟩, ⟨hcc, hc⟩, hdec, hcd, hnext⟩ :=
        hok.refused_spec hn href
      have hd : Decisive S O F sys c := ⟨(h.cited_mid hr hm hcc).resolve_left hc, t, l,
        (h.cited_mid hr hm hct).resolve_left ht, (h.cited_mid hr hm hcl).resolve_left hl, hlock, hp⟩
      have hkc := hok.store.height (hok.store.placed_of_delivered hcd)
      have hke := hok.store.height (hok.store.placed_of_delivered hok.delivered_bExec)
      rcases Nat.le_total (s₁.height s₁.bExec) (s₁.height c) with hle | hle
      · rcases h.bExec r hr with hg | hexec
        · rw [hst.bExec, hg] at hnext
          exact hnext hkc.ext
        · rw [← hst.bExec] at hexec
          exact hnext (h.decisive_ext hr.pos hexec hd.1 hke hkc hle)
      · rcases h.bExec r hr with hg | hexec
        · rw [hst.bExec, hg] at hnext
          exact hnext hkc.ext
        · rw [← hst.bExec] at hexec
          have := hok.decision.mpr (h.decisive_ext hr.pos hd hexec.1 hkc hke hle)
          simp [hdec] at this

theorem step_voted (he : F.Admits sys (r, e)) (hw : w ≠ S.genesis) : (r'.core.voted w).Nodup ∧
    ∀ x ∈ r'.core.voted w, S.hasReplica x = true ∧
      (F.Honest x → (Function.update sys r r' x).Signed w) := by
  have hr : F.Honest r := he.sound.1
  obtain ⟨hnd, hold⟩ := h.voted r hr w hw
  have hmono {x} (hx : x ∈ (sys r).core.voted w) : S.hasReplica x = true ∧
      (F.Honest x → (Function.update sys r r' x).Signed w) :=
    ⟨(hold x hx).1, fun hh => h.signed_mono hs ((hold x hx).2 hh)⟩
  rcases (hs.effect (h.votes r).core).voted (h.votes r).core w with heq | ⟨v, s₁, hv, hout, rfl, hnew, heq⟩
  · rw [heq]
    exact ⟨hnd, fun x hx => hmono hx⟩
  · rw [heq]
    refine ⟨List.nodup_cons.mpr ⟨hnew, hnd⟩, fun x hx => ?_⟩
    rcases List.mem_cons.mp hx with rfl | hx
    · rcases hv with ⟨rfl, rfl⟩ | ⟨rfl, prop, rest, -, rfl, rfl⟩
      · obtain ⟨-, hverify, hsigned⟩ := he
        refine ⟨?_, fun hh => h.signed_mono hs (hsigned hh)⟩
        unfold Vote.verify at hverify
        split at hverify
        · assumption
        · cases hverify
      · rw [show ((sys r).core.castVote S prop.blk).voter = r from h.ids r]
        refine ⟨hr.1, fun _ => ?_⟩
        rw [Function.update_self]
        refine ⟨prop.proposer, _, ?_, rfl⟩
        rw [hout]
        exact List.mem_append_right _ (List.mem_singleton_self _)
    · exact hmono hx

theorem step_hqc (he : F.Admits sys (r, e)) : r'.core.hqc.1 = S.genesis ∨
    F.Cert (Function.update sys r r') r'.core.hqc.1 := by
  have hr : F.Honest r := he.sound.1
  have hold {s : Core Hash Sig} (hq : s.hqc = (sys r).core.hqc) :
      s.hqc.1 = S.genesis ∨ F.Cert (Function.update sys r r') s.hqc.1 := by
    rw [hq]
    exact (h.hqc r hr).imp_right (h.cert_mono hs)
  cases hs.effect (h.votes r).core with
  | quiet hq => exact hold hq.hqc
  | store hst => exact hold (hst.stores (h.votes r).core.store).hqc
  | update hm hu hq =>
    obtain ⟨hok, hst, hn, -, -⟩ := hm.spec (h.votes r).core
    rcases ran_spec hok hu hq with ⟨hsame, -⟩ | ⟨b, t, hran⟩
    · exact hold (hsame.hqc.trans hst.hqc)
    · rcases hran.hqc_cases with heq | heq
      · exact hold (heq.trans hst.hqc)
      · rw [heq]
        exact (h.cited_mid hr hm ⟨_, hran.ne, hn, hran.target⟩).imp_right (h.cert_mono hs)
  | count hq _ hc =>
    rcases hc.rest.2.2 with heq | ⟨q, heq, -, hpos, hlen⟩
    · exact hold (heq.trans hq.hqc)
    · rw [heq]
      refine .inr ?_
      have hne {w} (hw : 0 < r'.core.height w) : w ≠ S.genesis := by
        rintro rfl
        simp [(hs.coreOk (h.votes r).core).1.store.height_genesis] at hw
      obtain ⟨hnd, hvoters⟩ := h.step_voted hs he (hne hpos)
      refine ⟨_, fun x hx => (hvoters x (List.mem_toFinset.mp hx)).1, ?_,
        fun x hx hh => (hvoters x (List.mem_toFinset.mp hx)).2 hh⟩
      rw [List.toFinset_card_of_nodup hnd, hlen]
  | miscount hq _ hc => exact hold (hc.rest.1.trans hq.hqc)

theorem step_locked (he : F.Admits sys (r, e)) (hv : r'.Endorsed v) (hl : S.Locks O.build v a)
    (hk : S.Height a k) : k ≤ r'.core.height r'.core.bLock := by
  have hr : F.Honest r := he.sound.1
  have hold (hv : (sys r).Endorsed v) : k ≤ r'.core.height r'.core.bLock :=
    Nat.le_trans (h.locked r hr v a k hv hl hk) (hs.coreOk (h.votes r).core).2.bLock
  rcases hs.endorsed (h.votes r).core with hno | ⟨n, hn, honly⟩
  · exact hold (hno v hv)
  rcases honly v hv with hv | rfl
  · exact hold hv
  generalize r'.core = s' at hn
  cases hn with
  | own hp =>
    rw [h.ids] at hp
    exact absurd hp he.2
  | other _ hd hu => exact (ran_locked (h.votes r).core hd hu hl hk :)
  | propose hp hu =>
    have hok := ((h.votes r).core.stores (hp.stores (h.votes r).core.store)).1
    exact (ran_locked hok hp.delivered_self hu hl hk :)

/-- A vote under a certified ancestor no lower than the lock the step began
with is strict, unless it is for that ancestor, which then has its strict votes. -/
theorem strict_of_ext (hr : F.Honest r) (hL : L = S.genesis ∨ F.Cert sys L) (hext : S.Ext L n)
    (hn : S.Height n j) (hj : (sys r).core.vheight < j) (hk : S.Height L k)
    (hle : (sys r).core.height (sys r).core.bLock ≤ k)
    (honly : ∀ x, r'.Endorsed x → (sys r).Endorsed x ∨ x = n) :
    StrictVote S O F (Function.update sys r r') r n ∨ Firm S O F (Function.update sys r r') n := by
  by_cases hne : L = n
  · subst hne
    refine .inr (h.firm_mono hs (h.firm (hL.resolve_left ?_)))
    rintro rfl
    obtain rfl := hn.unique S.par_genesis .zero
    omega
  · refine .inl ⟨L, hL.symm.imp_left (h.cert_mono hs), hext, hne, ?_⟩
    intro v a i j' ka l hv hlock hi hj' hij ha hl
    rw [Function.update_self] at hv
    obtain rfl := hk.unique S.par_genesis hl
    rcases honly v hv with hv | rfl
    · exact Nat.le_trans (h.locked r hr v a ka hv hlock ha) hle
    · have := hi.unique S.par_genesis hj'
      omega

theorem step_strict (he : F.Admits sys (r, e))
    (hf : O.build = .twoStep ∨ (sys r).core.Follows e) (hw : r'.Endorsed w) :
    StrictVote S O F (Function.update sys r r') r w ∨ Firm S O F (Function.update sys r r') w := by
  have hr : F.Honest r := he.sound.1
  have hcore := (h.votes r).core
  have hold (hw : (sys r).Endorsed w) := (h.strict r hr w hw).imp (h.strict_mono hs hw) (h.firm_mono hs)
  rcases hs.endorsed hcore with hno | ⟨n, hn, honly⟩
  · exact hold (hno w hw)
  rcases honly w hw with hw | rfl
  · exact hold hw
  obtain ⟨hok', hadv⟩ := hs.coreOk hcore
  obtain ⟨hlt, -⟩ := hn.spec hcore
  have hpn : Placed S r'.core w := .inr (Nat.zero_lt_of_lt hlt)
  have hne : w ≠ S.genesis := by
    rintro rfl
    simp [hok'.store.height_genesis] at hlt
  have hjn := hok'.store.height hpn
  have hkl := hcore.store.height hcore.bLock
  have hbLock := h.bLock r hr
  -- under the old lock, the new lock, or the certified block above it
  have hunder {L k} (hL : L = S.genesis ∨ F.Cert sys L) (hext : S.Ext L w) (hk : S.Height L k)
      (hle : (sys r).core.height (sys r).core.bLock ≤ k) :=
    h.strict_of_ext hs hr hL hext hjn hlt hk hle honly
  have hunderOld (hext : S.Ext (sys r).core.bLock w) := hunder hbLock hext hkl (Nat.le_refl _)
  have hunderNew (hext : S.Ext r'.core.bLock w) :=
    hunder (h.step_bLock hs hr) hext (hok'.store.height hok'.bLock) hadv.bLock
  generalize hs' : r'.core = s' at hn
  cases hn with
  | own hp =>
    rw [h.ids] at hp
    exact absurd hp he.2
  | @other prop s₁ hp hd hu hv hrule =>
    rcases hrule with ⟨q, hq, hlq⟩ | hext
    · obtain ⟨hheight, hqcRef, -⟩ := hu.same hcore
      have hadv₁ := (hcore.updated hu).2
      rw [hqcRef] at hq
      rcases hf with h2 | hnot | hext | hf
      · have := ran_twoStep hcore (h2 ▸ hu) hq
        omega
      · have := hadv₁.vheight
        rw [congrFun hheight prop.blk] at hv
        omega
      · exact hunderOld ((hcore.store.checkAncestry_iff hcore.bLock
          (hcore.store.placed_of_delivered hd)).mp hext)
      · rcases hf q hq with hle | ⟨-, hext⟩
        · have := hadv₁.bLock
          rw [congrFun hheight q] at hlq
          omega
        · have hlq' : s₁.height s₁.bLock < (sys r).core.height q := by
            rwa [congrFun hheight q] at hlq
          have hpq : Placed S (sys r).core q := .inr (Nat.zero_lt_of_lt hlq')
          have hcq := h.cited r hr q ⟨_, hne, hd, hcore.store.qcRef_target hq hne⟩
          exact hunder hcq ((hcore.store.checkAncestry_iff hpq
            (hcore.store.placed_of_delivered hd)).mp hext) (hcore.store.height hpq)
            (Nat.le_trans hadv₁.bLock (Nat.le_of_lt hlq'))
    · exact hunderNew (by rw [hs']; exact hext)
  | @propose cmds parents extra n s₁ s₂ hp hu hv hrule =>
    rcases hrule with ⟨q, hq, hlq⟩ | hext
    · have hst := hp.stores hcore.store
      have hok₁ := (hcore.stores hst).1
      obtain ⟨hheight, hqcRef, -⟩ := hu.same hok₁
      have hadv₁ := (hcore.stores hst).2.trans (hok₁.updated hu).2
      have hq₁ : s₁.qcRef w = some q := by rwa [hqcRef] at hq
      have htarget := hok₁.store.qcRef_target hq₁ hp.ne_genesis
      obtain rfl : (sys r).core.hqc.1 = q := by
        rw [hp.target_eq hcore] at htarget
        exact Option.some.inj htarget
      have hqk : s₂.height (sys r).core.hqc.1 = (sys r).core.height (sys r).core.hqc.1 := by
        rw [congrFun hheight]
        exact hst.grow.height_eq hcore.store hst.ok hcore.hqc
      obtain ⟨p, hhead, hpar⟩ := hp.par_eq
      have hpp := hcore.store.placed_of_delivered (he.2 p (List.mem_of_mem_head? hhead))
      obtain ⟨k, hk, hpk⟩ := hjn.of_par S.par_genesis hpar
      have hpk := hcore.store.height_eq hpp hpk
      rcases hf with h2 | hf
      · have := ran_twoStep hok₁ (h2 ▸ hu) hq₁
        omega
      rcases hf p hhead with hnot | hle | hext | hext
      · omega
      · have := hadv₁.bLock
        omega
      · exact hunderOld (.step hpar ((hcore.store.checkAncestry_iff hcore.bLock hpp).mp hext))
      · refine hunder (h.hqc r hr) (.step hpar ((hcore.store.checkAncestry_iff hcore.hqc hpp).mp hext))
          (hcore.store.height hcore.hqc) ?_
        have := hadv₁.bLock
        omega
    · exact hunderNew (by rw [hs']; exact hext)

end Safe

theorem Safe.step {e : ReplicaID × Event Hash Sig} (h : Safe S O F sys) (he : F.Admits sys e)
    (hf : O.build = .twoStep ∨ (sys e.1).core.Follows e.2) : Safe S O F (sys.step S O e) := by
  obtain ⟨r, e⟩ := e
  have hs := Replica.stepped (O := O) (h.votes r).core he.sound.2
  generalize hr' : (sys r).step S O e = r' at hs
  have hsys : sys.step S O (r, e) = Function.update sys r r' := by
    simp only [System.step, hr']
  rw [hsys]
  have hadv := h.advances hs
  have hother {P : ReplicaID → Replica Hash Sig → Prop} (hr : P r r') (ho : ∀ x, P x (sys x)) x :
      P x (Function.update sys r r' x) := by
    by_cases hx : x = r
    · subst hx
      rwa [Function.update_self]
    · rw [Function.update_of_ne hx]
      exact ho x
  have hcert {w} : F.Cert sys w → F.Cert (Function.update sys r r') w := h.cert_mono hs
  refine ⟨?_, ?_, ?_, ?_, ?_, ?_, ?_, ?_, ?_, ?_⟩
  · exact hother (P := fun _ q => Replica.VotesOk S q) ((h.votes r).step hs) h.votes
  · intro x
    rw [(hadv x).id, h.ids]
  · refine hother (P := fun x q => F.Honest x → ∀ w, w ≠ S.genesis → (q.core.voted w).Nodup ∧
      ∀ y ∈ q.core.voted w, S.hasReplica y = true ∧
        (F.Honest y → (Function.update sys r r' y).Signed w)) ?_ ?_
    · exact fun _ w hw => h.step_voted hs he hw
    · intro x hx w hw
      obtain ⟨hnd, hv⟩ := h.voted x hx w hw
      exact ⟨hnd, fun y hy => ⟨(hv y hy).1, fun hh => h.signed_mono hs ((hv y hy).2 hh)⟩⟩
  · refine hother (P := fun x q => F.Honest x → ∀ w, Cites S q.core w → w = S.genesis ∨
      F.Cert (Function.update sys r r') w) ?_ ?_
    · exact fun _ w hw => (h.step_cited hs he hw).imp_right hcert
    · exact fun x hx w hw => (h.cited x hx w hw).imp_right hcert
  · refine hother (P := fun x q => F.Honest x → q.core.hqc.1 = S.genesis ∨
      F.Cert (Function.update sys r r') q.core.hqc.1) ?_ ?_
    · exact fun _ => h.step_hqc hs he
    · exact fun x hx => (h.hqc x hx).imp_right hcert
  · refine hother (P := fun x q => F.Honest x → q.core.bLock = S.genesis ∨
      F.Cert (Function.update sys r r') q.core.bLock) ?_ ?_
    · exact fun hr => (h.step_bLock hs hr).imp_right hcert
    · exact fun x hx => (h.bLock x hx).imp_right hcert
  · refine hother (P := fun x q => F.Honest x → ∀ v a k, q.Endorsed v → S.Locks O.build v a →
      S.Height a k → k ≤ q.core.height q.core.bLock) ?_ ?_
    · exact fun _ v a k hv hl hk => h.step_locked hs he hv hl hk
    · exact h.locked
  · refine hother (P := fun x q => F.Honest x → ∀ w, q.Endorsed w →
      StrictVote S O F (Function.update sys r r') x w ∨ Firm S O F (Function.update sys r r') w) ?_ ?_
    · exact fun _ w hw => h.step_strict hs he hf hw
    · exact fun x hx w hw => (h.strict x hx w hw).imp (h.strict_mono hs hw) (h.firm_mono hs)
  · refine hother (P := fun x q => F.Honest x → q.core.bExec = S.genesis ∨
      Decisive S O F (Function.update sys r r') q.core.bExec) ?_ ?_
    · exact fun hr => (h.step_bExec hs hr).imp_right (h.decisive_mono hs)
    · exact fun x hx => (h.bExec x hx).imp_right (h.decisive_mono hs)
  · refine hother (P := fun x q => F.Honest x → .safetyBreached ∉ q.thrown) ?_ h.breached
    exact h.step_breached hs

theorem safe_init : Safe S O F (System.init S) := by
  have hend {r w} : ¬ (System.init S r : Replica Hash Sig).Endorsed w := by
    rintro (⟨_, _, hv, -⟩ | ⟨_, hf, -⟩)
    · cases hv
    · cases hf
  have hst {r x} (hx : x ≠ S.genesis) : (System.init S r : Replica Hash Sig).core.storage x = none := by
    simp [System.init, Replica.init, Core.init, hx]
  refine ⟨fun _ => Replica.votesOk_init, fun _ => rfl, fun r _ w hw => ?_, fun r _ x hx => ?_,
    fun _ _ => .inl rfl, fun _ _ => .inl rfl, fun _ _ _ _ _ hv => absurd hv hend,
    fun _ _ _ hw => absurd hw hend, fun _ _ => .inl rfl, fun _ _ => List.not_mem_nil⟩
  · simp [Core.voted, hst hw]
  · obtain ⟨m, hm, hd, -⟩ := hx
    simp [Core.delivered, hst hm] at hd

end

end HotStuffTx
