import HotStuffTx.Entity
import HotStuffTx.Lib.Codec

/-!
# The bytes of blocks and messages

`Block::serialize` and `unserialize`, and those of certificates, proposals,
votes and the block fetching messages, over a stream of bytes. How a hash, a
replica id, a bit vector and a signature are written comes from outside the
sources: `Format` takes it with its law.
-/

namespace HotStuffTx

/-- `DataStream`'s own encodings and SHA-256. `Bits` counts its bits in a `uint32_t`. -/
structure Format (Hash Sig : Type) where
  putHash : Hash → List UInt8
  getHash : List UInt8 → Option (Hash × List UInt8)
  roundTrip_hash : Codec.RoundTrip putHash getHash (fun _ => True) Eq
  putRid : ReplicaID → List UInt8
  getRid : List UInt8 → Option (ReplicaID × List UInt8)
  roundTrip_rid : Codec.RoundTrip putRid getRid (fun _ => True) Eq
  putBits : List Bool → List UInt8
  getBits : List UInt8 → Option (List Bool × List UInt8)
  roundTrip_bits : Codec.RoundTrip putBits getBits (·.length < 2 ^ 32) Eq
  getBits_lt : ∀ {s bits t}, getBits s = some (bits, t) → bits.length < 2 ^ 32
  putSig : Sig → List UInt8
  getSig : List UInt8 → Option (Sig × List UInt8)
  roundTrip_sig : Codec.RoundTrip putSig getSig (fun _ => True) Eq
  sha256 : List UInt8 → Hash

-- ---------------------------------------------------------------------------
-- Encodings
-- ---------------------------------------------------------------------------

namespace Format

open Codec

variable {Hash Sig : Type} (F : Format Hash Sig)

/-- `QuorumCertSecp256k1::serialize`. -/
def putQC (q : QuorumCert Hash Sig) : List UInt8 :=
  F.putHash q.objHash ++ (F.putBits q.rids ++ (QuorumCert.writeSigs q.sigs q.rids 0).flatMap F.putSig)

/-- `parse_quorum_cert`: one signature is read for each set bit. -/
def getQC (s : List UInt8) : Option (QuorumCert Hash Sig × List UInt8) := do
  let (objHash, s) ← F.getHash s
  let (rids, s) ← F.getBits s
  let (sigs, s) ← getN F.getSig (rids.count true) s
  let q ← QuorumCert.unserialize ⟨objHash, rids, sigs⟩
  return (q, s)

/-- The bytes of `extra` behind their number. -/
def putExtra (extra : List UInt8) : List UInt8 := putLE 4 extra.length ++ extra

/-- `get_data_inplace` throws where fewer than `n` bytes are left. -/
def getExtra (s : List UInt8) : Option (List UInt8 × List UInt8) := do
  let (n, s) ← getLE 4 s
  if n = 0 then return ([], s)
  else if s.length < n then none
  else return (s.take n, s.drop n)

/-- `Block::serialize`. -/
def putBlock (b : Block Hash Sig) : List UInt8 :=
  putCounted F.putHash b.parentHashes ++
    (putCounted F.putHash b.cmds ++ (F.putQC b.qc ++ putExtra b.extra))

/-- `Block::unserialize`. -/
def getBlock (s : List UInt8) : Option (Block Hash Sig × List UInt8) := do
  let (parentHashes, s) ← getCounted F.getHash s
  let (cmds, s) ← getCounted F.getHash s
  let (qc, s) ← F.getQC s
  let (extra, s) ← getExtra s
  return ({ parentHashes := parentHashes, cmds := cmds, qc := qc, extra := extra }, s)

/-- `salticidae::get_hash`. -/
def blkHash (b : Block Hash Sig) : Hash := F.sha256 (F.putBlock b)

/-- `Proposal::serialize`: the block itself, not its hash, is written. -/
def putProposal (prop : ReplicaID × Block Hash Sig) : List UInt8 :=
  F.putRid prop.1 ++ F.putBlock prop.2

/-- `Proposal::unserialize` up to `add_blk`. -/
def getProposal (s : List UInt8) : Option ((ReplicaID × Block Hash Sig) × List UInt8) := do
  let (proposer, s) ← F.getRid s
  let (blk, s) ← F.getBlock s
  return ((proposer, blk), s)

def putVote (v : Vote Hash Sig) : List UInt8 :=
  F.putRid v.voter ++ (F.putHash v.blkHash ++ (F.putHash v.cert.objHash ++ F.putSig v.cert.sig))

def getVote (s : List UInt8) : Option (Vote Hash Sig × List UInt8) := do
  let (voter, s) ← F.getRid s
  let (blkHash, s) ← F.getHash s
  let (objHash, s) ← F.getHash s
  let (sig, s) ← F.getSig s
  return (⟨voter, blkHash, ⟨objHash, sig⟩⟩, s)

/-- `MsgReqBlock`. -/
def putReqBlock (blkHashes : List Hash) : List UInt8 := putCounted F.putHash blkHashes

def getReqBlock (s : List UInt8) : Option (List Hash × List UInt8) := getCounted F.getHash s

/-- `MsgRespBlock`. -/
def putRespBlock (blks : List (Block Hash Sig)) : List UInt8 := putCounted F.putBlock blks

/-- `MsgRespBlock::postponed_parse`, the `add_blk` of each block left out. -/
def getRespBlock (s : List UInt8) : Option (List (Block Hash Sig) × List UInt8) :=
  getCounted F.getBlock s

end Format

-- ---------------------------------------------------------------------------
-- Equal contents
-- ---------------------------------------------------------------------------

/-- Equal certificates; `sigs` is a map. -/
structure QuorumCert.Same (q q' : QuorumCert Hash Sig) : Prop where
  objHash : q.objHash = q'.objHash
  rids : q.rids = q'.rids
  sigs : ∀ r, q.sigs.lookup r = q'.sigs.lookup r

/-- Equal members of those that are written. -/
structure Block.Same (b b' : Block Hash Sig) : Prop where
  parentHashes : b.parentHashes = b'.parentHashes
  cmds : b.cmds = b'.cmds
  qc : b.qc.Same b'.qc
  extra : b.extra = b'.extra

/-- The numbers written fit their four bytes. -/
structure Block.Fits (b : Block Hash Sig) : Prop where
  parentHashes : b.parentHashes.length < 2 ^ 32
  cmds : b.cmds.length < 2 ^ 32
  rids : b.qc.rids.length < 2 ^ 32
  extra : b.extra.length < 2 ^ 32

/-- `Proposal`: its proposer and the block read with it. -/
def Proposal.Same (prop prop' : ReplicaID × Block Hash Sig) : Prop :=
  prop.1 = prop'.1 ∧ prop.2.Same prop'.2

theorem Block.same_equivalence : Equivalence (@Block.Same Hash Sig) where
  refl b := ⟨rfl, rfl, ⟨rfl, rfl, fun _ => rfl⟩, rfl⟩
  symm h := ⟨h.1.symm, h.2.symm, ⟨h.3.1.symm, h.3.2.symm, fun r => (h.3.3 r).symm⟩, h.4.symm⟩
  trans h h' := ⟨h.1.trans h'.1, h.2.trans h'.2,
    ⟨h.3.1.trans h'.3.1, h.3.2.trans h'.3.2, fun r => (h.3.3 r).trans (h'.3.3 r)⟩, h.4.trans h'.4⟩

theorem Proposal.same_equivalence : Equivalence (@Proposal.Same Hash Sig) where
  refl prop := ⟨rfl, Block.same_equivalence.refl prop.2⟩
  symm h := ⟨h.1.symm, Block.same_equivalence.symm h.2⟩
  trans h h' := ⟨h.1.trans h'.1, Block.same_equivalence.trans h.2 h'.2⟩

namespace QuorumCert

variable {Hash Sig : Type}

theorem writeSigs_congr {sigs sigs' : List (ReplicaID × Sig)}
    (h : ∀ r, sigs.lookup r = sigs'.lookup r) (bits : List Bool) (i : Nat) :
    writeSigs sigs bits i = writeSigs sigs' bits i := by
  induction bits generalizing i with
  | nil => rfl
  | cons b bits ih => cases b <;> simp [writeSigs, h, ih]

/-- The loop over the bits never misses a signature in `sigs`. -/
theorem length_writeSigs {sigs : List (ReplicaID × Sig)}
    (h : ∀ j, bits[j]? = some true → (sigs.lookup (.ofNat (i + j))).isSome) :
    (writeSigs sigs bits i).length = bits.count true := by
  induction bits generalizing i with
  | nil => rfl
  | cons b bits ih =>
    have hbits := ih (i := i + 1) fun j hj => by
      have := h (j + 1) (by simpa using hj)
      rwa [Nat.add_assoc, Nat.add_comm 1]
    cases b with
    | false => simpa [writeSigs] using hbits
    | true =>
      obtain ⟨sig, hsig⟩ := Option.isSome_iff_exists.mp (h 0 rfl)
      rw [Nat.add_zero] at hsig
      simp [writeSigs, hsig, hbits]

theorem lookup_assign {sigs : List (ReplicaID × Sig)} (r : ReplicaID) :
    (assign sigs key sig).lookup r = if r = key then some sig else sigs.lookup r := by
  by_cases hr : r = key
  · simp [assign, hr]
  · rw [if_neg hr, assign, List.lookup_cons, beq_false_of_ne hr]
    induction sigs with
    | nil => rfl
    | cons p sigs ih =>
      obtain ⟨k, v⟩ := p
      by_cases hk : k = key
      · have hrk : (r == key) = false := beq_false_of_ne hr
        simpa [hk, List.lookup_cons, hrk] using ih
      · rw [List.filter_cons_of_pos (by simpa using hk), List.lookup_cons, List.lookup_cons]
        cases r == k with
        | true => rfl
        | false => exact ih

/-- Reading the signatures written gives back the entries of the set bits. -/
theorem readSigs_writeSigs {sigs acc : List (ReplicaID × Sig)}
    (h : ∀ j, bits[j]? = some true → (sigs.lookup (.ofNat (i + j))).isSome)
    (hacc : ∀ r sig, acc.lookup r = some sig → sigs.lookup r = some sig) :
    ∃ out, readSigs bits i (writeSigs sigs bits i) acc = some out ∧
      ∀ r sig, out.lookup r = some sig → sigs.lookup r = some sig := by
  induction bits generalizing i acc with
  | nil => exact ⟨acc, rfl, hacc⟩
  | cons b bits ih =>
    have hnext : ∀ j, bits[j]? = some true → (sigs.lookup (.ofNat (i + 1 + j))).isSome := by
      intro j hj
      have := h (j + 1) (by simpa using hj)
      rwa [Nat.add_assoc, Nat.add_comm 1]
    cases b with
    | false => exact ih hnext hacc
    | true =>
      obtain ⟨sig, hsig⟩ := Option.isSome_iff_exists.mp (h 0 rfl)
      rw [Nat.add_zero] at hsig
      have hwrite : writeSigs sigs (true :: bits) i = sig :: writeSigs sigs bits (i + 1) := by
        simp [writeSigs, hsig]
      rw [hwrite]
      refine ih hnext fun r sig' hr => ?_
      rw [lookup_assign] at hr
      split at hr
      · rename_i hkey
        rw [hkey, hsig, hr]
      · exact hacc r sig' hr

/-- Every set bit has its signature. -/
theorem lookup_isSome (q : QuorumCert Hash Sig) (hj : q.rids[j]? = some true) :
    (q.sigs.lookup (.ofNat j)).isSome := by
  obtain ⟨⟨r, sig⟩, hmem, rfl⟩ := List.mem_map.mp ((q.mem_iff (.ofNat j)).mpr ⟨j, hj, rfl⟩)
  rw [(lookup_eq_some q).mpr hmem]
  rfl

/-- A certificate comes back from its structured form. -/
theorem unserialize_serialize (q : QuorumCert Hash Sig) :
    ∃ q', unserialize q.serialize = some q' ∧ q.Same q' := by
  have hset : ∀ j, q.rids[j]? = some true → (q.sigs.lookup (.ofNat (0 + j))).isSome := by
    intro j hj
    rw [Nat.zero_add]
    exact q.lookup_isSome hj
  obtain ⟨out, hout, hsigs⟩ : ∃ out, readSigs q.rids 0 (writeSigs q.sigs q.rids 0) [] = some out ∧
      ∀ r sig, out.lookup r = some sig → q.sigs.lookup r = some sig :=
    readSigs_writeSigs hset (by simp)
  have hq : ∃ q', unserialize q.serialize = some q' ∧
      q'.objHash = q.objHash ∧ q'.rids = q.rids ∧ q'.sigs = out := by
    unfold unserialize
    split
    · rename_i h
      cases h.symm.trans hout
    · rename_i h
      cases h.symm.trans hout
      exact ⟨_, rfl, rfl, rfl, rfl⟩
  obtain ⟨q', hq', hobj, hrids, rfl⟩ := hq
  refine ⟨q', hq', hobj.symm, hrids.symm, fun r => ?_⟩
  cases hr : q'.sigs.lookup r with
  | some sig => exact hsigs r sig hr
  | none =>
    have hout : r ∉ q'.signers := fun hmem => by
      obtain ⟨sig, hsig⟩ := (mem_signers q').mp hmem
      rw [(lookup_eq_some q').mpr hsig] at hr
      cases hr
    have hin : r ∉ q.signers := fun hmem =>
      hout ((q'.mem_iff r).mpr (hrids ▸ (q.mem_iff r).mp hmem))
    cases hl : q.sigs.lookup r with
    | none => rfl
    | some sig => exact absurd ((mem_signers q).mpr ⟨sig, (lookup_eq_some q).mp hl⟩) hin

end QuorumCert

theorem Block.Same.wire_eq {b b' : Block Hash Sig} (h : b.Same b') : b.wire = b'.wire := by
  obtain ⟨hparents, hcmds, ⟨hobj, hrids, hsigs⟩, hextra⟩ := h
  simp only [wire, QuorumCert.serialize, hparents, hcmds, hobj, hrids, hextra,
    QuorumCert.writeSigs_congr hsigs]

-- ---------------------------------------------------------------------------
-- Round trips
-- ---------------------------------------------------------------------------

namespace Format

open Codec

variable {Hash Sig : Type} (F : Format Hash Sig)

/-- The bytes of a block are a function of what it serialises to. -/
theorem putBlock_congr {b b' : Block Hash Sig} (h : b.wire = b'.wire) :
    F.putBlock b = F.putBlock b' := by
  simp only [Block.wire, QuorumCert.serialize, WireBlock.mk.injEq, WireQC.mk.injEq] at h
  obtain ⟨hparents, hcmds, ⟨hobj, hrids, hsigs⟩, hextra⟩ := h
  rw [putBlock, putBlock, putQC, putQC, hsigs, hparents, hcmds, hobj, hrids, hextra]

theorem roundTrip_qc : RoundTrip F.putQC F.getQC (·.rids.length < 2 ^ 32) QuorumCert.Same := by
  intro q hq t
  obtain ⟨q', hq', hsame⟩ := q.unserialize_serialize
  have hlen : (QuorumCert.writeSigs q.sigs q.rids 0).length = q.rids.count true :=
    QuorumCert.length_writeSigs fun j hj => by
      rw [Nat.zero_add]
      exact q.lookup_isSome hj
  obtain ⟨sigs, hsigs, heq⟩ := F.roundTrip_sig.getN (QuorumCert.writeSigs q.sigs q.rids 0)
    (fun _ _ => trivial) t
  rw [List.forall₂_eq_eq_eq] at heq
  subst heq
  refine ⟨q', ?_, hsame⟩
  have hobj := F.roundTrip_hash.get_put (a := q.objHash) trivial
  have hbits := F.roundTrip_bits.get_put hq
  rw [hlen] at hsigs
  simp only [putQC, getQC, List.append_assoc, hobj, hbits, hsigs, Option.bind_eq_bind,
    Option.bind_some, Option.pure_def]
  rw [show QuorumCert.unserialize ⟨q.objHash, q.rids, _⟩ = some q' from hq', Option.bind_some]

theorem roundTrip_extra : RoundTrip putExtra getExtra (·.length < 2 ^ 32) Eq := by
  intro extra hlen t
  refine ⟨extra, ?_, rfl⟩
  have hn := (roundTrip_le 4).get_put (a := extra.length) hlen (extra ++ t)
  rw [putExtra, getExtra, List.append_assoc, hn]
  cases extra with
  | nil => rfl
  | cons x extra => simp

theorem roundTrip_block : RoundTrip F.putBlock F.getBlock Block.Fits Block.Same := by
  rintro b ⟨hparents, hcmds, hrids, hextra⟩ t
  obtain ⟨qc, hqc, hsame⟩ := F.roundTrip_qc b.qc hrids (putExtra b.extra ++ t)
  have hp := F.roundTrip_hash.counted_eq.get_put (a := b.parentHashes) ⟨hparents, fun _ _ => trivial⟩
  have hc := F.roundTrip_hash.counted_eq.get_put (a := b.cmds) ⟨hcmds, fun _ _ => trivial⟩
  have he := roundTrip_extra.get_put hextra t
  refine ⟨{ parentHashes := b.parentHashes, cmds := b.cmds, qc := qc, extra := b.extra }, ?_,
    rfl, rfl, hsame, rfl⟩
  simp only [putBlock, getBlock, List.append_assoc, hp, hc, hqc, he, Option.bind_eq_bind,
    Option.bind_some, Option.pure_def]

theorem roundTrip_proposal :
    RoundTrip F.putProposal F.getProposal (·.2.Fits) Proposal.Same := by
  rintro ⟨proposer, b⟩ hb t
  obtain ⟨b', hget, hsame⟩ := F.roundTrip_block b hb t
  have hr := F.roundTrip_rid.get_put (a := proposer) trivial
  refine ⟨(proposer, b'), ?_, rfl, hsame⟩
  simp only [putProposal, getProposal, List.append_assoc, hr, hget, Option.bind_eq_bind,
    Option.bind_some, Option.pure_def]

theorem roundTrip_vote : RoundTrip F.putVote F.getVote (fun _ => True) Eq := by
  rintro ⟨voter, blkHash, objHash, sig⟩ - t
  refine ⟨_, ?_, rfl⟩
  have hr := F.roundTrip_rid.get_put (a := voter) trivial
  have hh h := F.roundTrip_hash.get_put (a := h) trivial
  have hs := F.roundTrip_sig.get_put (a := sig) trivial
  simp only [putVote, getVote, List.append_assoc, hr, hh, hs, Option.bind_eq_bind,
    Option.bind_some, Option.pure_def]

theorem roundTrip_reqBlock : RoundTrip F.putReqBlock F.getReqBlock (·.length < 2 ^ 32) Eq := by
  intro blkHashes hlen
  exact F.roundTrip_hash.counted_eq blkHashes ⟨hlen, fun _ _ => trivial⟩

theorem roundTrip_respBlock : RoundTrip F.putRespBlock F.getRespBlock
    (fun blks => blks.length < 2 ^ 32 ∧ ∀ b ∈ blks, b.Fits) (List.Forall₂ Block.Same) :=
  F.roundTrip_block.counted

/-- The hash a replica computes of the block it has decoded is the sender's. -/
theorem blkHash_congr {b b' : Block Hash Sig} (h : b.Same b') : F.blkHash b = F.blkHash b' := by
  rw [blkHash, blkHash, F.putBlock_congr h.wire_eq]

/-- What a replica has decoded fits. -/
theorem fits_of_getBlock (h : F.getBlock s = some (b, t)) : b.Fits := by
  obtain ⟨⟨parentHashes, s₁⟩, hparents, h⟩ := Option.bind_eq_some_iff.mp h
  obtain ⟨⟨cmds, s₂⟩, hcmds, h⟩ := Option.bind_eq_some_iff.mp h
  obtain ⟨⟨qc, s₃⟩, hqc, h⟩ := Option.bind_eq_some_iff.mp h
  obtain ⟨⟨extra, s₄⟩, hextra, h⟩ := Option.bind_eq_some_iff.mp h
  cases h
  refine ⟨(of_getCounted hparents).1, (of_getCounted hcmds).1, ?_, ?_⟩
  · obtain ⟨⟨objHash, s₅⟩, -, hqc⟩ := Option.bind_eq_some_iff.mp hqc
    obtain ⟨⟨rids, s₆⟩, hrids, hqc⟩ := Option.bind_eq_some_iff.mp hqc
    obtain ⟨⟨sigs, s₇⟩, -, hqc⟩ := Option.bind_eq_some_iff.mp hqc
    obtain ⟨q, hq, hqc⟩ := Option.bind_eq_some_iff.mp hqc
    cases hqc
    have : qc.rids = rids := by
      unfold QuorumCert.unserialize at hq
      split at hq
      · cases hq
      · cases hq
        rfl
    exact this ▸ F.getBits_lt hrids
  · obtain ⟨⟨n, s₅⟩, hn, hextra⟩ := Option.bind_eq_some_iff.mp hextra
    have hlt := getLE_lt hn
    dsimp only at hextra
    split at hextra
    · cases hextra
      exact Nat.two_pow_pos 32
    · split at hextra
      · cases hextra
      · cases hextra
        exact Nat.lt_of_le_of_lt (List.length_take_le _ _) hlt

/-- Blocks of one hash have one content, as far as SHA-256 is free of collisions. -/
theorem same_of_blkHash {b b' : Block Hash Sig} (hsha : Function.Injective F.sha256) (hb : b.Fits)
    (hb' : b'.Fits) (h : F.blkHash b = F.blkHash b') : b.Same b' :=
  (F.roundTrip_block.prefixFree Block.same_equivalence).injective hb hb' (hsha h)

end Format

open Codec in
/-- What replicas send each other comes back as it was, block hashes included,
and no encoding is the beginning of another. -/
theorem wire_round_trip (F : Format Hash Sig) :
    RoundTrip F.putBlock F.getBlock Block.Fits
      (fun b b' => b.Same b' ∧ F.blkHash b = F.blkHash b') ∧
    RoundTrip F.putProposal F.getProposal (·.2.Fits)
      (fun p p' => Proposal.Same p p' ∧ F.blkHash p.2 = F.blkHash p'.2) ∧
    RoundTrip F.putVote F.getVote (fun _ => True) Eq ∧
    RoundTrip F.putReqBlock F.getReqBlock (·.length < 2 ^ 32) Eq ∧
    RoundTrip F.putRespBlock F.getRespBlock (fun blks => blks.length < 2 ^ 32 ∧ ∀ b ∈ blks, b.Fits)
      (List.Forall₂ fun b b' => b.Same b' ∧ F.blkHash b = F.blkHash b') ∧
    (∀ s b t, F.getBlock s = some (b, t) → b.Fits) ∧
    PrefixFree F.putBlock Block.Fits Block.Same ∧
    PrefixFree F.putProposal (·.2.Fits) Proposal.Same ∧
    PrefixFree F.putVote (fun _ => True) Eq ∧
    PrefixFree F.putReqBlock (·.length < 2 ^ 32) Eq ∧
    PrefixFree F.putRespBlock (fun blks => blks.length < 2 ^ 32 ∧ ∀ b ∈ blks, b.Fits)
      (List.Forall₂ Block.Same) := by
  have hhash (b b' : Block Hash Sig) (h : b.Same b') : b.Same b' ∧ F.blkHash b = F.blkHash b' :=
    ⟨h, F.blkHash_congr h⟩
  refine ⟨F.roundTrip_block.mono hhash, ?_, F.roundTrip_vote, F.roundTrip_reqBlock, ?_,
    fun s b t h => F.fits_of_getBlock h, ?_, ?_, ?_, ?_, ?_⟩
  · exact F.roundTrip_proposal.mono fun p p' h => ⟨h, F.blkHash_congr h.2⟩
  · exact F.roundTrip_respBlock.mono fun blks blks' h => h.imp hhash
  · exact F.roundTrip_block.prefixFree Block.same_equivalence
  · exact F.roundTrip_proposal.prefixFree Proposal.same_equivalence
  · exact F.roundTrip_vote.prefixFree eq_equivalence
  · exact F.roundTrip_reqBlock.prefixFree eq_equivalence
  · exact F.roundTrip_respBlock.prefixFree (forall₂_equivalence Block.same_equivalence)

-- ---------------------------------------------------------------------------
-- A format
-- ---------------------------------------------------------------------------

def putWord (k : Nat) (n : Fin (256 ^ k)) : List UInt8 := Codec.putLE k n

def getWord (k : Nat) (s : List UInt8) : Option (Fin (256 ^ k) × List UInt8) :=
  match h : Codec.getLE k s with
  | none => none
  | some (n, t) => some (⟨n, Codec.getLE_lt h⟩, t)

theorem roundTrip_word (k : Nat) : Codec.RoundTrip (putWord k) (getWord k) (fun _ => True) Eq := by
  rintro n - t
  refine ⟨n, ?_, rfl⟩
  have hn := (Codec.roundTrip_le k).get_put n.isLt t
  unfold getWord
  split
  · rename_i h
    cases h.symm.trans hn
  · rename_i h
    cases h.symm.trans hn
    rfl

def putBit (b : Bool) : List UInt8 := [if b then 1 else 0]

def getBit : List UInt8 → Option (Bool × List UInt8)
  | [] => none
  | x :: s => some (x != 0, s)

theorem roundTrip_bit : Codec.RoundTrip putBit getBit (fun _ => True) Eq := by
  rintro b - t
  exact ⟨b, by cases b <;> rfl, rfl⟩

/-- Numbers of 32 and 64 bytes for hashes and signatures, one byte a bit. -/
def wordFormat : Format (Fin (256 ^ 32)) (Fin (256 ^ 64)) where
  putHash := putWord 32
  getHash := getWord 32
  roundTrip_hash := roundTrip_word 32
  putRid rid := Codec.putLE 2 rid.toNat
  getRid s := (Codec.getLE 2 s).map fun r => (.ofNat r.1, r.2)
  roundTrip_rid rid _ t := by
    refine ⟨rid, ?_, rfl⟩
    have hrid := (Codec.roundTrip_le 2).get_put rid.toNat_lt t
    simp only [hrid, Option.map_some, UInt16.ofNat_toNat]
  putBits := Codec.putCounted putBit
  getBits := Codec.getCounted getBit
  roundTrip_bits bits hbits := roundTrip_bit.counted_eq bits ⟨hbits, fun _ _ => trivial⟩
  getBits_lt h := (Codec.of_getCounted h).1
  putSig := putWord 64
  getSig := getWord 64
  roundTrip_sig := roundTrip_word 64
  sha256 bytes := Fin.ofNat _ (bytes.foldl (fun n b => 256 * n + b.toNat) 1)

/-- A block with two parents and a certificate of the second of three replicas. -/
def wordBlk : Block (Fin (256 ^ 32)) (Fin (256 ^ 64)) where
  parentHashes := [1, 2]
  cmds := [11]
  qc := {
    objHash := 1
    rids := [false, true, false]
    sigs := [(1, 5)]
    nodup := by decide
    mem_iff := fun r => by
      constructor
      · intro hr
        exact ⟨1, rfl, by simpa [eq_comm] using hr⟩
      · rintro ⟨i, hi, rfl⟩
        match i with
        | 0 | 2 => cases hi
        | 1 => decide
        | i + 3 => cases hi }
  extra := [9]

theorem wire_round_trip_wordBlk :
    ∃ b, wordFormat.getBlock (wordFormat.putBlock wordBlk ++ [7]) = some (b, [7]) ∧
      wordBlk.Same b ∧ wordFormat.blkHash wordBlk = wordFormat.blkHash b :=
  (wire_round_trip wordFormat).1 wordBlk ⟨by decide, by decide, by decide, by decide⟩ [7]

end HotStuffTx
