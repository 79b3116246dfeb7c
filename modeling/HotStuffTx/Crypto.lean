import Mathlib

/-!
# Hashes, signatures and quorum certificates

Embeds `crypto.h` and `crypto.cpp` as `HotStuffSecp256k1` instantiates them.
SHA-256 over a serialised block and the secp256k1 primitives come from outside
the sources: `Setup` takes them as functions, with what the protocol relies on
as fields. A certificate carries two views of its signers, the bit vector
`rids` and the map `sigs`; `QuorumCert` holds the proof that they agree.
-/

namespace HotStuffTx

/-- `uint16_t`: an index into `rids` is cut to it where it becomes a key. -/
abbrev ReplicaID := UInt16

/-- The exceptions of the core, and the undefined reads it could make. -/
inductive CoreError
  | blockNotDelivered
  | qcNotFetched
  | safetyBreached
  | emptyParents
  | notHigher
  | certMismatch
  | ridNotFound
  | outOfRange
  deriving DecidableEq, Repr

def CoreError.what : CoreError → String
  | .blockNotDelivered => "block not delivered"
  | .qcNotFetched => "block referred by qc not fetched"
  | .safetyBreached => "safety breached :( "
  | .emptyParents => "empty parents"
  | .notHigher => "new block should be higher than vheight"
  | .certMismatch => "PartCert does match the block hash"
  | .ridNotFound => "rid not found"
  | .outOfRange => "undefined read"

-- ---------------------------------------------------------------------------
-- Serialised forms and the outside functions
-- ---------------------------------------------------------------------------

/-- `obj_hash`, `rids`, then one signature for each set bit. -/
structure WireQC (Hash Sig : Type) where
  objHash : Hash
  rids : List Bool
  sigs : List Sig
  deriving DecidableEq

/-- What `Block::serialize` writes, and so what a block's hash is taken of. -/
structure WireBlock (Hash Sig : Type) where
  parentHashes : List Hash
  cmds : List Hash
  qc : WireQC Hash Sig
  extra : List UInt8
  deriving DecidableEq

/-- One configuration: its size, the hash of the genesis block, the hash
function, free of collisions, and the signature scheme. -/
structure Setup (Hash Sig : Type) where
  nreplicas : Nat
  genesis : Hash
  hash : WireBlock Hash Sig → Hash
  hash_inj : ∀ {a b}, hash a = hash b → a = b
  hash_ne_genesis : ∀ w, hash w ≠ genesis
  sign : ReplicaID → Hash → Sig
  verifySig : ReplicaID → Hash → Sig → Bool
  verify_sign : ∀ r h, verifySig r h (sign r h) = true

namespace Setup

variable (S : Setup Hash Sig)

/-- `HotStuffBase::start`: `peers.size() / 3`, and `peers` leaves out the replica itself. -/
def nfaulty : Nat := (S.nreplicas - 1) / 3

/-- `on_init`. -/
def nmajority : Nat := S.nreplicas - S.nfaulty

/-- `config.replica_map` holds the ids `start` counted up to. -/
def hasReplica (rid : ReplicaID) : Bool := rid.toNat < S.nreplicas

theorem three_nfaulty_lt (h : 0 < S.nreplicas) : 3 * S.nfaulty < S.nreplicas := by
  unfold nfaulty
  omega

end Setup

-- ---------------------------------------------------------------------------
-- Certificates
-- ---------------------------------------------------------------------------

structure PartCert (Hash Sig : Type) where
  objHash : Hash
  sig : Sig
  deriving DecidableEq

/-- `QuorumCertSecp256k1`. -/
structure QuorumCert (Hash Sig : Type) where
  objHash : Hash
  rids : List Bool
  sigs : List (ReplicaID × Sig)
  nodup : (sigs.map Prod.fst).Nodup
  mem_iff : ∀ r, r ∈ sigs.map Prod.fst ↔ ∃ i, rids[i]? = some true ∧ UInt16.ofNat i = r

namespace QuorumCert

variable {Hash Sig : Type}

/-- The replicas with a signature in the certificate. -/
def signers (q : QuorumCert Hash Sig) : List ReplicaID := q.sigs.map Prod.fst

/-- `create_quorum_cert`: `rids(config.nreplicas)`, cleared. -/
def create (S : Setup Hash Sig) (objHash : Hash) : QuorumCert Hash Sig where
  objHash := objHash
  rids := List.replicate S.nreplicas false
  sigs := []
  nodup := List.nodup_nil
  mem_iff r := by simp [List.getElem?_replicate]

/-- Setting a bit adds its replica to those the bits stand for. -/
theorem mem_set_iff {rids : List Bool} {keys : List ReplicaID} {rid : ReplicaID}
    (h : ∀ r, r ∈ keys ↔ ∃ i, rids[i]? = some true ∧ UInt16.ofNat i = r)
    (hlt : rid.toNat < rids.length) (r : ReplicaID) :
    (r = rid ∨ r ∈ keys) ↔
      ∃ i, (rids.set rid.toNat true)[i]? = some true ∧ UInt16.ofNat i = r := by
  constructor
  · rintro (rfl | hr)
    · exact ⟨r.toNat, by simp [hlt], UInt16.ofNat_toNat⟩
    · obtain ⟨i, hi, rfl⟩ := (h _).mp hr
      refine ⟨i, ?_, rfl⟩
      by_cases hri : rid.toNat = i
      · subst hri
        simp [hlt]
      · simpa [List.getElem?_set, hri] using hi
  · rintro ⟨i, hi, rfl⟩
    by_cases hri : rid.toNat = i
    · left
      rw [← hri, UInt16.ofNat_toNat]
    · right
      exact (h _).mpr ⟨i, by simpa [List.getElem?_set, hri] using hi, rfl⟩

/-- `sigs.insert` keeps a signature already there; `rids.set` past the end of
the vector is undefined. -/
def addPart (q : QuorumCert Hash Sig) [DecidableEq Hash] (rid : ReplicaID)
    (pc : PartCert Hash Sig) : Except CoreError (QuorumCert Hash Sig) :=
  if pc.objHash ≠ q.objHash then .error .certMismatch
  else if hlt : rid.toNat < q.rids.length then
    if hmem : rid ∈ q.sigs.map Prod.fst then
      .ok { q with
        rids := q.rids.set rid.toNat true
        mem_iff := fun r => by
          rw [← mem_set_iff q.mem_iff hlt r]
          exact ⟨.inr, fun h => h.elim (fun h => h ▸ hmem) id⟩ }
    else
      .ok { q with
        rids := q.rids.set rid.toNat true
        sigs := (rid, pc.sig) :: q.sigs
        nodup := List.nodup_cons.mpr ⟨hmem, q.nodup⟩
        mem_iff := fun r => by
          rw [← mem_set_iff q.mem_iff hlt r]
          simp only [List.map_cons, List.mem_cons] }
  else .error .outOfRange

/-- `sigs[key] = sig`. -/
def assign (sigs : List (ReplicaID × Sig)) (key : ReplicaID) (sig : Sig) :
    List (ReplicaID × Sig) :=
  (key, sig) :: sigs.filter (·.1 ≠ key)

theorem mem_assign {sigs : List (ReplicaID × Sig)} :
    r ∈ (assign sigs key sig).map Prod.fst ↔ r = key ∨ r ∈ sigs.map Prod.fst := by
  by_cases hr : r = key
  · simp [assign, hr]
  · simp [assign, hr]

theorem nodup_assign {sigs : List (ReplicaID × Sig)} (h : (sigs.map Prod.fst).Nodup) :
    ((assign sigs key sig).map Prod.fst).Nodup := by
  refine List.nodup_cons.mpr ⟨by simp, ?_⟩
  exact (List.filter_sublist.map _).nodup h

/-- The signature loop of `unserialize` over the bits from index `i` on. -/
def readSigs : List Bool → Nat → List Sig → List (ReplicaID × Sig) →
    Option (List (ReplicaID × Sig))
  | [], _, [], acc => some acc
  | [], _, _ :: _, _ => none
  | false :: bits, i, sigs, acc => readSigs bits (i + 1) sigs acc
  | true :: _, _, [], _ => none
  | true :: bits, i, sig :: sigs, acc => readSigs bits (i + 1) sigs (assign acc (.ofNat i) sig)

theorem readSigs_nodup {sigs : List Sig} (h : readSigs bits i sigs acc = some out)
    (hacc : (acc.map Prod.fst).Nodup) : (out.map Prod.fst).Nodup := by
  induction bits generalizing i sigs acc with
  | nil =>
    cases sigs with
    | nil => cases h; exact hacc
    | cons => cases h
  | cons b bits ih =>
    cases b with
    | false => exact ih h hacc
    | true =>
      cases sigs with
      | nil => cases h
      | cons => exact ih h (nodup_assign hacc)

theorem readSigs_mem {sigs : List Sig} (h : readSigs bits i sigs acc = some out) (r : ReplicaID) :
    r ∈ out.map Prod.fst ↔
      r ∈ acc.map Prod.fst ∨ ∃ j, bits[j]? = some true ∧ UInt16.ofNat (i + j) = r := by
  induction bits generalizing i sigs acc with
  | nil =>
    cases sigs with
    | nil => cases h; simp
    | cons => cases h
  | cons b bits ih =>
    have hshift : (∃ j, bits[j]? = some true ∧ UInt16.ofNat (i + 1 + j) = r) ↔
        ∃ j, (b :: bits)[j + 1]? = some true ∧ UInt16.ofNat (i + (j + 1)) = r := by
      simp only [List.getElem?_cons_succ, Nat.add_assoc, Nat.add_comm 1]
    cases b with
    | false =>
      rw [ih h, hshift]
      refine or_congr Iff.rfl ⟨fun ⟨j, hj⟩ => ⟨j + 1, hj⟩, ?_⟩
      rintro ⟨j, hj, hr⟩
      cases j with
      | zero => simp at hj
      | succ j => exact ⟨j, hj, hr⟩
    | true =>
      cases sigs with
      | nil => cases h
      | cons sig sigs =>
        rw [ih h, hshift, mem_assign]
        constructor
        · rintro ((rfl | hr) | ⟨j, hj⟩)
          · exact .inr ⟨0, rfl, rfl⟩
          · exact .inl hr
          · exact .inr ⟨j + 1, hj⟩
        · rintro (hr | ⟨j, hj, hr⟩)
          · exact .inl (.inr hr)
          · cases j with
            | zero => exact .inl (.inl hr.symm)
            | succ j => exact .inr ⟨j, hj, hr⟩

/-- `unserialize` into a fresh object; `none` where a signature is missing. -/
def unserialize (w : WireQC Hash Sig) : Option (QuorumCert Hash Sig) :=
  match h : readSigs w.rids 0 w.sigs [] with
  | none => none
  | some sigs => some {
      objHash := w.objHash
      rids := w.rids
      sigs := sigs
      nodup := readSigs_nodup h List.nodup_nil
      mem_iff := fun r => by simpa using readSigs_mem h r }

/-- The signatures `serialize` writes, for the bits from index `i` on. -/
def writeSigs (sigs : List (ReplicaID × Sig)) : List Bool → Nat → List Sig
  | [], _ => []
  | false :: bits, i => writeSigs sigs bits (i + 1)
  | true :: bits, i => (sigs.lookup (.ofNat i)).toList ++ writeSigs sigs bits (i + 1)

def serialize (q : QuorumCert Hash Sig) : WireQC Hash Sig where
  objHash := q.objHash
  rids := q.rids
  sigs := writeSigs q.sigs q.rids 0

/-- The loop of `verify` over the bits from index `i` on. -/
def checkBits (S : Setup Hash Sig) (q : QuorumCert Hash Sig) :
    List Bool → Nat → Except CoreError Bool
  | [], _ => .ok true
  | false :: bits, i => checkBits S q bits (i + 1)
  | true :: bits, i =>
    if S.hasReplica (.ofNat i) then
      if (q.sigs.lookup (.ofNat i)).any (S.verifySig (.ofNat i) q.objHash) then
        checkBits S q bits (i + 1)
      else .ok false
    else .error .ridNotFound

def verify (S : Setup Hash Sig) (q : QuorumCert Hash Sig) : Except CoreError Bool :=
  if q.sigs.length < S.nmajority then .ok false else checkBits S q q.rids 0

-- ---------------------------------------------------------------------------
-- What a verified certificate says
-- ---------------------------------------------------------------------------

theorem lookup_eq_some (q : QuorumCert Hash Sig) :
    q.sigs.lookup r = some sig ↔ (r, sig) ∈ q.sigs := by
  have hnd := q.nodup
  generalize q.sigs = l at hnd
  induction l with
  | nil => simp
  | cons p l ih =>
    obtain ⟨k, v⟩ := p
    obtain ⟨hk, hl⟩ := List.nodup_cons.mp hnd
    rw [List.lookup_cons]
    by_cases hr : r = k
    · subst hr
      have : (r, sig) ∉ l := fun h => hk (List.mem_map.mpr ⟨_, h, rfl⟩)
      simp [this, eq_comm]
    · have hne : (r == k) = false := beq_false_of_ne hr
      simp [hne, hr, ih hl]

theorem mem_signers (q : QuorumCert Hash Sig) :
    r ∈ q.signers ↔ ∃ sig, (r, sig) ∈ q.sigs := by
  simp [signers]

theorem checkBits_iff {S : Setup Hash Sig} {q : QuorumCert Hash Sig} :
    checkBits S q bits i = .ok true ↔ ∀ j, bits[j]? = some true →
      S.hasReplica (.ofNat (i + j)) = true ∧
      ∃ sig, (UInt16.ofNat (i + j), sig) ∈ q.sigs ∧
        S.verifySig (.ofNat (i + j)) q.objHash sig = true := by
  induction bits generalizing i with
  | nil => simp [checkBits]
  | cons b bits ih =>
    have hcons (P : Nat → Prop) : (∀ j, (b :: bits)[j]? = some true → P j) ↔
        (b = true → P 0) ∧ ∀ j, bits[j]? = some true → P (j + 1) := by
      refine ⟨fun h => ⟨fun hb => h 0 (by simp [hb]), fun j hj => h (j + 1) hj⟩, ?_⟩
      rintro ⟨h0, hs⟩ j hj
      cases j with
      | zero => exact h0 (by simpa using hj)
      | succ j => exact hs j hj
    rw [hcons]
    have hstep : checkBits S q bits (i + 1) = .ok true ↔ ∀ j, bits[j]? = some true →
        S.hasReplica (.ofNat (i + (j + 1))) = true ∧
        ∃ sig, (UInt16.ofNat (i + (j + 1)), sig) ∈ q.sigs ∧
          S.verifySig (.ofNat (i + (j + 1))) q.objHash sig = true := by
      rw [ih]
      simp only [Nat.add_assoc, Nat.add_comm 1]
    cases b with
    | false => simpa [checkBits] using hstep
    | true =>
      simp only [checkBits, ← lookup_eq_some, Nat.add_zero, forall_const] at hstep ⊢
      by_cases hr : S.hasReplica (.ofNat i) = true
      · cases hl : q.sigs.lookup (.ofNat i) with
        | none => simp [hr]
        | some sig =>
          by_cases hs : S.verifySig (.ofNat i) q.objHash sig = true
          · simpa [hr, hs] using hstep
          · simp [hr, hs]
      · simp [hr]

/-- `verify` accepts exactly the certificates with a majority of signers, all
of the configuration, each with a valid signature. -/
theorem verify_iff {S : Setup Hash Sig} {q : QuorumCert Hash Sig} :
    q.verify S = .ok true ↔ S.nmajority ≤ q.signers.length ∧
      ∀ r sig, (r, sig) ∈ q.sigs → S.hasReplica r = true ∧ S.verifySig r q.objHash sig = true := by
  have hlen : q.signers.length = q.sigs.length := List.length_map ..
  rw [hlen]
  by_cases hm : q.sigs.length < S.nmajority
  · simp only [verify, hm, ↓reduceIte, Except.ok.injEq, Bool.false_eq_true, false_iff, not_and]
    omega
  · simp only [verify, hm, ↓reduceIte, checkBits_iff, Nat.zero_add]
    refine ⟨fun h => ⟨by omega, fun r sig hs => ?_⟩, fun h j hj => ?_⟩
    · obtain ⟨j, hj, rfl⟩ := (q.mem_iff r).mp (List.mem_map_of_mem hs)
      obtain ⟨hr, sig', hs', hv⟩ := h j hj
      rw [← q.lookup_eq_some] at hs hs'
      cases hs.symm.trans hs'
      exact ⟨hr, hv⟩
    · obtain ⟨sig, hs⟩ := q.mem_signers.mp ((q.mem_iff _).mpr ⟨j, hj, rfl⟩)
      exact ⟨(h.2 _ _ hs).1, sig, hs, (h.2 _ _ hs).2⟩

theorem addPart_ok [DecidableEq Hash] {q q' : QuorumCert Hash Sig}
    (h : q.addPart rid pc = .ok q') :
    q'.objHash = q.objHash ∧ pc.objHash = q.objHash ∧
      (∀ r, r ∈ q'.signers ↔ r = rid ∨ r ∈ q.signers) ∧
      ∀ r sig, (r, sig) ∈ q'.sigs → (r, sig) ∈ q.sigs ∨ r = rid ∧ sig = pc.sig := by
  unfold addPart at h
  split at h
  · cases h
  · rename_i hobj
    split at h
    · split at h
      · rename_i hmem
        cases h
        exact ⟨rfl, not_not.mp hobj, fun r => ⟨.inr, fun h => h.elim (fun h => h ▸ hmem) id⟩,
          fun _ _ => .inl⟩
      · cases h
        refine ⟨rfl, not_not.mp hobj, fun r => by simp [signers], fun r sig hs => ?_⟩
        rcases List.mem_cons.mp hs with hs | hs
        · cases hs
          exact .inr ⟨rfl, rfl⟩
        · exact .inl hs
    · cases h

theorem addPart_length [DecidableEq Hash] {q q' : QuorumCert Hash Sig}
    (h : q.addPart rid pc = .ok q') : q'.rids.length = q.rids.length := by
  unfold addPart at h
  split at h
  · cases h
  · split at h
    · split at h <;> cases h <;> exact List.length_set
    · cases h

theorem addPart_ne_error [DecidableEq Hash] {q : QuorumCert Hash Sig} {pc : PartCert Hash Sig}
    (hobj : pc.objHash = q.objHash) (hlt : rid.toNat < q.rids.length) :
    q.addPart rid pc ≠ .error e := by
  unfold addPart
  rw [if_neg (not_not.mpr hobj), dif_pos hlt]
  split <;> nofun

-- ---------------------------------------------------------------------------
-- Certificates with one serialised form
-- ---------------------------------------------------------------------------

theorem isSome_lookup (q : QuorumCert Hash Sig) (h : q.rids[j]? = some true) :
    (q.sigs.lookup (.ofNat j)).isSome = true := by
  obtain ⟨sig, hs⟩ := q.mem_signers.mp ((q.mem_iff _).mpr ⟨j, h, rfl⟩)
  rw [(lookup_eq_some q).mpr hs]
  rfl

theorem lookup_of_writeSigs {l l' : List (ReplicaID × Sig)}
    (hl : ∀ j, bits[j]? = some true → (l.lookup (.ofNat (i + j))).isSome = true)
    (hl' : ∀ j, bits[j]? = some true → (l'.lookup (.ofNat (i + j))).isSome = true)
    (h : writeSigs l bits i = writeSigs l' bits i) (hj : bits[j]? = some true) :
    l.lookup (.ofNat (i + j)) = l'.lookup (.ofNat (i + j)) := by
  induction bits generalizing i j with
  | nil => simp at hj
  | cons b bits ih =>
    have hshift {k} {m : List (ReplicaID × Sig)}
        (hm : ∀ j, (b :: bits)[j]? = some true → (m.lookup (.ofNat (i + j))).isSome = true)
        (hk : bits[k]? = some true) : (m.lookup (.ofNat (i + 1 + k))).isSome = true := by
      have := hm (k + 1) (by simpa using hk)
      rwa [Nat.add_assoc, Nat.add_comm 1]
    have hrest {k} (h : writeSigs l bits (i + 1) = writeSigs l' bits (i + 1)) (hk : bits[k]? = some true) :
        l.lookup (.ofNat (i + (k + 1))) = l'.lookup (.ofNat (i + (k + 1))) := by
      have := ih (fun _ => hshift hl) (fun _ => hshift hl') h hk
      rwa [Nat.add_assoc, Nat.add_comm 1] at this
    cases b with
    | false =>
      cases j with
      | zero => simp at hj
      | succ j => exact hrest h (by simpa using hj)
    | true =>
      obtain ⟨x, hx⟩ := Option.isSome_iff_exists.mp (hl 0 rfl)
      obtain ⟨x', hx'⟩ := Option.isSome_iff_exists.mp (hl' 0 rfl)
      rw [Nat.add_zero] at hx hx'
      simp only [writeSigs, hx, hx', Option.toList_some, List.singleton_append, List.cons.injEq] at h
      cases j with
      | zero => rw [Nat.add_zero, hx, hx', h.1]
      | succ j => exact hrest h.2 (by simpa using hj)

/-- The serialised form fixes the signatures. -/
theorem mem_sigs_congr {q q' : QuorumCert Hash Sig} (h : q.serialize = q'.serialize) :
    (r, sig) ∈ q.sigs → (r, sig) ∈ q'.sigs := by
  intro hs
  have hrids : q.rids = q'.rids := congrArg WireQC.rids h
  have hsigs : writeSigs q.sigs q.rids 0 = writeSigs q'.sigs q.rids 0 := by
    have := congrArg WireQC.sigs h
    rwa [serialize, serialize, ← hrids] at this
  obtain ⟨j, hj, rfl⟩ := (q.mem_iff r).mp (List.mem_map_of_mem hs)
  have hl := lookup_of_writeSigs (fun k hk => by rw [Nat.zero_add]; exact q.isSome_lookup hk)
    (fun k hk => by rw [Nat.zero_add]; exact q'.isSome_lookup (hrids ▸ hk)) hsigs hj
  rw [Nat.zero_add, (lookup_eq_some q).mpr hs] at hl
  exact (lookup_eq_some q').mp hl.symm

theorem verify_congr {S : Setup Hash Sig} {q q' : QuorumCert Hash Sig}
    (h : q.serialize = q'.serialize) (hq : q.verify S = .ok true) : q'.verify S = .ok true := by
  have hobj : q.objHash = q'.objHash := congrArg WireQC.objHash h
  obtain ⟨hlen, hsigs⟩ := verify_iff.mp hq
  refine verify_iff.mpr ⟨Nat.le_trans hlen ?_, fun r sig hs => ?_⟩
  · refine List.Nodup.length_le_of_subset q.nodup fun r hr => ?_
    obtain ⟨sig, hs⟩ := q.mem_signers.mp hr
    exact q'.mem_signers.mpr ⟨sig, mem_sigs_congr h hs⟩
  · rw [← hobj]
    exact hsigs r sig (mem_sigs_congr h.symm hs)

end QuorumCert

end HotStuffTx
