import HotStuffTx.Crypto
import HotStuffTx.Lib.Join

/-!
# Certificates under any configuration

`QuorumCertSecp256k1::verify` takes a `ReplicaConfig`: any set of replicas with
public keys and any majority. Certificates are `QuorumCert`s, which is what
`create_quorum_cert`, `add_part`, `unserialize` and copying give; the signers
the threshold counts and the bits the loop checks are therefore the same. The
pooled path starts one task for each bit and joins them.
-/

namespace HotStuffTx

/-- `ReplicaConfig`; a public key is the predicate of what is signed with its
private key. -/
structure ReplicaConfig (Hash Sig : Type) where
  replicaMap : ReplicaID → Option (Hash → Sig → Bool)
  nmajority : Nat

/-- The configuration `HotStuffBase::start` builds. -/
def Setup.config (S : Setup Hash Sig) : ReplicaConfig Hash Sig where
  replicaMap rid := if S.hasReplica rid then some (S.verifySig rid) else none
  nmajority := S.nmajority

namespace ReplicaConfig

variable {Hash Sig : Type} (cfg : ReplicaConfig Hash Sig) (q : QuorumCert Hash Sig)

def getPubkey (rid : ReplicaID) : Except CoreError (Hash → Sig → Bool) :=
  match cfg.replicaMap rid with
  | none => .error .ridNotFound
  | some pubkey => .ok pubkey

/-- `sigs[i].verify(obj_hash, pubkey)`. -/
def checkSig (pubkey : Hash → Sig → Bool) (rid : ReplicaID) : Bool :=
  (q.sigs.lookup rid).any (pubkey q.objHash)

/-- The loop of `verify` over the bits from index `i` on. -/
def checkBits : List Bool → Nat → Except CoreError Bool
  | [], _ => .ok true
  | false :: bits, i => checkBits bits (i + 1)
  | true :: bits, i => do
    let pubkey ← cfg.getPubkey (.ofNat i)
    if checkSig q pubkey (.ofNat i) then checkBits bits (i + 1) else return false

def verify : Except CoreError Bool :=
  if q.sigs.length < cfg.nmajority then .ok false else cfg.checkBits q q.rids 0

/-- The tasks the pooled `verify` starts, as what each will find. -/
def veriTasks : List Bool → Nat → Except CoreError (List Bool)
  | [], _ => .ok []
  | false :: bits, i => veriTasks bits (i + 1)
  | true :: bits, i => do
    let pubkey ← cfg.getPubkey (.ofNat i)
    return checkSig q pubkey (.ofNat i) :: (← veriTasks bits (i + 1))

/-- The promise of the pooled `verify`. -/
inductive Pooled
  | done (result : Bool)
  | tasks (found : List Bool)

def verifyPooled : Except CoreError Pooled :=
  if q.sigs.length < cfg.nmajority then .ok (.done false)
  else (cfg.veriTasks q q.rids 0).map .tasks

/-- What the promise has resolved to when the tasks of `order` have finished. -/
def Pooled.resolved (order : List Nat) : Pooled → Option Bool
  | .done result => some result
  | .tasks found => (Join.resolved found order).map (·.all id)

variable {cfg q}

theorem getPubkey_config (S : Setup Hash Sig) (rid : ReplicaID) : S.config.getPubkey rid =
    if S.hasReplica rid then .ok (S.verifySig rid) else .error .ridNotFound := by
  simp only [getPubkey, Setup.config]
  cases S.hasReplica rid <;> rfl

theorem checkBits_config (S : Setup Hash Sig) (bits : List Bool) (i : Nat) :
    S.config.checkBits q bits i = q.checkBits S bits i := by
  induction bits generalizing i with
  | nil => rfl
  | cons b bits ih =>
    cases b with
    | false => exact ih (i + 1)
    | true =>
      rw [checkBits, QuorumCert.checkBits, getPubkey_config, ← ih]
      cases S.hasReplica (.ofNat i) <;> rfl

/-- The replicas verify under the configuration they are started with. -/
theorem verify_config (S : Setup Hash Sig) : S.config.verify q = q.verify S := by
  rw [verify, QuorumCert.verify, checkBits_config]
  rfl

/-- Where every bit has a replica, the tasks find all signatures valid exactly
where the loop does. -/
theorem veriTasks_ok (h : ∀ j, bits[j]? = some true → (cfg.replicaMap (.ofNat (i + j))).isSome) :
    ∃ found, cfg.veriTasks q bits i = .ok found ∧ cfg.checkBits q bits i = .ok (found.all id) := by
  induction bits generalizing i with
  | nil => exact ⟨[], rfl, rfl⟩
  | cons b bits ih =>
    obtain ⟨found, htasks, hbits⟩ := ih (i := i + 1) fun j hj => by
      have := h (j + 1) (by simpa using hj)
      rwa [Nat.add_assoc, Nat.add_comm 1]
    cases b with
    | false => exact ⟨found, htasks, hbits⟩
    | true =>
      obtain ⟨pubkey, hr⟩ := Option.isSome_iff_exists.mp (h 0 rfl)
      rw [Nat.add_zero] at hr
      refine ⟨checkSig q pubkey (.ofNat i) :: found, ?_, ?_⟩
      · simp [veriTasks, getPubkey, hr, htasks, bind, Except.bind, pure, Except.pure]
      · cases hs : checkSig q pubkey (.ofNat i) <;>
          simp [checkBits, getPubkey, hr, hs, hbits, bind, Except.bind, pure, Except.pure]

end ReplicaConfig

end HotStuffTx
