import HotStuffTx.Crypto
import HotStuffTx.Lib.Forest

/-!
# Blocks and the state of one replica

Embeds `entity.h` and the data members of `HotStuffCore`. Every block enters
through `EntityStorage::add_blk`, which gives back the object already stored
under the same hash, so a `block_t` is modelled by the hash it points at and
`Core.storage` holds the objects. `hqcTail` is the one member of the pacemaker
(`PMHighTail`, which every shipped pacemaker inherits) that the core's own
callbacks write.
-/

namespace HotStuffTx

/-- `Block`. Those after `extra` are the derived members; `decision` is only
ever 0 or 1. -/
structure Block (Hash Sig : Type) where
  parentHashes : List Hash
  cmds : List Hash
  qc : QuorumCert Hash Sig
  extra : List UInt8
  parents : List Hash := []
  qcRef : Option Hash := none
  selfQc : Option (QuorumCert Hash Sig) := none
  height : Nat := 0
  delivered : Bool := false
  decision : Bool := false
  voted : List ReplicaID := []

/-- `Block::serialize`. -/
def Block.wire (b : Block Hash Sig) : WireBlock Hash Sig where
  parentHashes := b.parentHashes
  cmds := b.cmds
  qc := b.qc.serialize
  extra := b.extra

/-- `Block::unserialize`. -/
def Block.unserialize (w : WireBlock Hash Sig) : Option (Block Hash Sig) :=
  (QuorumCert.unserialize w.qc).map fun qc =>
    { parentHashes := w.parentHashes, cmds := w.cmds, qc := qc, extra := w.extra }

/-- `Block::verify`. -/
def Block.verify [DecidableEq Hash] (S : Setup Hash Sig) (b : Block Hash Sig) :
    Except CoreError Bool :=
  if b.qc.objHash = S.genesis then .ok true else b.qc.verify S

structure Proposal (Hash : Type) where
  proposer : ReplicaID
  blk : Hash
  deriving DecidableEq

structure Vote (Hash Sig : Type) where
  voter : ReplicaID
  blkHash : Hash
  cert : PartCert Hash Sig
  deriving DecidableEq

/-- `Vote::verify`; `get_pubkey` throws for a voter outside the configuration. -/
def Vote.verify [DecidableEq Hash] (S : Setup Hash Sig) (v : Vote Hash Sig) :
    Except CoreError Bool :=
  if S.hasReplica v.voter then
    .ok (S.verifySig v.voter v.cert.objHash v.cert.sig && v.cert.objHash == v.blkHash)
  else .error .ridNotFound

structure Finality (Hash : Type) where
  rid : ReplicaID
  decision : Int8
  cmdIdx : Nat
  cmdHeight : Nat
  cmdHash : Hash
  blkHash : Hash
  deriving DecidableEq

/-- The calls of the core to its virtual functions. -/
inductive Output (Hash Sig : Type)
  | consensus (blk : Hash)
  | decide (fin : Finality Hash)
  | vote (lastProposer : ReplicaID) (vote : Vote Hash Sig)
  | broadcast (prop : Proposal Hash)
  deriving DecidableEq

/-- `Promise::State`. -/
inductive PmState
  | pending
  | fulfilled
  | rejected
  deriving DecidableEq

/-- The members of `HotStuffCore`, `hqc_tail`, the promises handed out by
`async_qc_finish` and the log of the virtual calls made. -/
structure Core (Hash Sig : Type) where
  id : ReplicaID
  storage : Hash → Option (Block Hash Sig)
  hqc : Hash × QuorumCert Hash Sig
  bLock : Hash
  bExec : Hash
  vheight : Nat
  tails : List Hash
  voteDisabled : Bool
  qcWaiting : List (Hash × Nat)
  pms : List PmState
  hqcTail : Hash
  out : List (Output Hash Sig)

namespace Core

variable {Hash Sig : Type}

def height (s : Core Hash Sig) (h : Hash) : Nat := (s.storage h).elim 0 Block.height

def parents (s : Core Hash Sig) (h : Hash) : List Hash := (s.storage h).elim [] Block.parents

def qcRef (s : Core Hash Sig) (h : Hash) : Option Hash := (s.storage h).bind Block.qcRef

def delivered (s : Core Hash Sig) (h : Hash) : Bool := (s.storage h).any Block.delivered

def decision (s : Core Hash Sig) (h : Hash) : Bool := (s.storage h).any Block.decision

def voted (s : Core Hash Sig) (h : Hash) : List ReplicaID := (s.storage h).elim [] Block.voted

def selfQc (s : Core Hash Sig) (h : Hash) : Option (QuorumCert Hash Sig) :=
  (s.storage h).bind Block.selfQc

def cmds (s : Core Hash Sig) (h : Hash) : List Hash := (s.storage h).elim [] Block.cmds

/-- `EntityStorage::is_blk_fetched`. -/
def isBlkFetched (s : Core Hash Sig) (h : Hash) : Bool := (s.storage h).isSome

/-- A write to members of the stored block. -/
def modifyBlk [DecidableEq Hash] (s : Core Hash Sig) (h : Hash)
    (f : Block Hash Sig → Block Hash Sig) : Core Hash Sig :=
  { s with storage := Function.update s.storage h ((s.storage h).map f) }

/-- `for (b = from; b->height > k; b = b->parents[0])`: the blocks passed and
the block the loop ends at; `none` is a read of `parents[0]` in an empty vector. -/
def walkFrom (s : Core Hash Sig) (k : Nat) : Nat → Hash → Option (List Hash × Hash)
  | 0, b => if s.height b > k then none else some ([], b)
  | fuel + 1, b =>
    if s.height b > k then
      match (s.parents b).head? with
      | none => none
      | some p => (walkFrom s k fuel p).map fun r => (b :: r.1, r.2)
    else some ([], b)

/-- The height falls at each step, so the first block's height is fuel enough. -/
def walk (s : Core Hash Sig) (k : Nat) (b : Hash) : Option (List Hash × Hash) :=
  s.walkFrom k (s.height b) b

/-- `PMHighTail::check_ancestry`. -/
def checkAncestry [DecidableEq Hash] (s : Core Hash Sig) (a b : Hash) : Bool :=
  (s.walk (s.height a) b).any (·.2 = a)

/-- The replica after `add_replica` for the whole configuration, `on_init` and
`PMHighTail::init`: the genesis block alone, certified by an empty certificate
of its own. -/
def init [DecidableEq Hash] (S : Setup Hash Sig) (id : ReplicaID) : Core Hash Sig where
  id := id
  storage := Function.update (fun _ => none) S.genesis <| some {
    parentHashes := []
    cmds := []
    qc := .create S S.genesis
    extra := []
    qcRef := some S.genesis
    selfQc := some (.create S S.genesis)
    delivered := true
    decision := true
    voted := ((List.range S.nreplicas).map UInt16.ofNat).eraseDups }
  hqc := (S.genesis, .create S S.genesis)
  bLock := S.genesis
  bExec := S.genesis
  vheight := 0
  tails := [S.genesis]
  voteDisabled := false
  qcWaiting := []
  pms := []
  hqcTail := S.genesis
  out := []

end Core

end HotStuffTx
