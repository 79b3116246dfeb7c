import HotStuffTx.Entity

/-!
# The core

Embeds `consensus.cpp` and the handlers of `PMHighTail`. A member function is
a computation `CoreM` on the replica's state that may throw, keeping what it
wrote. The core calls out at five places that may call back into it before it
goes on (`on_qc_finish`, `on_receive_proposal_`, `do_vote`, `on_propose_`,
`do_broadcast_proposal`); a function that reaches one returns the `Frame`s it
still has to run, the next one first.
-/

namespace HotStuffTx

/-- `HOTSTUFF_TWO_STEP` off or on. -/
inductive Build
  | threeStep
  | twoStep
  deriving DecidableEq

/-- What is left to run of a call that reached a callback. -/
inductive Frame (Hash : Type)
  | qcFinish (blk : Hash)
  | qcErase (blk : Hash)
  | receiveProposal_ (prop : Proposal Hash) (opinion : Bool)
  | vote (prop : Proposal Hash) (opinion : Bool)
  | propose_ (prop : Proposal Hash)
  | broadcast (prop : Proposal Hash)
  deriving DecidableEq

abbrev CoreM (Hash Sig : Type) := EStateM CoreError (Core Hash Sig)

namespace Core

variable {Hash Sig : Type} [DecidableEq Hash]

-- ---------------------------------------------------------------------------
-- PMHighTail
-- ---------------------------------------------------------------------------

/-- One round of the loop over the tails in the handler of `reg_hqc_update`. -/
def betterTail (s : Core Hash Sig) (best tail : Hash) : Hash :=
  if s.checkAncestry s.hqc.1 tail ∧ s.height tail > s.height best then tail else best

/-- The tail the handler of `reg_hqc_update` settles on. The source goes
through its `std::set` in the order of the pointers. -/
def highTail (s : Core Hash Sig) : Hash := s.tails.foldl s.betterTail s.hqc.1

/-- The handler of `reg_receive_proposal`. -/
def tailReceived (s : Core Hash Sig) (blk : Hash) : Core Hash Sig :=
  if s.checkAncestry s.hqc.1 blk ∧ s.height blk > s.height s.hqcTail then
    { s with hqcTail := blk }
  else s

/-- The handler of `reg_proposal`. -/
def tailProposed (s : Core Hash Sig) (blk : Hash) : Core Hash Sig := { s with hqcTail := blk }

def getParents (s : Core Hash Sig) : List Hash := [s.hqcTail]

-- ---------------------------------------------------------------------------
-- Storage and delivery
-- ---------------------------------------------------------------------------

/-- `EntityStorage::add_blk`. -/
def addBlk (S : Setup Hash Sig) (b : Block Hash Sig) : CoreM Hash Sig Hash := do
  let h := S.hash b.wire
  unless (← get).isBlkFetched h do
    modify fun s => { s with storage := Function.update s.storage h (some b) }
  return h

def sanityCheckDelivered (h : Hash) : CoreM Hash Sig Unit := do
  unless (← get).delivered h do throw .blockNotDelivered

/-- Where a parent is not delivered the throw leaves the parents before it pushed. -/
def onDeliverBlk (h : Hash) : CoreM Hash Sig Bool := do
  let s ← get
  match s.storage h with
  | none => throw .outOfRange
  | some b =>
    if b.delivered then return false
    modify (·.modifyBlk h ({ · with parents := b.parentHashes.takeWhile (s.delivered ·) }))
    unless b.parentHashes.all (s.delivered ·) do throw .blockNotDelivered
    match b.parentHashes.head? with
    | none => throw .outOfRange
    | some p =>
      modify (·.modifyBlk h ({ · with height := s.height p + 1 }))
      unless s.isBlkFetched b.qc.objHash do throw .qcNotFetched
      modify (·.modifyBlk h ({ · with qcRef := some b.qc.objHash }))
      modify fun s => { s with tails := s.tails.filter (· ∉ b.parentHashes) ++ [h] }
      modify (·.modifyBlk h ({ · with delivered := true }))
      return true

-- ---------------------------------------------------------------------------
-- Update
-- ---------------------------------------------------------------------------

/-- `update_hqc`, with the handler `on_hqc_update` runs. -/
def updateHqc (s : Core Hash Sig) (h : Hash) (qc : QuorumCert Hash Sig) : Core Hash Sig :=
  if s.height h > s.height s.hqc.1 then
    let s := { s with hqc := (h, qc) }
    { s with hqcTail := s.highTail }
  else s

/-- `if (blk1->height > b_lock->height) b_lock = blk1`. -/
def raiseLock (s : Core Hash Sig) (h : Hash) : Core Hash Sig :=
  if s.height h > s.height s.bLock then { s with bLock := h } else s

/-- The `do_decide` calls for one block. -/
def decides (s : Core Hash Sig) (h : Hash) : List (Output Hash Sig) :=
  (s.cmds h).mapIdx fun i cmd => .decide
    { rid := s.id, decision := 1, cmdIdx := i, cmdHeight := s.height h, cmdHash := cmd, blkHash := h }

/-- One round of the loop over `commit_queue`. -/
def decideBlk (s : Core Hash Sig) (h : Hash) : Core Hash Sig :=
  { s.modifyBlk h ({ · with decision := true }) with
    out := s.out ++ .consensus h :: s.decides h }

/-- `update` from `commit_queue` on. -/
def commit (blk : Hash) : CoreM Hash Sig Unit := do
  let s ← get
  match s.walk (s.height s.bExec) blk with
  | none => throw .outOfRange
  | some (queue, b) =>
    unless b = s.bExec do throw .safetyBreached
    set { queue.reverse.foldl decideBlk s with bExec := blk }

/-- `child->parents[0] == parent`. -/
def directParent (child parent : Hash) : CoreM Hash Sig Bool := do
  match ((← get).parents child).head? with
  | none => throw .outOfRange
  | some p => return p = parent

def updateThreeStep (nblk : Hash) : CoreM Hash Sig Unit := do
  match (← get).storage nblk with
  | none => return
  | some nb =>
    match nb.qcRef with
    | none => return
    | some blk2 =>
      if (← get).decision blk2 then return
      modify (·.updateHqc blk2 nb.qc)
      match (← get).qcRef blk2 with
      | none => return
      | some blk1 =>
        if (← get).decision blk1 then return
        modify (·.raiseLock blk1)
        match (← get).qcRef blk1 with
        | none => return
        | some blk =>
          if (← get).decision blk then return
          unless ← directParent blk2 blk1 do return
          unless ← directParent blk1 blk do return
          commit blk

def updateTwoStep (nblk : Hash) : CoreM Hash Sig Unit := do
  match (← get).storage nblk with
  | none => return
  | some nb =>
    match nb.qcRef with
    | none => return
    | some blk1 =>
      if (← get).decision blk1 then return
      modify (·.updateHqc blk1 nb.qc)
      modify (·.raiseLock blk1)
      match (← get).qcRef blk1 with
      | none => return
      | some blk =>
        if (← get).decision blk then return
        unless ← directParent blk1 blk do return
        commit blk

def update : Build → Hash → CoreM Hash Sig Unit
  | .threeStep => updateThreeStep
  | .twoStep => updateTwoStep

-- ---------------------------------------------------------------------------
-- Proposals and votes
-- ---------------------------------------------------------------------------

/-- The vote rule of `on_receive_proposal`, which raises `vheight` where it holds. -/
def opinion (bnew : Hash) : CoreM Hash Sig Bool := do
  let s ← get
  if s.height bnew > s.vheight then
    if (s.qcRef bnew).any (fun q => s.height q > s.height s.bLock) then
      -- liveness condition
      set { s with vheight := s.height bnew }
      return true
    else
      -- safety condition (extend the locked branch)
      match s.walk (s.height s.bLock) bnew with
      | none => throw .outOfRange
      | some (_, b) =>
        if b = s.bLock then
          set { s with vheight := s.height bnew }
          return true
        else return false
  else return false

def onReceiveProposal (build : Build) (prop : Proposal Hash) : CoreM Hash Sig (List (Frame Hash)) := do
  let selfProp := prop.proposer = (← get).id
  unless selfProp do
    sanityCheckDelivered prop.blk
    update build prop.blk
  let op ← opinion prop.blk
  if selfProp then return [.receiveProposal_ prop op]
  return (((← get).qcRef prop.blk).map Frame.qcFinish).toList ++ [.receiveProposal_ prop op]

/-- The block `on_propose` constructs. -/
def newBlock (s : Core Hash Sig) (cmds parents : List Hash) (extra : List UInt8) (p : Hash) :
    Block Hash Sig where
  parentHashes := parents
  cmds := cmds
  qc := s.hqc.2
  extra := extra
  parents := parents
  qcRef := some s.hqc.1
  height := s.height p + 1

def onPropose (S : Setup Hash Sig) (build : Build) (cmds parents : List Hash) (extra : List UInt8) :
    CoreM Hash Sig (List (Frame Hash)) := do
  match parents.head? with
  | none => throw .emptyParents
  | some p =>
    modify fun s => { s with tails := s.tails.filter (· ∉ parents) }
    let bnew ← addBlk S ((← get).newBlock cmds parents extra p)
    modify (·.modifyBlk bnew ({ · with selfQc := some (.create S bnew) }))
    let _ ← onDeliverBlk bnew
    update build bnew
    let s ← get
    let prop : Proposal Hash := { proposer := s.id, blk := bnew }
    if s.height bnew ≤ s.vheight then throw .notHigher
    let frames ← onReceiveProposal build prop
    return frames ++ [.propose_ prop]

/-- The insertion into `voted` stands even where `add_part` throws. -/
def onReceiveVote (S : Setup Hash Sig) (v : Vote Hash Sig) : CoreM Hash Sig (List (Frame Hash)) := do
  sanityCheckDelivered v.blkHash
  let s ← get
  let qsize := (s.voted v.blkHash).length
  if qsize ≥ S.nmajority then return []
  if v.voter ∈ s.voted v.blkHash then return []
  modify (·.modifyBlk v.blkHash fun b => { b with voted := v.voter :: b.voted })
  let qc := (s.selfQc v.blkHash).getD (.create S v.blkHash)
  modify (·.modifyBlk v.blkHash ({ · with selfQc := some qc }))
  match qc.addPart v.voter v.cert with
  | .error e => throw e
  | .ok qc =>
    modify (·.modifyBlk v.blkHash ({ · with selfQc := some qc }))
    if qsize + 1 = S.nmajority then
      modify (·.updateHqc v.blkHash qc)
      return [.qcFinish v.blkHash]
    return []

-- ---------------------------------------------------------------------------
-- Promises and callbacks
-- ---------------------------------------------------------------------------

/-- A promise is named by its place in `pms`. -/
def asyncQcFinish (S : Setup Hash Sig) (blk : Hash) : CoreM Hash Sig Nat := do
  let s ← get
  if (s.voted blk).length ≥ S.nmajority then
    set { s with pms := s.pms ++ [PmState.fulfilled] }
    return s.pms.length
  match s.qcWaiting.lookup blk with
  | some p => return p
  | none =>
    set { s with pms := s.pms ++ [PmState.pending], qcWaiting := (blk, s.pms.length) :: s.qcWaiting }
    return s.pms.length

/-- `Promise::resolve` and `reject` act on a pending promise only. -/
def settlePm (s : Core Hash Sig) (p : Nat) (st : PmState) : Core Hash Sig :=
  if s.pms[p]? = some .pending then { s with pms := s.pms.set p st } else s

/-- The vote `on_receive_proposal` signs. -/
def castVote (S : Setup Hash Sig) (s : Core Hash Sig) (blk : Hash) : Vote Hash Sig where
  voter := s.id
  blkHash := blk
  cert := { objHash := blk, sig := S.sign s.id blk }

/-- Runs one frame. `beatResp` is the replica the pacemaker's `beat_resp` names:
a vote for itself comes back as `on_receive_vote` at once. -/
def resume (S : Setup Hash Sig) (beatResp : ReplicaID → ReplicaID) :
    Frame Hash → CoreM Hash Sig (List (Frame Hash))
  | .qcFinish blk => do
    match (← get).qcWaiting.lookup blk with
    | none => return []
    | some p =>
      modify (·.settlePm p .fulfilled)
      return [.qcErase blk]
  | .qcErase blk => do
    modify fun s => { s with qcWaiting := s.qcWaiting.filter (·.1 ≠ blk) }
    return []
  | .receiveProposal_ prop op => do
    modify (·.tailReceived prop.blk)
    return [.vote prop op]
  | .vote prop op => do
    let s ← get
    unless op && !s.voteDisabled do return []
    let v := s.castVote S prop.blk
    set { s with out := s.out ++ [Output.vote prop.proposer v] }
    if beatResp prop.proposer = s.id then onReceiveVote S v else return []
  | .propose_ prop => do
    modify (·.tailProposed prop.blk)
    return [.broadcast prop]
  | .broadcast prop => do
    modify fun s => { s with out := s.out ++ [Output.broadcast prop] }
    return []

end Core

end HotStuffTx
