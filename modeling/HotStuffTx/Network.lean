import HotStuffTx.Attempts
import HotStuffTx.Certificate

/-!
# The network layer

Embeds the message handlers of `HotStuffBase` and the promises behind
`async_fetch_blk` and `async_deliver_blk`. What `.then` hangs on a promise is a
`Cont`, with the promises it still waits for; once none is left it may run, in
any order with the others. A handler that passes several blocks to
`on_fetch_blk`, and the erasing of a map entry after its promise has been
resolved, wait in `todo` while the callbacks run; an exception leaves them
undone. Who is asked for a block, and the timers that ask again, are left out.
-/

namespace HotStuffTx

/-- A promise a continuation waits for: an entry of `blk_fetch_waiting` or of
`blk_delivery_waiting`, or its own verification task. -/
inductive Need (Hash : Type)
  | fetch (blk : Hash)
  | deliver (blk : Hash)
  | verify
  deriving DecidableEq

/-- The callbacks of `async_deliver_blk` (once the block is fetched, and once it
can be delivered) and of the handlers. -/
inductive Act (Hash Sig Peer : Type)
  | start (blk : Hash)
  | deliver (blk : Hash)
  | propose (prop : Proposal Hash)
  | vote (v : Vote Hash Sig)
  | respond (replica : Peer) (blkHashes : List Hash)
  deriving DecidableEq

/-- `found` is what the verification among the promises resolves to. -/
structure Cont (Hash Sig Peer : Type) where
  needs : List (Need Hash)
  found : Bool
  act : Act Hash Sig Peer
  deriving DecidableEq

inductive Todo (Hash : Type)
  | onFetchBlk (blk : Hash)
  | eraseFetch (blk : Hash)
  | eraseDelivery (blk : Hash)
  deriving DecidableEq

/-- What leaves a handler: an exception of the core, of a `DataStream` that ends
too early, or of `promise::all`. -/
inductive Escape
  | core (e : CoreError)
  | stream
  | all
  deriving DecidableEq

/-- `HotStuffBase`. `built` remembers the blocks of its own `on_propose` calls. -/
structure Base (Hash Sig Peer : Type) where
  watched : Watched Hash Sig
  fetchWaiting : List Hash
  deliveryWaiting : List Hash
  conts : List (Cont Hash Sig Peer)
  todo : List (Todo Hash)
  responses : List (Peer × List Hash)
  escaped : List Escape
  built : List Hash

/-- The configured peers, and whether `promise::all` takes an empty list. -/
structure Peering (Peer : Type) where
  peerId : ReplicaID → Peer
  allEmpty : Bool

/-- `Block::verify` with a `VeriPool`. -/
def Block.verifyPooled [DecidableEq Hash] (S : Setup Hash Sig) (b : Block Hash Sig) :
    Except CoreError ReplicaConfig.Pooled :=
  if b.qc.objHash = S.genesis then .ok (.done true) else S.config.verifyPooled b.qc

namespace Base

variable {Hash Sig Peer : Type} [DecidableEq Hash] [DecidableEq Peer]
variable (S : Setup Hash Sig) (O : Options) (N : Peering Peer)

def init (rid : ReplicaID) : Base Hash Sig Peer where
  watched := .init S rid
  fetchWaiting := []
  deliveryWaiting := []
  conts := []
  todo := []
  responses := []
  escaped := []
  built := []

def core (s : Base Hash Sig Peer) : Core Hash Sig := s.watched.replica.core

def stack (s : Base Hash Sig Peer) : List (Frame Hash) := s.watched.replica.stack

/-- An exception leaves the handler. -/
def escape (s : Base Hash Sig Peer) (e : Escape) : Base Hash Sig Peer :=
  { s with todo := [], escaped := s.escaped ++ [e] }

/-- A call into the core, or its next frame. -/
def enter (s : Base Hash Sig Peer) (e : Event Hash Sig) : Base Hash Sig Peer :=
  let w := s.watched.step S O e
  match w.replica.thrown.drop s.watched.replica.thrown.length with
  | [] => { s with watched := w }
  | e :: _ => { s with watched := w }.escape (.core e)

-- ---------------------------------------------------------------------------
-- Promises
-- ---------------------------------------------------------------------------

/-- `.then` on `promise::all`. -/
def wait (s : Base Hash Sig Peer) (needs : List (Need Hash)) (found : Bool)
    (act : Act Hash Sig Peer) : Base Hash Sig Peer :=
  { s with conts := s.conts ++ [{ needs, found, act }] }

def resolve (s : Base Hash Sig Peer) (n : Need Hash) : Base Hash Sig Peer :=
  { s with conts := s.conts.map fun c => { c with needs := c.needs.filter (· ≠ n) } }

/-- Nothing that waits for a rejected promise ever runs. -/
def reject (s : Base Hash Sig Peer) (n : Need Hash) : Base Hash Sig Peer :=
  { s with conts := s.conts.filter (n ∉ ·.needs) }

/-- The promise is one resolved already where there is nothing to wait for. -/
def asyncFetchBlk (s : Base Hash Sig Peer) (blk : Hash) : List (Need Hash) × Base Hash Sig Peer :=
  if s.core.isBlkFetched blk then ([], s)
  else ([.fetch blk],
    { s with fetchWaiting := if blk ∈ s.fetchWaiting then s.fetchWaiting else blk :: s.fetchWaiting })

def asyncDeliverBlk (s : Base Hash Sig Peer) (blk : Hash) : List (Need Hash) × Base Hash Sig Peer :=
  if s.core.delivered blk then ([], s)
  else if blk ∈ s.deliveryWaiting then ([.deliver blk], s)
  else
    let (needs, s) := { s with deliveryWaiting := blk :: s.deliveryWaiting }.asyncFetchBlk blk
    ([.deliver blk], s.wait needs true (.start blk))

/-- `f` for each of the blocks. -/
def forEach (f : Base Hash Sig Peer → Hash → List (Need Hash) × Base Hash Sig Peer) :
    Base Hash Sig Peer → List Hash → List (Need Hash) × Base Hash Sig Peer
  | s, [] => ([], s)
  | s, blk :: blks =>
    let (needs, s) := f s blk
    let (more, s) := forEach f s blks
    (needs ++ more, s)

-- ---------------------------------------------------------------------------
-- Callbacks
-- ---------------------------------------------------------------------------

/-- `HotStuffBase::on_deliver_blk`. -/
def onDeliverBlk (s : Base Hash Sig Peer) (blk : Hash) : Base Hash Sig Peer :=
  let s' := s.enter S O (.call (.deliver blk))
  match Core.onDeliverBlk blk s.core with
  | .error _ _ => s'
  | .ok valid _ =>
    if blk ∈ s'.deliveryWaiting then
      { if valid then s'.resolve (.deliver blk) else s'.reject (.deliver blk) with
        todo := .eraseDelivery blk :: s'.todo }
    else s'

/-- `async_deliver_blk` once the block is fetched. -/
def startDelivery (s : Base Hash Sig Peer) (blk : Hash) : Base Hash Sig Peer :=
  match s.core.storage blk with
  | none => s
  | some b =>
    match if blk = S.genesis then .ok (.done true) else b.verifyPooled S with
    | .error e => s.escape (.core e)
    | .ok pm =>
      let (needs, found) := match pm with
        | .done result => (([] : List (Need Hash)), result)
        | .tasks found => ([.verify], found.all id)
      let (fetch, s) := s.asyncFetchBlk b.qc.objHash
      let (deliver, s) := s.forEach asyncDeliverBlk b.parentHashes
      s.wait (needs ++ fetch ++ deliver) found (.deliver blk)

def perform (s : Base Hash Sig Peer) (c : Cont Hash Sig Peer) : Base Hash Sig Peer :=
  match c.act with
  | .start blk => s.startDelivery S blk
  | .deliver blk => if c.found then s.onDeliverBlk S O blk else s
  | .propose prop => s.enter S O (.call (.receiveProposal prop))
  | .vote v => if c.found then s.enter S O (.call (.receiveVote v)) else s
  | .respond replica blkHashes => { s with responses := s.responses ++ [(replica, blkHashes)] }

-- ---------------------------------------------------------------------------
-- Handlers
-- ---------------------------------------------------------------------------

/-- `get_peer_id` throws for a proposer outside the configuration. -/
def proposeHandler (s : Base Hash Sig Peer) (peer : Option Peer) (proposer : ReplicaID)
    (w : WireBlock Hash Sig) : Base Hash Sig Peer :=
  match peer with
  | none => s
  | some peer =>
    match Block.unserialize w with
    | none => s.escape .stream
    | some b =>
      let blk := S.hash b.wire
      let s := s.enter S O (.call (.addBlk w))
      if S.hasReplica proposer then
        if peer = N.peerId proposer then
          let (needs, s) := s.asyncDeliverBlk blk
          s.wait needs true (.propose ⟨proposer, blk⟩)
        else s
      else s.escape (.core .ridNotFound)

/-- `get_pubkey` throws for a voter outside the configuration. -/
def voteHandler (s : Base Hash Sig Peer) (peer : Option Peer) (v : Vote Hash Sig) :
    Base Hash Sig Peer :=
  match peer with
  | none => s
  | some _ =>
    let (needs, s) := s.asyncDeliverBlk v.blkHash
    match v.verify S with
    | .error e => s.escape (.core e)
    | .ok result => s.wait (needs ++ [.verify]) result (.vote v)

def reqBlkHandler (s : Base Hash Sig Peer) (peer : Option Peer) (blkHashes : List Hash) :
    Base Hash Sig Peer :=
  match peer with
  | none => s
  | some replica =>
    let (needs, s) := s.forEach asyncFetchBlk blkHashes
    if blkHashes = [] ∧ N.allEmpty = false then s.escape .all
    else s.wait needs true (.respond replica blkHashes)

/-- `MsgRespBlock::postponed_parse`; `blks` are those parsed so far. -/
def parseBlks (s : Base Hash Sig Peer) (blks : List Hash) :
    List (WireBlock Hash Sig) → Base Hash Sig Peer
  | [] => { s with todo := blks.map .onFetchBlk }
  | w :: ws =>
    match Block.unserialize w with
    | none => s.escape .stream
    | some b => parseBlks (s.enter S O (.call (.addBlk w))) (blks ++ [S.hash b.wire]) ws

def respBlkHandler (s : Base Hash Sig Peer) (blks : List (WireBlock Hash Sig)) :
    Base Hash Sig Peer :=
  s.parseBlks S O [] blks

/-- The next thing a handler has left to do. -/
def next (s : Base Hash Sig Peer) : Base Hash Sig Peer :=
  match s.todo with
  | [] => s
  | .onFetchBlk blk :: todo =>
    if blk ∈ s.fetchWaiting then { s.resolve (.fetch blk) with todo := .eraseFetch blk :: todo }
    else { s with todo := todo }
  | .eraseFetch blk :: todo =>
    { s with fetchWaiting := s.fetchWaiting.filter (· ≠ blk), todo := todo }
  | .eraseDelivery blk :: todo =>
    { s with deliveryWaiting := s.deliveryWaiting.filter (· ≠ blk), todo := todo }

/-- The verification tasks of continuation `i` have finished. -/
def verified (s : Base Hash Sig Peer) (i : Nat) : Base Hash Sig Peer :=
  { s with conts := s.conts.modify i fun c => { c with needs := c.needs.filter (· ≠ .verify) } }

/-- Continuation `i` runs, if it waits for nothing. -/
def run (s : Base Hash Sig Peer) (i : Nat) : Base Hash Sig Peer :=
  match s.conts[i]? with
  | none => s
  | some c => if c.needs = [] then { s with conts := s.conts.eraseIdx i }.perform S O c else s

-- ---------------------------------------------------------------------------
-- Steps
-- ---------------------------------------------------------------------------

end Base

inductive BaseEvent (Hash Sig Peer : Type)
  | propose (peer : Option Peer) (proposer : ReplicaID) (blk : WireBlock Hash Sig)
  | vote (peer : Option Peer) (v : Vote Hash Sig)
  | reqBlk (peer : Option Peer) (blkHashes : List Hash)
  | respBlk (blks : List (WireBlock Hash Sig))
  | next
  | verified (i : Nat)
  | run (i : Nat)
  | core (e : Event Hash Sig)

namespace Base

variable {Hash Sig Peer : Type} [DecidableEq Hash] [DecidableEq Peer]
variable (S : Setup Hash Sig) (O : Options) (N : Peering Peer)

/-- The block the event has `on_propose` build. -/
def builds (s : Base Hash Sig Peer) : Event Hash Sig → List Hash
  | .call (.propose cmds _ extra) => [s.core.bnew S cmds extra]
  | _ => []

def step (s : Base Hash Sig Peer) : BaseEvent Hash Sig Peer → Base Hash Sig Peer
  | .propose peer proposer blk => s.proposeHandler S O N peer proposer blk
  | .vote peer v => s.voteHandler S peer v
  | .reqBlk peer blkHashes => s.reqBlkHandler N peer blkHashes
  | .respBlk blks => s.respBlkHandler S O blks
  | .next => s.next
  | .verified i => s.verified i
  | .run i => s.run S O i
  | .core e => { s.enter S O e with built := s.builds S e ++ s.built }

/-- No handler is running. -/
def Idle (s : Base Hash Sig Peer) : Prop := s.stack = [] ∧ s.todo = []

/-- Messages and finished tasks come from the event loop; continuations and what
a handler has left run above no frame; the pacemaker keeps to its shape. -/
def Admits (s : Base Hash Sig Peer) : BaseEvent Hash Sig Peer → Prop
  | .next | .run _ => s.stack = []
  | .core (.call (.addBlk _)) | .core (.call (.deliver _)) | .core (.call (.receiveProposal _))
  | .core (.call (.receiveVote _)) => False
  | .core e => s.watched.Disciplined S e
  | _ => s.Idle

instance (s : Base Hash Sig Peer) : Decidable s.Idle := by
  unfold Idle
  infer_instance

instance (s : Base Hash Sig Peer) (e : BaseEvent Hash Sig Peer) : Decidable (s.Admits S e) := by
  unfold Admits
  split <;> infer_instance

end Base

end HotStuffTx
