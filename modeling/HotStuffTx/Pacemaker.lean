import HotStuffTx.Pipeline

/-!
# A replica with its pacemaker

Embeds `PMWaitQC` with `PaceMakerDummyFixed`, and `PMRoundRobinProposer`, on a
replica that also receives proposals, with the handler of `cmd_pending` and
`do_decide`. The promises call back into the pacemaker and that calls
`on_propose`, so what is left to run of either is one stack of tasks. A beat is
its batch: its promise is fulfilled from the callback of `pm_qc_finish`, and its
own callback proposes the batch.
-/

set_option linter.unusedSectionVars false

namespace HotStuffTx

open Core

variable {Hash Sig : Type} [DecidableEq Hash]

-- ---------------------------------------------------------------------------
-- The state
-- ---------------------------------------------------------------------------

/-- `PaceMakerDummyFixed` or `PaceMakerRR`. -/
inductive Pacemaker
  | fixed (proposer : ReplicaID)
  | roundRobin
  deriving DecidableEq

/-- The build, the pacemaker, `blk_size`, and `uint256_t()`. -/
structure Running (Hash : Type) where
  build : Build
  pacemaker : Pacemaker
  blkSize : Nat
  zero : Hash

/-- `beat_resp` of the pacemaker. -/
def Running.options (P : Running Hash) : Options where
  build := P.build
  beatResp lastProposer :=
    match P.pacemaker with
    | .fixed proposer => proposer
    | .roundRobin => lastProposer

/-- What `timer` calls when it fires. -/
inductive TimerCall
  | onExpTimeout
  | rotate
  deriving DecidableEq

/-- What is called when a promise of `async_qc_finish` is fulfilled: the callback
of `schedule_next`, which fulfils the promise of a beat, or that of
`do_new_consensus`. -/
inductive Callback (Hash : Type)
  | beat (cmds : List Hash)
  | manual (x : Nat)
  deriving DecidableEq

/-- The batch of a beat. -/
def Callback.batch : Callback Hash → Option (List Hash)
  | .beat cmds => some cmds
  | .manual _ => none

/-- What is left to run: a frame of the core, the `do_consensus` and `do_decide`
calls of an `update`, a callback, `do_new_consensus` after its `on_propose`,
`schedule_next`, inside `beat` or not, its end, the end of the listener of
`update_last_proposed`, `on_exp_timeout` after its `do_new_consensus`, and a round
of the handler of `cmd_pending`. -/
inductive Task (Hash Sig : Type)
  | frame (f : Frame Hash)
  | commits (out : List (Output Hash Sig))
  | callback (cb : Callback Hash)
  | attach (x : Nat) (blk : Hash)
  | schedule (beating : Bool)
  | lock
  | listen
  | arm
  | dequeue

def Task.isArm : Task Hash Sig → Bool
  | .arm => true
  | _ => false

/-- The batch of a beat whose callback is about to run. -/
def Task.batch : Task Hash Sig → Option (List Hash)
  | .callback cb => cb.batch
  | _ => none

/-- A replica, its pacemaker and its commands. -/
structure Paced (Hash Sig : Type) where
  core : Core Hash Sig
  stack : List (Task Hash Sig)
  /-- The exceptions that reached the event loop, with what they left undone. -/
  thrown : List (CoreError × List (Task Hash Sig))
  clients : Clients Hash
  cmdPending : List Hash
  /-- The commands taken from `cmd_pending`. -/
  taken : List Hash
  cmdPendingBuffer : List Hash
  timer : Option TimerCall
  /-- In units of `base_timeout`. -/
  expTimeout : Nat
  proposer : ReplicaID
  propBlk : ReplicaID → Option Hash
  rotating : Bool
  pendingBeats : List (List Hash)
  lastProposed : Hash
  locked : Bool
  pmQcFinish : Option Nat
  pmQcManual : Option Nat
  /-- The callbacks that wait for a promise of `async_qc_finish`, by that promise. -/
  hangs : List (Nat × Callback Hash)
  /-- A listener of `reg_proposal`, of `reg_receive_proposal`, and that of
  `pm_wait_propose` is registered. -/
  regProposal : Bool
  regReceiveProposal : Bool
  listening : Bool
  /-- The re-proposals that `stop_rotate` has queued. -/
  elections : Nat
  /-- The batches given to `beat`, those given to `on_propose`, and those whose
  callback will not run or has not proposed. -/
  handed : List (List Hash)
  passed : List (List Hash)
  dropped : List (List Hash)
  /-- The blocks built by an `on_propose` that went through, and those `on_propose_`
  has announced. -/
  proposed : List Hash
  announced : List Hash

/-- A call of the network layer, `impeach`, the timer, a queued re-proposal, a
command from a client, a call of the handler of `cmd_pending`, and the next task. -/
inductive Occurrence (Hash Sig : Type)
  | call (c : Call Hash Sig)
  | impeach
  | expire
  | repropose
  | submit (cmdHash : Hash)
  | pending
  | resume

namespace Paced

variable (S : Setup Hash Sig) (P : Running Hash)

-- ---------------------------------------------------------------------------
-- The core and the promises
-- ---------------------------------------------------------------------------

def push (m : Paced Hash Sig) (t : Task Hash Sig) : Paced Hash Sig := { m with stack := t :: m.stack }

/-- The first task is taken, `rest` is left. -/
def popped (m : Paced Hash Sig) (rest : List (Task Hash Sig)) : Paced Hash Sig :=
  { m with stack := rest }

/-- Runs `f` above the stack. The calls `update` makes come first; a throw unwinds the rest. -/
def runCore (f : CoreM Hash Sig (List (Frame Hash))) (m : Paced Hash Sig) : Paced Hash Sig :=
  match f m.core with
  | .ok frames core =>
    { m with
      core := core
      stack := .commits (core.out.drop m.core.out.length) :: (frames.map .frame ++ m.stack) }
  | .error e core =>
    { m with
      core := core
      stack := [.commits (core.out.drop m.core.out.length)]
      thrown := m.thrown ++ [(e, m.stack)]
      dropped := m.dropped ++ m.stack.filterMap Task.batch }

/-- `on_propose(cmds, get_parents())`. -/
def onPropose (m : Paced Hash Sig) (cmds : List Hash) : Paced Hash Sig :=
  let m' := m.runCore (Core.onPropose S P.build cmds m.core.getParents [])
  match Core.onPropose S P.build cmds m.core.getParents [] m.core with
  | .ok _ _ => { m' with proposed := m.proposed ++ [m.core.bnew S cmds []] }
  | .error _ _ => m'

/-- The callbacks that wait for a promise. -/
def callbacks (m : Paced Hash Sig) (pm : Nat) : List (Callback Hash) :=
  (m.hangs.filter (·.1 = pm)).map Prod.snd

/-- The batches that wait for a promise. -/
def batches (m : Paced Hash Sig) (pm : Option Nat) : List (List Hash) :=
  (m.hangs.filter (some ·.1 = pm)).filterMap (·.2.batch)

/-- `reject()` on a promise of the pacemaker. -/
def reject (m : Paced Hash Sig) (pm : Option Nat) : Paced Hash Sig :=
  { m with
    core := pm.elim m.core (m.core.settlePm · .rejected)
    hangs := m.hangs.filter (some ·.1 ≠ pm)
    dropped := m.dropped ++ m.batches pm }

/-- `then` on a promise of `async_qc_finish`; the callback of a fulfilled one runs at once. -/
def andThen (m : Paced Hash Sig) (pm : Nat) (cb : Callback Hash) : Paced Hash Sig :=
  match m.core.pms[pm]? with
  | some .fulfilled => m.push (.callback cb)
  | some .pending => { m with hangs := m.hangs ++ [(pm, cb)] }
  | _ => { m with dropped := m.dropped ++ cb.batch.toList }

-- ---------------------------------------------------------------------------
-- Proposing
-- ---------------------------------------------------------------------------

/-- `schedule_next` once the beat is popped and `pm_qc_finish` rejected. A beat that
is being made gets its callback from the caller of `beat`, after `locked` is set. -/
def awaitBeat (m : Paced Hash Sig) (cmds : List Hash) (making : Bool) : Paced Hash Sig :=
  match Core.asyncQcFinish S m.lastProposed m.core with
  | .ok pm core =>
    let m := { m with core := core, pmQcFinish := some pm }
    if making = true then (m.andThen pm (.beat cmds)).push .lock
    else (m.push .lock).andThen pm (.beat cmds)
  | .error _ _ => m

def scheduleNext (m : Paced Hash Sig) (beating : Bool) : Paced Hash Sig :=
  match m.pendingBeats, m.locked with
  | cmds :: rest, false =>
    { m.reject m.pmQcFinish with pendingBeats := rest }.awaitBeat S cmds (beating && rest.isEmpty)
  | _, _ => m

/-- `do_new_consensus(x, cmds)` up to its `on_propose`. -/
def doNewConsensus (m : Paced Hash Sig) (x : Nat) (cmds : List Hash) : Paced Hash Sig :=
  (m.push (.attach x (m.core.bnew S cmds []))).onPropose S P cmds

/-- `(pm_qc_manual = hsc->async_qc_finish(blk)).then(..)`. -/
def awaitManual (m : Paced Hash Sig) (x : Nat) (blk : Hash) : Paced Hash Sig :=
  match Core.asyncQcFinish S blk m.core with
  | .ok pm core => { m with core := core, pmQcManual := some pm }.andThen pm (.manual x)
  | .error _ _ => m

/-- `do_new_consensus` once its `on_propose` has returned. -/
def attach (m : Paced Hash Sig) (x : Nat) (blk : Hash) : Paced Hash Sig :=
  (m.reject m.pmQcManual).awaitManual S x blk

/-- The callback of a beat, or of `pm_qc_manual`. -/
def call (m : Paced Hash Sig) : Callback Hash → Paced Hash Sig
  | .beat cmds =>
    if m.proposer = m.core.id then onPropose S P { m with passed := m.passed ++ [cmds] } cmds
    else { m with dropped := m.dropped ++ [cmds] }
  | .manual x => if x ≥ P.build.rounds then m else m.doNewConsensus S P (x + 1) []

-- ---------------------------------------------------------------------------
-- Role transitions
-- ---------------------------------------------------------------------------

/-- `(proposer + 1) % nreplicas`. -/
def nextProposer (m : Paced Hash Sig) : ReplicaID :=
  .ofNat ((m.proposer.toNat + 1) % S.nreplicas)

def rotate (m : Paced Hash Sig) : Paced Hash Sig :=
  { (m.reject m.pmQcFinish).reject m.pmQcManual with
    regProposal := true
    regReceiveProposal := true
    propBlk := fun _ => none
    rotating := true
    proposer := m.nextProposer S
    listening := false
    timer := some .onExpTimeout
    expTimeout := m.expTimeout * 2 }

def stopRotate (m : Paced Hash Sig) : Paced Hash Sig :=
  { (m.reject m.pmQcFinish).reject m.pmQcManual with
    timer := none
    rotating := false
    locked := false
    lastProposed := S.genesis
    listening := true
    elections := if m.proposer = m.core.id then m.elections + 1 else m.elections }

/-- `timer.del(); exp_timeout = base_timeout`. -/
def resetTimer (m : Paced Hash Sig) : Paced Hash Sig := { m with timer := none, expTimeout := 1 }

def onConsensus (m : Paced Hash Sig) (blk : Hash) : Paced Hash Sig :=
  match P.pacemaker with
  | .fixed _ => m
  | .roundRobin =>
    if m.propBlk m.proposer = some blk then m.resetTimer.stopRotate S else m.resetTimer

def impeach (m : Paced Hash Sig) : Paced Hash Sig :=
  match P.pacemaker with
  | .fixed _ => m
  | .roundRobin => if m.rotating = true then m else m.rotate S

def onExpTimeout (m : Paced Hash Sig) : Paced Hash Sig :=
  if m.proposer = m.core.id then (m.push .arm).doNewConsensus S P 0 [] else m.push .arm

/-- The timer fires. -/
def expire (m : Paced Hash Sig) : Paced Hash Sig :=
  match m.timer with
  | none => m
  | some .onExpTimeout => { m with timer := none }.onExpTimeout S P
  | some .rotate => { m with timer := none }.rotate S

/-- The call queued by `stop_rotate`. -/
def repropose (m : Paced Hash Sig) : Paced Hash Sig :=
  match m.elections with
  | 0 => m
  | n + 1 =>
    if m.clients.decisionWaiting = [] then { m with elections := n }
    else { m with elections := n }.doNewConsensus S P 0 m.clients.decisionWaiting

-- ---------------------------------------------------------------------------
-- Commands
-- ---------------------------------------------------------------------------

/-- `beat`, and the callback its promise is given. -/
def beat (m : Paced Hash Sig) (cmds : List Hash) : Paced Hash Sig :=
  if P.pacemaker = .roundRobin ∧ ¬ (m.rotating = false ∧ m.proposer = m.core.id) then
    { m with handed := m.handed ++ [cmds] }.push (.callback (.beat cmds))
  else
    { m with
      handed := m.handed ++ [cmds]
      pendingBeats := m.pendingBeats ++ [cmds] }.push (.schedule true)

/-- A command taken from `cmd_pending`. -/
def take (m : Paced Hash Sig) (cmdHash : Hash) : Paced Hash Sig :=
  if m.proposer = m.core.id then
    let buffer := m.cmdPendingBuffer ++ [cmdHash]
    if buffer.length ≥ P.blkSize then
      { m with cmdPendingBuffer := buffer.drop P.blkSize }.beat P (buffer.take P.blkSize)
    else { m with cmdPendingBuffer := buffer }.push .dequeue
  else m.push .dequeue

/-- A round of the loop of the handler of `cmd_pending`, which ends with a full batch. -/
def dequeue (m : Paced Hash Sig) : Paced Hash Sig :=
  match m.cmdPending with
  | [] => m
  | cmdHash :: rest =>
    { m with
      cmdPending := rest
      taken := m.taken ++ [cmdHash]
      clients := m.clients.enlist m.core.id P.zero cmdHash }.take P cmdHash

-- ---------------------------------------------------------------------------
-- Tasks
-- ---------------------------------------------------------------------------

/-- A `do_consensus` or `do_decide` call. -/
def heard (m : Paced Hash Sig) : Output Hash Sig → Paced Hash Sig
  | .consensus blk => m.onConsensus S P blk
  | .decide fin => { m with clients := m.clients.doDecide fin }
  | _ => m

/-- `prop_blk[rid]` is set where it is empty. -/
def record (m : Paced Hash Sig) (rid : ReplicaID) (blk : Hash) : Paced Hash Sig :=
  if m.propBlk rid = none then { m with propBlk := Function.update m.propBlk rid (some blk) } else m

/-- The listener of `reg_proposal`. -/
def onProposed (m : Paced Hash Sig) (blk : Hash) : Paced Hash Sig :=
  if m.regProposal = true then { m.record m.core.id blk with regProposal := m.rotating } else m

/-- The listener of `update_last_proposed`. -/
def updateLastProposed (m : Paced Hash Sig) (blk : Hash) : Paced Hash Sig :=
  if m.listening = true then
    { m with
      lastProposed := blk
      locked := false
      listening := false
      stack := .schedule false :: .listen :: m.stack }
  else m

/-- The listener of `reg_receive_proposal`. -/
def onReceived (m : Paced Hash Sig) (prop : Proposal Hash) : Paced Hash Sig :=
  if m.regReceiveProposal = true then
    { m.record prop.proposer prop.blk with regReceiveProposal := m.rotating }
  else m

/-- The callbacks of the promise of `blk`, which is fulfilled. -/
def fulfil (m : Paced Hash Sig) (blk : Hash) : Paced Hash Sig :=
  match m.core.qcWaiting.lookup blk with
  | none => m
  | some pm =>
    { m with
      hangs := m.hangs.filter (·.1 ≠ pm)
      stack := (m.callbacks pm).map .callback ++ m.stack }

/-- A frame of the core, and what its promise calls. Of the listeners of a proposal
of this replica that of `reg_proposal` was registered first. -/
def runFrame (m : Paced Hash Sig) (f : Frame Hash) : Paced Hash Sig :=
  let m := m.runCore (Core.resume S P.options.beatResp f)
  match f with
  | .qcFinish blk => m.fulfil blk
  | .receiveProposal_ prop _ => m.onReceived prop
  | .propose_ prop =>
    ({ m with announced := prop.blk :: m.announced }.onProposed prop.blk).updateLastProposed prop.blk
  | _ => m

def runTask (m : Paced Hash Sig) : Task Hash Sig → Paced Hash Sig
  | .frame f => m.runFrame S P f
  | .commits out => out.foldl (heard S P) m
  | .callback cb => m.call S P cb
  | .attach x blk => m.attach S x blk
  | .schedule beating => m.scheduleNext S beating
  | .lock => { m with locked := true }
  | .listen => { m with listening := true }
  | .arm => { m with timer := some .rotate }
  | .dequeue => m.dequeue P

-- ---------------------------------------------------------------------------
-- Runs
-- ---------------------------------------------------------------------------

def step (m : Paced Hash Sig) : Occurrence Hash Sig → Paced Hash Sig
  | .call c => m.runCore (c.run S P.options)
  | .impeach => m.impeach S P
  | .expire => m.expire S P
  | .repropose => m.repropose S P
  | .submit cmdHash => { m with cmdPending := m.cmdPending ++ [cmdHash] }
  | .pending => m.push .dequeue
  | .resume =>
    match m.stack with
    | [] => m
    | t :: rest => (m.popped rest).runTask S P t

/-- `on_init`, and `init` of the pacemaker. -/
def init (rid : ReplicaID) : Paced Hash Sig where
  core := .init S rid
  stack := []
  thrown := []
  clients := ⟨[], []⟩
  cmdPending := []
  taken := []
  cmdPendingBuffer := []
  timer := none
  expTimeout := 1
  proposer :=
    match P.pacemaker with
    | .fixed proposer => proposer
    | .roundRobin => 0
  propBlk := fun _ => none
  rotating := false
  pendingBeats := []
  lastProposed := S.genesis
  locked := false
  pmQcFinish := none
  pmQcManual := none
  hangs := []
  regProposal := false
  regReceiveProposal := false
  listening := true
  elections := if P.pacemaker = .roundRobin ∧ rid = 0 then 1 else 0
  handed := []
  passed := []
  dropped := []
  proposed := []
  announced := []

/-- A call of the core that a handler of the network layer makes. -/
def fromNetwork : Call Hash Sig → Bool
  | .addBlk _ | .deliver _ | .receiveProposal _ | .receiveVote _ => true
  | .propose .. | .asyncQcFinish _ | .rejectPm _ => false

/-- The event loop calls the handlers, one after the other; commands come from
another thread. -/
def Admits (m : Paced Hash Sig) : Occurrence Hash Sig → Prop
  | .call c => m.stack.isEmpty = true ∧ fromNetwork c = true
  | .impeach | .expire | .repropose | .pending => m.stack.isEmpty = true
  | .submit _ | .resume => True

instance (m : Paced Hash Sig) (e : Occurrence Hash Sig) : Decidable (m.Admits e) := by
  unfold Admits
  split <;> infer_instance

end Paced

theorem Core.resume_qcFinish {S : Setup Hash Sig} {s : Core Hash Sig}
    {beatResp : ReplicaID → ReplicaID} {blk : Hash} :
    Core.resume S beatResp (.qcFinish blk) s =
      match s.qcWaiting.lookup blk with
      | none => .ok [] s
      | some p => .ok [.qcErase blk] (s.settlePm p .fulfilled) := by
  unfold Core.resume
  simp only [bind, EStateM.bind, get, getThe, MonadStateOf.get, EStateM.get]
  cases s.qcWaiting.lookup blk <;> rfl

end HotStuffTx
