import HotStuffTx.Consensus
import HotStuffTx.Lib.Run

/-!
# One replica as a state machine

The event loop is one thread: an entry call runs until it reaches a callback,
the callback may call back in, and the frames left over run when it returns.
`Replica.stack` is that control stack. A step is either a call or the next
frame, so every nesting of calls inside callbacks is some list of events. A
throw unwinds to the event loop.
-/

namespace HotStuffTx

/-- A call into the core, by the network layer or by the pacemaker. -/
inductive Call (Hash Sig : Type)
  | addBlk (w : WireBlock Hash Sig)
  | deliver (blk : Hash)
  | propose (cmds parents : List Hash) (extra : List UInt8)
  | receiveProposal (prop : Proposal Hash)
  | receiveVote (vote : Vote Hash Sig)
  | asyncQcFinish (blk : Hash)
  | rejectPm (pm : Nat)

inductive Event (Hash Sig : Type)
  | call (c : Call Hash Sig)
  | resume

structure Replica (Hash Sig : Type) where
  core : Core Hash Sig
  stack : List (Frame Hash)
  /-- The exceptions that reached the event loop. -/
  thrown : List CoreError

/-- How the replicas are built: the protocol variant and the pacemaker's `beat_resp`. -/
structure Options where
  build : Build
  beatResp : ReplicaID → ReplicaID

section
variable {Hash Sig : Type} [DecidableEq Hash] (S : Setup Hash Sig) (O : Options)

def Call.run : Call Hash Sig → CoreM Hash Sig (List (Frame Hash))
  | .addBlk w => do
    match Block.unserialize w with
    | none => return []
    | some b => let _ ← Core.addBlk S b; return []
  | .deliver blk => do let _ ← Core.onDeliverBlk blk; return []
  | .propose cmds parents extra => Core.onPropose S O.build cmds parents extra
  | .receiveProposal prop => Core.onReceiveProposal O.build prop
  | .receiveVote v => Core.onReceiveVote S v
  | .asyncQcFinish blk => do let _ ← Core.asyncQcFinish S blk; return []
  | .rejectPm pm => do modify (·.settlePm pm .rejected); return []

namespace Replica

def init (id : ReplicaID) : Replica Hash Sig := { core := .init S id, stack := [], thrown := [] }

/-- Runs `m` above the frames `rest`. -/
def runOn (m : CoreM Hash Sig (List (Frame Hash))) (rest : List (Frame Hash))
    (r : Replica Hash Sig) : Replica Hash Sig :=
  match m r.core with
  | .ok frames core => { r with core := core, stack := frames ++ rest }
  | .error e core => { core := core, stack := [], thrown := r.thrown ++ [e] }

def step (r : Replica Hash Sig) : Event Hash Sig → Replica Hash Sig
  | .call c => r.runOn (c.run S O) r.stack
  | .resume =>
    match r.stack with
    | [] => r
    | f :: rest => r.runOn (Core.resume S O.beatResp f) rest

end Replica

end

end HotStuffTx
