import HotStuffTx.App
import HotStuffTx.Leader

/-!
# The pipeline of a fixed leader

Embeds `PMWaitQC` and `PaceMakerDummyFixed` with the handler of `cmd_pending`
and `do_decide`, on a replica that is the fixed proposer and to which nobody
else proposes: what the network brings are commands and votes. A beat is its
batch: its promise is fulfilled from the callback of `pm_qc_finish`, and its own
callback proposes the batch.
-/

set_option linter.unusedSectionVars false

namespace HotStuffTx

open Core Forest

variable {Hash Sig : Type} [DecidableEq Hash]

-- ---------------------------------------------------------------------------
-- The pacemaker and the commands
-- ---------------------------------------------------------------------------

/-- The build, the fixed proposer, `blk_size`, and `uint256_t()`. -/
structure Fixed (Hash : Type) where
  build : Build
  proposer : ReplicaID
  blkSize : Nat
  zero : Hash

/-- `beat_resp` of `PaceMakerDummyFixed`. -/
def Fixed.options (F : Fixed Hash) : Options := ⟨F.build, fun _ => F.proposer⟩

/-- `decision_waiting`, where a callback is known by its command, and what the
callbacks were called with. -/
structure Clients (Hash : Type) where
  decisionWaiting : List Hash
  fired : List (Finality Hash)
  deriving DecidableEq

/-- A `schedule_next` whose callback is in `on_propose`, above the frames
`below`. The listener of the proposals registers again after it. -/
structure Scheduling (Hash : Type) where
  below : List (Frame Hash)
  listener : Bool
  deriving DecidableEq

structure Pipeline (Hash Sig : Type) where
  watched : Watched Hash Sig
  clients : Clients Hash
  cmdPending : List Hash
  cmdPendingBuffer : List Hash
  pendingBeats : List (List Hash)
  lastProposed : Hash
  locked : Bool
  pmQcFinish : Option Nat
  /-- The promise and the batch of a callback of `pm_qc_finish` that has not run. -/
  awaiting : Option (Nat × List Hash)
  /-- The listener of `pm_wait_propose` is registered. -/
  listening : Bool
  scheduling : List (Scheduling Hash)
  /-- The commands enqueued so far. -/
  submitted : List Hash
  /-- The blocks proposed so far. -/
  proposed : List Hash

/-- A command from a client, a call of the handler of `cmd_pending`, a vote, and
the next frame. -/
inductive Arrival (Hash Sig : Type)
  | submit (cmdHash : Hash)
  | pending
  | vote (v : Vote Hash Sig)
  | resume

/-- The arguments of the `do_decide` calls. -/
def finalities (out : List (Output Hash Sig)) : List (Finality Hash) :=
  out.filterMap fun
    | .decide fin => some fin
    | _ => none

namespace Clients

/-- A command from `cmd_pending`: its callback is stored, or called where the command waits already. -/
def enlist (c : Clients Hash) (rid : ReplicaID) (zero cmdHash : Hash) : Clients Hash :=
  if cmdHash ∈ c.decisionWaiting then
    { c with fired := c.fired ++ [
      { rid, decision := 0, cmdIdx := 0, cmdHeight := 0, cmdHash, blkHash := zero }] }
  else { c with decisionWaiting := c.decisionWaiting ++ [cmdHash] }

def doDecide (c : Clients Hash) (fin : Finality Hash) : Clients Hash :=
  if fin.cmdHash ∈ c.decisionWaiting then
    { decisionWaiting := c.decisionWaiting.filter (· ≠ fin.cmdHash), fired := c.fired ++ [fin] }
  else c

end Clients

namespace Pipeline

variable (S : Setup Hash Sig) (F : Fixed Hash)

abbrev core (m : Pipeline Hash Sig) : Core Hash Sig := m.watched.replica.core

/-- The replica has moved to `w`: `do_decide` runs for what it has committed,
and a throw unwinds the calls of `schedule_next`. -/
def moved (m : Pipeline Hash Sig) (w : Watched Hash Sig) : Pipeline Hash Sig :=
  { m with
    watched := w
    clients := (finalities (w.replica.core.out.drop m.core.out.length)).foldl Clients.doDecide m.clients
    scheduling := if w.replica.thrown = m.watched.replica.thrown then m.scheduling else [] }

/-- The callback of a beat. -/
def propose (m : Pipeline Hash Sig) (cmds : List Hash) : Pipeline Hash Sig :=
  if F.proposer = m.core.id then
    let w := m.watched.step S F.options (.call (.propose cmds m.core.getParents []))
    match Core.onPropose S F.build cmds m.core.getParents [] m.core with
    | .ok _ _ => { m.moved w with proposed := m.proposed ++ [m.core.bnew S cmds []] }
    | .error _ _ => m.moved w
  else m

/-- `schedule_next`. Where the certificate is there already the callback of
`pm_qc_finish` runs before `locked` is set; it only proposes where the beat has its
callback, which the beat that is being made gets from the caller of `beat`. -/
def scheduleNext (m : Pipeline Hash Sig) (listener : Bool) : Pipeline Hash Sig :=
  match m.pendingBeats, m.locked with
  | cmds :: rest, false =>
    let w := m.watched.reject S F.options m.pmQcFinish
    match Core.asyncQcFinish S m.lastProposed w.replica.core with
    | .ok pm s =>
      let m := { m with
        watched := w.step S F.options (.call (.asyncQcFinish m.lastProposed))
        pendingBeats := rest
        pmQcFinish := some pm }
      if s.pms[pm]? = some .fulfilled then
        if listener = false ∧ rest = [] then
          propose S F { m with awaiting := none, locked := true } cmds
        else
          propose S F { m with
            awaiting := none
            scheduling := ⟨m.watched.replica.stack, listener⟩ :: m.scheduling } cmds
      else { m with awaiting := some (pm, cmds), locked := true }
    | .error _ _ => m
  | _, _ => m

/-- `beat`, and the callback its promise is given. -/
def beat (m : Pipeline Hash Sig) (cmds : List Hash) : Pipeline Hash Sig :=
  scheduleNext S F { m with pendingBeats := m.pendingBeats ++ [cmds] } false

/-- The loop of the handler of `cmd_pending`, up to the first full batch. -/
def handlePending (m : Pipeline Hash Sig) : List Hash → Pipeline Hash Sig
  | [] => m
  | cmdHash :: rest =>
    let m := { m with
      cmdPending := rest
      clients := m.clients.enlist m.core.id F.zero cmdHash }
    if F.proposer = m.core.id then
      let buffer := m.cmdPendingBuffer ++ [cmdHash]
      if buffer.length ≥ F.blkSize then
        beat S F { m with cmdPendingBuffer := buffer.drop F.blkSize } (buffer.take F.blkSize)
      else handlePending { m with cmdPendingBuffer := buffer } rest
    else handlePending m rest

/-- The listener of `update_last_proposed`, which registers again at its end. -/
def onProposal (m : Pipeline Hash Sig) (blk : Hash) : Pipeline Hash Sig :=
  let m' := scheduleNext S F { m with lastProposed := blk, locked := false, listening := false } true
  if m'.scheduling = m.scheduling ∧ m'.watched.replica.thrown = m.watched.replica.thrown then
    { m' with listening := true }
  else m'

/-- What the frame that has just run calls. -/
def told (m : Pipeline Hash Sig) : Option (Frame Hash) → Pipeline Hash Sig
  | some (.propose_ prop) => if m.listening then m.onProposal S F prop.blk else m
  | _ => m

/-- `schedule_next` goes on once its `on_propose` has returned. -/
def returned (m : Pipeline Hash Sig) : Pipeline Hash Sig :=
  match m.scheduling with
  | [] => m
  | c :: cs =>
    if m.watched.replica.stack = c.below then
      { m with scheduling := cs, locked := true, listening := c.listener || m.listening }
    else m

/-- The callback of `pm_qc_finish` runs once the promise is fulfilled. -/
def fulfil (m : Pipeline Hash Sig) : Pipeline Hash Sig :=
  match m.awaiting with
  | none => m
  | some (pm, cmds) =>
    if m.core.pms[pm]? = some .fulfilled then propose S F { m with awaiting := none } cmds else m

def settle (m : Pipeline Hash Sig) : Pipeline Hash Sig := fulfil S F m.returned

def step (m : Pipeline Hash Sig) : Arrival Hash Sig → Pipeline Hash Sig
  | .submit cmdHash =>
    { m with cmdPending := m.cmdPending ++ [cmdHash], submitted := m.submitted ++ [cmdHash] }
  | .pending => m.handlePending S F m.cmdPending
  | .vote v => settle S F (m.moved (m.watched.step S F.options (.call (.receiveVote v))))
  | .resume =>
    settle S F ((m.moved (m.watched.step S F.options .resume)).told S F m.watched.replica.stack.head?)

/-- `on_init` and `init` of the pacemaker. -/
def init (rid : ReplicaID) : Pipeline Hash Sig where
  watched := .init S rid
  clients := ⟨[], []⟩
  cmdPending := []
  cmdPendingBuffer := []
  pendingBeats := []
  lastProposed := S.genesis
  locked := false
  pmQcFinish := none
  awaiting := none
  listening := true
  scheduling := []
  submitted := []
  proposed := []

/-- The commands are distinct, and the event loop calls the handlers: that of
`cmd_pending`, and that of a vote for a delivered block once it is verified. -/
def Admits (m : Pipeline Hash Sig) : Arrival Hash Sig → Prop
  | .submit cmdHash => cmdHash ∉ m.submitted
  | .pending => m.watched.replica.stack = []
  | .vote v => m.watched.replica.stack = [] ∧ v.verify S = .ok true ∧
      m.core.delivered v.blkHash = true
  | .resume => True

instance (m : Pipeline Hash Sig) (e : Arrival Hash Sig) : Decidable (m.Admits S e) := by
  unfold Admits
  split <;> infer_instance

/-- The batches that are not proposed yet, in their order. -/
def beats (m : Pipeline Hash Sig) : List (List Hash) :=
  (m.awaiting.map Prod.snd).toList ++ m.pendingBeats

end Pipeline

section
variable {S : Setup Hash Sig} {F : Fixed Hash} {s s' : Core Hash Sig} {w : Watched Hash Sig}
  {m : Pipeline Hash Sig} {blk : Hash} {bs : List (List Hash)}

-- ---------------------------------------------------------------------------
-- The commands
-- ---------------------------------------------------------------------------

theorem finalities_append (out out' : List (Output Hash Sig)) :
    finalities (out ++ out') = finalities out ++ finalities out' :=
  List.filterMap_append

theorem mem_finalities {out : List (Output Hash Sig)} :
    fin ∈ finalities out ↔ .decide fin ∈ out := by
  induction out with
  | nil => simp [finalities]
  | cons o out ih =>
    simp only [finalities] at ih
    cases o <;> simp [finalities, ih]

theorem map_finalities (out : List (Output Hash Sig)) :
    (finalities out).map (·.cmdHash) = decidedCmds out := by
  induction out with
  | nil => rfl
  | cons o out ih =>
    simp only [finalities, decidedCmds] at ih
    cases o <;> simp [finalities, decidedCmds, ih]

theorem Core.CoreOk.decision_one (h : CoreOk S s) (hf : .decide fin ∈ s.out) : fin.decision = 1 := by
  have hmem : Output.decide fin ∈ s.out.filter Output.isCommit := List.mem_filter.mpr ⟨hf, rfl⟩
  rw [h.log] at hmem
  obtain ⟨b, -, hb⟩ := List.mem_flatMap.mp hmem
  rcases List.mem_cons.mp hb with hb | hb
  · cases hb
  · obtain ⟨i, hi, heq⟩ := List.mem_mapIdx.mp hb
    cases heq
    rfl

/-- Decided in the order in which they wait, the commands are answered one after the other. -/
theorem Clients.foldl_doDecide {c : Clients Hash} {fins : List (Finality Hash)} {rest : List Hash}
    (hd : c.decisionWaiting = fins.map (·.cmdHash) ++ rest) (hn : c.decisionWaiting.Nodup) :
    fins.foldl doDecide c = ⟨rest, c.fired ++ fins⟩ := by
  induction fins generalizing c with
  | nil =>
    obtain ⟨d, f⟩ := c
    obtain rfl : d = rest := hd
    simp
  | cons fin fins ih =>
    have hstep : c.doDecide fin = ⟨fins.map (·.cmdHash) ++ rest, c.fired ++ [fin]⟩ := by
      rw [hd] at hn
      have hkeep : ∀ x ∈ fins.map (·.cmdHash) ++ rest, decide (x ≠ fin.cmdHash) = true := by
        intro x hx
        refine decide_eq_true ?_
        rintro rfl
        exact (List.nodup_cons.mp hn).1 hx
      unfold doDecide
      rw [if_pos (by rw [hd]; exact List.mem_cons_self), hd, List.map_cons, List.cons_append,
        List.filter_cons_of_neg (by simp), List.filter_eq_self.mpr hkeep]
    rw [List.foldl_cons, hstep, ih rfl]
    · simp
    · rw [hd] at hn
      exact (List.nodup_cons.mp hn).2

namespace Pipeline

/-- The callbacks of the decided commands have run, the others wait in the order of
the submissions. -/
structure Answered (m : Pipeline Hash Sig) : Prop where
  fired : m.clients.fired = finalities m.core.out
  waiting : decidedCmds m.core.out ++ m.clients.decisionWaiting ++ m.cmdPending = m.submitted

/-- The batches `bs` are the slices of the submissions, the rest is in the buffer
and in `cmd_pending`. -/
structure Sliced (F : Fixed Hash) (bs : List (List Hash)) (m : Pipeline Hash Sig) : Prop where
  all : bs.flatten ++ m.cmdPendingBuffer ++ m.cmdPending = m.submitted
  size : ∀ b ∈ bs, b.length = F.blkSize
  buffer : m.cmdPendingBuffer.length < F.blkSize

theorem Answered.moved (h : m.Answered) (hn : m.submitted.Nodup)
    (hout : m.core.out <+: w.replica.core.out)
    (hl : ∃ l, decidedCmds w.replica.core.out ++ l ++ m.cmdPending = m.submitted) :
    (m.moved w).Answered := by
  obtain ⟨new, hnew⟩ := hout
  obtain ⟨l, hl⟩ := hl
  have hdrop : w.replica.core.out.drop m.core.out.length = new := by
    rw [← hnew, List.drop_left]
  have hcmds : decidedCmds w.replica.core.out = decidedCmds m.core.out ++ decidedCmds new := by
    rw [← hnew, decidedCmds_append]
  have hwait : m.clients.decisionWaiting = (finalities new).map (·.cmdHash) ++ l := by
    have heq := h.waiting.trans hl.symm
    simp only [hcmds, List.append_assoc] at heq
    have heq := List.append_cancel_left heq
    rw [← List.append_assoc] at heq
    rw [map_finalities]
    exact List.append_cancel_right heq
  have hnodup : m.clients.decisionWaiting.Nodup := by
    rw [← h.waiting] at hn
    exact (List.nodup_append.mp (List.nodup_append.mp hn).1).2.1
  have hclients : (m.moved w).clients = ⟨l, m.clients.fired ++ finalities new⟩ := by
    show (finalities (w.replica.core.out.drop m.core.out.length)).foldl _ _ = _
    rw [hdrop, Clients.foldl_doDecide hwait hnodup]
  refine ⟨?_, ?_⟩
  · show _ = finalities w.replica.core.out
    rw [hclients, h.fired, ← finalities_append, hnew]
  · rw [hclients]
    exact hl

/-- A step that commits nothing. -/
theorem Answered.calm (h : m.Answered) (hn : m.submitted.Nodup) (hok : CoreOk S m.core)
    (hok' : CoreOk S w.replica.core) (hout : m.core.out <+: w.replica.core.out)
    (hc : Calm m.core w.replica.core) : (m.moved w).Answered := by
  refine h.moved hn hout ⟨m.clients.decisionWaiting, ?_⟩
  have hcom : committed w.replica.core.out = committed m.core.out :=
    (hc.bExec ▸ hok'.chain).unique S.par_genesis hok.chain
  rw [hok'.decidedCmds_eq, hcom, ← hok.decidedCmds_eq]
  exact h.waiting

end Pipeline

end

end HotStuffTx
