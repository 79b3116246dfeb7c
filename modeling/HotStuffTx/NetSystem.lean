import HotStuffTx.Agreement
import HotStuffTx.Fetching

/-!
# The replicas on the network

A run interleaves the message handlers, the continuations and the pacemaker calls
of the honest replicas. Nothing is asked of a message but that it forges no
signature of an honest replica and does not come from the replica itself: that
blocks are verified, delivered in order and handed to the core once, the network
layer sees to. Below the handlers it is a run of the system of the replicas.
-/

set_option linter.unusedSectionVars false

namespace HotStuffTx

open Core

variable {Hash Sig Peer : Type} [DecidableEq Hash] [DecidableEq Peer]

-- ---------------------------------------------------------------------------
-- The system
-- ---------------------------------------------------------------------------

abbrev NetSystem (Hash Sig Peer : Type) := ReplicaID → Base Hash Sig Peer

namespace NetSystem

variable (S : Setup Hash Sig) (O : Options) (N : Peering Peer)

def init : NetSystem Hash Sig Peer := Base.init S

/-- Replica `e.1` takes the step `e.2`. -/
def step (sys : NetSystem Hash Sig Peer) (e : ReplicaID × BaseEvent Hash Sig Peer) :
    NetSystem Hash Sig Peer :=
  Function.update sys e.1 ((sys e.1).step S O N e.2)

/-- The replicas under the network layer. -/
def below (sys : NetSystem Hash Sig Peer) : System Hash Sig := fun r => (sys r).watched.replica

end NetSystem

namespace Faults

variable {S : Setup Hash Sig} (F : Faults S)

/-- The message that comes to `r` forges no signature, and is not its own. -/
def Genuine (N : Peering Peer) (sys : System Hash Sig) (r : ReplicaID) :
    BaseEvent Hash Sig Peer → Prop
  | .propose peer _ w => peer ≠ some (N.peerId r) ∧
      ∀ b, Block.unserialize w = some b → F.Authentic sys b.qc
  | .respBlk ws => ∀ w ∈ ws, ∀ b, Block.unserialize w = some b → F.Authentic sys b.qc
  | .vote _ v => v.verify S = .ok true → F.Honest v.voter → (sys v.voter).Signed v.blkHash
  | _ => True

instance (N : Peering Peer) (sys : System Hash Sig) (r : ReplicaID)
    (e : BaseEvent Hash Sig Peer) : Decidable (F.Genuine N sys r e) :=
  match e with
  | .propose peer _ w => inferInstanceAs (Decidable (peer ≠ some (N.peerId r) ∧
      ∀ b, Block.unserialize w = some b → F.Authentic sys b.qc))
  | .respBlk ws => inferInstanceAs (Decidable (∀ w ∈ ws, ∀ b, Block.unserialize w = some b →
      F.Authentic sys b.qc))
  | .vote _ v => inferInstanceAs (Decidable (v.verify S = .ok true → F.Honest v.voter →
      (sys v.voter).Signed v.blkHash))
  | .reqBlk _ _ | .next | .verified _ | .run _ | .core _ => instDecidableTrue

/-- An honest replica handles a genuine message, or goes on. -/
def AdmitsNet (N : Peering Peer) (sys : NetSystem Hash Sig Peer)
    (e : ReplicaID × BaseEvent Hash Sig Peer) : Prop :=
  F.Honest e.1 ∧ (sys e.1).Admits S e.2 ∧ F.Genuine N sys.below e.1 e.2

instance (N : Peering Peer) (sys : NetSystem Hash Sig Peer)
    (e : ReplicaID × BaseEvent Hash Sig Peer) : Decidable (F.AdmitsNet N sys e) :=
  inferInstanceAs (Decidable (_ ∧ _ ∧ _))

end Faults

/-- The call into the core that a continuation makes. -/
def Cont.enters (c : Cont Hash Sig Peer) : Option (Event Hash Sig) :=
  match c.act with
  | .deliver blk => if c.found then some (.call (.deliver blk)) else none
  | .propose prop => some (.call (.receiveProposal prop))
  | .vote v => if c.found then some (.call (.receiveVote v)) else none
  | .start _ | .respond .. => none

namespace Base

/-- The call into the core that the step makes, unless it stores blocks of a message. -/
def enters (s : Base Hash Sig Peer) : BaseEvent Hash Sig Peer → Option (Event Hash Sig)
  | .core e => some e
  | .run i => (s.conts[i]?).bind fun c => if c.needs = [] then c.enters else none
  | _ => none

/-- The proposal handled or made in the step follows the chain of the replica. -/
def Follows (s : Base Hash Sig Peer) (e : BaseEvent Hash Sig Peer) : Prop :=
  ∀ ev ∈ s.enters e, s.core.Follows ev

instance (s : Base Hash Sig Peer) (e : BaseEvent Hash Sig Peer) : Decidable (s.Follows e) :=
  inferInstanceAs (Decidable (∀ ev ∈ s.enters e, s.core.Follows ev))

end Base

namespace Base

section
variable {S : Setup Hash Sig} {O : Options} {N : Peering Peer} {s s' t : Base Hash Sig Peer}
  {e : BaseEvent Hash Sig Peer}

-- ---------------------------------------------------------------------------
-- What a step calls
-- ---------------------------------------------------------------------------

/-- The core is called so while `s` handles `e`: a block of the message is stored, or
the one call of the step is made. -/
def Passes (s : Base Hash Sig Peer) (e : BaseEvent Hash Sig Peer) (w : Watched Hash Sig)
    (ev : Event Hash Sig) : Prop :=
  (∃ b ∈ e.brings, ev = .call (.addBlk b)) ∨ w = s.watched ∧ s.enters e = some ev

/-- The step is a run of such calls. -/
def Runs (S : Setup Hash Sig) (O : Options) (s : Base Hash Sig Peer)
    (e : BaseEvent Hash Sig Peer) (t : Base Hash Sig Peer) : Prop :=
  ∃ evs, Run.Allowed (Watched.step S O) (fun w ev => w.Disciplined S ev ∧ s.Passes e w ev) s.watched evs ∧
    t.watched = Run.exec (Watched.step S O) s.watched evs

theorem Runs.none (h : t.watched = s.watched) : Runs S O s e t := ⟨[], trivial, h⟩

theorem Runs.one (ev : Event Hash Sig) (hd : s.watched.Disciplined S ev) (he : s.enters e = some ev)
    (h : t.watched = s.watched.step S O ev) : Runs S O s e t :=
  ⟨[ev], ⟨⟨hd, .inr ⟨rfl, he⟩⟩, trivial⟩, h⟩

theorem Runs.stored {b : WireBlock Hash Sig} (hst : s.stack = []) (hb : b ∈ e.brings)
    (h : t.watched = s.watched.step S O (.call (.addBlk b))) : Runs S O s e t :=
  ⟨[.call (.addBlk b)], ⟨⟨hst, .inl ⟨b, hb, rfl⟩⟩, trivial⟩, h⟩

theorem runs_parseBlks (hst : t.stack = []) (blks : List Hash) {ws : List (WireBlock Hash Sig)}
    (hws : ∀ w ∈ ws, w ∈ e.brings) : ∃ evs,
      Run.Allowed (Watched.step S O) (fun w ev => w.Disciplined S ev ∧ s.Passes e w ev) t.watched evs ∧
        (t.parseBlks S O blks ws).watched = Run.exec (Watched.step S O) t.watched evs := by
  induction ws generalizing t blks with
  | nil => exact ⟨[], trivial, rfl⟩
  | cons w ws ih =>
    rw [parseBlks]
    cases hw : Block.unserialize w with
    | none => exact ⟨[], trivial, rfl⟩
    | some b =>
      obtain ⟨c, heq, -⟩ := enter_addBlk (s := t) (O := O) (S := S) hw
      obtain ⟨hw', hwt⟩ := List.forall_mem_cons.mp hws
      obtain ⟨evs, hevs, hexec⟩ := ih (t := t.enter S O (.call (.addBlk w))) (heq ▸ hst)
        (blks ++ [S.hash b.wire]) hwt
      rw [watched_enter] at hevs hexec
      exact ⟨.call (.addBlk w) :: evs, ⟨⟨hst, .inl ⟨w, hw', rfl⟩⟩, hevs⟩, hexec⟩

namespace Ok

variable (h : s.Ok S)
include h

theorem run_runs (hst : s.stack = []) (i : Nat) : Runs S O s (.run i) (s.run S O i) := by
  unfold Base.run
  cases hc : s.conts[i]? with
  | none => exact .none rfl
  | some c =>
    dsimp only
    split
    case isFalse => exact .none rfl
    case isTrue hdone =>
      have hsound := h.conts c (List.mem_of_getElem? hc)
      have h' : Ok S { s with conts := s.conts.eraseIdx i } :=
        ⟨h.ok, fun c hc => h.conts c (List.mem_of_mem_eraseIdx hc), h.todo, h.verified, h.parents⟩
      have henters : s.enters (.run i) = c.enters := by
        simp only [Base.enters, hc, Option.bind_some, if_pos hdone]
      unfold Cont.enters at henters
      unfold Base.perform
      cases hact : c.act with
      | start blk =>
        have hf : Need.Holds s.core (.fetch blk) := hsound.holds hdone (hact ▸ .start)
        exact .none (h'.startDelivery hf (hsound.ne_genesis blk (.inl hact))).watched
      | deliver blk =>
        dsimp only
        split
        case isTrue hfound =>
          have hd := Deliverable.of_cont hsound hdone hfound hact
          refine .one (.call (.deliver blk)) ⟨hst, fun b hb => ?_⟩ (henters.trans ?_)
            watched_onDeliverBlk
          · exact hd.qc _ (h.ok.core.store.wire hb hd.ne_genesis)
          · simp only [hact, hfound, if_true]
        case isFalse => exact .none rfl
      | propose prop =>
        exact .one (.call (.receiveProposal prop)) hst (henters.trans (by rw [hact])) watched_enter
      | vote v =>
        dsimp only
        split
        case isTrue hfound =>
          refine .one (.call (.receiveVote v)) hst (henters.trans ?_) watched_enter
          simp only [hact, hfound, if_true]
        case isFalse => exact .none rfl
      | respond replica blkHashes => exact .none rfl

/-- What a step does to the core. -/
theorem runs (he : s.Admits S e) : Runs S O s e (s.step S O N e) := by
  cases e with
  | propose peer proposer w =>
    rcases h.proposeHandler (O := O) (N := N) he.1 peer proposer w with ha | ha
    · exact .none ha.watched
    · exact .stored he.1 (List.mem_singleton_self _) (ha.watched.trans watched_enter)
  | vote peer v => exact .none h.voteHandler.watched
  | reqBlk peer blkHashes => exact .none (reqBlkHandler (S := S)).watched
  | respBlk blks => exact runs_parseBlks he.1 [] fun _ => id
  | next =>
    refine .none ?_
    dsimp only [Base.step, Base.next]
    split
    · rfl
    · split <;> rfl
    · rfl
    · rfl
  | verified i => exact .none rfl
  | run i => exact h.run_runs he i
  | core ev =>
    refine .one ev ?_ rfl watched_enter
    cases ev with
    | resume => exact he
    | call c =>
      cases c with
      | addBlk | deliver | receiveProposal | receiveVote => exact he.elim
      | asyncQcFinish | rejectPm | propose => exact he

end Ok

-- ---------------------------------------------------------------------------
-- The continuations
-- ---------------------------------------------------------------------------

/-- The continuations that an event may add. -/
def Adds (S : Setup Hash Sig) (N : Peering Peer) (e : BaseEvent Hash Sig Peer)
    (c : Cont Hash Sig Peer) : Prop :=
  match c.act with
  | .start _ | .deliver _ | .respond .. => True
  | .propose prop => ∃ w, e = .propose (some (N.peerId prop.proposer)) prop.proposer w
  | .vote v => (∃ peer, e = .vote peer v) ∧ v.verify S = .ok c.found

/-- Each continuation is an old one, or added by the event. -/
def Hears (S : Setup Hash Sig) (N : Peering Peer) (e : BaseEvent Hash Sig Peer)
    (s s' : Base Hash Sig Peer) : Prop :=
  ∀ c ∈ s'.conts, (∃ c₀ ∈ s.conts, c₀.act = c.act ∧ c₀.found = c.found) ∨ Adds S N e c

namespace Hears

theorem of_sub (h : ∀ c ∈ s'.conts, c ∈ s.conts) : Hears S N e s s' :=
  fun c hc => .inl ⟨c, h c hc, rfl, rfl⟩

theorem refl : Hears S N e s s := of_sub fun _ => id

theorem trans (h : Hears S N e s s') (h' : Hears S N e s' t) : Hears S N e s t := by
  intro c hc
  rcases h' c hc with ⟨c₁, hc₁, ha, hf⟩ | hadd
  · rcases h c₁ hc₁ with ⟨c₀, hc₀, ha', hf'⟩ | hadd
    · exact .inl ⟨c₀, hc₀, ha'.trans ha, hf'.trans hf⟩
    · refine .inr ?_
      unfold Adds at hadd ⊢
      rwa [ha, hf] at hadd
  · exact .inr hadd

theorem map {f : Cont Hash Sig Peer → Cont Hash Sig Peer} (hconts : s'.conts = s.conts.map f)
    (ha : ∀ c, (f c).act = c.act) (hf : ∀ c, (f c).found = c.found) : Hears S N e s s' := by
  intro c hc
  rw [hconts] at hc
  obtain ⟨c₀, hc₀, rfl⟩ := List.mem_map.mp hc
  exact .inl ⟨c₀, hc₀, (ha c₀).symm, (hf c₀).symm⟩

theorem wait {needs : List (Need Hash)} {found : Bool} {act : Act Hash Sig Peer}
    (hadd : Adds S N e ⟨needs, found, act⟩) : Hears S N e s (s.wait needs found act) := by
  intro c hc
  rcases List.mem_append.mp hc with hc | hc
  · exact .inl ⟨c, hc, rfl, rfl⟩
  · rw [List.mem_singleton.mp hc]
    exact .inr hadd

theorem enter {ev : Event Hash Sig} : Hears S N e s (s.enter S O ev) :=
  of_sub fun c hc => by rwa [conts_enter] at hc

theorem asyncFetchBlk (blk : Hash) : Hears S N e s (s.asyncFetchBlk blk).2 := by
  unfold Base.asyncFetchBlk
  split <;> exact refl

theorem asyncDeliverBlk (blk : Hash) : Hears S N e s (s.asyncDeliverBlk blk).2 := by
  unfold Base.asyncDeliverBlk
  split
  · exact refl
  · split
    · exact refl
    · have hwaiting : Hears S N e s { s with deliveryWaiting := blk :: s.deliveryWaiting } := refl
      exact hwaiting.trans ((asyncFetchBlk blk).trans (wait trivial))

theorem forEach {f : Base Hash Sig Peer → Hash → List (Need Hash) × Base Hash Sig Peer}
    (hf : ∀ s blk, Hears S N e s (f s blk).2) (blks : List Hash) :
    Hears S N e s (s.forEach f blks).2 := by
  induction blks generalizing s with
  | nil => exact refl
  | cons blk blks ih => exact (hf s blk).trans ih

theorem onDeliverBlk (blk : Hash) : Hears S N e s (s.onDeliverBlk S O blk) := by
  have hresolve {t : Base Hash Sig Peer} {n : Need Hash} : Hears S N e t (t.resolve n) :=
    map (f := fun c => { c with needs := c.needs.filter (· ≠ n) }) rfl (fun _ => rfl) fun _ => rfl
  have hreject {t : Base Hash Sig Peer} {n : Need Hash} : Hears S N e t (t.reject n) :=
    of_sub fun c hc => List.mem_of_mem_filter hc
  unfold Base.onDeliverBlk
  split
  · exact enter
  · dsimp only
    split
    · have henter : Hears S N e s (s.enter S O (.call (.deliver blk))) := enter
      split
      · exact (henter.trans hresolve).trans (of_sub fun _ => id)
      · exact (henter.trans hreject).trans (of_sub fun _ => id)
    · exact enter

theorem startDelivery (blk : Hash) : Hears S N e s (s.startDelivery S blk) := by
  unfold Base.startDelivery
  split
  · exact refl
  · split
    · exact of_sub fun _ => id
    · exact (asyncFetchBlk _).trans ((forEach (fun _ => asyncDeliverBlk) _).trans (wait trivial))

theorem run (i : Nat) : Hears S N e s (s.run S O i) := by
  unfold Base.run
  split
  · exact refl
  · split
    · have herase : Hears S N e s { s with conts := s.conts.eraseIdx i } :=
        of_sub fun c => List.mem_of_mem_eraseIdx
      refine herase.trans ?_
      unfold Base.perform
      split
      · exact startDelivery _
      · split
        · exact onDeliverBlk _
        · exact refl
      · exact enter
      · split
        · exact enter
        · exact refl
      · exact refl
    · exact refl

theorem parseBlks (blks : List Hash) (ws : List (WireBlock Hash Sig)) :
    Hears S N e s (s.parseBlks S O blks ws) := by
  induction ws generalizing s blks with
  | nil => exact of_sub fun _ => id
  | cons w ws ih =>
    rw [Base.parseBlks]
    split
    · exact of_sub fun _ => id
    · exact enter.trans (ih _)

theorem next : Hears S N e s s.next := by
  unfold Base.next
  split
  · exact refl
  · split
    · exact map (f := fun c => { c with needs := c.needs.filter (· ≠ _) }) rfl (fun _ => rfl) fun _ => rfl
    · exact refl
  · exact refl
  · exact refl

theorem verified (i : Nat) : Hears S N e s (s.verified i) := by
  intro c hc
  obtain ⟨j, hj⟩ := List.mem_iff_getElem?.mp hc
  rw [Base.verified, List.getElem?_modify] at hj
  obtain ⟨c₀, hc₀, rfl⟩ := Option.map_eq_some_iff.mp hj
  refine .inl ⟨c₀, List.mem_of_getElem? hc₀, ?_⟩
  split <;> exact ⟨rfl, rfl⟩

theorem step : Hears S N e s (s.step S O N e) := by
  cases e with
  | propose peer proposer w =>
    dsimp only [Base.step, Base.proposeHandler]
    split
    · exact refl
    · split
      · exact of_sub fun _ => id
      · split
        · split
          case isTrue hpeer =>
            exact enter.trans ((asyncDeliverBlk _).trans (wait ⟨w, by rw [hpeer]⟩))
          case isFalse => exact enter
        · exact enter.trans (of_sub fun _ => id)
  | vote peer v =>
    dsimp only [Base.step, Base.voteHandler]
    split
    · exact refl
    · split
      · exact (asyncDeliverBlk _).trans (of_sub fun _ => id)
      · exact (asyncDeliverBlk _).trans (wait ⟨⟨_, rfl⟩, ‹_›⟩)
  | reqBlk peer blkHashes =>
    dsimp only [Base.step, Base.reqBlkHandler]
    split
    · exact refl
    · split
      · exact (forEach (fun _ => asyncFetchBlk) _).trans (of_sub fun _ => id)
      · exact (forEach (fun _ => asyncFetchBlk) _).trans (wait trivial)
  | respBlk blks => exact parseBlks [] blks
  | next => exact next
  | verified i => exact verified i
  | run i => exact run i
  | core ev => exact enter.trans (of_sub fun _ => id)

end Hears

end

end Base

-- ---------------------------------------------------------------------------
-- The stored blocks
-- ---------------------------------------------------------------------------

section
variable {S : Setup Hash Sig} {O : Options} {N : Peering Peer} {F : Faults S}

/-- A newly stored block came in a message, or is a proposal and delivered at once. -/
theorem Replica.Effect.stored {r : Replica Hash Sig} {e : Event Hash Sig} {s' : Core Hash Sig} {x : Hash}
    (h : CoreOk S r.core) (hs : Effect S O r e s') (hx : s'.isBlkFetched x = true) :
    r.core.isBlkFetched x = true ∨ (∃ w, e = .call (.addBlk w)) ∨ e = .call (.deliver x) ∨
      s'.delivered x = true := by
  cases hs with
  | quiet hq => exact .inl (fetched_of_storage hq.storage ▸ hx)
  | store hst hn hc =>
    rcases hst.fetched hx with hx | rfl
    · exact .inl hx
    · rcases hc with rfl | ⟨w, rfl⟩
      · exact .inr (.inr (.inl rfl))
      · exact .inr (.inl ⟨w, rfl⟩)
  | update hm hu hq =>
    have hdel := (hm.spec h).2.2.1
    rw [ran_fetched_eq (hm.spec h).1 hu hq] at hx
    rcases hm with ⟨rfl, hd⟩ | ⟨cmds, parents, extra, rfl, hp⟩
    · exact .inl hx
    · rcases hp.fetched hx with hx | rfl
      · exact .inl hx
      · have hok := (Replica.Mid.spec h (.inr ⟨cmds, parents, extra, rfl, hp⟩)).1
        exact .inr (.inr (.inr (ran_delivered_eq hok hu hq ▸ hdel)))
  | count hq _ hc =>
    refine .inl (fetched_of_storage hq.storage ▸ ?_)
    cases hc with
    | part hb => exact fetched_setBlk hb _ ▸ hx
    | full hb =>
      rw [fetched_of_storage storage_updateHqc, fetched_setBlk hb] at hx
      exact hx
  | miscount hq _ hc =>
    refine .inl (fetched_of_storage hq.storage ▸ ?_)
    cases hc with
    | intro hb => exact fetched_setBlk hb _ ▸ hx

/-- The certificates of the blocks that wait for delivery are authentic. -/
def Faults.Sourced (F : Faults S) (sys : System Hash Sig) (s : Core Hash Sig) : Prop :=
  ∀ x b, s.storage x = some b → s.delivered x = true ∨ F.Authentic sys b.qc

theorem Faults.Authentic.congr {sys : System Hash Sig} {q q' : QuorumCert Hash Sig}
    (h : q.serialize = q'.serialize) (ha : F.Authentic sys q) : F.Authentic sys q' := by
  intro r sig hs hr hv
  have hobj : q.objHash = q'.objHash := congrArg WireQC.objHash h
  rw [← hobj] at hv ⊢
  exact ha r sig (QuorumCert.mem_sigs_congr h.symm hs) hr hv

theorem Faults.Authentic.mono {sys sys' : System Hash Sig} {q : QuorumCert Hash Sig}
    (hm : ∀ x h, (sys x).Signed h → (sys' x).Signed h) (ha : F.Authentic sys q) :
    F.Authentic sys' q :=
  fun r sig hs hr hv => hm r _ (ha r sig hs hr hv)

theorem Faults.Sourced.mono {sys sys' : System Hash Sig} {s : Core Hash Sig}
    (hm : ∀ x h, (sys x).Signed h → (sys' x).Signed h) (hs : F.Sourced sys s) : F.Sourced sys' s :=
  fun x b hb => (hs x b hb).imp_right (·.mono hm)

theorem Faults.Sourced.step {sys : System Hash Sig} {w : Watched Hash Sig} {ev : Event Hash Sig}
    (hs : F.Sourced sys w.replica.core) (hw : w.Ok S) (hd : w.Disciplined S ev)
    (hadd : ∀ b, ev = .call (.addBlk b) → ∀ c, Block.unserialize b = some c → F.Authentic sys c.qc)
    (hdel : ∀ x, ev = .call (.deliver x) → w.replica.core.isBlkFetched x = true) :
    F.Sourced sys (w.step S O ev).replica.core := by
  have hs' := Replica.stepped (O := O) hw.core (hw.sound hd)
  have hok' : CoreOk S (w.step S O ev).replica.core := (hw.step hd).1.core
  have hkeeps : Keeps w.replica.core (w.step S O ev).replica.core := w.replica.step_keeps ev
  intro x b hb
  by_cases hg : x = S.genesis
  · exact .inl (hg ▸ hok'.store.delivered_genesis)
  have hwire := hok'.store.wire hb hg
  -- an old block has kept its content, a new one came with the message
  have hold (hx : w.replica.core.isBlkFetched x = true) :
      (w.step S O ev).replica.core.delivered x = true ∨ F.Authentic sys b.qc := by
    obtain ⟨b₀, hb₀⟩ := isBlkFetched_iff.mp hx
    have heq : b₀.wire = b.wire :=
      Option.some.inj ((hw.core.store.wire hb₀ hg).symm.trans hwire)
    exact (hs x b₀ hb₀).imp hkeeps.delivered (·.congr (congrArg WireBlock.qc heq))
  rcases (hs'.effect hw.core).stored hw.core (isBlkFetched_of hb) with hx | ⟨wb, rfl⟩ | rfl | hx
  · exact hold hx
  · rcases Watched.fetched_addBlk (O := O) (isBlkFetched_of hb) with hx | ⟨c, hc, rfl⟩
    · exact hold hx
    · have heq : c.wire = b.wire := Option.some.inj ((S.wireOf_hash c.wire).symm.trans hwire)
      exact .inr ((hadd wb rfl c hc).congr (congrArg WireBlock.qc heq))
  · exact hold (hdel x rfl)
  · exact .inl hx

/-- Nothing is delivered twice. -/
theorem Watched.step_deliver {w : Watched Hash Sig} {x : Hash}
    (hx : w.replica.core.delivered x = true) : w.step S O (.call (.deliver x)) = w := by
  obtain ⟨b, hb⟩ := exists_of_delivered hx
  have hrun : (Call.deliver x : Call Hash Sig).run S O w.replica.core = .ok [] w.replica.core := by
    have hcall : Core.onDeliverBlk x w.replica.core = .ok false w.replica.core := by
      simp only [Core.onDeliverBlk, bind, EStateM.bind, get, getThe, MonadStateOf.get, EStateM.get, hb,
        delivered_of hb ▸ hx, if_true, pure, EStateM.pure]
    simp only [Call.run, bind, EStateM.bind, hcall, pure, EStateM.pure]
  simp only [Watched.step, Watched.announce, Replica.step, Replica.runOn, hrun, List.nil_append]

-- ---------------------------------------------------------------------------
-- The invariant
-- ---------------------------------------------------------------------------

/-- What a continuation passes on is not the replica's own proposal, and no forged vote. -/
def Faults.Heard (F : Faults S) (sys : System Hash Sig) (r : ReplicaID) (c : Cont Hash Sig Peer) : Prop :=
  match c.act with
  | .propose prop => prop.proposer ≠ r
  | .vote v => c.found = true → F.Honest v.voter → (sys v.voter).Signed v.blkHash
  | _ => True

/-- What holds at every moment of a run. -/
structure NetSystem.Ok (S : Setup Hash Sig) (O : Options) (F : Faults S)
    (sys : NetSystem Hash Sig Peer) : Prop where
  safe : Safe S O F sys.below
  base : ∀ r, (sys r).Ok S
  sourced : ∀ r, F.Sourced sys.below (sys r).core
  heard : ∀ r, ∀ c ∈ (sys r).conts, F.Heard sys.below r c

theorem Faults.Heard.mono {sys sys' : System Hash Sig} {r : ReplicaID} {c : Cont Hash Sig Peer}
    (hm : ∀ x h, (sys x).Signed h → (sys' x).Signed h) (hc : F.Heard sys r c) : F.Heard sys' r c := by
  unfold Faults.Heard at hc ⊢
  cases hact : c.act with
  | vote v =>
    rw [hact] at hc
    exact fun hf hv => hm v.voter _ (hc hf hv)
  | propose prop => rwa [hact] at hc
  | start | deliver | respond => trivial

/-- What comes with a genuine message may be passed on. -/
theorem Faults.Genuine.heard {sys : System Hash Sig} {r : ReplicaID} {e : BaseEvent Hash Sig Peer}
    {c : Cont Hash Sig Peer} (hg : F.Genuine N sys r e) (hc : Base.Adds S N e c) : F.Heard sys r c := by
  unfold Base.Adds at hc
  unfold Faults.Heard
  cases hact : c.act with
  | propose prop =>
    rw [hact] at hc
    obtain ⟨w, rfl⟩ := hc
    rintro rfl
    exact hg.1 rfl
  | vote v =>
    rw [hact] at hc
    obtain ⟨⟨peer, rfl⟩, hv⟩ := hc
    exact fun hf => hg (hv.trans (congrArg Except.ok hf))
  | start | deliver | respond => trivial

section
variable {sys : NetSystem Hash Sig Peer} {r : ReplicaID} {e : BaseEvent Hash Sig Peer}
  {w : Watched Hash Sig} {ev : Event Hash Sig}

/-- The replicas below, with `w` in the place of `r`. -/
def NetSystem.put (sys : NetSystem Hash Sig Peer) (r : ReplicaID) (w : Watched Hash Sig) :
    System Hash Sig := Function.update sys.below r w.replica

theorem NetSystem.put_self : sys.put r (sys r).watched = sys.below :=
  Function.update_eq_self r sys.below

/-- A call that the step makes is one the system admits there, unless it delivers a
block a second time. -/
theorem NetSystem.Ok.admits (h : sys.Ok S O F) (he : F.AdmitsNet N sys (r, e))
    (hp : (sys r).Passes e w ev) :
    F.Admits (sys.put r w) (r, ev) ∨ w.step S O ev = w := by
  obtain ⟨hr, hadm, hgen⟩ := he
  rcases hp with ⟨b, -, rfl⟩ | ⟨rfl, hent⟩
  · exact .inl hr
  rw [put_self]
  cases e with
  | core ev' =>
    obtain rfl : ev' = ev := Option.some.inj hent
    cases ev' with
    | resume => exact .inl hr
    | call c =>
      cases c with
      | addBlk | deliver | receiveProposal | receiveVote => exact hadm.elim
      | asyncQcFinish | rejectPm => exact .inl hr
      | propose cmds parents extra =>
        refine .inl ⟨hr, fun p hp => ?_⟩
        obtain rfl : parents = (sys r).core.getParents := hadm.1
        rw [List.mem_singleton.mp hp]
        exact (h.base r).ok.tail.tail
  | run i =>
    obtain ⟨c, hc, hent⟩ := Option.bind_eq_some_iff.mp hent
    have hmem := List.mem_of_getElem? hc
    have hheard := h.heard r c hmem
    have hsound := (h.base r).conts c hmem
    unfold Faults.Heard at hheard
    split at hent
    case isFalse => cases hent
    case isTrue hdone =>
      unfold Cont.enters at hent
      cases hact : c.act with
      | start | respond => rw [hact] at hent; cases hent
      | deliver blk =>
        simp only [hact] at hent
        split at hent
        case isFalse => cases hent
        case isTrue hfound =>
          cases hent
          have hd := Base.Deliverable.of_cont hsound hdone hfound hact
          cases hdel : (sys r).core.delivered blk with
          | true => exact .inr (Watched.step_deliver hdel)
          | false =>
            refine .inl ⟨hr, fun b hb => ⟨hd.verified b ?_, ?_⟩⟩
            · exact (h.base r).ok.core.store.wire hb hd.ne_genesis
            · exact (h.sourced r blk b hb).resolve_left (by rw [hdel]; exact Bool.false_ne_true)
      | propose prop =>
        simp only [hact] at hent hheard
        cases hent
        exact .inl ⟨hr, hheard⟩
      | vote v =>
        simp only [hact] at hent hheard
        split at hent
        case isFalse => cases hent
        case isTrue hfound =>
          cases hent
          have hv := hsound.valid hfound
          rw [hact] at hv
          exact .inl ⟨hr, hv, hheard hfound⟩
  | propose | vote | reqBlk | respBlk | next | verified => cases hent

/-- The call of the step is not `add_blk`, and delivers what may be delivered. -/
theorem Base.Ok.entered {s : Base Hash Sig Peer} (h : s.Ok S) (he : s.Admits S e)
    (hent : s.enters e = some ev) :
    (∀ b, ev ≠ .call (.addBlk b)) ∧ ∀ x, ev = .call (.deliver x) → Base.Deliverable S s.core x := by
  cases e with
  | core ev' =>
    obtain rfl : ev' = ev := Option.some.inj hent
    refine ⟨fun b hb => ?_, fun x hx => ?_⟩
    · rw [hb] at he
      exact he
    · rw [hx] at he
      exact he.elim
  | run i =>
    obtain ⟨c, hc, hent⟩ := Option.bind_eq_some_iff.mp hent
    split at hent
    case isFalse => cases hent
    case isTrue hdone =>
      unfold Cont.enters at hent
      cases hact : c.act with
      | start | respond => rw [hact] at hent; cases hent
      | deliver blk =>
        simp only [hact] at hent
        split at hent
        case isFalse => cases hent
        case isTrue hfound =>
          cases hent
          refine ⟨fun _ => by simp, fun x hx => ?_⟩
          cases hx
          exact .of_cont (h.conts c (List.mem_of_getElem? hc)) hdone hfound hact
      | propose prop =>
        simp only [hact] at hent
        cases hent
        exact ⟨fun _ => by simp, fun _ => by simp⟩
      | vote v =>
        simp only [hact] at hent
        split at hent
        · cases hent
          exact ⟨fun _ => by simp, fun _ => by simp⟩
        · cases hent
  | propose | vote | reqBlk | respBlk | next | verified => cases hent

/-- What holds of the system below while `r` handles `e`. -/
structure NetSystem.Held (S : Setup Hash Sig) (O : Options) (F : Faults S) (sys : NetSystem Hash Sig Peer)
    (r : ReplicaID) (w : Watched Hash Sig) : Prop where
  safe : Safe S O F (sys.put r w)
  ok : w.Ok S
  sourced : F.Sourced (sys.put r w) w.replica.core
  signed : ∀ x h, (sys.below x).Signed h → (sys.put r w x).Signed h

theorem NetSystem.Held.step (h : sys.Ok S O F) (he : F.AdmitsNet N sys (r, e))
    (hf : O.build = .twoStep ∨ (sys r).Follows e) (hw : sys.Held S O F r w)
    (hd : w.Disciplined S ev) (hp : (sys r).Passes e w ev) : sys.Held S O F r (w.step S O ev) := by
  rcases h.admits (O := O) he hp with hadm | hidle
  case inr => rwa [hidle]
  have hself : sys.put r w r = w.replica := Function.update_self ..
  have hnext : sys.put r (w.step S O ev) = (sys.put r w).step S O (r, ev) := by
    unfold NetSystem.put System.step
    simp only [Function.update_self, Function.update_idem]
    rfl
  have hfollows : O.build = .twoStep ∨ (sys.put r w r).core.Follows ev := by
    refine hf.imp_right fun hf => ?_
    rcases hp with ⟨b, -, rfl⟩ | ⟨rfl, hent⟩
    · trivial
    · rw [hself]
      exact hf ev (Option.mem_def.mpr hent)
  have hsigned (x : ReplicaID) (b : Hash) (hx : (sys.put r w x).Signed b) :
      (sys.put r (w.step S O ev) x).Signed b := by
    rw [hnext]
    unfold System.step
    rw [hself]
    have hstepped := Replica.stepped (O := O) hw.ok.core (hw.ok.sound hd)
    exact hw.safe.signed_mono (by rw [hself]; exact hstepped) hx
  refine ⟨hnext ▸ hw.safe.step hadm hfollows, (hw.ok.step hd).1, .mono hsigned ?_,
    fun x b hx => hsigned x b (hw.signed x b hx)⟩
  refine hw.sourced.step hw.ok hd (fun b heq c hc => ?_) fun x heq => ?_
  · rcases hp with ⟨b', hb', rfl⟩ | ⟨-, hent⟩
    · cases heq
      have hgen := he.2.2
      cases e with
      | propose peer proposer wb =>
        obtain rfl : b = wb := List.mem_singleton.mp hb'
        exact (hgen.2 c hc).mono hw.signed
      | respBlk ws => exact (hgen b hb' c hc).mono hw.signed
      | vote | reqBlk | next | verified | run | core => cases hb'
    · exact absurd heq (((h.base r).entered he.2.1 hent).1 b)
  · rcases hp with ⟨b', -, rfl⟩ | ⟨rfl, hent⟩
    · cases heq
    · exact (((h.base r).entered he.2.1 hent).2 x heq).fetched

theorem NetSystem.Ok.step (h : sys.Ok S O F) (he : F.AdmitsNet N sys (r, e))
    (hf : O.build = .twoStep ∨ (sys r).Follows e) : (sys.step S O N (r, e)).Ok S O F := by
  obtain ⟨evs, hevs, hexec⟩ := (h.base r).runs (O := O) (N := N) he.2.1
  have hheld : sys.Held S O F r ((sys r).step S O N e).watched := by
    rw [hexec]
    refine hevs.inv (I := fun w => sys.Held S O F r w) ⟨?_, (h.base r).ok, ?_, fun x b hx => ?_⟩
      fun w ev hw hev => hw.step h he hf hev.1 hev.2
    · rw [put_self]
      exact h.safe
    · rw [put_self]
      exact h.sourced r
    · rwa [put_self]
  have hbelow : (sys.step S O N (r, e)).below = sys.put r ((sys r).step S O N e).watched := by
    funext x
    unfold NetSystem.below NetSystem.step NetSystem.put
    by_cases hx : x = r
    · subst hx
      simp only [Function.update_self]
    · simp only [Function.update_of_ne hx]
      rfl
  have hother {I : ReplicaID → Base Hash Sig Peer → Prop} (hr : I r ((sys r).step S O N e))
      (ho : ∀ x, I x (sys x)) (x : ReplicaID) : I x (sys.step S O N (r, e) x) := by
    unfold NetSystem.step
    by_cases hx : x = r
    · subst hx
      rwa [Function.update_self]
    · rw [Function.update_of_ne hx]
      exact ho x
  refine ⟨hbelow ▸ hheld.safe, hother (I := fun _ s => s.Ok S) ((h.base r).step he.2.1) h.base,
    hother (I := fun _ s => F.Sourced (sys.step S O N (r, e)).below s.core) ?_ ?_,
    hother (I := fun x s => ∀ c ∈ s.conts, F.Heard (sys.step S O N (r, e)).below x c) ?_ ?_⟩
  · rw [hbelow]
    exact hheld.sourced
  · rw [hbelow]
    exact fun x => (h.sourced x).mono hheld.signed
  · rw [hbelow]
    intro c hc
    refine Faults.Heard.mono hheld.signed ?_
    rcases Base.Hears.step (S := S) (O := O) (N := N) c hc with ⟨c₀, hc₀, hact, hfound⟩ | hadd
    · have hold := h.heard r c₀ hc₀
      unfold Faults.Heard at hold ⊢
      rwa [hact, hfound] at hold
    · exact he.2.2.heard hadd
  · rw [hbelow]
    exact fun x c hc => (h.heard x c hc).mono hheld.signed

theorem NetSystem.ok_init : (NetSystem.init S : NetSystem Hash Sig Peer).Ok S O F where
  safe := safe_init
  base _ := Base.ok_init
  sourced r x b hb := by
    left
    by_cases hg : x = S.genesis
    · have hok : (Core.init S r).CoreOk S := Core.coreOk_init
      exact hg ▸ hok.store.delivered_genesis
    · simp [NetSystem.init, Base.init, Base.core, Watched.init, Replica.init, Core.init,
        Function.update_apply, hg] at hb
  heard _ := by simp [NetSystem.init, Base.init]

end

end

/-- On a network that forges no signature of an honest replica, whatever it sends and
when, honest replicas agree: in the two-step build, and in the default one where each
proposal handled or made follows the chain of its replica. -/
theorem network_agreement (S : Setup Hash Sig) (O : Options) (N : Peering Peer) (F : Faults S)
    (es : List (ReplicaID × BaseEvent Hash Sig Peer))
    (h : Run.Allowed (NetSystem.step S O N) (fun sys e => F.AdmitsNet N sys e ∧
      (O.build = .twoStep ∨ (sys e.1).Follows e.2)) (NetSystem.init S) es) :
    let sys := Run.exec (NetSystem.step S O N) (NetSystem.init S) es
    (∀ r r', F.Honest r → F.Honest r' → Agree (sys r).watched.replica (sys r').watched.replica) ∧
      ∀ r, F.Honest r → .safetyBreached ∉ (sys r).watched.replica.thrown := by
  intro sys
  have hok : sys.Ok S O F :=
    h.inv NetSystem.ok_init fun sys e hs he => hs.step he.1 he.2
  exact ⟨fun _ _ => hok.safe.agree, hok.safe.breached⟩

/-- Block `h` of the chain comes from replica 3, is delivered and voted for. -/
def netFeed (h : Nat) : List (BaseEvent Nat TableSig Nat) :=
  (chain4[h - 1]?.toList.map fun w => .propose (some 3) 3 w) ++
    [.run 0, .verified 0, .verified 1, .run 0, .run 1, .next, .run 0, .core .resume, .core .resume,
      .core .resume]

/-- Replicas 0 and 1 of 4 get the blocks of the chain. -/
def netBoth : List (ReplicaID × BaseEvent Nat TableSig Nat) :=
  [1, 2, 3, 4].flatMap fun h => (netFeed h).map (0, ·) ++ (netFeed h).map (1, ·)

theorem network_agreement_netBoth :
    let S := tableSetup 4 chain4
    let O : Options := ⟨.threeStep, id⟩
    let sys := Run.exec (NetSystem.step S O tablePeers) (NetSystem.init S) netBoth
    decidedCmds (sys 0).core.out = [11] ∧ decidedCmds (sys 1).core.out = [11] ∧
      Agree (sys 0).watched.replica (sys 1).watched.replica := by
  intro S O sys
  have h : Run.Allowed (NetSystem.step S O tablePeers) (fun sys e =>
      Faults.AdmitsNet (S := S) ⟨{3}, by decide +kernel⟩ tablePeers sys e ∧
        (O.build = .twoStep ∨ (sys e.1).Follows e.2)) (NetSystem.init S) netBoth := by
    decide +kernel
  exact ⟨by decide +kernel, by decide +kernel,
    (network_agreement S O tablePeers _ netBoth h).1 0 1 (by decide +kernel) (by decide +kernel)⟩

end HotStuffTx
