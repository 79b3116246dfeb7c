import HotStuffTx.Tails
import HotStuffTx.Integrity

/-!
# Parent selection

One replica whose callers keep to the shape the pacemakers have: network calls
come from the event loop, `on_propose` is given `get_parents()` and is called
from the event loop or from a callback, and `async_qc_finish` waits for the
genesis block or for an own block whose proposal the pacemaker was told of.
`Watched` remembers the latter. The handler of `reg_proposal` overwrites
`hqc_tail` whatever happened since the block was built; that this does not lose
the block of `hqc` rests on a proposed block never being waited for already.
-/

set_option linter.unusedSectionVars false

namespace HotStuffTx

open Core Forest

variable {Hash Sig : Type} [DecidableEq Hash]

-- ---------------------------------------------------------------------------
-- The callers
-- ---------------------------------------------------------------------------

/-- A replica and the blocks its `on_propose_` handlers have been told of. -/
structure Watched (Hash Sig : Type) where
  replica : Replica Hash Sig
  announced : List Hash

namespace Watched

def init (S : Setup Hash Sig) (rid : ReplicaID) : Watched Hash Sig := ⟨.init S rid, []⟩

/-- The announced blocks after a step. -/
def announce (w : Watched Hash Sig) : Event Hash Sig → List Hash
  | .call _ => w.announced
  | .resume =>
    match w.replica.stack with
    | .propose_ prop :: _ => prop.blk :: w.announced
    | _ => w.announced

def step (S : Setup Hash Sig) (O : Options) (w : Watched Hash Sig) (e : Event Hash Sig) :
    Watched Hash Sig where
  replica := w.replica.step S O e
  announced := w.announce e

/-- Control is in the event loop, or in a callback of `on_qc_finish`, of `on_propose_` or of
`on_receive_proposal_` for the proposal of another replica. -/
def MayPropose (r : Replica Hash Sig) : Prop :=
  match r.stack with
  | [] | .qcErase _ :: _ | .broadcast _ :: _ => True
  | .vote prop _ :: _ => prop.proposer ≠ r.core.id
  | _ => False

/-- The call is one the network layer or the pacemaker makes. -/
def Disciplined (S : Setup Hash Sig) (w : Watched Hash Sig) : Event Hash Sig → Prop
  | .call (.propose _ parents _) => parents = w.replica.core.getParents ∧ MayPropose w.replica
  | .call (.asyncQcFinish blk) => blk = S.genesis ∨ blk ∈ w.announced
  | .call (.deliver blk) => w.replica.stack = [] ∧ ∀ b, w.replica.core.storage blk = some b →
      w.replica.core.isBlkFetched b.qc.objHash = true
  | .call (.addBlk _) | .call (.receiveProposal _) | .call (.receiveVote _) => w.replica.stack = []
  | .call (.rejectPm _) | .resume => True

instance (r : Replica Hash Sig) : Decidable (MayPropose r) := by
  unfold MayPropose
  split <;> infer_instance

instance (S : Setup Hash Sig) (w : Watched Hash Sig) (e : Event Hash Sig) :
    Decidable (w.Disciplined S e) :=
  match e with
  | .call (.propose _ parents _) =>
    inferInstanceAs (Decidable (parents = w.replica.core.getParents ∧ MayPropose w.replica))
  | .call (.asyncQcFinish blk) => inferInstanceAs (Decidable (blk = S.genesis ∨ blk ∈ w.announced))
  | .call (.deliver blk) => inferInstanceAs (Decidable (w.replica.stack = [] ∧
      ∀ b, w.replica.core.storage blk = some b →
        w.replica.core.isBlkFetched b.qc.objHash = true))
  | .call (.addBlk _) | .call (.receiveProposal _) | .call (.receiveVote _) =>
    inferInstanceAs (Decidable (w.replica.stack = []))
  | .call (.rejectPm _) | .resume => instDecidableTrue

end Watched

-- ---------------------------------------------------------------------------
-- Announced blocks
-- ---------------------------------------------------------------------------

namespace Core

/-- `x` was proposed on a lower `hqc` than there is now, or is no higher than `a`. -/
def Outgrown (S : Setup Hash Sig) (s : Core Hash Sig) (a x : Hash) : Prop :=
  ∃ t, S.target x = some t ∧ s.delivered t = true ∧ s.height t ≤ s.height s.hqc.1 ∧
    (s.height t < s.height s.hqc.1 ∨ s.height x ≤ s.height a)

/-- What has been announced was proposed before, and only that is waited for. -/
structure Settled (S : Setup Hash Sig) (s : Core Hash Sig) (announced : List Hash) : Prop where
  outgrown : ∀ x ∈ announced, x ≠ S.genesis ∧ s.delivered x = true ∧ Outgrown S s s.hqcTail x
  waiting : ∀ x p, (x, p) ∈ s.qcWaiting → x = S.genesis ∨ x ∈ announced

/-- A proposed block the pacemaker has not been told of yet. -/
structure Launched (S : Setup Hash Sig) (s : Core Hash Sig) (announced : List Hash) (a : Hash) :
    Prop where
  ne : a ≠ S.genesis
  delivered : s.delivered a = true
  ext : S.Ext s.hqc.1 a
  fresh : a ∉ announced
  self : Outgrown S s a a
  outgrown : ∀ x ∈ announced, Outgrown S s a x

end Core

section
variable {S : Setup Hash Sig} {O : Options} {s s' : Core Hash Sig} {r r' : Replica Hash Sig}
  {announced : List Hash}

theorem Core.Outgrown.mono (hx : Outgrown S s a x) (hd : s.delivered x = true)
    (hh : ∀ y, s.delivered y = true → s'.delivered y = true ∧ s'.height y = s.height y)
    (hq : s.delivered s.hqc.1 = true)
    (hle : s'.hqc.1 = s.hqc.1 ∧ s.height a ≤ s'.height a' ∨
      s.height s.hqc.1 < s'.height s'.hqc.1) : Outgrown S s' a' x := by
  obtain ⟨t, ht, htd, hle', hlt⟩ := hx
  have htk := (hh t htd).2
  have hxk := (hh x hd).2
  have hqk := (hh _ hq).2
  refine ⟨t, ht, (hh t htd).1, ?_⟩
  rcases hle with ⟨heq, hle⟩ | hle
  · rw [heq]
    omega
  · omega

namespace Core

variable (ht : TailOk S s) (hok : CoreOk S s)
include ht hok

theorem Settled.moves (h : Settled S s announced) (hm : Moves S s s') : Settled S s' announced where
  outgrown x hx := by
    obtain ⟨hne, hd, hout⟩ := h.outgrown x hx
    exact ⟨hne, (hm.grow x hd).1, hout.mono hd hm.grow (ht.delivered_hqc hok) hm.hqc⟩
  waiting x p hx := h.waiting x p (hm.waiting _ hx)

theorem Launched.moves (h : Launched S s announced a) (hs : Settled S s announced)
    (hm : Moves S s s') (hq : s'.hqc.1 = s.hqc.1 ∨ s'.hqc.1 = a) : Launched S s' announced a := by
  have hda := hm.grow a h.delivered
  have hle : s'.hqc.1 = s.hqc.1 ∧ s.height a ≤ s'.height a ∨
      s.height s.hqc.1 < s'.height s'.hqc.1 :=
    hm.hqc.imp_left fun hq => ⟨hq.1, Nat.le_of_eq hda.2.symm⟩
  have hhqc := ht.delivered_hqc hok
  refine ⟨h.ne, hda.1, ?_, h.fresh, h.self.mono h.delivered hm.grow hhqc hle, fun x hx => ?_⟩
  · rcases hq with hq | hq
    · exact hq ▸ h.ext
    · exact hq ▸ .refl
  · exact (h.outgrown x hx).mono (hs.outgrown x hx).2.1 hm.grow hhqc hle

/-- A proposed block has not been announced: what was announced under the same
`hqc` is lower. -/
theorem Settled.launched {cmds parents : List Hash} {extra : List UInt8}
    (h : Settled S s announced) (hp : Proposed S s cmds parents extra n s')
    (hparents : parents = s.getParents) : Launched S s' announced n := by
  have hm := ht.proposed hok hp
  obtain ⟨hok', -⟩ := hok.stores (hp.stores hok.store)
  have hq : s'.hqc = s.hqc := (hp.stores hok.store).hqc
  have hhqc := ht.delivered_hqc hok
  have htarget := hp.target_eq hok
  have hpar : S.par n = some s.hqcTail := by
    obtain ⟨p, hhead, hpar⟩ := hp.par_eq
    rw [hparents] at hhead
    cases hhead
    exact hpar
  have hk : s'.height n = s.height s.hqcTail + 1 := by
    have htk := hok.store.height (hok.store.placed_of_delivered ht.tail)
    exact hok'.store.height_eq (hok'.store.placed_of_delivered hp.delivered_self) (.succ hpar htk)
  have hself : Outgrown S s' n n :=
    ⟨_, htarget, (hm.grow _ hhqc).1, Nat.le_of_eq (by rw [hq]), .inr (Nat.le_refl _)⟩
  refine ⟨hp.ne_genesis, hp.delivered_self, ?_, fun hn => ?_, hself, fun x hx => ?_⟩
  · rw [hq]
    exact .step hpar ht.ext
  · obtain ⟨-, hd, t, ht', -, -, hlt⟩ := h.outgrown n hn
    cases htarget.symm.trans ht'
    have := (hm.grow n hd).2
    omega
  · obtain ⟨-, hd, hout⟩ := h.outgrown x hx
    exact hout.mono hd hm.grow hhqc (.inl ⟨by rw [hq], by omega⟩)

end Core

-- ---------------------------------------------------------------------------
-- The control stack
-- ---------------------------------------------------------------------------

def Frame.isPropose_ : Frame Hash → Bool
  | .propose_ _ => true
  | _ => false

/-- What stands above the `propose_` frame of an own proposal until it runs. -/
inductive Above (prop : Proposal Hash) : List (Frame Hash) → Prop
  | receive (op : Bool) : Above prop [.receiveProposal_ prop op]
  | vote (op : Bool) : Above prop [.vote prop op]
  | finish : Above prop [.qcFinish prop.blk]
  | done : Above prop []

/-- Only the proposal that is being made is on the stack, on its top. -/
inductive StackOk (S : Setup Hash Sig) (s : Core Hash Sig) (announced : List Hash) :
    List (Frame Hash) → Prop
  | idle (h : ∀ f ∈ st, f.isPropose_ = false) : StackOk S s announced st
  | busy (ha : Above prop above) (hp : prop.proposer = s.id) (hl : Launched S s announced prop.blk)
      (h : ∀ f ∈ rest, f.isPropose_ = false) : StackOk S s announced (above ++ .propose_ prop :: rest)

theorem StackOk.moves (h : StackOk S s announced st) (ht : TailOk S s) (hok : CoreOk S s)
    (hs : Settled S s announced) (hm : Moves S s s') (hid : s'.id = s.id) (hq : s'.hqc.1 = s.hqc.1) :
    StackOk S s' announced st := by
  cases h with
  | idle h => exact .idle h
  | busy ha hp hl h => exact .busy ha (hp.trans hid.symm) (hl.moves ht hok hs hm (.inl hq)) h

-- ---------------------------------------------------------------------------
-- One step
-- ---------------------------------------------------------------------------

/-- `on_propose` does not move `hqc`: its block certifies the block of `hqc`. -/
theorem Core.proposed_hqc (hok : CoreOk S s) (hn : S.target n = some s.hqc.1)
    (hu : Updated build s n s₂ ∨ Refused build s n e s₂) (hc : Chooses S s s₂) :
    s₂.hqc.1 = s.hqc.1 := by
  rcases hc.hqc with ⟨hq, -⟩ | ⟨hlt, -⟩
  · exact hq
  · rcases ran_spec hok hu .refl with ⟨hsame, -⟩ | ⟨b, t, hr⟩
    · rw [hsame.hqc]
    · rcases hr.hqc_cases with heq | heq
      · rw [heq]
      · cases hn.symm.trans hr.target
        rw [heq]

section
variable (ht : TailOk S s) (hok : CoreOk S s)
include ht hok

theorem Core.moves_updated (hu : Updated build s n s') : Moves S s s' :=
  ht.chooses (.updated hok ht.tails hu)

/-- What `on_propose` leaves, whether it returns or throws. -/
theorem Core.moves_proposed {cmds parents : List Hash} {extra : List UInt8}
    (hp : Proposed S s cmds parents extra n s₁)
    (hu : Updated build s₁ n s₂ ∨ Refused build s₁ n e s₂) (hs : Chooses S s₂ s')
    (hq : s'.hqc = s₂.hqc) : Moves S s s' ∧ Moves S s₁ s' ∧ s'.hqc.1 = s₁.hqc.1 := by
  have hm₁ := ht.proposed hok hp
  obtain ⟨hok₁, -⟩ := hok.stores (hp.stores hok.store)
  have hq₁ : s₁.hqc = s.hqc := (hp.stores hok.store).hqc
  have hc : Chooses S s₁ s₂ := by
    rcases hu with hu | hr
    · exact .updated hok₁ hm₁.tail.tails hu
    · exact .refused hok₁ hm₁.tail.tails hr
  have hm := hm₁.tail.chooses (hc.trans hs)
  refine ⟨hm₁.trans hm (ht.delivered_hqc hok) (by rw [hq₁]), hm, ?_⟩
  rw [hq]
  exact proposed_hqc hok₁ (hq₁ ▸ hp.target_eq hok) hu hc

/-- A call other than `on_propose` and `async_qc_finish`. -/
theorem Replica.moves_call {c : Call Hash Sig} {w : Watched Hash Sig} (hw : w.replica.core = s)
    (he : w.Disciplined S (.call c)) (hp : c.Post S O s fs s')
    (hc : (∀ cmds parents extra, c ≠ .propose cmds parents extra) ∧ ∀ blk, c ≠ .asyncQcFinish blk) :
    Moves S s s' := by
  subst hw
  cases c with
  | addBlk b =>
    obtain ⟨-, n, hst, hd, hk⟩ := hp
    exact ht.storeStep hok hst (.inl ⟨hk, hd⟩)
  | deliver blk => exact ht.storeStep hok hp.2 (.inr he.2)
  | propose cmds parents extra => exact absurd rfl (hc.1 cmds parents extra)
  | receiveProposal prop =>
    cases hp with
    | own _ hj => exact ht.chooses (.judged hj)
    | other _ _ hu hj => exact ht.chooses ((Chooses.updated hok ht.tails hu).trans (.judged hj))
  | receiveVote v =>
    rcases hp with ⟨-, rfl⟩ | hp
    · exact ht.chooses .refl
    · exact ht.chooses (.counted hok ht.tails hp)
  | asyncQcFinish blk => exact absurd rfl (hc.2 blk)
  | rejectPm pm =>
    obtain ⟨-, rfl⟩ := hp
    exact ht.chooses .settlePm

theorem Replica.moves_thrown {c : Call Hash Sig} {w : Watched Hash Sig} (hw : w.replica.core = s)
    (he : w.Disciplined S (.call c)) (hp : c.Thrown S O s e s') : Moves S s s' := by
  subst hw
  cases c with
  | addBlk b => exact hp.elim
  | deliver blk => exact ht.storeStep hok hp.2 (.inr he.2)
  | propose cmds parents extra =>
    rcases hp with ⟨-, rfl⟩ | ⟨n, s₁, hprop, hr | ⟨-, hu⟩⟩
    · exact ht.chooses .refl
    · exact (moves_proposed ht hok hprop (.inr hr) .refl rfl).1
    · exact (moves_proposed ht hok hprop (.inl hu) (e := .notHigher) .refl rfl).1
  | receiveProposal prop =>
    obtain ⟨-, ⟨-, rfl⟩ | ⟨-, hr⟩⟩ := hp
    · exact ht.chooses .refl
    · exact ht.chooses (.refused hok ht.tails hr)
  | receiveVote v =>
    rcases hp with ⟨-, rfl⟩ | hp
    · exact ht.chooses .refl
    · exact ht.chooses (.miscounted hp)
  | asyncQcFinish blk => exact hp.elim
  | rejectPm pm => exact hp.elim

/-- A frame other than that of `on_propose_`. -/
theorem Frame.moves {f : Frame Hash} (hp : f.Post S s fs s') (hf : f.isPropose_ = false) :
    Moves S s s' := by
  cases f with
  | qcFinish blk =>
    rcases hp with ⟨-, -, rfl⟩ | ⟨p, -, -, rfl⟩
    · exact ht.chooses .refl
    · exact ht.chooses .settlePm
  | qcErase blk =>
    obtain ⟨-, rfl⟩ := hp
    have hm := ht.chooses (.refl (s := s))
    exact ⟨⟨ht.placed, ht.tail, ht.ext, ht.tails, ht.covers⟩, hm.grow, hm.hqc,
      .inl rfl, fun x hx => List.mem_of_mem_filter hx⟩
  | receiveProposal_ prop op =>
    obtain ⟨-, rfl⟩ := hp
    exact ht.tailReceived hok
  | vote prop op =>
    rcases hp with ⟨-, rfl⟩ | ⟨-, ⟨-, rfl⟩ | hp⟩
    · exact ht.chooses .refl
    · exact ht.chooses .sent
    · have hc := Chooses.counted (CoreOk.sent prop.proposer prop.blk hok).1 ht.tails hp
      exact ht.chooses (Chooses.sent.trans hc)
  | propose_ prop => cases hf
  | broadcast prop =>
    obtain ⟨-, rfl⟩ := hp
    exact ht.chooses (.of_eq rfl rfl rfl rfl rfl)

theorem Frame.moves_thrown {f : Frame Hash} (hp : f.Thrown S s e s') : Moves S s s' := by
  cases f with
  | vote prop op =>
    obtain ⟨-, ⟨-, rfl⟩ | hp⟩ := hp
    · exact ht.chooses .sent
    · exact ht.chooses (Chooses.sent.trans (.miscounted hp))
  | _ => exact hp.elim

end

-- ---------------------------------------------------------------------------
-- Every run
-- ---------------------------------------------------------------------------

structure Watched.Ok (S : Setup Hash Sig) (w : Watched Hash Sig) : Prop where
  core : CoreOk S w.replica.core
  tail : TailOk S w.replica.core
  settled : Settled S w.replica.core w.announced
  stack : StackOk S w.replica.core w.announced w.replica.stack

/-- No own proposal is being made where the next one may start. -/
theorem StackOk.of_mayPropose (h : StackOk S r.core announced r.stack) (hm : Watched.MayPropose r) :
    ∀ f ∈ r.stack, f.isPropose_ = false := by
  generalize hst : r.stack = st at h
  cases h with
  | idle h => exact h
  | busy ha hp =>
    unfold Watched.MayPropose at hm
    cases ha with
    | receive => simp [hst] at hm
    | vote => simp [hst, hp] at hm
    | finish => simp [hst] at hm
    | done => simp [hst] at hm

/-- Frames that hold no proposal. -/
theorem not_isPropose_ {fs : List (Frame Hash)} (h : ∀ f ∈ fs, ∀ x, f.proposes ≠ some x) :
    ∀ f ∈ fs, f.isPropose_ = false := by
  intro f hf
  cases f with
  | propose_ prop => exact absurd rfl (h _ hf prop.blk)
  | _ => rfl

theorem Frame.Post.not_isPropose_ {f : Frame Hash} (hp : f.Post S s fs s') :
    ∀ g ∈ fs, g.isPropose_ = false := by
  cases f with
  | qcFinish blk => rcases hp with ⟨-, rfl, -⟩ | ⟨p, -, rfl, -⟩ <;> simp [isPropose_]
  | vote prop op =>
    rcases hp with ⟨rfl, -⟩ | ⟨-, ⟨rfl, -⟩ | hp⟩
    · simp
    · simp
    · cases hp <;> simp [isPropose_]
  | _ =>
    obtain ⟨rfl, -⟩ := hp
    simp [isPropose_]

namespace Watched.Ok

variable {w : Watched Hash Sig} (h : w.Ok S)
include h

theorem sound (he : w.Disciplined S e) : w.replica.Sound e := by
  cases e with
  | resume => trivial
  | call c =>
    cases c with
    | propose cmds parents extra =>
      obtain ⟨rfl, -⟩ := he
      intro p hp
      rw [List.mem_singleton.mp hp]
      exact h.tail.tail
    | _ => trivial

theorem call {c : Call Hash Sig} (he : w.Disciplined S (.call c))
    (hp : c.Post S O w.replica.core fs s') :
    Ok S ⟨⟨s', fs ++ w.replica.stack, l⟩, w.announced⟩ ∧
      (s'.hqc.1 = w.replica.core.hqc.1 ∨ Best S s') := by
  have hok' := (hp.coreOk h.core).1
  have hid := (hp.coreOk h.core).2.id
  -- a call from the event loop
  have hloop (hst : w.replica.stack = []) (hc : (∀ cmds parents extra, c ≠ .propose cmds parents extra) ∧
      ∀ blk, c ≠ .asyncQcFinish blk) : Ok S ⟨⟨s', fs ++ w.replica.stack, l⟩, w.announced⟩ ∧
      (s'.hqc.1 = w.replica.core.hqc.1 ∨ Best S s') := by
    have hm := Replica.moves_call h.tail h.core rfl he hp hc
    refine ⟨⟨hok', hm.tail, h.settled.moves h.tail h.core hm, .idle (not_isPropose_ fun f hf x hx => ?_)⟩,
      hm.best⟩
    rw [hst, List.append_nil] at hf
    obtain ⟨-, _, _, _, _, heq, -⟩ := Replica.call_proposes h.core hp hf hx
    exact hc.1 _ _ _ heq
  cases c with
  | addBlk b => exact hloop he ⟨nofun, nofun⟩
  | deliver blk => exact hloop he.1 ⟨nofun, nofun⟩
  | receiveProposal prop => exact hloop he ⟨nofun, nofun⟩
  | receiveVote v => exact hloop he ⟨nofun, nofun⟩
  | propose cmds parents extra =>
    obtain ⟨n, s₁, s₂, op, hprop, hu, -, hj, rfl⟩ := hp
    obtain ⟨hparents, hmay⟩ := he
    have hq : s'.hqc = s₂.hqc := hj.sameChain.hqc
    obtain ⟨hm, hm₁, hq₁⟩ := moves_proposed (e := .notHigher) h.tail h.core hprop (.inl hu) (.judged hj) hq
    have hst := hprop.stores h.core.store
    have hlaunched := h.settled.launched h.tail h.core hprop hparents
    have hok₁ := (h.core.stores hst).1
    have hmove := h.tail.proposed h.core hprop
    have hsettled₁ := h.settled.moves h.tail h.core hmove
    refine ⟨⟨hok', hm.tail, h.settled.moves h.tail h.core hm, ?_⟩, hm.best⟩
    exact .busy (.receive op) hid.symm (hlaunched.moves hmove.tail hok₁ hsettled₁ hm₁ (.inl hq₁))
      (h.stack.of_mayPropose hmay)
  | asyncQcFinish blk =>
    obtain ⟨rfl, pms, rfl | rfl⟩ := hp
    · have hm : Moves S w.replica.core { w.replica.core with pms := pms } :=
        h.tail.chooses (.of_eq rfl rfl rfl rfl rfl)
      exact ⟨⟨hok', hm.tail, h.settled.moves h.tail h.core hm,
        h.stack.moves h.tail h.core h.settled hm rfl rfl⟩, hm.best⟩
    · have ht := h.tail
      refine ⟨⟨hok', ⟨ht.placed, ht.tail, ht.ext, ht.tails, ht.covers⟩,
        ⟨h.settled.outgrown, fun x p hx => ?_⟩, ?_⟩, .inl rfl⟩
      · rcases List.mem_cons.mp hx with hx | hx
        · cases hx
          exact he
        · exact h.settled.waiting x p hx
      · generalize hst : w.replica.stack = st
        cases hst ▸ h.stack with
        | idle h => exact .idle h
        | busy ha hp hl h =>
          exact .busy ha hp ⟨hl.ne, hl.delivered, hl.ext, hl.fresh, hl.self, hl.outgrown⟩ h
  | rejectPm pm =>
    obtain ⟨rfl, rfl⟩ := hp
    have hm : Moves S w.replica.core (w.replica.core.settlePm pm .rejected) :=
      h.tail.chooses .settlePm
    have hq : (w.replica.core.settlePm pm .rejected).hqc = w.replica.core.hqc :=
      SameChain.settlePm.hqc
    exact ⟨⟨hok', hm.tail, h.settled.moves h.tail h.core hm,
      h.stack.moves h.tail h.core h.settled hm hid (by rw [hq])⟩, hm.best⟩

theorem threw {c : Call Hash Sig} (he : w.Disciplined S (.call c))
    (hp : c.Thrown S O w.replica.core e s') : Ok S ⟨⟨s', [], l⟩, w.announced⟩ ∧
      (s'.hqc.1 = w.replica.core.hqc.1 ∨ Best S s') := by
  have hm := Replica.moves_thrown h.tail h.core rfl he hp
  exact ⟨⟨(hp.coreOk h.core).1, hm.tail, h.settled.moves h.tail h.core hm, .idle (by simp)⟩, hm.best⟩

/-- A frame that is not of the proposal being made. -/
theorem frame_idle {f : Frame Hash} (hst : w.replica.stack = f :: rest)
    (hidle : ∀ g ∈ w.replica.stack, g.isPropose_ = false) (hp : f.Post S w.replica.core fs s') :
    Ok S ⟨⟨s', fs ++ rest, l⟩, w.announced⟩ ∧ (s'.hqc.1 = w.replica.core.hqc.1 ∨ Best S s') := by
  have hm := Frame.moves h.tail h.core hp (hidle f (by simp [hst]))
  refine ⟨⟨(hp.coreOk h.core).1, hm.tail, h.settled.moves h.tail h.core hm, .idle fun g hg => ?_⟩, hm.best⟩
  rcases List.mem_append.mp hg with hg | hg
  · exact hp.not_isPropose_ g hg
  · exact hidle g (by simp [hst, hg])

/-- The next frame of the proposal being made. -/
theorem frame_busy {f : Frame Hash} {above} (hst : above ++ .propose_ prop :: below = f :: rest)
    (ha : Above prop above) (hid : prop.proposer = w.replica.core.id)
    (hl : Launched S w.replica.core w.announced prop.blk) (hbelow : ∀ g ∈ below, g.isPropose_ = false)
    (hf : f.isPropose_ = false) (hp : f.Post S w.replica.core fs s') :
    Ok S ⟨⟨s', fs ++ rest, l⟩, w.announced⟩ ∧ (s'.hqc.1 = w.replica.core.hqc.1 ∨ Best S s') := by
  have hm := Frame.moves h.tail h.core hp hf
  have hid' := (hp.coreOk h.core).2.id
  have hok {above} (ha : Above prop above)
      (hq : s'.hqc.1 = w.replica.core.hqc.1 ∨ s'.hqc.1 = prop.blk) :
      Ok S ⟨⟨s', above ++ .propose_ prop :: below, l⟩, w.announced⟩ ∧
        (s'.hqc.1 = w.replica.core.hqc.1 ∨ Best S s') :=
    ⟨⟨(hp.coreOk h.core).1, hm.tail, h.settled.moves h.tail h.core hm, .busy ha (hid.trans hid'.symm)
      (hl.moves h.tail h.core h.settled hm hq) hbelow⟩, hm.best⟩
  cases ha with
  | receive op =>
    cases hst
    obtain ⟨rfl, rfl⟩ := hp
    refine hok (.vote op) (.inl ?_)
    rw [SameChain.tailReceived.hqc]
  | vote op =>
    cases hst
    rcases hp with ⟨rfl, rfl⟩ | ⟨-, ⟨rfl, rfl⟩ | hp⟩
    · exact hok .done (.inl rfl)
    · exact hok .done (.inl rfl)
    · have hq : s'.hqc.1 = w.replica.core.hqc.1 ∨ s'.hqc.1 = prop.blk := by
        rcases hp.rest.2.2 with hq | ⟨q, hq, -⟩
        · exact .inl (by rw [hq]; rfl)
        · exact .inr (by rw [hq]; rfl)
      generalize hv : w.replica.core.castVote S prop.blk = v at hp
      have hblk : v.blkHash = prop.blk := by rw [← hv]; rfl
      cases hp with
      | part => exact hok .done hq
      | full => exact hok (hblk ▸ .finish) hq
  | finish =>
    cases hst
    rcases hp with ⟨-, rfl, rfl⟩ | ⟨p, hwait, -, -⟩
    · exact hok .done (.inl rfl)
    · -- nobody waits for a block that has not been announced
      obtain ⟨l₁, l₂, heq, -⟩ := List.lookup_eq_some_iff.mp hwait
      rcases h.settled.waiting _ p (heq ▸ List.mem_append_right _ List.mem_cons_self) with hg | hann
      · exact absurd hg hl.ne
      · exact absurd hann hl.fresh
  | done =>
    cases hst
    cases hf

/-- The handler of `reg_proposal`. -/
theorem announce {below : List (Frame Hash)} (hl : Launched S w.replica.core w.announced prop.blk)
    (hbelow : ∀ g ∈ below, g.isPropose_ = false) :
    Ok S ⟨⟨w.replica.core.tailProposed prop.blk, [.broadcast prop] ++ below, l⟩,
      prop.blk :: w.announced⟩ := by
  have ht := h.tail
  have hst : Stores S w.replica.core (w.replica.core.tailProposed prop.blk) :=
    .of_storage h.core.store rfl rfl
  refine ⟨(h.core.stores hst).1, ⟨ht.placed, hl.delivered, hl.ext, ht.tails, ht.covers⟩, ⟨fun x hx => ?_,
    fun x p hx => ?_⟩, .idle fun g hg => ?_⟩
  · rcases List.mem_cons.mp hx with rfl | hx
    · exact ⟨hl.ne, hl.delivered, hl.self⟩
    · exact ⟨(h.settled.outgrown x hx).1, (h.settled.outgrown x hx).2.1, hl.outgrown x hx⟩
  · exact (h.settled.waiting x p hx).imp_right (List.mem_cons_of_mem _)
  · rcases List.mem_cons.mp hg with rfl | hg
    · rfl
    · exact hbelow g hg

theorem frame {f : Frame Hash} (hst : w.replica.stack = f :: rest)
    (hp : f.Post S w.replica.core fs s') : Ok S ⟨⟨s', fs ++ rest, l⟩, w.announce .resume⟩ ∧
      (s'.hqc.1 = w.replica.core.hqc.1 ∨ Best S s') := by
  by_cases hf : f.isPropose_ = false
  · have hann : w.announce .resume = w.announced := by
      simp only [Watched.announce, hst]
      cases f with
      | propose_ => cases hf
      | _ => rfl
    rw [hann]
    generalize hst' : w.replica.stack = st at hst
    cases hst' ▸ h.stack with
    | idle hidle => exact h.frame_idle (hst'.trans hst) (hst' ▸ hidle) hp
    | busy ha hid hl hbelow => exact h.frame_busy hst ha hid hl hbelow hf hp
  · cases f with
    | propose_ prop =>
      have hann : w.announce .resume = prop.blk :: w.announced := by
        simp only [Watched.announce, hst]
      rw [hann]
      generalize hst' : w.replica.stack = st at hst
      cases hst' ▸ h.stack with
      | idle hidle => exact absurd (hidle (.propose_ prop) (by simp [hst])) hf
      | busy ha hid hl hbelow =>
        cases ha <;> cases hst
        obtain ⟨rfl, rfl⟩ := hp
        exact ⟨h.announce hl hbelow, .inl rfl⟩
    | _ => exact absurd rfl hf

theorem step (he : w.Disciplined S e) : (w.step S O e).Ok S ∧
    ((w.step S O e).replica.core.hqc.1 = w.replica.core.hqc.1 ∨
      Best S (w.step S O e).replica.core) := by
  have hs := Replica.stepped (O := O) h.core (h.sound he)
  unfold Watched.step
  generalize w.replica.step S O e = r' at hs
  cases hs with
  | call hp => exact h.call he hp
  | callThrew hp => exact h.threw he hp
  | idle hst =>
    have hann : w.announce .resume = w.announced := by simp only [Watched.announce, hst]
    rw [hann]
    exact ⟨h, .inl rfl⟩
  | frame hst hp => exact h.frame hst hp
  | @frameThrew f rest e s' hst hp =>
    have hm := Frame.moves_thrown h.tail h.core hp
    have hann : w.announce .resume = w.announced := by
      simp only [Watched.announce, hst]
      cases f with
      | propose_ => exact hp.elim
      | _ => rfl
    rw [hann]
    exact ⟨⟨(hp.coreOk h.core).1, hm.tail, h.settled.moves h.tail h.core hm, .idle (by simp)⟩, hm.best⟩

/-- A proposal extends the block its certificate names. -/
theorem proposal (he : w.Disciplined S e)
    (hold : ∀ x, w.replica.Proposes x → ∃ t, S.target x = some t ∧ S.Ext t x)
    (hx : (w.step S O e).replica.Proposes x) : ∃ t, S.target x = some t ∧ S.Ext t x := by
  have hs := Replica.stepped (O := O) h.core (h.sound he)
  rcases hs.proposes h.core hx with hx | ⟨-, cmds, parents, extra, s₁, rfl, hp⟩
  · exact hold x hx
  · obtain ⟨p, hhead, hpar⟩ := hp.par_eq
    obtain ⟨rfl, -⟩ := he
    cases hhead
    exact ⟨_, hp.target_eq h.core, .step hpar h.tail.ext⟩

/-- After a move of `hqc`, `hqc_tail` is as high as any block above it. -/
theorem highest (hb : Best S w.replica.core)
    (hsingle : ∀ x b, x ≠ S.genesis → w.replica.core.storage x = some b → b.delivered = true →
      b.parentHashes.length = 1) (hd : w.replica.core.delivered x = true)
    (hx : S.Ext w.replica.core.hqc.1 x) :
    w.replica.core.height x ≤ w.replica.core.height w.replica.core.hqcTail := by
  have hplaced {y} (hy : w.replica.core.delivered y = true) :=
    h.core.store.height (h.core.store.placed_of_delivered hy)
  have hone (y) (hy : y ≠ S.genesis) (hyd : w.replica.core.delivered y = true) : S.Single y := by
    intro v hv
    obtain ⟨b, hb⟩ := exists_of_delivered hyd
    cases (h.core.store.wire hb hy).symm.trans hv
    exact hsingle y b hy hb ((delivered_of hb).symm.trans hyd)
  obtain ⟨t, ht, hext⟩ := h.tail.covers hone x hd
  have := hext.height_le S.par_genesis (hplaced hd) (hplaced (h.tail.tails t ht))
  exact Nat.le_trans this (hb.max t ht (hx.trans hext))

end Watched.Ok

theorem Watched.ok_init {rid : ReplicaID} : (Watched.init S rid).Ok S := by
  have hst {x} : (Core.init S rid).height x = 0 := by
    simp only [Core.height, Core.init, Function.update_apply]
    split <;> rfl
  have hdel {x} : (Core.init S rid).delivered x = true → x = S.genesis := by
    simp only [Core.delivered, Core.init, Function.update_apply]
    split <;> simp_all
  have hg : (Core.init S rid).delivered S.genesis = true := coreOk_init.store.delivered_genesis
  refine ⟨coreOk_init, ⟨fun {x} hx => ?_, hg, .refl, fun t ht => ?_, fun _ x hx => ?_⟩,
    ⟨fun x hx => ?_, fun x p hx => ?_⟩, .idle fun f hf => ?_⟩
  · have hx : 0 < (Core.init S rid).height x := hx
    simp [hst] at hx
  · rw [List.mem_singleton.mp ht]
    exact hg
  · exact ⟨S.genesis, List.mem_singleton_self _, hdel hx ▸ .refl⟩
  · cases hx
  · cases hx
  · cases hf

end

/-- `get_parents()` is a delivered block that extends the block of `hqc`, own
proposals extend the blocks their certificates name, and where blocks have one
parent the parent chosen at a move of `hqc` is a highest one. -/
theorem high_tail_parents (S : Setup Hash Sig) (O : Options) (rid : ReplicaID)
    (es : List (Event Hash Sig))
    (h : Run.Allowed (Watched.step S O) (Watched.Disciplined S) (Watched.init S rid) es) :
    let w := Run.exec (Watched.step S O) (Watched.init S rid) es
    let s := w.replica.core
    (∃ p, s.getParents.head? = some p ∧ s.delivered p = true ∧ Ext s.parent s.hqc.1 p) ∧
    (∀ x, w.replica.Proposes x → ∃ b, s.storage x = some b ∧ Ext s.parent b.qc.objHash x) ∧
    ∀ e, w.Disciplined S e →
      let s' := (w.step S O e).replica.core
      s'.hqc.1 ≠ s.hqc.1 →
      (∀ x b, x ≠ S.genesis → s'.storage x = some b → b.delivered = true →
        b.parentHashes.length = 1) →
      ∃ p, s'.getParents.head? = some p ∧ ∀ x, s'.delivered x = true → Ext s'.parent s'.hqc.1 x →
        s'.height x ≤ s'.height p := by
  intro w s
  obtain ⟨hok, hprop, hext⟩ : w.Ok S ∧
      (∀ x, w.replica.Proposes x → x ≠ S.genesis ∧ w.replica.core.delivered x = true) ∧
      ∀ x, w.replica.Proposes x → ∃ t, S.target x = some t ∧ S.Ext t x := by
    refine h.inv (I := fun w => w.Ok S ∧
      (∀ x, w.replica.Proposes x → x ≠ S.genesis ∧ w.replica.core.delivered x = true) ∧
      ∀ x, w.replica.Proposes x → ∃ t, S.target x = some t ∧ S.Ext t x)
      ⟨Watched.ok_init, fun _ hx => absurd hx Replica.proposes_init,
        fun _ hx => absurd hx Replica.proposes_init⟩ ?_
    rintro w e ⟨hok, hprop, hext⟩ he
    have hs := Replica.stepped (O := O) hok.core (hok.sound he)
    exact ⟨(hok.step he).1, fun x hx => hs.proposes_delivered hok.core hprop hx,
      fun x hx => hok.proposal he hext hx⟩
  refine ⟨⟨_, rfl, hok.tail.tail, (hok.core.store.ext_iff hok.tail.tail).mpr hok.tail.ext⟩,
    fun x hx => ?_, fun e he hne hsingle => ⟨_, rfl, fun x hd hx => ?_⟩⟩
  · obtain ⟨hne, hd⟩ := hprop x hx
    obtain ⟨b, hb⟩ := exists_of_delivered hd
    obtain ⟨t, ht, hext⟩ := hext x hx
    rw [target_of_wire (hok.core.store.wire hb hne)] at ht
    cases ht
    exact ⟨b, hb, (hok.core.store.ext_iff hd).mpr hext⟩
  · obtain ⟨hok', hbest⟩ := hok.step (O := O) he
    exact hok'.highest (hbest.resolve_left hne) hsingle hd ((hok'.core.store.ext_iff hd).mp hx)

theorem high_tail_parents_chain4 :
    let S := tableSetup 4 chain4
    let w := Run.exec (Watched.step S ⟨.threeStep, id⟩) (Watched.init S 0)
      (.call (.propose [11] [0] []) :: List.replicate 4 .resume ++ tableFeed chain4 2 3)
    w.replica.core.hqc.1 = 1 ∧ w.replica.core.getParents = [2] ∧
      ∃ p, w.replica.core.getParents.head? = some p ∧ w.replica.core.delivered p = true ∧
        Ext w.replica.core.parent w.replica.core.hqc.1 p := by
  refine ⟨by decide +kernel, by decide +kernel, ?_⟩
  exact (high_tail_parents (tableSetup 4 chain4) ⟨.threeStep, id⟩ 0 _ (by decide +kernel)).1

end HotStuffTx
