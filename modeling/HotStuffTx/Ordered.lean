import HotStuffTx.Delivery
import HotStuffTx.Sample

/-!
# What the network layer calls

A step of the network layer is a run of the core: it stores the blocks of a
message, delivers one block that waits for nothing more, passes on one proposal
or one verified vote, or is a call of the pacemaker's own.
-/

set_option linter.unusedSectionVars false

namespace HotStuffTx

open Core

variable {Hash Sig Peer : Type} [DecidableEq Hash] [DecidableEq Peer]

/-- The blocks that come with an event. -/
def BaseEvent.brings : BaseEvent Hash Sig Peer → List (WireBlock Hash Sig)
  | .propose _ _ blk => [blk]
  | .respBlk blks => blks
  | _ => []

namespace Base

/-- The continuation `e` runs delivers `blk`. -/
def Delivers (s : Base Hash Sig Peer) (e : BaseEvent Hash Sig Peer) (blk : Hash) : Prop :=
  ∃ i c, e = .run i ∧ s.conts[i]? = some c ∧ c.needs = [] ∧ c.found = true ∧ c.act = .deliver blk

/-- The core is called so while `s` handles `e`. -/
structure Calls (S : Setup Hash Sig) (s : Base Hash Sig Peer) (e : BaseEvent Hash Sig Peer)
    (w : Watched Hash Sig) (ev : Event Hash Sig) : Prop where
  disciplined : w.Disciplined S ev
  checked : w.replica.core.Checked S ev
  addBlk : ∀ b, ev = .call (.addBlk b) → b ∈ e.brings
  deliver : ∀ blk, ev = .call (.deliver blk) → s.Delivers e blk ∧ w = s.watched
  propose : ∀ cmds parents extra, ev = .call (.propose cmds parents extra) →
    e = .core ev ∧ w = s.watched

section
variable {S : Setup Hash Sig} {O : Options} {N : Peering Peer}
  {s : Base Hash Sig Peer} {e : BaseEvent Hash Sig Peer}

theorem calls_addBlk (hst : w.replica.stack = []) (hb : b ∈ e.brings) :
    Calls S s e w (.call (.addBlk b)) := by
  refine ⟨hst, trivial, fun _ heq => ?_, nofun, nofun⟩
  cases heq
  exact hb

theorem parseBlks_calls (hst : s.stack = []) (blks : List Hash) {ws : List (WireBlock Hash Sig)}
    (hws : ∀ w ∈ ws, w ∈ e.brings) : ∃ evs, Run.Allowed (Watched.step S O) (Calls S t e) s.watched evs ∧
      (s.parseBlks S O blks ws).watched = Run.exec (Watched.step S O) s.watched evs := by
  induction ws generalizing s blks with
  | nil => exact ⟨[], trivial, rfl⟩
  | cons w ws ih =>
    rw [parseBlks]
    cases hw : Block.unserialize w with
    | none => exact ⟨[], trivial, rfl⟩
    | some b =>
      obtain ⟨c, heq, -⟩ := enter_addBlk (s := s) (O := O) (S := S) hw
      obtain ⟨hw', hws'⟩ := List.forall_mem_cons.mp hws
      obtain ⟨evs, hevs, hexec⟩ := ih (s := s.enter S O (.call (.addBlk w))) (heq ▸ hst)
        (blks ++ [S.hash b.wire]) hws'
      rw [watched_enter] at hevs hexec
      exact ⟨.call (.addBlk w) :: evs, ⟨calls_addBlk hst hw', hevs⟩, hexec⟩

/-- The run of no call, or of one. -/
theorem calls_nil {t : Base Hash Sig Peer} (heq : t.watched = s.watched) : ∃ evs,
    Run.Allowed (Watched.step S O) (Calls S s e) s.watched evs ∧
      t.watched = Run.exec (Watched.step S O) s.watched evs := ⟨[], trivial, heq⟩

theorem calls_one {t : Base Hash Sig Peer} (ev : Event Hash Sig) (hev : Calls S s e s.watched ev)
    (heq : t.watched = s.watched.step S O ev) : ∃ evs,
    Run.Allowed (Watched.step S O) (Calls S s e) s.watched evs ∧
      t.watched = Run.exec (Watched.step S O) s.watched evs := ⟨[ev], ⟨hev, trivial⟩, heq⟩

theorem watched_onDeliverBlk :
    (s.onDeliverBlk S O blk).watched = s.watched.step S O (.call (.deliver blk)) := by
  dsimp only [onDeliverBlk]
  split
  · exact watched_enter
  · split
    · split <;> exact watched_enter
    · exact watched_enter

namespace Ok

variable (h : s.Ok S)
include h

theorem run_calls (hst : s.stack = []) (i : Nat) : ∃ evs,
    Run.Allowed (Watched.step S O) (Calls S s (.run i)) s.watched evs ∧
      (s.run S O i).watched = Run.exec (Watched.step S O) s.watched evs := by
  unfold Base.run
  cases hc : s.conts[i]? with
  | none => exact calls_nil rfl
  | some c =>
    dsimp only
    split
    case isFalse => exact calls_nil rfl
    case isTrue hdone =>
      have hsound := h.conts c (List.mem_of_getElem? hc)
      have h' : Ok S { s with conts := s.conts.eraseIdx i } :=
        ⟨h.ok, fun c hc => h.conts c (List.mem_of_mem_eraseIdx hc), h.todo, h.verified, h.parents⟩
      unfold Base.perform
      cases hact : c.act with
      | start blk =>
        have hf : Need.Holds s.core (.fetch blk) := hsound.holds hdone (hact ▸ .start)
        exact calls_nil (h'.startDelivery hf (hsound.ne_genesis blk (.inl hact))).watched
      | deliver blk =>
        dsimp only
        split
        · have hd := Deliverable.of_cont hsound hdone ‹_› hact
          refine calls_one (.call (.deliver blk)) ⟨⟨hst, fun b hb => ?_⟩, fun b hb => ?_, nofun, fun x hx => ?_, nofun⟩
            watched_onDeliverBlk
          · exact hd.qc _ (h.ok.core.store.wire hb hd.ne_genesis)
          · exact hd.verified b (h.ok.core.store.wire hb hd.ne_genesis)
          · cases hx
            exact ⟨⟨i, c, rfl, hc, hdone, ‹_›, hact⟩, rfl⟩
        · exact calls_nil rfl
      | propose prop =>
        exact calls_one (.call (.receiveProposal prop)) ⟨hst, trivial, nofun, nofun, nofun⟩ watched_enter
      | vote v =>
        dsimp only
        split
        · have hv := hsound.valid ‹_›
          rw [hact] at hv
          exact calls_one (.call (.receiveVote v)) ⟨hst, hv, nofun, nofun, nofun⟩ watched_enter
        · exact calls_nil rfl
      | respond replica blkHashes => exact calls_nil rfl

/-- What a step does to the core. -/
theorem step_calls (he : s.Admits S e) : ∃ evs,
    Run.Allowed (Watched.step S O) (Calls S s e) s.watched evs ∧
      (s.step S O N e).watched = Run.exec (Watched.step S O) s.watched evs := by
  cases e with
  | propose peer proposer w =>
    rcases h.proposeHandler (O := O) (N := N) he.1 peer proposer w with ha | ha
    · exact calls_nil ha.watched
    · exact calls_one _ (calls_addBlk he.1 (List.mem_singleton_self _)) (ha.watched.trans watched_enter)
  | vote peer v => exact calls_nil h.voteHandler.watched
  | reqBlk peer blkHashes => exact calls_nil (reqBlkHandler (S := S)).watched
  | respBlk blks => exact parseBlks_calls he.1 [] fun _ => id
  | next =>
    refine calls_nil ?_
    dsimp only [Base.step, Base.next]
    split
    · rfl
    · split <;> rfl
    · rfl
    · rfl
  | verified i => exact calls_nil rfl
  | run i => exact h.run_calls he i
  | core ev =>
    refine calls_one ev ?_ watched_enter
    cases ev with
    | resume => exact ⟨he, trivial, nofun, nofun, nofun⟩
    | call c =>
      cases c with
      | addBlk | deliver | receiveProposal | receiveVote => exact he.elim
      | asyncQcFinish | rejectPm => exact ⟨he, trivial, nofun, nofun, nofun⟩
      | propose cmds parents extra =>
        refine ⟨he, fun p hp => ?_, nofun, nofun, fun _ _ _ heq => ?_⟩
        · obtain rfl : parents = s.core.getParents := he.1
          rw [List.mem_singleton.mp hp]
          exact h.ok.tail.tail
        · cases heq
          exact ⟨rfl, rfl⟩

/-- A newly delivered block is an own proposal, or waits for nothing more. -/
theorem newly_delivered (he : s.Admits S e) (hx : (s.step S O N e).core.delivered x = true) :
    s.core.delivered x = true ∨ (∃ ev, e = .core ev ∧ x ∈ s.builds S ev) ∨ s.Delivers e x := by
  obtain ⟨evs, hevs, hexec⟩ := h.step_calls (O := O) (N := N) he
  rw [Base.core, hexec] at hx
  refine hevs.rel (I := fun w => w.Ok S) (R := fun w w' : Watched Hash Sig => w'.replica.core.delivered x = true →
      w.replica.core.delivered x = true ∨ (∃ ev, e = .core ev ∧ x ∈ s.builds S ev) ∨ s.Delivers e x)
    h.ok (fun w ev hw hev => (hw.step hev.disciplined).1) (fun _ => .inl)
    (fun a b c hab hbc hc => (hbc hc).elim hab .inr) (fun w ev hw hev hx => ?_) hx
  rcases delivered_step hw hev.disciplined hx with hx | rfl | ⟨cmds, extra, s₁, rfl, hp⟩
  · exact .inl hx
  · exact .inr (.inr (hev.deliver x rfl).1)
  · obtain ⟨rfl, rfl⟩ := hev.propose _ _ _ rfl
    exact .inr (.inl ⟨_, rfl, List.mem_singleton.mpr hp.bnew_eq⟩)

theorem step_keeps (he : s.Admits S e) : Keeps s.core (s.step S O N e).core := by
  obtain ⟨evs, hevs, hexec⟩ := h.step_calls (O := O) (N := N) he
  rw [Base.core, Base.core, hexec]
  exact hevs.rel (I := fun _ => True) (R := fun w w' => Keeps w.replica.core w'.replica.core) trivial
    (fun _ _ _ _ => trivial) (fun _ => .refl) (fun _ _ _ => .trans)
    fun w ev _ _ => w.replica.step_keeps ev

/-- With no vote counted for an own proposal before it is made, own proposals
carry verified certificates as well. -/
theorem step_formed (he : s.Admits S e) (hu : ∀ ev, e = .core ev → s.core.Unvoted S ev)
    (hf : Formed S s.core) (hid : S.hasReplica s.core.id = true) :
    Formed S (s.step S O N e).core ∧ S.hasReplica (s.step S O N e).core.id = true := by
  obtain ⟨evs, hevs, hexec⟩ := h.step_calls (O := O) (N := N) he
  rw [Base.core, hexec]
  refine (hevs.inv (I := fun w => w.Ok S ∧ Formed S w.replica.core ∧ S.hasReplica w.replica.core.id = true)
    ⟨h.ok, hf, hid⟩ fun w ev hinv hev => ?_).2
  obtain ⟨hw, hf, hid⟩ := hinv
  have hs := Replica.stepped (O := O) hw.core (hw.sound hev.disciplined)
  refine ⟨(hw.step hev.disciplined).1, hs.formed hf hw.core hid hev.checked ?_,
    (hs.coreOk hw.core).2.id ▸ hid⟩
  cases ev with
  | resume => trivial
  | call c =>
    cases c with
    | propose cmds parents extra =>
      obtain ⟨rfl, rfl⟩ := hev.propose _ _ _ rfl
      exact hu _ rfl
    | _ => trivial

end Ok

theorem genesis_init (S : Setup Hash Sig) (rid : ReplicaID) :
    ∃ b, (Core.init S rid).storage S.genesis = some b ∧ b.delivered = true ∧ b.parentHashes = [] ∧
      b.qc.objHash = S.genesis := by
  simp [Core.init, QuorumCert.create]

theorem ok_init {rid : ReplicaID} : (init S rid : Base Hash Sig Peer).Ok S := by
  have hdel {x} : (Core.init S rid).delivered x = true → x = S.genesis := by
    simp only [Core.delivered, Core.init, Function.update_apply]
    split <;> simp_all
  refine ⟨Watched.ok_init, by simp [init], by simp [init], fun x hx => .inl (hdel hx),
    fun x w hx hw => ?_⟩
  rw [hdel hx, S.wireOf_genesis] at hw
  cases hw

/-- `p` is one of the parents the block `x` names. -/
def NamesParent (s : Base Hash Sig Peer) (p x : Hash) : Prop :=
  ∃ b, s.core.storage x = some b ∧ p ∈ b.parentHashes

end

end Base

/-- A block is delivered once, with its parents delivered, its certificate
verified and the block of its certificate stored, unless it is an own proposal;
delivery then fails for neither reason; and so all ancestors of a delivered
block are delivered and, but for own proposals, verified. -/
theorem ordered_delivery (S : Setup Hash Sig) (O : Options) (N : Peering Peer) (rid : ReplicaID)
    (es : List (BaseEvent Hash Sig Peer))
    (h : Run.Allowed (Base.step S O N) (Base.Admits S) (Base.init S rid) es) :
    let s := Run.exec (Base.step S O N) (Base.init S rid) es
    (∀ e, s.Admits S e →
      let s' := s.step S O N e
      Keeps s.core s'.core ∧
      (∀ x, s.core.delivered x = false → s'.core.delivered x = true →
        (∃ ev, e = .core ev ∧ x ∈ s.builds S ev) ∨ s.Delivers e x) ∧
      ∀ x, s.Delivers e x →
        (∃ b, s.core.storage x = some b ∧ b.verify S = .ok true ∧
          s.core.isBlkFetched b.qc.objHash = true ∧ ∀ p ∈ b.parentHashes, s.core.delivered p = true) ∧
        ∀ err t, Core.onDeliverBlk x s.core = .error err t →
          err ≠ .blockNotDelivered ∧ err ≠ .qcNotFetched) ∧
    (∀ x p, s.core.delivered x = true → Relation.ReflTransGen s.NamesParent p x →
      s.core.delivered p = true ∧
        (p ∈ s.built ∨ ∃ b, s.core.storage p = some b ∧ b.verify S = .ok true)) ∧
    (S.hasReplica rid = true →
      Run.Allowed (Base.step S O N) (fun s e => ∀ ev, e = .core ev → s.core.Unvoted S ev)
        (Base.init S rid) es →
      ∀ x, s.core.delivered x = true → ∃ b, s.core.storage x = some b ∧ b.verify S = .ok true) := by
  intro s
  have hok : s.Ok S := h.inv Base.ok_init fun _ _ h he => h.step he
  have hgenesis : ∃ b, s.core.storage S.genesis = some b ∧ b.parentHashes = [] ∧
      b.qc.objHash = S.genesis := by
    have hk : Keeps (Base.init S rid : Base Hash Sig Peer).core s.core :=
      h.rel (I := fun s => s.Ok S) (R := fun s s' => Keeps s.core s'.core) Base.ok_init
        (fun _ _ h he => h.step he) (fun _ => .refl) (fun _ _ _ => .trans) fun _ _ h he => h.step_keeps he
    obtain ⟨b₀, hb₀, hd, hp, hq⟩ := Base.genesis_init S rid
    obtain ⟨b, hb, hk⟩ := hk S.genesis b₀ hb₀ hd
    exact ⟨b, hb, (congrArg WireBlock.parentHashes hk.wire).trans hp,
      (congrArg (fun w : WireBlock Hash Sig => w.qc.objHash) hk.wire).trans hq⟩
  have hver {x} (hd : s.core.delivered x = true) (hv : x ≠ S.genesis → S.Verified x) :
      ∃ b, s.core.storage x = some b ∧ b.verify S = .ok true := by
    by_cases hne : x = S.genesis
    · obtain ⟨b, hb, -, hq⟩ := hgenesis
      exact ⟨b, hne ▸ hb, if_pos hq⟩
    · obtain ⟨b, hb⟩ := exists_of_delivered hd
      exact ⟨b, hb, hv hne b (hok.ok.core.store.wire hb hne)⟩
  refine ⟨fun e he => ⟨hok.step_keeps he, fun x hx hx' => ?_, fun x hx => ?_⟩, fun x p hx hp => ?_,
    fun hid hu x hx => ?_⟩
  · exact (hok.newly_delivered he hx').resolve_left (by simp [hx])
  · obtain ⟨i, c, -, hc, hdone, hfound, hact⟩ := hx
    have hd := Base.Deliverable.of_cont (hok.conts c (List.mem_of_getElem? hc)) hdone hfound hact
    obtain ⟨b, hb⟩ := isBlkFetched_iff.mp hd.fetched
    have hw := hok.ok.core.store.wire hb hd.ne_genesis
    refine ⟨⟨b, hb, hd.verified b hw, hd.qc _ hw, hd.parents _ hw⟩, fun err t hrun => ?_⟩
    obtain ⟨rfl, -⟩ := (hd.spec hok.ok.core.store).error hrun
    exact ⟨nofun, nofun⟩
  · have hdel : s.core.delivered p = true := by
      induction hp with
      | refl => exact hx
      | @tail y z hp hpar ih =>
        obtain ⟨b, hb, hmem⟩ := hpar
        refine ih ?_
        by_cases hg : z = S.genesis
        · obtain ⟨b₀, hb₀, hnil, -⟩ := hgenesis
          cases hb₀.symm.trans (hg ▸ hb)
          simp [hnil] at hmem
        · exact hok.parents z _ hx (hok.ok.core.store.wire hb hg) y hmem
    refine ⟨hdel, ?_⟩
    by_cases hb : p ∈ s.built
    · exact .inl hb
    · refine .inr (hver hdel fun hne => ?_)
      exact ((hok.verified p hdel).resolve_left hne).resolve_left hb
  · refine hver hx fun hne => ?_
    have hf := (h.and hu).inv (I := fun s => s.Ok S ∧ Formed S s.core ∧ S.hasReplica s.core.id = true)
      ⟨Base.ok_init, formed_init, hid⟩ fun s e ⟨hs, hf, hid⟩ ⟨he, hu⟩ =>
        ⟨hs.step he, hs.step_formed he hu hf hid⟩
    exact hf.2.1.verified hne hx

/-- Replica `r` is the peer numbered `r`. -/
def tablePeers : Peering Nat := ⟨UInt16.toNat, true⟩

/-- Replica 3 proposes block 1, which is delivered and voted for, and then block
2, whose certificate is verified. -/
def deliverTwo : List (BaseEvent Nat TableSig Nat) :=
  [.propose (some 3) 3 (tableBlk 4 0 0 [11] []), .run 0, .run 1, .next, .run 0, .core .resume,
    .core .resume, .core .resume, .propose (some 3) 3 (tableBlk 4 1 1 [12] [0, 1, 3]), .run 0,
    .verified 1]

theorem ordered_delivery_chain4 :
    let S := tableSetup 4 chain4
    let s := Run.exec (Base.step S ⟨.threeStep, id⟩ tablePeers) (Base.init S 0) deliverTwo
    s.Delivers (.run 1) 2 ∧ s.core.delivered 2 = false ∧
      (∀ err t, Core.onDeliverBlk 2 s.core = .error err t →
        err ≠ .blockNotDelivered ∧ err ≠ .qcNotFetched) := by
  have hd : (Run.exec (Base.step (tableSetup 4 chain4) ⟨.threeStep, id⟩ tablePeers)
      (Base.init (tableSetup 4 chain4) 0) deliverTwo).Delivers (.run 1) 2 :=
    ⟨1, ⟨[], true, .deliver 2⟩, rfl, by decide +kernel, rfl, rfl, rfl⟩
  refine ⟨hd, by decide +kernel, ?_⟩
  exact (((ordered_delivery (tableSetup 4 chain4) ⟨.threeStep, id⟩ tablePeers 0 deliverTwo
    (by decide +kernel)).1 (.run 1) (by decide +kernel)).2.2 2 hd).2

end HotStuffTx
