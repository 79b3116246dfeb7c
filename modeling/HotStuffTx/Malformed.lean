import HotStuffTx.Ordered

/-!
# Messages that let an exception escape

What each handler, and each delivery it has started, must find for no exception
to leave it. The offending field is looked at when the message comes in, when
the block it brought starts to be delivered, when it is delivered, or when the
proposal is passed to the core.
-/

set_option linter.unusedSectionVars false

namespace HotStuffTx

open Core

variable {Hash Sig Peer : Type} [DecidableEq Hash] [DecidableEq Peer]

/-- `get_pubkey` finds every replica of the certificate, where it is looked at. -/
def Block.KnownSigners (S : Setup Hash Sig) (b : Block Hash Sig) : Prop :=
  b.qc.objHash = S.genesis ∨ b.qc.sigs.length < S.nmajority ∨
    ∀ r ∈ b.qc.signers, S.hasReplica r = true

instance (S : Setup Hash Sig) (b : Block Hash Sig) : Decidable (b.KnownSigners S) := by
  unfold Block.KnownSigners
  infer_instance

namespace Base

/-- What a callback must find. -/
def Harmless (S : Setup Hash Sig) (O : Options) (s : Base Hash Sig Peer) (c : Cont Hash Sig Peer) :
    Prop :=
  match c.act with
  | .start blk => ∀ b, s.core.storage blk = some b → b.KnownSigners S
  | .deliver blk => c.found = true → s.core.delivered blk = true ∨
      ∀ b, s.core.storage blk = some b → b.parentHashes ≠ []
  | .propose prop => prop.proposer = s.core.id ∨ s.core.CommitsAbove O.build prop.blk
  | .vote _ | .respond _ _ => True

/-- What a handler must find. -/
def Survives (S : Setup Hash Sig) (O : Options) (N : Peering Peer) (s : Base Hash Sig Peer) :
    BaseEvent Hash Sig Peer → Prop
  | .propose peer proposer blk =>
    peer = none ∨ (Block.unserialize blk).isSome = true ∧ S.hasReplica proposer = true
  | .vote peer v => peer = none ∨ S.hasReplica v.voter = true
  | .reqBlk peer blkHashes => peer = none ∨ blkHashes ≠ [] ∨ N.allEmpty = true
  | .respBlk blks => ∀ w ∈ blks, (Block.unserialize w).isSome = true
  | .run i => ∀ c, s.conts[i]? = some c → c.needs = [] → s.Harmless S O c
  | .core (.call (.propose cmds parents extra)) =>
    ∃ frames t, Core.onPropose S O.build cmds parents extra s.core = .ok frames t
  | .next | .verified _ | .core _ => True

instance (S : Setup Hash Sig) (O : Options) (s : Base Hash Sig Peer) (c : Cont Hash Sig Peer) :
    Decidable (s.Harmless S O c) := by
  unfold Harmless
  split <;> infer_instance

instance decidableReturns {ε σ α : Type} (r : EStateM.Result ε σ α) :
    Decidable (∃ a t, r = .ok a t) :=
  match r with
  | .ok a t => isTrue ⟨a, t, rfl⟩
  | .error _ _ => isFalse fun ⟨_, _, h⟩ => nomatch h

instance (S : Setup Hash Sig) (O : Options) (N : Peering Peer) (s : Base Hash Sig Peer)
    (e : BaseEvent Hash Sig Peer) : Decidable (s.Survives S O N e) :=
  match e with
  | .propose peer proposer blk => inferInstanceAs (Decidable (peer = none ∨
      (Block.unserialize blk).isSome = true ∧ S.hasReplica proposer = true))
  | .vote peer v => inferInstanceAs (Decidable (peer = none ∨ S.hasReplica v.voter = true))
  | .reqBlk peer blkHashes =>
    inferInstanceAs (Decidable (peer = none ∨ blkHashes ≠ [] ∨ N.allEmpty = true))
  | .respBlk blks => inferInstanceAs (Decidable (∀ w ∈ blks, (Block.unserialize w).isSome = true))
  | .run i => inferInstanceAs (Decidable (∀ c, s.conts[i]? = some c → c.needs = [] →
      s.Harmless S O c))
  | .core (.call (.propose cmds parents extra)) =>
    inferInstanceAs (Decidable (∃ frames t, Core.onPropose S O.build cmds parents extra s.core =
      .ok frames t))
  | .next | .verified _ | .core .resume | .core (.call (.addBlk _)) | .core (.call (.deliver _))
  | .core (.call (.receiveProposal _)) | .core (.call (.receiveVote _))
  | .core (.call (.asyncQcFinish _)) | .core (.call (.rejectPm _)) => instDecidableTrue

end Base

-- ---------------------------------------------------------------------------
-- Certificates
-- ---------------------------------------------------------------------------

namespace ReplicaConfig

variable {cfg : ReplicaConfig Hash Sig} {q : QuorumCert Hash Sig}

theorem isSome_of_veriTasks (h : cfg.veriTasks q bits i = .ok found) (hj : bits[j]? = some true) :
    (cfg.replicaMap (.ofNat (i + j))).isSome := by
  induction bits generalizing i j found with
  | nil => simp at hj
  | cons b bits ih =>
    have hshift {found} (htl : cfg.veriTasks q bits (i + 1) = .ok found) {j}
        (hj : (b :: bits)[j + 1]? = some true) : (cfg.replicaMap (.ofNat (i + (j + 1)))).isSome := by
      have := ih htl (by simpa using hj)
      rwa [Nat.add_assoc, Nat.add_comm 1] at this
    cases b with
    | false =>
      cases j with
      | zero => simp at hj
      | succ j => exact hshift h hj
    | true =>
      simp only [veriTasks, getPubkey] at h
      cases hr : cfg.replicaMap (.ofNat i) with
      | none => simp [hr, bind, Except.bind] at h
      | some pubkey =>
        cases j with
        | zero => exact Option.isSome_of_eq_some hr
        | succ j =>
          cases htl : cfg.veriTasks q bits (i + 1) with
          | error e => simp [hr, htl, bind, Except.bind] at h
          | ok rest => exact hshift htl hj

end ReplicaConfig

section
variable {S : Setup Hash Sig} {O : Options} {N : Peering Peer}
  {s s' : Base Hash Sig Peer} {c : Cont Hash Sig Peer}

theorem Setup.isSome_config {r : ReplicaID} :
    (S.config.replicaMap r).isSome ↔ S.hasReplica r = true := by
  simp only [Setup.config]
  split <;> simp_all

theorem Block.verifyPooled_iff {b : Block Hash Sig} :
    (∃ pm, b.verifyPooled S = .ok pm) ↔ b.KnownSigners S := by
  unfold Block.verifyPooled Block.KnownSigners ReplicaConfig.verifyPooled
  by_cases hg : b.qc.objHash = S.genesis
  · simp [hg]
  by_cases hlen : b.qc.sigs.length < S.nmajority
  · simp [hg, hlen, Setup.config]
  rw [if_neg hg, if_neg (show ¬ b.qc.sigs.length < S.config.nmajority from hlen)]
  simp only [hg, hlen, false_or]
  constructor
  · rintro ⟨pm, hpm⟩ r hr
    obtain ⟨j, hj, rfl⟩ := (b.qc.mem_iff r).mp hr
    cases htasks : S.config.veriTasks b.qc b.qc.rids 0 with
    | error e => simp [htasks, Except.map] at hpm
    | ok found =>
      have := ReplicaConfig.isSome_of_veriTasks htasks hj
      rwa [Nat.zero_add, Setup.isSome_config] at this
  · intro hall
    obtain ⟨found, htasks, -⟩ : ∃ found, S.config.veriTasks b.qc b.qc.rids 0 = .ok found ∧ _ :=
      ReplicaConfig.veriTasks_ok fun j hj => by
        rw [Nat.zero_add, Setup.isSome_config]
        exact hall _ ((b.qc.mem_iff _).mpr ⟨j, hj, rfl⟩)
    exact ⟨.tasks found, by simp [htasks, Except.map]⟩

-- ---------------------------------------------------------------------------
-- One step
-- ---------------------------------------------------------------------------

namespace Base

theorem escaped_escape {x : Escape} : (s.escape x).escaped ≠ s.escaped := by simp [escape]

theorem escaped_enter {e : Event Hash Sig} : (s.enter S O e).escaped = s.escaped ↔
    (s.watched.replica.step S O e).thrown.drop s.watched.replica.thrown.length = [] := by
  rcases enter_cases (s := s) (S := S) (O := O) (e := e) with ⟨heq, hnil⟩ | ⟨x, xs, hcons, heq⟩
  · rw [heq]
    exact ⟨fun _ => hnil, fun _ => rfl⟩
  · rw [heq]
    refine ⟨fun h => absurd h escaped_escape, fun hnil => ?_⟩
    rw [show (s.watched.replica.step S O e).thrown.drop _ = _ from hcons] at hnil
    cases hnil

/-- A call lets no exception escape where it returns. -/
theorem escaped_call {c : Call Hash Sig} : (s.enter S O (.call c)).escaped = s.escaped ↔
    ∃ frames t, c.run S O s.core = .ok frames t := by
  rw [escaped_enter]
  cases hrun : c.run S O s.core with
  | ok frames t =>
    have hrun : c.run S O s.watched.replica.core = .ok frames t := hrun
    simp [Replica.step, Replica.runOn, hrun]
  | error e t =>
    have hrun : c.run S O s.watched.replica.core = .error e t := hrun
    simp [Replica.step, Replica.runOn, hrun]

theorem call_returns {t : Core Hash Sig} (h : CoreOk S t) {c : Call Hash Sig} (hc : c.Sound t)
    (hno : ∀ e t', ¬ c.Thrown S O t e t') : ∃ frames t', c.run S O t = .ok frames t' := by
  have hspec := Call.run_spec (O := O) h hc
  cases hrun : c.run S O t with
  | ok frames t' => exact ⟨frames, t', rfl⟩
  | error e t' => exact absurd (hspec.error hrun) (hno e t')

/-- `on_receive_proposal` returns where what it commits descends from `b_exec`. -/
theorem receiveProposal_returns (h : CoreOk S s.core) {prop : Proposal Hash}
    (hd : s.core.delivered prop.blk = true) :
    (s.enter S O (.call (.receiveProposal prop))).escaped = s.escaped ↔
      prop.proposer = s.core.id ∨ s.core.CommitsAbove O.build prop.blk := by
  have hspec : Triple (Core.onReceiveProposal O.build prop) s.core _ _ := onReceiveProposal_spec h
  rw [escaped_call]
  constructor
  · rintro ⟨frames, t, hrun⟩
    cases hspec.ok hrun with
    | own hp => exact .inl hp
    | other _ _ hu => exact .inr (hu.commitsAbove h)
  · intro hc
    cases hrun : Core.onReceiveProposal O.build prop s.core with
    | ok frames t => exact ⟨frames, t, hrun⟩
    | error e t =>
      obtain ⟨hp, ⟨-, -, hnd⟩ | ⟨-, hr⟩⟩ := hspec.error hrun
      · rw [hnd] at hd
        cases hd
      · exact absurd (hc.resolve_left hp) (hr.not_commitsAbove h)

theorem receiveVote_returns (h : s.watched.Fluent S) {v : Vote Hash Sig}
    (hd : s.core.delivered v.blkHash = true) (hv : v.verify S = .ok true) :
    (s.enter S O (.call (.receiveVote v))).escaped = s.escaped := by
  rw [escaped_call]
  have hspec := onReceiveVote_returns h.ok.core h.sized (Vote.valid_of_verify hv) hd
  cases hrun : Core.onReceiveVote S v s.core with
  | ok frames t => exact ⟨frames, t, hrun⟩
  | error e t => exact (hspec.error hrun).elim

theorem escaped_onDeliverBlk (hs : StoreOk S s.core) (hd : Deliverable S s.core blk) :
    (s.onDeliverBlk S O blk).escaped = s.escaped ↔ s.core.delivered blk = true ∨
      ∀ b, s.core.storage blk = some b → b.parentHashes ≠ [] := by
  have hspec := hd.spec hs
  have hcall : (s.enter S O (.call (.deliver blk))).escaped = s.escaped ↔
      ∃ valid t, Core.onDeliverBlk blk s.core = .ok valid t := by
    rw [escaped_call]
    cases hrun : Core.onDeliverBlk blk s.core with
    | ok valid t => exact ⟨fun _ => ⟨valid, t, rfl⟩, fun _ => ⟨[], t, by
        simp [Call.run, bind, EStateM.bind, hrun, pure, EStateM.pure]⟩⟩
    | error e t =>
      constructor
      · rintro ⟨_, _, h⟩
        simp [Call.run, bind, EStateM.bind, hrun] at h
      · rintro ⟨_, _, h⟩
        cases h
  unfold onDeliverBlk
  cases hrun : Core.onDeliverBlk blk s.core with
  | ok valid t =>
    have hsame : (s.enter S O (.call (.deliver blk))).escaped = s.escaped := hcall.mpr ⟨_, _, hrun⟩
    have hfound : s.core.delivered blk = true ∨ ∀ b, s.core.storage blk = some b → b.parentHashes ≠ [] := by
      by_cases hdel : s.core.delivered blk = true
      · exact .inl hdel
      · exact .inr fun b hb => ((hspec.ok hrun).2 b hb).resolve_left hdel
    refine iff_of_true ?_ hfound
    dsimp only
    split
    · cases valid <;> exact hsame
    · exact hsame
  | error e t =>
    obtain ⟨-, hdel, b, hb, hnil⟩ := hspec.error hrun
    refine iff_of_false (fun heq => ?_) ?_
    · obtain ⟨_, _, hok⟩ := hcall.mp heq
      cases hrun.symm.trans hok
    · rintro (h | h)
      · rw [hdel] at h
        cases h
      · exact h b hb hnil

namespace Ok

variable (h : s.Ok S)
include h

theorem escaped_startDelivery (hf : s.core.isBlkFetched blk = true) (hne : blk ≠ S.genesis) :
    (s.startDelivery S blk).escaped = s.escaped ↔
      ∀ b, s.core.storage blk = some b → b.KnownSigners S := by
  obtain ⟨b, hb⟩ := isBlkFetched_iff.mp hf
  cases hpm : b.verifyPooled S with
  | error e =>
    rw [startDelivery_error hb hne hpm]
    refine iff_of_false escaped_escape fun hall => ?_
    obtain ⟨pm, hok⟩ := Block.verifyPooled_iff.mpr (hall b hb)
    cases hpm.symm.trans hok
  | ok pm =>
    refine iff_of_true (h.startDelivery_asked hb hne hpm).escaped fun b' hb' => ?_
    cases hb.symm.trans hb'
    exact Block.verifyPooled_iff.mp ⟨pm, hpm⟩

theorem escaped_perform (hf : s.watched.Fluent S) (hc : c.Sound S s.core) (hdone : c.needs = []) :
    (s.perform S O c).escaped = s.escaped ↔ s.Harmless S O c := by
  unfold Base.perform Harmless
  cases hact : c.act with
  | start blk =>
    have hfetched : Need.Holds s.core (.fetch blk) := hc.holds hdone (hact ▸ .start)
    exact h.escaped_startDelivery hfetched (hc.ne_genesis blk (.inl hact))
  | deliver blk =>
    dsimp only
    split
    · simp only [*, forall_const]
      exact escaped_onDeliverBlk h.ok.core.store (.of_cont hc hdone ‹_› hact)
    · exact iff_of_true rfl fun hfound => absurd hfound ‹_›
  | propose prop =>
    have hd : Need.Holds s.core (.deliver prop.blk) := hc.holds hdone (hact ▸ .propose)
    exact receiveProposal_returns h.ok.core hd
  | vote v =>
    refine iff_of_true ?_ trivial
    dsimp only
    split
    · have hd : Need.Holds s.core (.deliver v.blkHash) := hc.holds hdone (hact ▸ .vote)
      have hv := hc.valid ‹_›
      rw [hact] at hv
      exact receiveVote_returns hf hd hv
    · rfl
  | respond replica blkHashes => exact iff_of_true rfl trivial

theorem escaped_proposeHandler (hst : s.stack = []) {peer : Option Peer} {proposer : ReplicaID}
    {w : WireBlock Hash Sig} : (s.proposeHandler S O N peer proposer w).escaped = s.escaped ↔
      peer = none ∨ (Block.unserialize w).isSome = true ∧ S.hasReplica proposer = true := by
  unfold Base.proposeHandler
  cases peer with
  | none => exact iff_of_true rfl (.inl rfl)
  | some peer =>
    simp only [reduceCtorEq, false_or]
    cases hw : Block.unserialize w with
    | none => exact iff_of_false escaped_escape (by simp)
    | some b =>
      obtain ⟨t, heq, -⟩ := enter_addBlk (s := s) (O := O) hw
      have hadd : (s.enter S O (.call (.addBlk w))).escaped = s.escaped := by rw [heq]
      simp only [Option.isSome_some, true_and]
      cases hrep : S.hasReplica proposer with
      | false =>
        refine iff_of_false ?_ (by simp)
        rw [← hadd]
        exact escaped_escape
      | true =>
        refine iff_of_true ?_ rfl
        simp only [if_true]
        split
        · have hg := (h.addBlk (O := O) hst w).ok.core.store.delivered_genesis
          exact (asyncDeliverBlk_spec hg (S.hash b.wire)).1.escaped.trans hadd
        · exact hadd

theorem escaped_voteHandler {peer : Option Peer} {v : Vote Hash Sig} :
    (s.voteHandler S peer v).escaped = s.escaped ↔ peer = none ∨ S.hasReplica v.voter = true := by
  unfold Base.voteHandler
  cases peer with
  | none => exact iff_of_true rfl (.inl rfl)
  | some peer =>
    have ha := (asyncDeliverBlk_spec h.ok.core.store.delivered_genesis v.blkHash).1.escaped
    simp only [reduceCtorEq, false_or, Vote.verify]
    by_cases hr : S.hasReplica v.voter = true
    · simp only [if_pos hr]
      exact iff_of_true ha hr
    · simp only [if_neg hr]
      refine iff_of_false ?_ hr
      rw [← ha]
      exact escaped_escape

theorem escaped_reqBlkHandler {peer : Option Peer} {blkHashes : List Hash} :
    (s.reqBlkHandler N peer blkHashes).escaped = s.escaped ↔
      peer = none ∨ blkHashes ≠ [] ∨ N.allEmpty = true := by
  unfold Base.reqBlkHandler
  cases peer with
  | none => exact iff_of_true rfl (.inl rfl)
  | some replica =>
    obtain ⟨ha, -⟩ := forEach_spec (s := s) (f := asyncFetchBlk)
      (fun t _ blk => asyncFetchBlk_spec (S := S) t blk) blkHashes
    simp only [reduceCtorEq, false_or]
    split
    case isTrue hno =>
      refine iff_of_false ?_ (by simp [hno])
      rw [← ha.escaped]
      exact escaped_escape
    case isFalse hall =>
      refine iff_of_true ha.escaped ?_
      by_cases hnil : blkHashes = []
      · exact .inr (by simpa [hnil] using hall)
      · exact .inl hnil

omit h in
theorem escaped_parseBlks (blks : List Hash) (ws : List (WireBlock Hash Sig)) :
    (s.parseBlks S O blks ws).escaped = s.escaped ↔
      ∀ w ∈ ws, (Block.unserialize w).isSome = true := by
  induction ws generalizing s blks with
  | nil => exact iff_of_true rfl nofun
  | cons w ws ih =>
    rw [Base.parseBlks, List.forall_mem_cons]
    cases hw : Block.unserialize w with
    | none => exact iff_of_false escaped_escape fun h => by cases h.1
    | some b =>
      obtain ⟨t, heq, -⟩ := enter_addBlk (s := s) (O := O) hw
      have hadd : (s.enter S O (.call (.addBlk w))).escaped = s.escaped := by rw [heq]
      rw [← hadd, ih]
      exact ⟨fun h => ⟨rfl, h⟩, fun h => h.2⟩

/-- A step lets no exception escape exactly where it finds what it must. -/
theorem step_escaped {e : BaseEvent Hash Sig Peer} (he : s.Admits S e) (hf : s.watched.Fluent S) :
    (s.step S O N e).escaped = s.escaped ↔ s.Survives S O N e := by
  cases e with
  | propose peer proposer w => exact h.escaped_proposeHandler he.1
  | vote peer v => exact h.escaped_voteHandler
  | reqBlk peer blkHashes => exact h.escaped_reqBlkHandler
  | respBlk blks => exact escaped_parseBlks [] blks
  | verified i => exact iff_of_true rfl trivial
  | next =>
    refine iff_of_true ?_ trivial
    dsimp only [Base.step, Base.next]
    split
    · rfl
    · split <;> rfl
    · rfl
    · rfl
  | run i =>
    dsimp only [Base.step, Base.run, Survives]
    cases hc : s.conts[i]? with
    | none => exact iff_of_true rfl nofun
    | some c =>
      dsimp only
      split
      · have h' : Ok S { s with conts := s.conts.eraseIdx i } :=
          ⟨h.ok, fun c hc => h.conts c (List.mem_of_mem_eraseIdx hc), h.todo, h.verified, h.parents⟩
        have hmem := h.conts c (List.mem_of_getElem? hc)
        refine (h'.escaped_perform hf hmem ‹_›).trans ⟨fun hall c' hc' _ => ?_, fun hall => hall c rfl ‹_›⟩
        cases hc'
        exact hall
      · refine iff_of_true rfl fun c' hc' hdone => ?_
        cases hc'
        contradiction
  | core ev =>
    cases ev with
    | resume =>
      refine iff_of_true (escaped_enter.mpr ?_) trivial
      rw [hf.returns, List.drop_length]
    | call c =>
      cases c with
      | addBlk | deliver | receiveProposal | receiveVote => exact he.elim
      | propose cmds parents extra => exact escaped_call
      | asyncQcFinish blk | rejectPm pm =>
        refine iff_of_true (escaped_call.mpr ?_) trivial
        exact call_returns h.ok.core trivial fun _ _ hthrown => hthrown

theorem step_fluent {e : BaseEvent Hash Sig Peer} (he : s.Admits S e) (hf : s.watched.Fluent S) :
    (s.step S O N e).watched.Fluent S := by
  obtain ⟨evs, hevs, hexec⟩ := h.step_calls (O := O) (N := N) he
  rw [hexec]
  exact hevs.inv hf fun _ _ hw hev => hw.step hev.disciplined

end Ok

end Base

end

end HotStuffTx
