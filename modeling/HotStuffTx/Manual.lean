import HotStuffTx.Attempts

/-!
# Manual rounds of consensus

Embeds `PMRoundRobinProposer::do_new_consensus`. It proposes, waits for the
certificate of its block, and from the callback of that promise proposes the
next block, three times or twice. `Manual` runs such a chain on a replica that
proposes and receives nothing else in between: what the network brings are
votes, and the pacemaker acts by itself as soon as `on_propose` has returned or
its promise is fulfilled.
-/

set_option linter.unusedSectionVars false

namespace HotStuffTx

open Core Forest

variable {Hash Sig : Type} [DecidableEq Hash]

-- ---------------------------------------------------------------------------
-- The chain of calls
-- ---------------------------------------------------------------------------

/-- `do_new_consensus` stops calling itself here. -/
def Build.rounds : Build → Nat
  | .threeStep => 3
  | .twoStep => 2

/-- Where the last call of `do_new_consensus` is: in `on_propose` above the
frames `below`, or waiting for the promise of its block. -/
inductive Round (Hash : Type)
  | proposing (x : Nat) (blk : Hash) (below : List (Frame Hash))
  | waiting (x : Nat) (pm : Nat)
  | returned
  | threw
  deriving DecidableEq

def Round.waits : Round Hash → Bool
  | .waiting .. => true
  | _ => false

/-- A replica, `pm_qc_manual`, and the chain of calls with the blocks it has
built, the newest first. -/
structure Manual (Hash Sig : Type) where
  watched : Watched Hash Sig
  pmQcManual : Option Nat
  chain : List Hash
  round : Round Hash

/-- What the network brings, the next frame, and a `pm_qc_manual.reject()` of
`rotate` or `stop_rotate`. -/
inductive Feed (Hash Sig : Type)
  | vote (v : Vote Hash Sig)
  | reject
  | resume

/-- The vote certifies its block. -/
def Core.Completes (S : Setup Hash Sig) (s : Core Hash Sig) (v : Vote Hash Sig) : Prop :=
  v.voter ∉ s.voted v.blkHash ∧ (s.voted v.blkHash).length + 1 = S.nmajority

instance (S : Setup Hash Sig) (s : Core Hash Sig) (v : Vote Hash Sig) : Decidable (s.Completes S v) :=
  inferInstanceAs (Decidable (v.voter ∉ s.voted v.blkHash ∧
    (s.voted v.blkHash).length + 1 = S.nmajority))

/-- `reject()` on a promise of the pacemaker. -/
def Watched.reject (S : Setup Hash Sig) (O : Options) (w : Watched Hash Sig) :
    Option Nat → Watched Hash Sig
  | none => w
  | some pm => w.step S O (.call (.rejectPm pm))

namespace Manual

variable (S : Setup Hash Sig) (O : Options)

abbrev core (m : Manual Hash Sig) : Core Hash Sig := m.watched.replica.core

/-- `do_new_consensus(x, cmds)` up to the first callback of `on_propose`. -/
def doNewConsensus (m : Manual Hash Sig) (x : Nat) (cmds : List Hash) : Manual Hash Sig :=
  let w := m.watched.step S O (.call (.propose cmds m.core.getParents []))
  match Core.onPropose S O.build cmds m.core.getParents [] m.core with
  | .ok _ _ =>
    let blk := m.core.bnew S cmds []
    { m with
      watched := w
      chain := blk :: m.chain
      round := .proposing x blk m.watched.replica.stack }
  | .error _ _ => { m with watched := w, round := .threw }

/-- `pm_qc_manual.reject()`. -/
def rejected (m : Manual Hash Sig) : Watched Hash Sig :=
  match m.pmQcManual with
  | none => m.watched
  | some pm => m.watched.step S O (.call (.rejectPm pm))

/-- `pm_qc_manual.reject(); pm_qc_manual = hsc->async_qc_finish(blk)`. -/
def attach (m : Manual Hash Sig) (x : Nat) (blk : Hash) : Manual Hash Sig :=
  let w := m.rejected S O
  match Core.asyncQcFinish S blk w.replica.core with
  | .ok pm _ =>
    { m with
      watched := w.step S O (.call (.asyncQcFinish blk))
      pmQcManual := some pm
      round := .waiting x pm }
  | .error _ _ => m

/-- The callback of `pm_qc_manual`. -/
def gotQC (m : Manual Hash Sig) (x : Nat) : Manual Hash Sig :=
  if x ≥ O.build.rounds then { m with round := .returned } else m.doNewConsensus S O (x + 1) []

/-- Runs the callback where the promise is fulfilled. -/
def fulfil (m : Manual Hash Sig) : Manual Hash Sig :=
  match m.round with
  | .waiting x pm => if m.core.pms[pm]? = some .fulfilled then m.gotQC S O x else m
  | _ => m

/-- What the pacemaker does by itself. -/
def settle (m : Manual Hash Sig) : Manual Hash Sig :=
  match m.round with
  | .proposing x blk below =>
    if m.watched.replica.stack = below then (m.attach S O x blk).fulfil S O else m
  | _ => m.fulfil S O

def step (m : Manual Hash Sig) : Feed Hash Sig → Manual Hash Sig
  | .vote v => settle S O { m with watched := m.watched.step S O (.call (.receiveVote v)) }
  | .reject => settle S O { m with watched := m.rejected S O }
  | .resume => settle S O { m with watched := m.watched.step S O .resume }

/-- `do_new_consensus(0, cmds)` from the event loop. -/
def start (w : Watched Hash Sig) (pmQcManual : Option Nat) (cmds : List Hash) : Manual Hash Sig :=
  doNewConsensus S O ⟨w, pmQcManual, [], .returned⟩ 0 cmds

/-- A vote comes from its handler, and certifies no block besides those of the
chain that is as high as the newest of them; the promise is not rejected while
the callback waits for it. -/
def Admits (S : Setup Hash Sig) (m : Manual Hash Sig) : Feed Hash Sig → Prop
  | .vote v => m.watched.replica.stack = [] ∧ v.verify S = .ok true ∧
      m.core.delivered v.blkHash = true ∧ (v.blkHash ∈ m.chain ∨
        (∀ b, m.chain.head? = some b → m.core.height v.blkHash < m.core.height b) ∨
        ¬ m.core.Completes S v)
  | .reject => m.round.waits = false
  | .resume => True

instance (m : Manual Hash Sig) (e : Feed Hash Sig) : Decidable (m.Admits S e) :=
  match e with
  | .vote v => inferInstanceAs (Decidable (m.watched.replica.stack = [] ∧ v.verify S = .ok true ∧
      m.core.delivered v.blkHash = true ∧ (v.blkHash ∈ m.chain ∨
        (∀ b, m.chain.head? = some b → m.core.height v.blkHash < m.core.height b) ∨
        ¬ m.core.Completes S v)))
  | .reject => inferInstanceAs (Decidable (m.round.waits = false))
  | .resume => instDecidableTrue

end Manual

/-- The next proposal is higher than every vote cast, its content has not been
stored before, and it extends what has been committed. -/
structure Core.Flushable (S : Setup Hash Sig) (s : Core Hash Sig) (cmds : List Hash) : Prop where
  tail : s.vheight ≤ s.height s.hqcTail
  fresh : s.storage (s.bnew S cmds []) = none
  exec : s.checkAncestry s.bExec s.hqcTail = true

section
variable {S : Setup Hash Sig} {O : Options} {s s' s₁ s₂ : Core Hash Sig} {w : Watched Hash Sig}

-- ---------------------------------------------------------------------------
-- Promises
-- ---------------------------------------------------------------------------

/-- The promises that are waited for have been handed out. -/
def Core.Numbered (s : Core Hash Sig) : Prop := ∀ x p, (x, p) ∈ s.qcWaiting → p < s.pms.length

theorem Core.Numbered.of_eq (h : Numbered s) (hw : ∀ x ∈ s'.qcWaiting, x ∈ s.qcWaiting)
    (hp : s'.pms.length = s.pms.length) : Numbered s' :=
  fun x p hx => hp ▸ h x p (hw _ hx)

/-- The promises and who waits for them stay as they are. -/
structure Core.SamePms (s s' : Core Hash Sig) : Prop where
  waiting : s'.qcWaiting = s.qcWaiting
  pms : s'.pms = s.pms

theorem Core.SamePms.trans (h : SamePms s s₁) (h' : SamePms s₁ s') : SamePms s s' :=
  ⟨h'.waiting.trans h.waiting, h'.pms.trans h.pms⟩

theorem Core.SamePms.updateHqc : SamePms s (s.updateHqc h qc) := by
  unfold Core.updateHqc
  split <;> exact ⟨rfl, rfl⟩

theorem Core.SamePms.advance : SamePms s (s.advance build t qc) := by
  unfold Core.advance Core.raiseLock
  repeat' split
  all_goals exact ⟨SamePms.updateHqc.waiting, SamePms.updateHqc.pms⟩

theorem Core.Updated.samePms (h : CoreOk S s) (hu : Updated build s n s') : SamePms s s' := by
  cases hu with
  | idle => exact ⟨rfl, rfl⟩
  | advanced => exact .advance
  | committed hb ht hd hc hrun =>
    obtain ⟨l, s₁, -, hdec, rfl⟩ := h.commit_ok hb ht hd hc hrun
    exact SamePms.advance.trans ⟨hdec.qcWaiting, hdec.pms⟩

theorem Core.Refused.samePms (h : CoreOk S s) (hr : Refused build s n e s') : SamePms s s' := by
  cases hr with
  | intro hb ht hd hc hrun =>
    obtain ⟨-, rfl, -⟩ := h.commit_error hb ht hd hc hrun
    exact .advance

theorem Core.Judged.samePms (hj : Judged S s n op s') : SamePms s s' := by
  cases hj <;> exact ⟨rfl, rfl⟩

theorem Core.Proposed.samePms {cmds parents : List Hash} {extra : List UInt8}
    (hp : Proposed S s cmds parents extra n s') : SamePms s s' := by
  cases hp
  exact ⟨rfl, rfl⟩

theorem Core.StoreStep.samePms (h : StoreStep S s n s') : SamePms s s' := by
  cases h <;> exact ⟨rfl, rfl⟩

theorem Core.Counted.samePms (hc : Counted S s v fs s') : SamePms s s' := by
  cases hc with
  | part => exact ⟨rfl, rfl⟩
  | full => exact ⟨SamePms.updateHqc.waiting, SamePms.updateHqc.pms⟩

theorem Core.Miscounted.samePms (hc : Miscounted S s v e s') : SamePms s s' := by
  cases hc
  exact ⟨rfl, rfl⟩

theorem Core.pms_settlePm : (s.settlePm p st).pms.length = s.pms.length := by
  unfold settlePm
  split
  · exact List.length_set
  · rfl

theorem Core.waiting_settlePm : (s.settlePm p st).qcWaiting = s.qcWaiting := by
  unfold settlePm
  split <;> rfl

theorem Core.pms_settlePm_self (h : s.pms[p]? = some .pending) :
    (s.settlePm p st).pms[p]? = some st := by
  have hlt : p < s.pms.length := (List.getElem?_eq_some_iff.mp h).1
  unfold settlePm
  rw [if_pos h, List.getElem?_set_self hlt]

theorem Core.pms_settlePm_ne (h : p ≠ q) : (s.settlePm p st).pms[q]? = s.pms[q]? := by
  unfold settlePm
  split
  · exact List.getElem?_set_ne h
  · rfl

theorem lookup_filter_of_ne {l : List (Hash × Nat)} {x y : Hash} (h : x ≠ y) :
    (l.filter (·.1 ≠ y)).lookup x = l.lookup x := by
  induction l with
  | nil => rfl
  | cons a l ih =>
    obtain ⟨k, p⟩ := a
    by_cases hk : k = y
    · subst hk
      rw [List.filter_cons_of_neg (by simp), ih, List.lookup_cons, beq_false_of_ne h]
    · rw [List.filter_cons_of_pos (by simpa using hk), List.lookup_cons, List.lookup_cons, ih]

theorem Core.Numbered.same (h : Numbered s) (hs : SamePms s s') : Numbered s' :=
  h.of_eq (fun _ hx => hs.waiting ▸ hx) (by rw [hs.pms])

theorem Core.Numbered.settlePm (h : Numbered s) : Numbered (s.settlePm p st) :=
  h.of_eq (fun _ hx => (waiting_settlePm (s := s)) ▸ hx) pms_settlePm

/-- `async_qc_finish` gives a fulfilled promise where the block is certified,
the one waited for where there is one, and else a new one. -/
theorem Core.asyncQcFinish_spec {blk : Hash} : Triple (Core.asyncQcFinish S blk) s (fun p s' =>
    S.nmajority ≤ (s.voted blk).length ∧ p = s.pms.length ∧
      s' = { s with pms := s.pms ++ [.fulfilled] } ∨
    (s.voted blk).length < S.nmajority ∧ (s.qcWaiting.lookup blk = some p ∧ s' = s ∨
      s.qcWaiting.lookup blk = none ∧ p = s.pms.length ∧
        s' = { s with
          pms := s.pms ++ [.pending]
          qcWaiting := (blk, s.pms.length) :: s.qcWaiting })) (fun _ _ => False) := by
  unfold Core.asyncQcFinish
  refine .get_bind (.ite (fun hge => .set_bind (.pure' (.inl ⟨hge, rfl, rfl⟩))) fun hlt => ?_)
  have hlt : (s.voted blk).length < S.nmajority := Nat.lt_of_not_le hlt
  cases hl : s.qcWaiting.lookup blk with
  | none => exact .set_bind (.pure' (.inr ⟨hlt, .inr ⟨rfl, rfl, rfl⟩⟩))
  | some p => exact .pure' (.inr ⟨hlt, .inl ⟨rfl, rfl⟩⟩)

theorem Core.Numbered.asyncQcFinish {blk : Hash} (h : Numbered s) :
    Triple (Core.asyncQcFinish S blk) s (fun _ s' => Numbered s') (fun _ _ => False) := by
  refine asyncQcFinish_spec.mono (fun p s' hs => ?_) fun _ _ he => he
  rcases hs with ⟨-, -, rfl⟩ | ⟨-, ⟨-, rfl⟩ | ⟨-, -, rfl⟩⟩
  · intro x p hx
    have := h x p hx
    simp only [List.length_append, List.length_singleton]
    omega
  · exact h
  · intro x p hx
    simp only [List.length_append, List.length_singleton]
    rcases List.mem_cons.mp hx with hx | hx
    · cases hx
      exact Nat.lt_succ_self _
    · have := h x p hx
      omega

theorem Call.numbered (h : CoreOk S s) (hn : Numbered s) {c : Call Hash Sig} (hc : c.Sound s) :
    Triple (c.run S O) s (fun _ s' => Numbered s') (fun _ s' => Numbered s') := by
  have hspec := Call.run_spec (O := O) h hc
  have hstores {cmds parents : List Hash} {extra : List UInt8} {n s₁}
      (hp : Proposed S s cmds parents extra n s₁) : CoreOk S s₁ := (h.stores (hp.stores h.store)).1
  cases c with
  | asyncQcFinish blk =>
    exact .bind (hn.asyncQcFinish.mono (fun _ _ hs => hs) fun _ _ he => he.elim)
      fun _ _ hs => .pure' hs
  | rejectPm pm => exact .modify_bind (.pure' hn.settlePm)
  | addBlk w => exact hspec.mono (fun _ _ ⟨_, _, hst, _⟩ => hn.same hst.samePms) fun _ _ he => he.elim
  | deliver blk =>
    exact hspec.mono (fun _ _ hp => hn.same hp.2.samePms) fun _ _ hp => hn.same hp.2.samePms
  | propose cmds parents extra =>
    refine hspec.mono ?_ ?_
    · rintro _ s' ⟨n, s₁, s₂, op, hp, hu, -, hj, -⟩
      exact hn.same ((hp.samePms.trans (hu.samePms (hstores hp))).trans hj.samePms)
    · rintro _ s' (⟨-, rfl⟩ | ⟨n, s₁, hp, hr | ⟨-, hu⟩⟩)
      · exact hn
      · exact hn.same (hp.samePms.trans (hr.samePms (hstores hp)))
      · exact hn.same (hp.samePms.trans (hu.samePms (hstores hp)))
  | receiveProposal prop =>
    refine hspec.mono ?_ ?_
    · intro _ s' hr
      cases hr with
      | own _ hj => exact hn.same hj.samePms
      | other _ _ hu hj => exact hn.same ((hu.samePms h).trans hj.samePms)
    · rintro _ s' ⟨-, ⟨-, rfl⟩ | ⟨-, hr⟩⟩
      · exact hn
      · exact hn.same (hr.samePms h)
  | receiveVote v =>
    refine hspec.mono ?_ ?_
    · rintro _ s' (⟨-, rfl⟩ | hc)
      · exact hn
      · exact hn.same hc.samePms
    · rintro _ s' (⟨-, rfl⟩ | hc)
      · exact hn
      · exact hn.same hc.samePms

theorem Frame.numbered (hn : Numbered s) (f : Frame Hash) :
    Triple (resume S O.beatResp f) s (fun _ s' => Numbered s') (fun _ s' => Numbered s') := by
  refine (Frame.run_spec f).mono ?_ ?_
  · intro fs s' hp
    cases f with
    | qcFinish blk =>
      rcases hp with ⟨-, -, rfl⟩ | ⟨p, -, -, rfl⟩
      · exact hn
      · exact hn.settlePm
    | qcErase blk =>
      obtain ⟨-, rfl⟩ := hp
      exact hn.of_eq (fun _ hx => List.mem_of_mem_filter hx) rfl
    | receiveProposal_ prop op =>
      obtain ⟨-, rfl⟩ := hp
      unfold Core.tailReceived
      split
      · exact hn
      · exact hn
    | vote prop op =>
      rcases hp with ⟨-, rfl⟩ | ⟨-, ⟨-, rfl⟩ | hp⟩
      · exact hn
      · exact hn
      · exact Numbered.same (s := s.sent S prop.proposer prop.blk) hn hp.samePms
    | propose_ prop =>
      obtain ⟨-, rfl⟩ := hp
      exact hn
    | broadcast prop =>
      obtain ⟨-, rfl⟩ := hp
      exact hn
  · intro e s' hp
    cases f with
    | vote prop op =>
      obtain ⟨-, ⟨-, rfl⟩ | hp⟩ := hp
      · exact hn
      · exact Numbered.same (s := s.sent S prop.proposer prop.blk) hn hp.samePms
    | _ => exact hp.elim

theorem Watched.numbered_step (h : w.Ok S) (hn : Numbered w.replica.core) (he : w.Disciplined S e) :
    Numbered (w.step S O e).replica.core := by
  have hrun {m : CoreM Hash Sig (List (Frame Hash))} {rest}
      (hm : Triple m w.replica.core (fun _ s' => Numbered s') (fun _ s' => Numbered s')) :
      Numbered (w.replica.runOn m rest).core := by
    unfold Replica.runOn
    cases hr : m w.replica.core with
    | ok fs s' => exact hm.ok hr
    | error e s' => exact hm.error hr
  cases e with
  | call c => exact hrun (Call.numbered h.core hn (h.sound he))
  | resume =>
    simp only [Watched.step, Replica.step]
    cases w.replica.stack with
    | nil => exact hn
    | cons f rest => exact hrun (Frame.numbered hn f)

theorem Watched.numbered_init {rid : ReplicaID} : Numbered (Watched.init S rid).replica.core :=
  fun _ _ hx => absurd hx List.not_mem_nil

-- ---------------------------------------------------------------------------
-- A proposal of the chain
-- ---------------------------------------------------------------------------

/-- A block that is not decided yet is committed once the chain above it is certified. -/
theorem Core.CoreOk.commitTarget_of_locks (h : CoreOk S s) (hd : s.delivered t = true)
    (hl : S.Locks build t c) (hc : s.decision c = false) : s.commitTarget build t = some c := by
  have hup {x y} (hp : S.par y = some x) (hx : s.decision x = false) : s.decision y = false := by
    rw [Bool.eq_false_iff] at hx ⊢
    exact fun hy => hx (h.decision.mpr ((Ext.of_par hp).trans (h.decision.mp hy)))
  have hlink {x y} (hy : s.delivered y = true) (hp : S.par y = some x) (ht : S.target y = some x) :
      s.qcRef y = some x ∧ (s.parents y).head? = some x ∧ s.delivered x = true := by
    have hne := S.ne_genesis_of_par hp
    obtain ⟨t', ht', hr, -⟩ := h.store.ref hne hy
    cases ht.symm.trans ht'
    obtain ⟨p, hpar, hhead, hpd, -⟩ := h.store.link hne (.inr hy)
    cases hp.symm.trans hpar
    exact ⟨hr, hhead, hpd⟩
  cases build with
  | threeStep =>
    obtain ⟨l, ht, hp, ht', hp'⟩ := hl
    obtain ⟨hr, hhead, hld⟩ := hlink hd hp ht
    obtain ⟨hr', hhead', -⟩ := hlink hld hp' ht'
    simp [commitTarget, lockTarget, hr, hr', hhead, hhead', hc, hup hp' hc, Option.filter_some]
  | twoStep =>
    obtain ⟨hr, hhead, -⟩ := hlink hd hl.2 hl.1
    simp [commitTarget, hr, hhead, hc, Option.filter_some]

/-- What `on_propose(cmds, get_parents())` did, up to its first callback. -/
structure Core.Launch (S : Setup Hash Sig) (build : Build) (s : Core Hash Sig) (cmds : List Hash)
    (n : Hash) (s' : Core Hash Sig) : Prop where
  par : S.par n = some s.hqcTail
  target : S.target n = some s.hqc.1
  cmds : S.cmdsOf n = cmds
  self : s'.delivered n = true
  height : s'.height n = s.height s.hqcTail + 1
  delivered : ∀ y, s'.delivered y = true → s.delivered y = true ∨ y = n
  keeps : ∀ y, s.delivered y = true → s'.delivered y = true ∧ s'.height y = s.height y
  hqc : s'.hqc.1 = s.hqc.1
  pms : SamePms s s'
  voted : s'.voted = s.voted
  vheight : s'.vheight ≤ s'.height n
  id : s'.id = s.id
  exec : s'.bExec = s.bExec ∨ ∃ l, S.par l = some s'.bExec ∧
    (build = .threeStep → S.par s.hqc.1 = some l) ∧ (build = .twoStep → l = s.hqc.1)
  commit : ∀ c, S.Locks build s.hqc.1 c → s.decision c = false → s'.bExec = c

/-- `update` commits what the block of `hqc` lets it commit. -/
theorem Core.Updated.exec (h : CoreOk S s) (hu : Updated build s n s') (hq : s.qcRef n = some t)
    (htd : s.delivered t = true) : (s'.bExec = s.bExec ∨ s.commitTarget build t = some s'.bExec) ∧
      ∀ c, S.Locks build t c → s.decision c = false → s'.bExec = c := by
  have hcommit {c} (hl : S.Locks build t c) (hc : s.decision c = false) :=
    h.commitTarget_of_locks htd hl hc
  cases hu with
  | idle hidle =>
    refine ⟨.inl rfl, fun c hl hc => ?_⟩
    -- what lies above an undecided block is not decided
    rw [Bool.eq_false_iff] at hc
    have hct : S.Ext c t := by
      cases build with
      | threeStep =>
        obtain ⟨l, -, hp, -, hp'⟩ := hl
        exact (Ext.of_par hp').trans (.of_par hp)
      | twoStep => exact .of_par hl.2
    exact absurd (h.decision.mpr (hct.trans (h.decision.mp (hidle t hq)))) hc
  | advanced hb ht hd hnone =>
    rw [qcRef_of hb, ht] at hq
    cases hq
    refine ⟨.inl bExec_advance, fun c hl hc => ?_⟩
    cases (hcommit hl hc).symm.trans hnone
  | committed hb ht hd hc hrun =>
    rw [qcRef_of hb, ht] at hq
    cases hq
    obtain ⟨l, s₁, -, -, rfl⟩ := h.commit_ok hb ht hd hc hrun
    refine ⟨.inr hc, fun c' hl hc' => ?_⟩
    cases (hcommit hl hc').symm.trans hc
    rfl

/-- What `update` commits lies below the block it sees certified. -/
theorem Core.StoreOk.commitTarget_par (hs : StoreOk S s) (hc : s.commitTarget build t = some c) :
    ∃ l, S.par l = some c ∧ (build = .threeStep → S.par t = some l) ∧
      (build = .twoStep → l = t) := by
  obtain ⟨l, hl, -, hp, -, -, -, hthree⟩ := commitTarget_spec hs hc
  refine ⟨l, hp, fun hb => (hthree hb).2, fun hb => ?_⟩
  subst hb
  exact (Option.some.inj hl).symm

/-- A proposal higher than every vote that extends `b_exec` goes through. -/
theorem Core.launch (h : CoreOk S s) (ht : TailOk S s) (hv : s.vheight ≤ s.height s.hqcTail)
    (hext : S.Ext s.bExec s.hqcTail) {cmds : List Hash} :
    Triple (onPropose S build cmds s.getParents []) s
      (fun fs s' => Launch S build s cmds (s.bnew S cmds []) s' ∧
        ∃ op, fs = [.receiveProposal_ ⟨s.id, s.bnew S cmds []⟩ op,
          .propose_ ⟨s.id, s.bnew S cmds []⟩] ∧ (S.Ext s'.bLock (s.bnew S cmds []) → op = true))
      (fun _ _ => False) := by
  have hparents : ∀ x ∈ s.getParents, s.delivered x = true := fun x hx => by
    rw [List.mem_singleton.mp hx]
    exact ht.tail
  have hcertified {n s₁} (hp : Proposed S s cmds s.getParents [] n s₁) : CoreOk S s₁ ∧
      s₁.qcRef n = some s.hqc.1 ∧ s₁.delivered s.hqc.1 = true := by
    have hok₁ := (h.stores (hp.stores h.store)).1
    obtain ⟨t, ht', hr, -⟩ := hok₁.store.ref hp.ne_genesis hp.delivered_self
    cases (hp.target_eq h).symm.trans ht'
    exact ⟨hok₁, hr, ((ht.proposed h hp).grow _ (ht.delivered_hqc h)).1⟩
  refine (onPropose_votes h hparents).mono ?_ ?_
  · rintro fs s' ⟨n, s₁, s₂, op, hp, hu, hlt, hj, rfl, hop⟩
    obtain rfl := hp.bnew_eq
    refine ⟨?_, op, rfl, hj.sameChain.bLock ▸ hop⟩
    obtain ⟨hok₁, hq, htd⟩ := hcertified hp
    have hst := hp.stores h.store
    have hmoves := ht.proposed h hp
    have hsame := eq_of_storage hj.sameChain.storage
    obtain ⟨hheight, -, hdel⟩ := hu.same hok₁
    have hdel' : s'.delivered = s₁.delivered := hsame.2.2.2.2.trans hdel
    have hheight' : s'.height = s₁.height := hsame.1.trans hheight
    have hmove₂ := Chooses.updated hok₁ hmoves.tail.tails hu
    have hn := hp.height_eq (p := s.hqcTail) rfl
    obtain ⟨hexec, hcommit⟩ := hu.exec hok₁ hq htd
    obtain ⟨p, hhead, hpar⟩ := hp.par_eq
    cases hhead
    exact {
      par := hpar
      target := hp.target_eq h
      cmds := by
        obtain ⟨p, -, hwire⟩ := hp.wire_eq
        rw [Setup.cmdsOf, hwire]
        rfl
      self := hdel' ▸ hp.delivered_self
      height := by rw [hheight', hn]
      delivered := fun y hy => hp.delivered (hdel' ▸ hy)
      keeps := fun y hy => by
        rw [hdel', hheight']
        exact hmoves.grow y hy
      hqc := by
        rw [hj.sameChain.hqc, proposed_hqc (e := .notHigher) hok₁ _ (.inl hu) hmove₂, hst.hqc]
        rw [hst.hqc]
        exact hp.target_eq h
      pms := (hp.samePms.trans (hu.samePms hok₁)).trans hj.samePms
      voted := by
        rw [(SameVotes.of_storage hj.sameChain.storage).voted, (hu.sameVotes hok₁).voted, hp.voted_eq]
      vheight := by
        have hle : s₂.vheight ≤ s₂.height (s.bnew S cmds []) := Nat.le_of_lt hlt
        cases hj with
        | no => exact hle
        | yes => exact Nat.le_refl _
      id := by
        obtain ⟨hok₂, hadv₂⟩ := hok₁.updated hu
        exact ((hok₂.judged hj).2.id.trans hadv₂.id).trans hst.id
      exec := by
        rw [hj.sameChain.bExec]
        rcases hexec with heq | hc
        · exact .inl (heq.trans hst.bExec)
        · exact .inr (hok₁.store.commitTarget_par hc)
      commit := fun c hl hc => by
        rw [hj.sameChain.bExec]
        exact hcommit c hl (hst.decision ▸ hc) }
  · rintro e s' (⟨-, -, hnil⟩ | ⟨n, s₁, hp, hr | ⟨-, hu, hle⟩⟩)
    · cases hnil
    · obtain ⟨hok₁, hq, -⟩ := hcertified hp
      cases hr with
      | @intro b t c _ hb ht' hd hc hrun =>
        rw [qcRef_of hb, ht'] at hq
        cases hq
        have hbreach := (hok₁.commit_error hb ht' hd hc hrun).2.2
        rw [bExec_advance, (hp.stores h.store).bExec] at hbreach
        obtain ⟨-, -, -, -, hcd, -⟩ := commitTarget_spec hok₁.store hc
        obtain ⟨l, hpl, hthree, htwo⟩ := hok₁.store.commitTarget_par hc
        -- what is committed and `b_exec` are both below `hqc_tail`
        have hct : S.Ext c s.hqc.1 := by
          cases build with
          | threeStep => exact (Ext.of_par hpl).trans (.of_par (hthree rfl))
          | twoStep => exact .of_par (htwo rfl ▸ hpl)
        rcases Ext.total hext (hct.trans ht.ext) with hle | hle
        · exact hbreach hle
        · rw [(hp.stores h.store).decision, h.decision.mpr hle] at hcd
          cases hcd
    · have hok₁ := (hcertified hp).1
      rw [hu.vheight_eq hok₁, (hp.stores h.store).vheight, (hu.same hok₁).1,
        hp.height_eq (p := s.hqcTail) rfl] at hle
      omega

-- ---------------------------------------------------------------------------
-- Votes for stored blocks
-- ---------------------------------------------------------------------------

/-- Only delivered blocks have votes. -/
def Core.Unheard (s : Core Hash Sig) : Prop := ∀ x, s.delivered x = false → s.voted x = []

theorem Replica.Effect.unheard {r : Replica Hash Sig} (h : CoreOk S r.core) (hs : Effect S O r e s')
    (hg : Grow r.core s') (hu : Unheard r.core) : Unheard s' := by
  intro x hx
  have hold : r.core.delivered x = false := by
    rw [Bool.eq_false_iff] at hx ⊢
    exact fun hd => hx (hg.delivered hd)
  rw [← hu x hold]
  cases hs with
  | quiet hq => rw [(SameVotes.of_storage hq.storage).voted]
  | store hst => rw [hst.sameVotes.voted]
  | update hm hrun hq =>
    obtain ⟨hok, -, -, hv, -⟩ := hm.spec h
    rw [(ran_sameVotes hok hrun hq).voted, hv]
  | @count e v s₁ fs s' hq hv hc =>
    rw [(hc.voted (x := x)).2, (SameVotes.of_storage hq.storage).voted, if_neg]
    rintro rfl
    rw [← (eq_of_storage hq.storage).2.2.2.2] at hold
    cases hc with
    | part hb hd => rw [delivered_of hb, hd] at hold; cases hold
    | full hb hd => rw [delivered_of hb, hd] at hold; cases hold
  | @miscount e v s₁ err s' hq hv hc =>
    rw [(hc.voted (x := x)).2, (SameVotes.of_storage hq.storage).voted, if_neg]
    rintro rfl
    rw [← (eq_of_storage hq.storage).2.2.2.2] at hold
    cases hc with
    | intro hb hd => rw [delivered_of hb, hd] at hold; cases hold

/-- What a replica with disciplined callers keeps besides. -/
structure Watched.Steady (S : Setup Hash Sig) (w : Watched Hash Sig) : Prop where
  fluent : w.Fluent S
  numbered : Numbered w.replica.core
  unheard : Unheard w.replica.core

theorem Watched.Steady.step (h : w.Steady S) (he : w.Disciplined S e) : (w.step S O e).Steady S := by
  have hs := Replica.stepped (O := O) h.fluent.ok.core (h.fluent.ok.sound he)
  refine ⟨h.fluent.step he, numbered_step h.fluent.ok h.numbered he, ?_⟩
  exact (hs.effect h.fluent.ok.core).unheard h.fluent.ok.core (hs.coreOk h.fluent.ok.core).2.grow
    h.unheard

theorem Watched.steady_init {rid : ReplicaID} (hid : S.hasReplica rid = true) :
    (Watched.init S rid).Steady S := by
  refine ⟨fluent_init hid, numbered_init, fun x hx => ?_⟩
  simp only [Watched.init, Replica.init, Core.init, Core.delivered, Core.voted,
    Function.update_apply] at hx ⊢
  split at hx
  · cases hx
  · rename_i hne
    rw [if_neg hne]
    rfl

/-- The next frame runs without a throw. -/
theorem Watched.Steady.resumed (h : w.Steady S) (hst : w.replica.stack = f :: rest) :
    ∃ fs s', f.Post S w.replica.core fs s' ∧
      (w.step S O .resume).replica = ⟨s', fs ++ rest, w.replica.thrown⟩ := by
  have hreturns := h.fluent.returns (O := O)
  have hspec := Frame.run_spec (S := S) (O := O) (s := w.replica.core) f
  simp only [Watched.step, Replica.step, hst, Replica.runOn] at hreturns ⊢
  cases hrun : resume S O.beatResp f w.replica.core with
  | ok fs s' => exact ⟨fs, s', hspec.ok hrun, rfl⟩
  | error e s' => simp [hrun] at hreturns

/-- A vote from its handler is passed over or counted. -/
theorem Watched.Steady.heard (h : w.Steady S) (hst : w.replica.stack = []) {v : Vote Hash Sig}
    (hv : v.verify S = .ok true) (hd : w.replica.core.delivered v.blkHash = true) :
    ∃ fs s', (fs = [] ∧ s' = w.replica.core ∨ Counted S w.replica.core v fs s') ∧
      (w.step S O (.call (.receiveVote v))).replica = ⟨s', fs, w.replica.thrown⟩ := by
  have hreturns := onReceiveVote_returns h.fluent.ok.core h.fluent.sized (Vote.valid_of_verify hv) hd
  have hspec := onReceiveVote_spec (S := S) (s := w.replica.core) (v := v)
  simp only [Watched.step, Replica.step, Call.run, Replica.runOn, hst]
  cases hrun : onReceiveVote S v w.replica.core with
  | ok fs s' => exact ⟨fs, s', hspec.ok hrun, by simp⟩
  | error e s' => exact (hreturns.error hrun).elim

-- ---------------------------------------------------------------------------
-- The blocks of the chain
-- ---------------------------------------------------------------------------

/-- Blocks above `T`, the newest first, each with the next one as its parent
and certified by it; the oldest carries `cmds`. -/
inductive Links (S : Setup Hash Sig) (T : Hash) (cmds : List Hash) : List Hash → Prop
  | one (hp : S.par b = some T) (hc : S.cmdsOf b = cmds) : Links S T cmds [b]
  | more (hp : S.par b = some a) (ht : S.target b = some a) (h : Links S T cmds (a :: l)) :
      Links S T cmds (b :: a :: l)

theorem Links.height {cmds : List Hash} (h : Links S T cmds (b :: l)) (hT : S.Height T k) :
    S.Height b (k + l.length + 1) := by
  generalize hl : b :: l = bs at h
  induction h generalizing b l with
  | one hp =>
    cases hl
    exact .succ hp hT
  | more hp _ _ ih =>
    cases hl
    exact .succ hp (ih rfl)

theorem Links.ext {cmds : List Hash} (h : Links S T cmds (b :: l)) : S.Ext T b := by
  generalize hl : b :: l = bs at h
  induction h generalizing b l with
  | one hp =>
    cases hl
    exact .of_par hp
  | more hp _ _ ih =>
    cases hl
    exact .step hp (ih rfl)

theorem Links.cmds {cmds : List Hash} (h : Links S T cmds l) (hb : l.getLast? = some b) :
    S.cmdsOf b = cmds := by
  induction h with
  | one _ hc =>
    cases hb
    exact hc
  | more _ _ _ ih => exact ih (by simpa using hb)

/-- What holds of the core while the chain `blk :: older` above `T` is the last
thing proposed or delivered. -/
structure Core.Grown (S : Setup Hash Sig) (build : Build) (T : Hash) (cmds : List Hash) (blk : Hash)
    (older : List Hash) (s : Core Hash Sig) : Prop where
  links : Links S T cmds (blk :: older)
  placed : Placed S s T
  delivered : ∀ b ∈ blk :: older, s.delivered b = true
  top : ∀ y, s.delivered y = true → S.Ext blk y → y = blk
  vheight : s.vheight ≤ s.height blk
  bound : older.length ≤ build.rounds
  exec : older.length < build.rounds → S.Ext s.bExec T
  flushed : older.length = build.rounds → (blk :: older).getLast? = some s.bExec

/-- Votes have come in, promises have been settled, nothing else. -/
structure Core.Calm (s s' : Core Hash Sig) : Prop where
  delivered : s'.delivered = s.delivered
  height : s'.height = s.height
  bExec : s'.bExec = s.bExec
  vheight : s'.vheight = s.vheight

theorem Core.Calm.of_eq (hst : s'.storage = s.storage) (he : s'.bExec = s.bExec)
    (hv : s'.vheight = s.vheight) : Calm s s' :=
  ⟨(eq_of_storage hst).2.2.2.2, (eq_of_storage hst).1, he, hv⟩

theorem Core.Calm.counted (h : CoreOk S s) (ht : TailOk S s) (hc : Counted S s v fs s') :
    Calm s s' := by
  have hch := Chooses.counted h ht.tails hc
  refine ⟨hch.delivered, hch.height, hc.rest.2.1, ?_⟩
  cases hc with
  | part => rfl
  | full =>
    unfold Core.updateHqc
    split <;> rfl

theorem Core.Calm.settlePm : Calm s (s.settlePm p st) := by
  unfold Core.settlePm
  split <;> exact .of_eq rfl rfl rfl

theorem Frame.calm (h : CoreOk S s) (ht : TailOk S s) {f : Frame Hash} (hp : f.Post S s fs s') :
    Calm s s' := by
  cases f with
  | qcFinish blk =>
    rcases hp with ⟨-, -, rfl⟩ | ⟨p, -, -, rfl⟩
    · exact .of_eq rfl rfl rfl
    · exact .settlePm
  | qcErase blk =>
    obtain ⟨-, rfl⟩ := hp
    exact .of_eq rfl rfl rfl
  | receiveProposal_ prop op =>
    obtain ⟨-, rfl⟩ := hp
    unfold Core.tailReceived
    split <;> exact .of_eq rfl rfl rfl
  | vote prop op =>
    rcases hp with ⟨-, rfl⟩ | ⟨-, ⟨-, rfl⟩ | hp⟩
    · exact .of_eq rfl rfl rfl
    · exact .of_eq rfl rfl rfl
    · have hc := Calm.counted (CoreOk.sent prop.proposer prop.blk h).1 (ht.chooses .sent).tail hp
      exact ⟨hc.delivered, hc.height, hc.bExec, hc.vheight⟩
  | propose_ prop =>
    obtain ⟨-, rfl⟩ := hp
    exact .of_eq rfl rfl rfl
  | broadcast prop =>
    obtain ⟨-, rfl⟩ := hp
    exact .of_eq rfl rfl rfl

theorem Links.lower {cmds : List Hash} (h : Links S T cmds (b :: l)) (hT : S.Height T k) (hy : y ∈ l) :
    ∃ j, S.Height y j ∧ j < k + l.length + 1 := by
  generalize hl : b :: l = bs at h
  induction h generalizing b l with
  | one hp =>
    cases hl
    cases hy
  | more hp _ hrest ih =>
    cases hl
    rcases List.mem_cons.mp hy with rfl | hy
    · exact ⟨_, hrest.height hT, by simp only [List.length_cons]; omega⟩
    · obtain ⟨j, hj, hlt⟩ := ih hy rfl
      exact ⟨j, hj, by simp only [List.length_cons]; omega⟩

namespace Core.Grown

variable {cmds cmds' : List Hash} {older : List Hash}

theorem calm (g : Grown S build T cmds blk older s) (hc : Calm s s') :
    Grown S build T cmds blk older s' where
  links := g.links
  placed := g.placed.imp_right fun hp => by rwa [hc.height]
  delivered b hb := hc.delivered ▸ g.delivered b hb
  top y hy := g.top y (hc.delivered ▸ hy)
  vheight := by
    rw [hc.vheight, hc.height]
    exact g.vheight
  bound := g.bound
  exec h := hc.bExec ▸ g.exec h
  flushed h := hc.bExec ▸ g.flushed h

/-- What `on_propose` commits before the chain is long enough is not above `T`. -/
theorem exec_of_launch (h : CoreOk S s) (hT : S.Height T k) (hl : Launch S build s cmds n s')
    (hexec : S.Ext s.bExec T) (htop : S.Ext T s.hqc.1) (hj : S.Height s.hqc.1 (k + j))
    (hlt : j < build.rounds) : S.Ext s'.bExec T := by
  rcases hl.exec with heq | ⟨l, hp, hthree, htwo⟩
  · exact heq ▸ hexec
  cases build with
  | threeStep =>
    have hlt : j < 3 := hlt
    obtain ⟨i, hi, hl⟩ := hj.of_par S.par_genesis (hthree rfl)
    obtain ⟨i', rfl, hc⟩ := hl.of_par S.par_genesis hp
    have hct : S.Ext s'.bExec s.hqc.1 := (Ext.of_par hp).trans (.of_par (hthree rfl))
    exact hct.of_height_le S.par_genesis htop hc hT (by omega)
  | twoStep =>
    have hlt : j < 2 := hlt
    obtain rfl := htwo rfl
    obtain ⟨i, hi, hc⟩ := hj.of_par S.par_genesis hp
    exact (Ext.of_par hp).of_height_le S.par_genesis htop hc hT (by omega)

/-- The first block of the chain. -/
theorem start (h : CoreOk S s) (ht : TailOk S s) (hok' : CoreOk S s') (hext : S.Ext s.bExec s.hqcTail)
    (hl : Launch S build s cmds n s') (hn : s.delivered n = false) :
    Grown S build s.hqcTail cmds n [] s' where
  links := .one hl.par hl.cmds
  placed := hok'.store.placed_of_delivered (hl.keeps _ ht.tail).1
  delivered b hb := List.mem_singleton.mp hb ▸ hl.self
  top y hy hext := by
    rcases hl.delivered y hy with hy | hy
    · rcases h.store.delivered_of_ext (h.store.placed_of_delivered hy) hext with rfl | hd
      · rfl
      · rw [hn] at hd
        cases hd
    · exact hy
  vheight := hl.vheight
  bound := Nat.zero_le _
  exec _ := by
    rcases hl.exec with heq | ⟨l, hp, hthree, htwo⟩
    · exact heq ▸ hext
    · refine Ext.trans ?_ ht.ext
      cases build with
      | threeStep => exact (Ext.of_par hp).trans (.of_par (hthree rfl))
      | twoStep => exact .of_par (htwo rfl ▸ hp)
  flushed hlen := by cases build <;> cases hlen

/-- The newest block is the highest. -/
theorem lower (g : Grown S build T cmds blk older s) (h : CoreOk S s) (hy : y ∈ older) :
    s.height y < s.height blk := by
  have hT := h.store.height g.placed
  have hheight {z} (hz : z ∈ blk :: older) := h.store.height (h.store.placed_of_delivered (g.delivered z hz))
  obtain ⟨j, hj, hlt⟩ := g.links.lower hT hy
  rw [(hheight (List.mem_cons_of_mem _ hy)).unique S.par_genesis hj,
    (hheight List.mem_cons_self).unique S.par_genesis (g.links.height hT)]
  exact hlt

/-- Nothing is delivered yet on top of the chain. -/
theorem fresh (g : Grown S build T cmds blk older s) (h : CoreOk S s) (hpar : S.par n = some blk) :
    s.delivered n = false := by
  rw [Bool.eq_false_iff]
  intro hd
  have hblk := g.links.height (h.store.height g.placed)
  rw [g.top n hd (.of_par hpar)] at hpar
  have := hblk.unique S.par_genesis (.succ hpar hblk)
  omega

/-- The block of the last certificate becomes the parent of the next one. -/
theorem extend (g : Grown S build T cmds blk older s) (h : CoreOk S s) (hq : s.hqc.1 = blk)
    (htail : s.hqcTail = blk) (hlen : older.length < build.rounds)
    (hl : Launch S build s [] n s') : Grown S build T cmds n (blk :: older) s' := by
  have hT := h.store.height g.placed
  have hblk := g.links.height hT
  have hpar : S.par n = some blk := htail ▸ hl.par
  have hn := g.fresh h hpar
  have htarget : S.target n = some blk := hq ▸ hl.target
  have hexec := g.exec hlen
  refine ⟨.more hpar htarget g.links, ?_, fun b hb => ?_, fun y hy hext => ?_, hl.vheight,
    hlen, fun hlt => ?_, fun hfull => ?_⟩
  · have hTd : s.delivered T = true := by
      rcases h.store.delivered_of_ext (h.store.placed_of_delivered (g.delivered blk List.mem_cons_self))
        g.links.ext with rfl | hd
      · exact g.delivered T List.mem_cons_self
      · exact hd
    exact g.placed.imp_right fun hp => by rwa [(hl.keeps T hTd).2]
  · rcases List.mem_cons.mp hb with rfl | hb
    · exact hl.self
    · exact (hl.keeps b (g.delivered b hb)).1
  · rcases hl.delivered y hy with hy | hy
    · rcases h.store.delivered_of_ext (h.store.placed_of_delivered hy) hext with rfl | hd
      · rfl
      · rw [hn] at hd
        cases hd
    · exact hy
  · refine exec_of_launch (j := older.length + 1) h hT hl hexec (hq ▸ g.links.ext) (hq ▸ hblk) hlt
  · -- the chain is long enough: its first block is committed
    have hund {b} (hb : S.par b = some T) : s.decision b = false := by
      rw [Bool.eq_false_iff]
      intro hd
      have hle := (h.decision.mp hd).trans hexec
      have := hle.height_le S.par_genesis (.succ hb hT) hT
      omega
    have hlinks := g.links
    cases build with
    | threeStep =>
      obtain ⟨b₁, b₀, rfl⟩ := List.length_eq_two.mp (Nat.succ.inj hfull)
      cases hlinks with
      | more hp ht hrest =>
        cases hrest with
        | more hp' ht' hrest =>
          cases hrest with
          | one hp₀ _ =>
            rw [hl.commit b₀ (hq ▸ ⟨b₁, ht, hp, ht', hp'⟩) (hund hp₀)]
            rfl
    | twoStep =>
      obtain ⟨b₀, rfl⟩ := List.length_eq_one_iff.mp (Nat.succ.inj hfull)
      cases hlinks with
      | more hp ht hrest =>
        cases hrest with
        | one hp₀ _ =>
          rw [hl.commit b₀ (hq ▸ ⟨ht, hp⟩) (hund hp₀)]
          rfl

end Core.Grown

-- ---------------------------------------------------------------------------
-- Where the chain stands
-- ---------------------------------------------------------------------------

/-- The votes for `blk` are too few, and `hqc` is lower. -/
def Core.Open (S : Setup Hash Sig) (s : Core Hash Sig) (blk : Hash) : Prop :=
  (s.voted blk).length < S.nmajority ∧ s.height s.hqc.1 < s.height blk

/-- `blk` has its votes, and the next proposal goes on top of it. -/
def Core.Topped (S : Setup Hash Sig) (s : Core Hash Sig) (blk : Hash) : Prop :=
  S.nmajority ≤ (s.voted blk).length ∧ s.hqc.1 = blk ∧ s.hqcTail = blk

/-- A vote for `blk`, for a lower block, or one that certifies nothing. -/
theorem Core.Open.counted (ho : Open S s blk) (h : CoreOk S s) (ht : TailOk S s)
    (htop : ∀ y, s.delivered y = true → S.Ext blk y → y = blk)
    (hv : v.blkHash = blk ∨ v.blkHash ≠ blk ∧
      (s.height v.blkHash < s.height blk ∨ ¬ s.Completes S v)) (hc : Counted S s v fs s') :
    fs = [.qcFinish blk] ∧ Topped S s' blk ∨
      Open S s' blk ∧ (fs = [] ∨ v.blkHash ≠ blk ∧ fs = [.qcFinish v.blkHash]) := by
  have hch := Chooses.counted h ht.tails hc
  have hvoted := (hc.voted (x := blk)).2
  rcases hv with hv | hv
  · subst hv
    rw [if_pos rfl] at hvoted
    cases hc with
    | part hb _ _ hn =>
      rw [← voted_of hb] at hn
      exact .inr ⟨⟨by rw [hvoted]; exact hn, by rw [hch.height]; exact ho.2⟩, .inl rfl⟩
    | @full b q hb _ _ hn =>
      rw [← voted_of hb] at hn
      refine .inl ⟨rfl, by rw [hvoted]; exact Nat.le_of_eq hn.symm, ?_⟩
      have hlt := ho.2
      have hheight : (s.setBlk v.blkHash
          { b with voted := v.voter :: b.voted, selfQc := some q }).height = s.height :=
        (Chooses.votes (S := S) hb).height
      generalize hs₁ : s.setBlk v.blkHash { b with voted := v.voter :: b.voted, selfQc := some q }
        = s₁ at *
      have hq₁ : s₁.hqc = s.hqc := by rw [← hs₁]; rfl
      have hq : (s₁.updateHqc v.blkHash q).hqc.1 = v.blkHash := by
        unfold Core.updateHqc
        rw [if_pos (by rw [hheight, hq₁]; exact hlt)]
      refine ⟨hq, ?_⟩
      rcases hch.hqc with ⟨heq, -⟩ | ⟨-, hbest⟩
      · rw [← heq, hq] at hlt
        exact absurd hlt (Nat.lt_irrefl _)
      · rcases hbest.mem with hm | hm
        · exact hm.trans hq
        · have hext := hbest.ext
          rw [hq] at hext
          exact htop _ (ht.tails _ (hch.tails ▸ hm)) hext
  · obtain ⟨hne, hv⟩ := hv
    rw [if_neg (Ne.symm hne)] at hvoted
    cases hc with
    | part => exact .inr ⟨⟨by rw [hvoted]; exact ho.1, by rw [hch.height]; exact ho.2⟩, .inl rfl⟩
    | @full b q hb hd hnew hn hq =>
      have hlow : s.height v.blkHash < s.height blk := by
        refine hv.resolve_right fun hcomp => hcomp ⟨?_, ?_⟩
        · rwa [voted_of hb]
        · rw [voted_of hb]
          exact hn
      refine .inr ⟨⟨by rw [hvoted]; exact ho.1, ?_⟩, .inr ⟨hne, rfl⟩⟩
      rw [hch.height]
      rcases (Counted.full hb hd hnew hn hq).rest.2.2 with heq | ⟨q', heq, -⟩
      · rw [heq]
        exact ho.2
      · rw [heq]
        exact hlow

/-- The callback of `pm_qc_manual` hangs on a pending promise that only `blk` fulfils. -/
structure Core.Attached (s : Core Hash Sig) (blk : Hash) (pm : Nat) : Prop where
  lookup : s.qcWaiting.lookup blk = some pm
  pending : s.pms[pm]? = some .pending
  only : ∀ y, (y, pm) ∈ s.qcWaiting → y = blk

/-- What `on_propose` has left to run for the newest block. -/
inductive Making (S : Setup Hash Sig) (s : Core Hash Sig) (announced : List Hash)
    (prop : Proposal Hash) : List (Frame Hash) → Prop
  | receive (ho : Open S s prop.blk) :
      Making S s announced prop [.receiveProposal_ prop op, .propose_ prop]
  | vote (ho : Open S s prop.blk) : Making S s announced prop [.vote prop op, .propose_ prop]
  | finish (ht : Topped S s prop.blk) :
      Making S s announced prop [.qcFinish prop.blk, .propose_ prop]
  | tell (h : Open S s prop.blk ∨ Topped S s prop.blk) : Making S s announced prop [.propose_ prop]
  | send (h : Open S s prop.blk ∨ Topped S s prop.blk) (ha : prop.blk ∈ announced) :
      Making S s announced prop [.broadcast prop]

theorem Making.ne_nil {prop : Proposal Hash} (hm : Making S s announced prop above) : above ≠ [] := by
  cases hm <;> exact List.cons_ne_nil _ _

/-- At most the end of `on_qc_finish` for another block. -/
def Core.Quiet (s : Core Hash Sig) (blk : Hash) (st : List (Frame Hash)) : Prop :=
  st = [] ∨ ∃ y, y ≠ blk ∧ s.delivered y = true ∧ st = [.qcErase y]

/-- The round, with the frames on the stack. -/
inductive Phase (S : Setup Hash Sig) (build : Build) (s : Core Hash Sig) (announced : List Hash)
    (blk : Hash) (x : Nat) : Round Hash → List (Frame Hash) → Prop
  | proposing (hp : prop.blk = blk) (hm : Making S s announced prop above)
      (hb : s.Quiet blk below) (hw : ∀ p, (blk, p) ∉ s.qcWaiting) :
      Phase S build s announced blk x (.proposing x blk below) (above ++ below)
  | waiting (ho : Open S s blk) (ha : s.Attached blk pm)
      (hst : s.Quiet blk st ∨ ∃ y, y ≠ blk ∧ s.delivered y = true ∧ st = [.qcFinish y]) :
      Phase S build s announced blk x (.waiting x pm) st
  | finishing (ht : Topped S s blk) (ha : s.Attached blk pm) :
      Phase S build s announced blk x (.waiting x pm) [.qcFinish blk]
  | returned (hx : x = build.rounds) : Phase S build s announced blk x .returned st

structure Manual.Ok (S : Setup Hash Sig) (O : Options) (T : Hash) (cmds : List Hash)
    (m : Manual Hash Sig) : Prop where
  steady : m.watched.Steady S
  chain : ∃ blk older, m.chain = blk :: older ∧ Grown S O.build T cmds blk older m.core ∧
    Phase S O.build m.core m.watched.announced blk older.length m.round m.watched.replica.stack

theorem Watched.step_asyncQcFinish
    (h : asyncQcFinish S blk w.replica.core = .ok p s') :
    w.step S O (.call (.asyncQcFinish blk)) =
      ⟨⟨s', w.replica.stack, w.replica.thrown⟩, w.announced⟩ := by
  simp [Watched.step, Watched.announce, Replica.step, Replica.runOn, Call.run, bind, EStateM.bind, h,
    pure, EStateM.pure]

theorem Watched.step_rejectPm : w.step S O (.call (.rejectPm p)) =
    ⟨⟨w.replica.core.settlePm p .rejected, w.replica.stack, w.replica.thrown⟩, w.announced⟩ := rfl

/-- A reject changes the state of promises only. -/
theorem Watched.Steady.reject (h : w.Steady S) (pm : Option Nat) : ∃ l, w.reject S O pm =
    ⟨⟨{ w.replica.core with pms := l }, w.replica.stack, w.replica.thrown⟩, w.announced⟩ ∧
      (w.reject S O pm).Steady S := by
  cases pm with
  | none => exact ⟨w.replica.core.pms, rfl, h⟩
  | some pm =>
    have hs : (w.step S O (.call (.rejectPm pm))).Steady S := h.step trivial
    have heq : ∃ l, w.replica.core.settlePm pm .rejected = { w.replica.core with pms := l } := by
      unfold Core.settlePm
      split
      · exact ⟨_, rfl⟩
      · exact ⟨w.replica.core.pms, rfl⟩
    obtain ⟨l, heq⟩ := heq
    refine ⟨l, ?_, hs⟩
    show w.step S O (.call (.rejectPm pm)) = _
    rw [Watched.step_rejectPm, heq]

/-- Nobody waits for the block yet: its promise is fulfilled, or pending and its own. -/
theorem Watched.Steady.awaits (h : w.Steady S) (hw : ∀ p, (blk, p) ∉ w.replica.core.qcWaiting)
    (ha : blk = S.genesis ∨ blk ∈ w.announced) : ∃ pm l q,
    asyncQcFinish S blk w.replica.core = .ok pm { w.replica.core with pms := l, qcWaiting := q } ∧
      Watched.Steady S ⟨⟨{ w.replica.core with pms := l, qcWaiting := q }, w.replica.stack,
        w.replica.thrown⟩, w.announced⟩ ∧
      (S.nmajority ≤ (w.replica.core.voted blk).length ∧ l[pm]? = some .fulfilled ∨
        (w.replica.core.voted blk).length < S.nmajority ∧
          Attached { w.replica.core with pms := l, qcWaiting := q } blk pm) := by
  have hspec : Triple (asyncQcFinish S blk) w.replica.core _ _ := asyncQcFinish_spec
  cases hrun : asyncQcFinish S blk w.replica.core with
  | error e s' => exact (hspec.error hrun).elim
  | ok pm s' =>
    have hs := h.step (O := ⟨.threeStep, id⟩) (e := .call (.asyncQcFinish blk)) ha
    rw [Watched.step_asyncQcFinish hrun] at hs
    rcases hspec.ok hrun with ⟨hge, rfl, rfl⟩ | ⟨hlt, ⟨hl, -⟩ | ⟨hnone, rfl, rfl⟩⟩
    · exact ⟨_, _, _, rfl, hs, .inl ⟨hge, by simp⟩⟩
    · obtain ⟨l₁, l₂, heq, -⟩ := List.lookup_eq_some_iff.mp hl
      have hmem : (blk, pm) ∈ w.replica.core.qcWaiting := by
        rw [heq]
        exact List.mem_append_right _ List.mem_cons_self
      exact absurd hmem (hw pm)
    · refine ⟨_, _, _, rfl, hs, .inr ⟨hlt, by simp, by simp, fun y hy => ?_⟩⟩
      rcases List.mem_cons.mp hy with hy | hy
      · cases hy
        rfl
      · have := h.numbered y _ hy
        exact absurd this (Nat.lt_irrefl _)

section
variable {above below : List (Frame Hash)} {prop : Proposal Hash}

/-- `on_propose(cmds, get_parents())` above the frames of a callback. -/
theorem Watched.Steady.launched (h : w.Steady S) {cs : List Hash} (hmay : MayPropose w.replica)
    (hv : w.replica.core.vheight ≤ w.replica.core.height w.replica.core.hqcTail)
    (hext : S.Ext w.replica.core.bExec w.replica.core.hqcTail)
    (hn : w.replica.core.delivered (w.replica.core.bnew S cs []) = false) :
    let blk := w.replica.core.bnew S cs []
    let prop : Proposal Hash := ⟨w.replica.core.id, blk⟩
    ∃ fs s' op, onPropose S O.build cs w.replica.core.getParents [] w.replica.core = .ok fs s' ∧
      w.step S O (.call (.propose cs w.replica.core.getParents [])) =
        ⟨⟨s', [.receiveProposal_ prop op, .propose_ prop] ++ w.replica.stack, w.replica.thrown⟩,
          w.announced⟩ ∧
      Launch S O.build w.replica.core cs blk s' ∧ Open S s' blk ∧
      (∀ p, (blk, p) ∉ s'.qcWaiting) ∧ (S.Ext s'.bLock blk → op = true) := by
  intro blk prop
  have hok := h.fluent.ok
  have hlaunch : Triple (onPropose S O.build cs w.replica.core.getParents []) w.replica.core _ _ :=
    Core.launch hok.core hok.tail hv hext
  cases hrun : onPropose S O.build cs w.replica.core.getParents [] w.replica.core with
  | error e s' => exact (hlaunch.error hrun).elim
  | ok fs s' =>
    obtain ⟨hl, op, rfl, hop⟩ := hlaunch.ok hrun
    refine ⟨_, s', op, rfl, ?_, hl, ⟨?_, ?_⟩, fun p hp => ?_, hop⟩
    · simp only [Watched.step, Watched.announce, Replica.step, Call.run, Replica.runOn, hrun]
      rfl
    · rw [hl.voted, h.unheard _ hn]
      have hpos : 0 < S.nreplicas := Nat.zero_lt_of_lt (of_decide_eq_true h.fluent.id)
      have := S.three_nfaulty_lt hpos
      simp only [List.length_nil, Setup.nmajority]
      omega
    · have hq := hok.tail.delivered_hqc hok.core
      have hle := hok.tail.ext.height_le S.par_genesis
        (hok.core.store.height (hok.core.store.placed_of_delivered hq))
        (hok.core.store.height (hok.core.store.placed_of_delivered hok.tail.tail))
      rw [hl.hqc, (hl.keeps _ hq).2, hl.height]
      omega
    · -- only delivered blocks are waited for
      have hp : (w.replica.core.bnew S cs [], p) ∈ s'.qcWaiting := hp
      rw [hl.pms.waiting] at hp
      rcases hok.settled.waiting _ p hp with hg | hann
      · rw [hg, hok.core.store.delivered_genesis] at hn
        cases hn
      · rw [(hok.settled.outgrown _ hann).2.1] at hn
        cases hn

/-- The frames of `on_propose` for the newest block. -/
theorem Watched.Steady.making (h : w.Steady S)
    (htop : ∀ y, w.replica.core.delivered y = true → S.Ext prop.blk y → y = prop.blk)
    (hst : w.replica.stack = above ++ below) (hm : Making S w.replica.core w.announced prop above)
    (hw : ∀ p, (prop.blk, p) ∉ w.replica.core.qcWaiting) :
    ∃ above' s', (w.step S O .resume).replica = ⟨s', above' ++ below, w.replica.thrown⟩ ∧
      Calm w.replica.core s' ∧ (∀ p, (prop.blk, p) ∉ s'.qcWaiting) ∧
      (above.length = 2 → .propose_ prop ∈ above') ∧
      (Making S s' (w.step S O .resume).announced prop above' ∨
        above' = [] ∧ prop.blk ∈ (w.step S O .resume).announced ∧
          (Open S s' prop.blk ∨ Topped S s' prop.blk)) := by
  have hok := h.fluent.ok
  cases hm with
  | @receive op ho =>
    obtain ⟨fs, s', ⟨rfl, rfl⟩, hrun⟩ := h.resumed (O := O) hst
    have hsame : (w.replica.core.tailReceived prop.blk).storage = w.replica.core.storage ∧
        (w.replica.core.tailReceived prop.blk).hqc = w.replica.core.hqc ∧
        (w.replica.core.tailReceived prop.blk).qcWaiting = w.replica.core.qcWaiting := by
      unfold Core.tailReceived
      split <;> exact ⟨rfl, rfl, rfl⟩
    refine ⟨[.vote prop op, .propose_ prop], _, hrun, ?_, ?_, fun _ => by simp, .inl (.vote ⟨?_, ?_⟩)⟩
    · exact Frame.calm hok.core hok.tail (f := .receiveProposal_ prop op) ⟨rfl, rfl⟩
    · intro p
      rw [hsame.2.2]
      exact hw p
    · rw [(SameVotes.of_storage hsame.1).voted]
      exact ho.1
    · rw [hsame.2.1, (eq_of_storage hsame.1).1]
      exact ho.2
  | @vote op ho =>
    obtain ⟨fs, s', hpost, hrun⟩ := h.resumed (O := O) hst
    have hcalm := Frame.calm hok.core hok.tail hpost
    rcases hpost with ⟨rfl, rfl⟩ | ⟨-, ⟨rfl, rfl⟩ | hc⟩
    · exact ⟨[.propose_ prop], _, hrun, hcalm, hw, fun _ => by simp, .inl (.tell (.inl ho))⟩
    · exact ⟨[.propose_ prop], _, hrun, hcalm, hw, fun _ => by simp, .inl (.tell (.inl ho))⟩
    · have hsent := (CoreOk.sent prop.proposer prop.blk hok.core).1
      have hwait : s'.qcWaiting = w.replica.core.qcWaiting := hc.samePms.waiting
      have hopen : Open S (w.replica.core.sent S prop.proposer prop.blk) prop.blk := ho
      rcases hopen.counted hsent (hok.tail.chooses .sent).tail htop (.inl rfl) hc with
        ⟨rfl, ht⟩ | ⟨ho', rfl | ⟨hne, -⟩⟩
      · refine ⟨[.qcFinish prop.blk, .propose_ prop], s', hrun, hcalm, ?_, fun _ => by simp, .inl (.finish ht)⟩
        rw [hwait]
        exact hw
      · refine ⟨[.propose_ prop], s', hrun, hcalm, ?_, fun _ => by simp, .inl (.tell (.inl ho'))⟩
        rw [hwait]
        exact hw
      · exact absurd rfl hne
  | finish ht =>
    obtain ⟨fs, s', hpost, hrun⟩ := h.resumed (O := O) hst
    rcases hpost with ⟨-, rfl, rfl⟩ | ⟨p, hl, -, -⟩
    · exact ⟨[.propose_ prop], _, hrun, .of_eq rfl rfl rfl, hw, fun _ => by simp,
        .inl (.tell (.inr ht))⟩
    · obtain ⟨l₁, l₂, heq, -⟩ := List.lookup_eq_some_iff.mp hl
      have hmem : (prop.blk, p) ∈ w.replica.core.qcWaiting := by
        rw [heq]
        exact List.mem_append_right _ List.mem_cons_self
      exact absurd hmem (hw p)
  | tell ho =>
    obtain ⟨fs, s', ⟨rfl, rfl⟩, hrun⟩ := h.resumed (O := O) hst
    have hann : prop.blk ∈ (w.step S O .resume).announced := by
      simp only [Watched.step, Watched.announce, hst, List.cons_append]
      exact List.mem_cons_self
    refine ⟨[.broadcast prop], _, hrun, .of_eq rfl rfl rfl, hw, by simp, .inl (.send ?_ hann)⟩
    rcases ho with ho | ht
    · exact .inl ho
    · exact .inr ⟨ht.1, ht.2.1, rfl⟩
  | send ho ha =>
    obtain ⟨fs, s', ⟨rfl, rfl⟩, hrun⟩ := h.resumed (O := O) hst
    have hann : (w.step S O .resume).announced = w.announced := by
      simp only [Watched.step, Watched.announce, hst, List.cons_append]
    refine ⟨[], _, hrun, .of_eq rfl rfl rfl, hw, by simp, .inr ⟨rfl, ?_, ho⟩⟩
    rw [hann]
    exact ha

end

namespace Manual

variable {m : Manual Hash Sig} {T : Hash} {cmds : List Hash} {blk : Hash} {older : List Hash}
  {above below : List (Frame Hash)} {prop : Proposal Hash} {pm : Nat}

-- ---------------------------------------------------------------------------
-- What the pacemaker does
-- ---------------------------------------------------------------------------

/-- `do_new_consensus` where its `on_propose` goes through. -/
theorem ok_propose (h : m.watched.Steady S) {cs : List Hash}
    (hst : m.watched.replica.stack = [] ∨
      ∃ y, m.core.delivered y = true ∧ m.watched.replica.stack = [.qcErase y])
    (hv : m.core.vheight ≤ m.core.height m.core.hqcTail)
    (hext : S.Ext m.core.bExec m.core.hqcTail) (hn : m.core.delivered (m.core.bnew S cs []) = false)
    (hg : ∀ s', CoreOk S s' → Launch S O.build m.core cs (m.core.bnew S cs []) s' →
      Grown S O.build T cmds (m.core.bnew S cs []) m.chain s') :
    (m.doNewConsensus S O m.chain.length cs).Ok S O T cmds := by
  have hmay : Watched.MayPropose m.watched.replica := by
    unfold Watched.MayPropose
    rcases hst with hst | ⟨y, -, hst⟩
    · rw [hst]
      trivial
    · rw [hst]
      trivial
  obtain ⟨fs, s', op, hrun, hw, hl, ho, hwait, -⟩ := h.launched (O := O) hmay hv hext hn
  have hstep : (m.watched.step S O (.call (.propose cs m.core.getParents []))).Steady S :=
    h.step ⟨rfl, hmay⟩
  unfold doNewConsensus
  rw [hw] at hstep
  simp only [hw, core, hrun]
  refine ⟨hstep, _, _, rfl, hg s' hstep.fluent.ok.core hl, .proposing rfl (.receive ho) ?_ hwait⟩
  rcases hst with hst | ⟨y, hy, hst⟩
  · exact .inl hst
  · refine .inr ⟨y, ?_, (hl.keeps y hy).1, hst⟩
    rintro rfl
    rw [hn] at hy
    cases hy

/-- The callback of `pm_qc_manual` once the newest block has its votes. -/
theorem ok_gotQC (h : m.watched.Steady S) (hc : m.chain = blk :: older)
    (g : Grown S O.build T cmds blk older m.core) (ht : Topped S m.core blk)
    (hst : m.watched.replica.stack = [] ∨
      ∃ y, m.core.delivered y = true ∧ m.watched.replica.stack = [.qcErase y]) :
    (m.gotQC S O older.length).Ok S O T cmds := by
  have hok := h.fluent.ok.core
  obtain ⟨-, hq, htail⟩ := ht
  unfold gotQC
  split
  · exact ⟨h, blk, older, hc, g, .returned (Nat.le_antisymm g.bound ‹_›)⟩
  · rename_i hlt
    have hlt : older.length < O.build.rounds := Nat.lt_of_not_le hlt
    have hlen : older.length + 1 = m.chain.length := by rw [hc]; rfl
    have hpar : S.par (m.core.bnew S [] []) = some blk := by
      rw [bnew, par_of_wire (S.wireOf_hash _)]
      exact congrArg some htail
    rw [hlen]
    refine ok_propose h hst ?_ ?_ (g.fresh hok hpar) fun s' _ hl => ?_
    · rw [htail]
      exact g.vheight
    · rw [htail]
      exact (g.exec hlt).trans g.links.ext
    · rw [hc]
      exact g.extend hok hq htail hlt hl

theorem rejected_spec (h : m.watched.Steady S) : ∃ l, m.rejected S O =
    ⟨⟨{ m.core with pms := l }, m.watched.replica.stack, m.watched.replica.thrown⟩,
      m.watched.announced⟩ ∧ (m.rejected S O).Steady S := by
  have heq : m.rejected S O = m.watched.reject S O m.pmQcManual := by
    unfold rejected Watched.reject
    cases m.pmQcManual <;> rfl
  rw [heq]
  exact h.reject m.pmQcManual

/-- `do_new_consensus` after `on_propose` has returned. -/
theorem ok_attach (h : m.watched.Steady S) (hc : m.chain = blk :: older)
    (g : Grown S O.build T cmds blk older m.core) (hq : Open S m.core blk ∨ Topped S m.core blk)
    (hw : ∀ p, (blk, p) ∉ m.core.qcWaiting) (ha : blk ∈ m.watched.announced)
    (hst : m.core.Quiet blk m.watched.replica.stack) :
    ((m.attach S O older.length blk).fulfil S O).Ok S O T cmds := by
  obtain ⟨l, hwl, hsteady⟩ := rejected_spec (O := O) h
  generalize hrej : m.rejected S O = w at hwl hsteady
  subst hwl
  obtain ⟨pm, l', q, hrun, hs, hpm⟩ := hsteady.awaits hw (.inr ha)
  unfold attach
  simp only [hrej, hrun, Watched.step_asyncQcFinish hrun, fulfil, core]
  rcases hpm with ⟨hge, hpm⟩ | ⟨hlt, hpm⟩
  · have ht := hq.resolve_left fun ho => absurd hge (Nat.not_le_of_lt ho.1)
    rw [if_pos hpm]
    refine ok_gotQC hs hc (g.calm (.of_eq rfl rfl rfl)) ht ?_
    rcases hst with hst | ⟨y, -, hy, hst⟩
    · exact .inl hst
    · exact .inr ⟨y, hy, hst⟩
  · have ho := hq.resolve_right fun ht => absurd hlt (Nat.not_lt_of_le ht.1)
    rw [if_neg (by rw [hpm.pending]; simp)]
    exact ⟨hs, blk, older, hc, g.calm (.of_eq rfl rfl rfl), .waiting ho hpm (.inl hst)⟩

/-- While `on_propose` runs. -/
theorem ok_proposing (h : m.Ok S O T cmds) (hc : m.chain = blk :: older)
    (g : Grown S O.build T cmds blk older m.core)
    (hr : m.round = .proposing older.length blk below)
    (hst : m.watched.replica.stack = above ++ below) (hp : prop.blk = blk)
    (hm : Making S m.core m.watched.announced prop above)
    (hb : m.core.Quiet blk below) (hw : ∀ p, (blk, p) ∉ m.core.qcWaiting) :
    (m.step S O .resume).Ok S O T cmds := by
  have hsteady : (m.watched.step S O .resume).Steady S := h.steady.step trivial
  have htop : ∀ y, m.core.delivered y = true → S.Ext prop.blk y → y = prop.blk := by
    rw [hp]
    exact g.top
  rw [← hp] at hw
  obtain ⟨above', s', hrun, hcalm, hw', -, hm'⟩ := h.steady.making (O := O) htop hst hm hw
  rw [hp] at hw' hm'
  have hb' : s'.Quiet blk below := by
    rcases hb with hb | ⟨y, hne, hy, hb⟩
    · exact .inl hb
    · exact .inr ⟨y, hne, hcalm.delivered ▸ hy, hb⟩
  have hg' := g.calm hcalm
  unfold step settle
  simp only [hr]
  generalize m.watched.step S O .resume = w at *
  rcases hm' with hm' | ⟨rfl, ha, hq⟩
  · have hne : w.replica.stack ≠ below := by
      rw [hrun]
      intro heq
      exact hm'.ne_nil (List.append_left_eq_self.mp heq)
    rw [if_neg hne]
    refine ⟨hsteady, blk, older, hc, ?_, ?_⟩
    · simp only [core, hrun]
      exact hg'
    · simp only [core, hrun, hr]
      exact .proposing hp hm' hb' hw'
  · have heq : w.replica.stack = below := by
      rw [hrun]
      rfl
    rw [if_pos heq]
    have hcore : w.replica.core = s' := by rw [hrun]
    refine ok_attach hsteady hc ?_ ?_ ?_ ha ?_
    · simp only [core, hcore]
      exact hg'
    · simp only [core, hcore]
      exact hq
    · simp only [core, hcore]
      exact hw'
    · simp only [core, hcore, heq]
      exact hb'

theorem settle_waiting {w : Watched Hash Sig} (hr : m.round = .waiting x pm)
    (hp : w.replica.core.pms[pm]? = some .pending) :
    settle S O { m with watched := w } = { m with watched := w } := by
  simp only [settle, fulfil, hr, core, hp, Option.some.injEq, reduceCtorEq, ↓reduceIte]

/-- While the callback waits. -/
theorem ok_waiting {w : Watched Hash Sig} (h : w.Steady S) (hc : m.chain = blk :: older)
    (g : Grown S O.build T cmds blk older w.replica.core)
    (hr : m.round = .waiting older.length pm) (ho : Open S w.replica.core blk)
    (ha : w.replica.core.Attached blk pm)
    (hst : w.replica.core.Quiet blk w.replica.stack ∨ ∃ y, y ≠ blk ∧
      w.replica.core.delivered y = true ∧ w.replica.stack = [.qcFinish y]) :
    (settle S O { m with watched := w }).Ok S O T cmds := by
  rw [settle_waiting hr ha.pending]
  refine ⟨h, blk, older, hc, g, ?_⟩
  simp only [hr]
  exact .waiting ho ha hst

/-- The chain has ended. -/
theorem ok_returned {w : Watched Hash Sig} (h : w.Steady S) (hc : m.chain = blk :: older)
    (g : Grown S O.build T cmds blk older w.replica.core) (hr : m.round = .returned)
    (hx : older.length = O.build.rounds) :
    (settle S O { m with watched := w }).Ok S O T cmds := by
  have heq : settle S O { m with watched := w } = { m with watched := w } := by
    simp only [settle, fulfil, hr]
  rw [heq]
  refine ⟨h, blk, older, hc, g, ?_⟩
  simp only [hr]
  exact .returned hx

/-- The next frame. -/
theorem ok_resume (h : m.Ok S O T cmds) : (m.step S O .resume).Ok S O T cmds := by
  obtain ⟨blk, older, hc, g, hph⟩ := h.chain
  have hok := h.steady.fluent.ok
  have hsteady : (m.watched.step S O .resume).Steady S := h.steady.step trivial
  generalize hr : m.round = round at hph
  generalize hst : m.watched.replica.stack = st at hph
  cases hph with
  | proposing hp hm hb hw => exact ok_proposing h hc g hr hst hp hm hb hw
  | waiting ho ha hst' =>
    rename_i pm
    have hwait {s' : Core Hash Sig} {fs : List (Frame Hash)}
        (hrun : (m.watched.step S O .resume).replica = ⟨s', fs, m.watched.replica.thrown⟩)
        (hcalm : Calm m.core s') (ho' : Open S s' blk) (ha' : s'.Attached blk pm)
        (hq : s'.Quiet blk fs) : (m.step S O .resume).Ok S O T cmds := by
      refine ok_waiting (w := m.watched.step S O .resume) hsteady hc ?_ hr ?_ ?_ ?_
      · rw [hrun]
        exact g.calm hcalm
      · rw [hrun]
        exact ho'
      · rw [hrun]
        exact ha'
      · rw [hrun]
        exact .inl hq
    rcases hst' with (rfl | ⟨y, hne, hy, rfl⟩) | ⟨y, hne, hy, rfl⟩
    · have hrun : (m.watched.step S O .resume).replica =
          ⟨m.core, [], m.watched.replica.thrown⟩ := by
        simp only [Watched.step, Replica.step, hst, core]
        rw [← hst]
      exact hwait hrun (.of_eq rfl rfl rfl) ho ha (.inl rfl)
    · obtain ⟨fs, s', ⟨rfl, rfl⟩, hrun⟩ := h.steady.resumed (O := O) hst
      refine hwait hrun (.of_eq rfl rfl rfl) ho ⟨?_, ha.pending, fun z hz => ?_⟩ (.inl rfl)
      · show (m.core.qcWaiting.filter (·.1 ≠ y)).lookup blk = some pm
        rw [lookup_filter_of_ne (Ne.symm hne)]
        exact ha.lookup
      · exact ha.only z (List.mem_of_mem_filter hz)
    · obtain ⟨fs, s', hpost, hrun⟩ := h.steady.resumed (O := O) hst
      rcases hpost with ⟨-, rfl, rfl⟩ | ⟨p, hl, rfl, rfl⟩
      · exact hwait hrun (.of_eq rfl rfl rfl) ho ha (.inl rfl)
      · -- the promise of another block is another promise
        have hpm : p ≠ pm := by
          rintro rfl
          obtain ⟨l₁, l₂, heq, -⟩ := List.lookup_eq_some_iff.mp hl
          refine hne (ha.only y ?_)
          rw [heq]
          exact List.mem_append_right _ List.mem_cons_self
        refine hwait hrun .settlePm ?_ ⟨?_, ?_, ?_⟩ (.inr ⟨y, hne, ?_, rfl⟩)
        · unfold Core.settlePm
          split
          · exact ho
          · exact ho
        · rw [waiting_settlePm]
          exact ha.lookup
        · rw [pms_settlePm_ne hpm]
          exact ha.pending
        · rw [waiting_settlePm]
          exact ha.only
        · rw [Calm.settlePm.delivered]
          exact hy
  | finishing ht ha =>
    rename_i pm
    obtain ⟨fs, s', hpost, hrun⟩ := h.steady.resumed (O := O) hst
    rcases hpost with ⟨hl, -, -⟩ | ⟨p, hl, rfl, rfl⟩
    · rw [ha.lookup] at hl
      cases hl
    · cases ha.lookup.symm.trans hl
      have hcalm : Calm m.core (m.core.settlePm pm .fulfilled) := .settlePm
      have hset : (m.core.settlePm pm .fulfilled).pms[pm]? = some .fulfilled :=
        pms_settlePm_self ha.pending
      have htopped : Topped S (m.core.settlePm pm .fulfilled) blk := by
        unfold Core.settlePm
        split
        · exact ht
        · exact ht
      unfold step settle
      simp only [hr]
      generalize m.watched.step S O .resume = w at *
      have hcore : w.replica.core = m.core.settlePm pm .fulfilled := by rw [hrun]
      have hstack : w.replica.stack = [.qcErase blk] := by rw [hrun]; rfl
      simp only [fulfil, core, hr, hcore]
      rw [if_pos hset]
      refine ok_gotQC hsteady hc ?_ ?_ (.inr ⟨blk, ?_, hstack⟩)
      · simp only [core, hcore]
        exact g.calm hcalm
      · simp only [core, hcore]
        exact htopped
      · simp only [core, hcore]
        rw [hcalm.delivered]
        exact g.delivered blk List.mem_cons_self
  | returned hx =>
    have hcalm : Calm m.core (m.watched.step S O .resume).replica.core := by
      cases hf : m.watched.replica.stack with
      | nil =>
        simp only [Watched.step, Replica.step, hf]
        exact .of_eq rfl rfl rfl
      | cons f rest =>
        obtain ⟨fs, s', hpost, hrun⟩ := h.steady.resumed (O := O) hf
        rw [hrun]
        exact Frame.calm hok.core hok.tail hpost
    exact ok_returned hsteady hc (g.calm hcalm) hr hx

/-- A vote. -/
theorem ok_vote (h : m.Ok S O T cmds) (ha : m.Admits S (.vote v)) :
    (m.step S O (.vote v)).Ok S O T cmds := by
  obtain ⟨blk, older, hc, g, hph⟩ := h.chain
  obtain ⟨hempty, hv, hd, hfor⟩ := ha
  have hok := h.steady.fluent.ok
  have hdis : m.watched.Disciplined S (.call (.receiveVote v)) := hempty
  have hsteady : (m.watched.step S O (.call (.receiveVote v))).Steady S := h.steady.step hdis
  have hfor : v.blkHash = blk ∨ v.blkHash ≠ blk ∧
      (m.core.height v.blkHash < m.core.height blk ∨ ¬ m.core.Completes S v) := by
    rw [hc] at hfor
    rcases eq_or_ne v.blkHash blk with heq | hne
    · exact .inl heq
    · refine .inr ⟨hne, ?_⟩
      rcases hfor with hmem | hlow | hpart
      · exact .inl (g.lower hok.core ((List.mem_cons.mp hmem).resolve_left hne))
      · exact .inl (hlow blk rfl)
      · exact .inr hpart
  obtain ⟨fs, s', hs', hrun⟩ := h.steady.heard (O := O) hempty hv hd
  generalize hr : m.round = round at hph
  rw [hempty] at hph
  generalize hst : ([] : List (Frame Hash)) = st at hph
  cases hph with
  | proposing hp hm hb hw => exact absurd (List.append_eq_nil_iff.mp hst.symm).1 hm.ne_nil
  | waiting ho ha hst' =>
    rename_i pm
    rcases hs' with ⟨rfl, rfl⟩ | hcount
    · refine ok_waiting (w := m.watched.step S O (.call (.receiveVote v))) hsteady hc ?_ hr ?_ ?_ ?_
      all_goals rw [hrun]
      · exact g
      · exact ho
      · exact ha
      · exact .inl (.inl rfl)
    · have hcalm := Calm.counted hok.core hok.tail hcount
      have ha' : s'.Attached blk pm := by
        refine ⟨?_, ?_, ?_⟩
        · rw [hcount.samePms.waiting]
          exact ha.lookup
        · rw [hcount.samePms.pms]
          exact ha.pending
        · rw [hcount.samePms.waiting]
          exact ha.only
      rcases ho.counted hok.core hok.tail g.top hfor hcount with ⟨rfl, ht⟩ | ⟨ho', hfs⟩
      · -- the last vote that was missing
        have hw : settle S O { m with watched := m.watched.step S O (.call (.receiveVote v)) } = _ :=
          settle_waiting hr (by rw [hrun]; exact ha'.pending)
        unfold step
        simp only [hw]
        refine ⟨hsteady, blk, older, hc, ?_, ?_⟩
        · simp only [core, hrun]
          exact g.calm hcalm
        · simp only [core, hrun, hr]
          exact .finishing ht ha'
      · refine ok_waiting (w := m.watched.step S O (.call (.receiveVote v))) hsteady hc ?_ hr ?_ ?_ ?_
        all_goals rw [hrun]
        · exact g.calm hcalm
        · exact ho'
        · exact ha'
        · rcases hfs with rfl | ⟨hne, rfl⟩
          · exact .inl (.inl rfl)
          · refine .inr ⟨v.blkHash, hne, ?_, rfl⟩
            rw [hcalm.delivered]
            exact hd
  | finishing => cases hst
  | returned hx =>
    have hcalm : Calm m.core (m.watched.step S O (.call (.receiveVote v))).replica.core := by
      rw [hrun]
      rcases hs' with ⟨-, rfl⟩ | hcount
      · exact .of_eq rfl rfl rfl
      · exact Calm.counted hok.core hok.tail hcount
    exact ok_returned hsteady hc (g.calm hcalm) hr hx

/-- A reject that does not hit the promise the callback waits for. -/
theorem ok_reject (h : m.Ok S O T cmds) (ha : m.Admits S .reject) : (m.step S O .reject).Ok S O T cmds := by
  obtain ⟨blk, older, hc, g, hph⟩ := h.chain
  obtain ⟨l, hw, hsteady⟩ := rejected_spec (O := O) h.steady
  have hcalm : Calm m.core { m.core with pms := l } := .of_eq rfl rfl rfl
  unfold Admits Round.waits at ha
  generalize hr : m.round = round at hph ha
  generalize hst : m.watched.replica.stack = st at hph
  cases hph with
  | proposing hp hm hb hwait =>
    unfold step settle
    simp only [hr, hw]
    rw [if_neg fun heq => hm.ne_nil (List.append_left_eq_self.mp (hst.symm.trans heq))]
    rw [hw] at hsteady
    refine ⟨hsteady, blk, older, hc, g.calm hcalm, ?_⟩
    simp only [hr, hst]
    refine .proposing hp ?_ hb hwait
    cases hm with
    | receive ho => exact .receive ho
    | vote ho => exact .vote ho
    | finish ht => exact .finish ht
    | tell ho => exact .tell ho
    | send ho ha => exact .send ho ha
  | waiting => cases ha
  | finishing => cases ha
  | returned hx =>
    refine ok_returned hsteady hc ?_ hr hx
    rw [hw]
    exact g.calm hcalm

theorem ok_step (h : m.Ok S O T cmds) (he : m.Admits S e) : (m.step S O e).Ok S O T cmds := by
  cases e with
  | vote v => exact ok_vote h he
  | reject => exact ok_reject h he
  | resume => exact ok_resume h

/-- The first call of `do_new_consensus`. -/
theorem ok_start {w : Watched Hash Sig} (h : w.Steady S) (hst : w.replica.stack = [])
    (hf : w.replica.core.Flushable S cmds) (pm : Option Nat) :
    (start S O w pm cmds).Ok S O w.replica.core.hqcTail cmds := by
  have hok := h.fluent.ok
  have hext : S.Ext w.replica.core.bExec w.replica.core.hqcTail :=
    (hok.core.store.checkAncestry_iff (hok.core.store.placed_of_delivered hok.core.delivered_bExec)
      (hok.core.store.placed_of_delivered hok.tail.tail)).mp hf.exec
  have hn : w.replica.core.delivered (w.replica.core.bnew S cmds []) = false := by
    simp only [Core.delivered, hf.fresh]
    rfl
  exact ok_propose (m := ⟨w, pm, [], .returned⟩) h (.inl hst) hf.tail hext hn fun s' hok' hl =>
    .start hok.core hok.tail hok' hext hl hn

/-- Where the chain has not ended, a block of it lacks votes or frames are left. -/
theorem Ok.returned (h : m.Ok S O T cmds) (hst : m.watched.replica.stack = [])
    (hv : ∀ b ∈ m.chain, S.nmajority ≤ (m.core.voted b).length) : m.round = .returned := by
  obtain ⟨blk, older, hc, g, hph⟩ := h.chain
  rw [hst] at hph
  generalize hr : m.round = round at hph
  generalize hs : ([] : List (Frame Hash)) = st at hph
  cases hph with
  | proposing hp hm hb hw => exact absurd (List.append_eq_nil_iff.mp hs.symm).1 hm.ne_nil
  | waiting ho ha hst' => exact absurd (hv blk (hc ▸ List.mem_cons_self)) (Nat.not_le_of_lt ho.1)
  | finishing => cases hs
  | returned => rfl

/-- Once the chain is long enough its first block is committed. -/
theorem Ok.flushed (h : m.Ok S O T cmds) (hlen : m.chain.length = O.build.rounds + 1) :
    ∃ b, m.chain.getLast? = some b ∧ m.core.cmds b = cmds ∧
      ∀ x, S.Ext x b → m.core.decision x = true := by
  obtain ⟨blk, older, hc, g, -⟩ := h.chain
  have hok := h.steady.fluent.ok.core
  rw [hc] at hlen ⊢
  have hlast := g.flushed (Nat.succ.inj hlen)
  refine ⟨_, hlast, ?_, fun x hx => hok.decision.mpr hx⟩
  have hexec := hok.store.placed_of_delivered hok.delivered_bExec
  rw [hok.store.cmds (hok.store.isBlkFetched_of_placed hexec)]
  exact g.links.cmds hlast

theorem Ok.round (h : m.Ok S O T cmds) : m.round ≠ .threw ∧
    (m.round = .returned → m.chain.length = O.build.rounds + 1) := by
  obtain ⟨blk, older, hc, g, hph⟩ := h.chain
  generalize m.round = round at hph ⊢
  generalize m.watched.replica.stack = st at hph
  cases hph with
  | proposing => simp
  | waiting => simp
  | finishing => simp
  | returned hx => simp [hc, hx]

/-- Nothing brings a chain back whose `on_propose` threw. -/
theorem step_threw (h : m.round = .threw) (e : Feed Hash Sig) :
    (m.step S O e).round = .threw ∧ (m.step S O e).chain = m.chain := by
  cases e <;> simp [step, settle, fulfil, h]

theorem exec_threw (h : m.round = .threw) (fs : List (Feed Hash Sig)) :
    (Run.exec (step S O) m fs).round = .threw ∧ (Run.exec (step S O) m fs).chain = m.chain := by
  induction fs generalizing m with
  | nil => exact ⟨h, rfl⟩
  | cons e fs ih =>
    obtain ⟨hr, hc⟩ := step_threw (S := S) (O := O) h e
    obtain ⟨hr', hc'⟩ := ih hr
    exact ⟨hr', hc'.trans hc⟩

end Manual

end

/-- From the state of a call that starts on a tail as high as every vote, a chain of
proposals never throws, ends once its blocks have their votes, and by its last
proposal has committed its first block with everything below. -/
theorem manual_flush (S : Setup Hash Sig) (O : Options) (rid : ReplicaID)
    (hid : S.hasReplica rid = true) (es : List (Event Hash Sig))
    (h : Run.Allowed (Watched.step S O) (Watched.Disciplined S) (Watched.init S rid) es)
    (pm : Option Nat) (cmds : List Hash) (fs : List (Feed Hash Sig)) :
    let w := Run.exec (Watched.step S O) (Watched.init S rid) es
    let m₀ := Manual.start S O w pm cmds
    let m := Run.exec (Manual.step S O) m₀ fs
    w.replica.stack = [] → w.replica.core.Flushable S cmds →
    Run.Allowed (Manual.step S O) (Manual.Admits S) m₀ fs →
      m.round ≠ .threw ∧
      (m.watched.replica.stack = [] →
        (∀ b ∈ m.chain, S.nmajority ≤ (m.core.voted b).length) → m.round = .returned) ∧
      (m.round = .returned → m.chain.length = O.build.rounds + 1) ∧
      (m.chain.length = O.build.rounds + 1 →
        ∃ b, m.chain.getLast? = some b ∧ m.core.cmds b = cmds ∧
          ∀ x, S.Ext x b → m.core.decision x = true) := by
  intro w m₀ m hst hf hfs
  have hw : w.Steady S := h.inv (Watched.steady_init hid) fun _ _ h he => h.step he
  have hm : m.Ok S O w.replica.core.hqcTail cmds :=
    hfs.inv (Manual.ok_start hw hst hf pm) fun _ _ h he => Manual.ok_step h he
  exact ⟨hm.round.1, hm.returned, hm.round.2, hm.flushed⟩

/-- The chain that flushes command 11. -/
def manual4 : List (WireBlock Nat TableSig) :=
  [tableBlk 4 0 0 [11] [], tableBlk 4 1 1 [] [0, 1, 2], tableBlk 4 2 2 [] [0, 1, 2],
    tableBlk 4 3 3 [] [0, 1, 2]]

/-- `on_propose` runs to its end, and replicas 1 and 2 vote. -/
def manual4Feed : List (Feed Nat TableSig) :=
  ([1, 2, 3, 4].flatMap fun h =>
    List.replicate 5 .resume ++ [.vote ⟨1, h, ⟨h, (1, h)⟩⟩, .vote ⟨2, h, ⟨h, (2, h)⟩⟩, .resume]) ++
    [.resume]

theorem manual_flush_manual4 :
    let S := tableSetup 4 manual4
    let m := Run.exec (Manual.step S ⟨.threeStep, id⟩)
      (Manual.start S ⟨.threeStep, id⟩
        (Run.exec (Watched.step S ⟨.threeStep, id⟩) (Watched.init S 0) []) none [11]) manual4Feed
    m.round = .returned ∧ m.chain = [4, 3, 2, 1] ∧
      ∃ b, m.chain.getLast? = some b ∧ m.core.cmds b = [11] ∧
        ∀ x, S.Ext x b → m.core.decision x = true := by
  intro S
  have hfs : Run.Allowed (Manual.step S ⟨.threeStep, id⟩) (Manual.Admits S)
      (Manual.start S ⟨.threeStep, id⟩
        (Run.exec (Watched.step S ⟨.threeStep, id⟩) (Watched.init S 0) []) none [11]) manual4Feed := by
    decide +kernel
  obtain ⟨-, hreturns, -, hflushed⟩ := manual_flush S ⟨.threeStep, id⟩ 0 (by decide +kernel) [] trivial
    none [11] manual4Feed rfl ⟨by decide +kernel, by decide +kernel, by decide +kernel⟩ hfs
  exact ⟨hreturns (by decide +kernel) (by decide +kernel), by decide +kernel,
    hflushed (by decide +kernel)⟩

/-- All replicas are honest, and the one that starts the chain has voted for a
block higher than its tail. -/
theorem manual_flush_fork3 :
    let S := tableSetup 7 fork3
    let sys := Run.exec (System.step S ⟨.threeStep, id⟩) (System.init S) fork3Run
    let own := (fork3Run.filter (·.1 = 0)).map (·.2)
    let w := Run.exec (Watched.step S ⟨.threeStep, id⟩) (Watched.init S 0) own
    ∃ F : Faults S, F.byz = ∅ ∧
      Run.Allowed (System.step S ⟨.threeStep, id⟩) F.Admits (System.init S) fork3Run ∧
      Run.Allowed (Watched.step S ⟨.threeStep, id⟩) (Watched.Disciplined S) (Watched.init S 0) own ∧
      (sys 0).stack = [] ∧ w.replica.stack = [] ∧
      ∀ fs,
        let m := Run.exec (Manual.step S ⟨.threeStep, id⟩)
          (Manual.start S ⟨.threeStep, id⟩ w none [15]) fs
        m.round = .threw ∧ m.chain = [] := by
  refine ⟨⟨∅, by decide +kernel⟩, rfl, by decide +kernel, by decide +kernel, by decide +kernel,
    by decide +kernel, fun fs => ?_⟩
  obtain ⟨hr, hc⟩ := Manual.exec_threw (S := tableSetup 7 fork3) (O := ⟨.threeStep, id⟩)
    (m := Manual.start (tableSetup 7 fork3) ⟨.threeStep, id⟩ (Run.exec
      (Watched.step (tableSetup 7 fork3) ⟨.threeStep, id⟩) (Watched.init (tableSetup 7 fork3) 0)
      ((fork3Run.filter (·.1 = 0)).map (·.2))) none [15]) (by decide +kernel) fs
  refine ⟨hr, hc.trans ?_⟩
  decide +kernel

end HotStuffTx
