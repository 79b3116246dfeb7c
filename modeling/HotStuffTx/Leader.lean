import HotStuffTx.Agreement
import HotStuffTx.Manual

/-!
# The blocks of one leader

A replica to which nobody else proposes has one chain of blocks, each certified
by the next (`Led`). It votes for every one of them itself (`Cast`), so a block
that has no certificate yet when `on_propose` returns needs the vote of another
replica.
-/

set_option linter.unusedSectionVars false

namespace HotStuffTx

open Core Forest

variable {Hash Sig : Type} [DecidableEq Hash]

section
variable {S : Setup Hash Sig} {s s' : Core Hash Sig}

-- ---------------------------------------------------------------------------
-- The vote of the leader
-- ---------------------------------------------------------------------------

/-- No vote is lost, and the lock and `vote_disabled` stay. -/
structure Core.Hears (s s' : Core Hash Sig) : Prop where
  voted : ∀ y, (s.voted y).length ≤ (s'.voted y).length
  bLock : s'.bLock = s.bLock
  voteDisabled : s'.voteDisabled = s.voteDisabled

theorem Core.Hears.of_eq (hst : s'.storage = s.storage) (hl : s'.bLock = s.bLock)
    (hv : s'.voteDisabled = s.voteDisabled) : Hears s s' :=
  ⟨fun _ => by rw [(SameVotes.of_storage hst).voted], hl, hv⟩

theorem Core.Counted.hears (hc : Counted S s v fs s') : Hears s s' := by
  refine ⟨fun y => ?_, hc.rest.1, ?_⟩
  · rw [(hc.voted (x := y)).2]
    split
    · exact Nat.le_succ _
    · exact Nat.le_refl _
  · cases hc with
    | part => rfl
    | full =>
      unfold Core.updateHqc
      split <;> rfl

theorem Frame.hears {f : Frame Hash} (hp : f.Post S s fs s') : Hears s s' := by
  cases f with
  | qcFinish blk =>
    rcases hp with ⟨-, -, rfl⟩ | ⟨p, -, -, rfl⟩
    · exact .of_eq rfl rfl rfl
    · unfold Core.settlePm
      split <;> exact .of_eq rfl rfl rfl
  | receiveProposal_ prop op =>
    obtain ⟨-, rfl⟩ := hp
    unfold Core.tailReceived
    split <;> exact .of_eq rfl rfl rfl
  | vote prop op =>
    rcases hp with ⟨-, rfl⟩ | ⟨-, ⟨-, rfl⟩ | hp⟩
    · exact .of_eq rfl rfl rfl
    · exact .of_eq rfl rfl rfl
    · have hc := Counted.hears hp
      exact ⟨hc.voted, hc.bLock, hc.voteDisabled⟩
  | _ =>
    obtain ⟨-, rfl⟩ := hp
    exact .of_eq rfl rfl rfl

theorem Core.voteDisabled_foldl {l : List Hash} :
    (l.foldl decideBlk s).voteDisabled = s.voteDisabled := by
  induction l generalizing s with
  | nil => rfl
  | cons x l ih => exact ih

theorem Core.voteDisabled_advance : (s.advance build t qc).voteDisabled = s.voteDisabled := by
  unfold Core.advance Core.raiseLock Core.updateHqc
  repeat' split
  all_goals rfl

theorem Core.Updated.voteDisabled (hu : Updated build s n s') :
    s'.voteDisabled = s.voteDisabled := by
  cases hu with
  | idle => rfl
  | advanced => exact voteDisabled_advance
  | @committed b t c _ hb ht hd hc hrun =>
    have hspec : Triple (Core.commit c) (s.advance build t b.qc)
        (fun _ s' => s'.voteDisabled = (s.advance build t b.qc).voteDisabled) (fun _ _ => True) := by
      unfold Core.commit
      refine .get_bind ?_
      cases (s.advance build t b.qc).walk ((s.advance build t b.qc).height
        (s.advance build t b.qc).bExec) c with
      | none => exact .throw' trivial
      | some qe =>
        refine .ite (fun _ => ?_) fun _ => .throw_bind trivial
        exact voteDisabled_foldl
    exact (hspec.ok hrun).trans voteDisabled_advance

/-- An own proposal leaves the lock at what a delivered block certifies. -/
theorem Core.launch_lock (h : CoreOk S s) (ht : s.delivered s.hqcTail = true) {cmds : List Hash} :
    Triple (onPropose S build cmds s.getParents []) s (fun _ s' => s'.voteDisabled = s.voteDisabled ∧
      (s'.bLock = s.bLock ∨ ∃ y, y ≠ S.genesis ∧
        (s.delivered y = true ∨ y = s.bnew S cmds []) ∧ S.target y = some s'.bLock))
      (fun _ _ => True) := by
  have hparents : ∀ x ∈ s.getParents, s.delivered x = true := fun x hx => by
    rw [List.mem_singleton.mp hx]
    exact ht
  refine (onPropose_spec h hparents).mono ?_ fun _ _ _ => trivial
  rintro fs s' ⟨n, s₁, s₂, op, hp, hu, -, hj, -⟩
  obtain rfl := hp.bnew_eq
  have hst := hp.stores h.store
  have hok₁ := (h.stores hst).1
  have hvd₁ : s₁.voteDisabled = s.voteDisabled := by
    cases hp
    rfl
  have hvd' : s'.voteDisabled = s₂.voteDisabled := by cases hj <;> rfl
  refine ⟨hvd'.trans (hu.voteDisabled.trans hvd₁), ?_⟩
  rw [hj.sameChain.bLock]
  rcases ran_spec (e := .notHigher) hok₁ (.inl hu) .refl with ⟨hsame, -⟩ | ⟨b, t, hr⟩
  · exact .inl (hsame.bLock.trans hst.bLock)
  · rcases hr.bLock_cases hok₁ hp.delivered_self with heq | ⟨y, hne, hd, ht⟩
    · exact .inl (heq.trans hst.bLock)
    · exact .inr ⟨y, hne, hp.delivered hd, ht⟩

/-- The leader casts the first vote for its own proposal. -/
theorem Core.castVote_counts {prop : Proposal Hash} (hvd : s.voteDisabled = false)
    (hv : s.voted prop.blk = []) (hn : 0 < S.nmajority) :
    Triple (resume S (fun _ => s.id) (.vote prop true)) s
      (fun _ s' => (s'.voted prop.blk).length = 1) (fun _ _ => True) := by
  unfold resume
  refine .get_bind (.ite (fun _ => .set_bind (.ite (fun _ => ?_) fun hne => absurd rfl hne))
    fun hno => absurd (by simp [hvd]) hno)
  refine onReceiveVote_counts.mono ?_ fun _ _ _ => trivial
  have hsent : Core.voted (s.sent S prop.proposer prop.blk) prop.blk = [] := hv
  rintro fs s' (⟨-, -, hge | hmem⟩ | hc)
  · have hge : S.nmajority ≤ (Core.voted (s.sent S prop.proposer prop.blk) prop.blk).length := hge
    rw [hsent] at hge
    exact absurd hge (Nat.not_le_of_lt hn)
  · have hmem : s.id ∈ Core.voted (s.sent S prop.proposer prop.blk) prop.blk := hmem
    rw [hsent] at hmem
    cases hmem
  · have heq : s'.voted prop.blk = s.id :: Core.voted (s.sent S prop.proposer prop.blk) prop.blk :=
      (hc.voted (x := prop.blk)).2.trans (if_pos rfl)
    rw [heq, hsent]
    rfl

end

section
variable {S : Setup Hash Sig} {O : Options} {s s' : Core Hash Sig} {w : Watched Hash Sig}
  {proposed : List Hash} {blk : Hash} {prop : Proposal Hash} {above below : List (Frame Hash)}

-- ---------------------------------------------------------------------------
-- The blocks of the leader
-- ---------------------------------------------------------------------------

/-- What holds of the core while the blocks `proposed` up to `blk` are all there is
besides the genesis block: one path, each block with the certificate of its parent. -/
structure Core.Led (S : Setup Hash Sig) (proposed : List Hash) (blk : Hash) (s : Core Hash Sig) :
    Prop where
  path : Path S.par S.genesis proposed blk
  target : ∀ b ∈ proposed, S.target b = S.par b
  delivered : ∀ y, s.delivered y = true ↔ S.Ext y blk
  certified : ∀ y, S.Ext y blk → y ≠ blk → S.nmajority ≤ (s.voted y).length
  bLock : S.Ext s.bLock blk
  vheight : s.vheight ≤ s.height blk
  voteDisabled : s.voteDisabled = false

namespace Core.Led

theorem calm (g : Led S proposed blk s) (hc : Calm s s') (hh : Hears s s') :
    Led S proposed blk s' where
  path := g.path
  target := g.target
  delivered y := by
    rw [hc.delivered]
    exact g.delivered y
  certified y hy hne := Nat.le_trans (g.certified y hy hne) (hh.voted y)
  bLock := hh.bLock ▸ g.bLock
  vheight := by
    rw [hc.vheight, hc.height]
    exact g.vheight
  voteDisabled := hh.voteDisabled.trans g.voteDisabled

theorem top (g : Led S proposed blk s) (y : Hash) (hy : s.delivered y = true) (hext : S.Ext blk y) :
    y = blk := by
  have hle := (g.delivered y).mp hy
  obtain ⟨i, hi, hyi⟩ := hle.height S.par_genesis g.path.height
  have := hext.height_le S.par_genesis g.path.height hyi
  obtain rfl : i = proposed.length := Nat.le_antisymm hi this
  exact hle.eq_of_height S.par_genesis hyi g.path.height

/-- Nothing is delivered yet on top of the newest block. -/
theorem fresh (g : Led S proposed blk s) (hpar : S.par n = some blk) : s.delivered n = false := by
  rw [Bool.eq_false_iff]
  intro hd
  have hn := Height.succ hpar g.path.height
  have := ((g.delivered n).mp hd).height_le S.par_genesis hn g.path.height
  omega

theorem bExec (g : Led S proposed blk s) (h : CoreOk S s) : S.Ext s.bExec blk :=
  (g.delivered _).mp h.delivered_bExec

/-- The next block goes on top of the newest one, with its certificate. -/
theorem extend (g : Led S proposed blk s) (ht : Topped S s blk) {cmds : List Hash}
    (hl : Launch S build s cmds n s') (hvd : s'.voteDisabled = s.voteDisabled)
    (hlock : s'.bLock = s.bLock ∨ ∃ y, y ≠ S.genesis ∧ (s.delivered y = true ∨ y = n) ∧
      S.target y = some s'.bLock) : Led S (proposed ++ [n]) n s' := by
  obtain ⟨hvotes, hq, htail⟩ := ht
  have hpar : S.par n = some blk := htail ▸ hl.par
  have htarget : S.target n = some blk := hq ▸ hl.target
  refine ⟨.snoc g.path hpar, fun b hb => ?_, fun y => ⟨fun hy => ?_, fun hy => ?_⟩,
    fun y hy hne => ?_, ?_, hl.vheight, hvd.trans g.voteDisabled⟩
  · rcases List.mem_append.mp hb with hb | hb
    · exact g.target b hb
    · rw [List.mem_singleton.mp hb, htarget, hpar]
  · rcases hl.delivered y hy with hy | rfl
    · exact .step hpar ((g.delivered y).mp hy)
    · exact .refl
  · rcases hy.eq_or_par with rfl | ⟨p, hp, hy⟩
    · exact hl.self
    · cases hpar.symm.trans hp
      exact (hl.keeps y ((g.delivered y).mpr hy)).1
  · rcases hy.eq_or_par with rfl | ⟨p, hp, hy⟩
    · exact absurd rfl hne
    · cases hpar.symm.trans hp
      rw [hl.voted]
      rcases eq_or_ne y blk with rfl | hyb
      · exact hvotes
      · exact g.certified y hy hyb
  · rcases hlock with heq | ⟨y, hne, hy, ht⟩
    · exact .step hpar (heq ▸ g.bLock)
    · rcases hy with hy | rfl
      · -- a block of the path certifies its parent
        have hext := (g.delivered y).mp hy
        rw [g.target y ((g.path.mem_iff S.par_genesis).mpr ⟨hext, hne⟩)] at ht
        exact .step hpar ((Ext.of_par ht).trans hext)
      · cases htarget.symm.trans ht
        exact .of_par hpar

/-- The committed blocks are the first ones proposed. -/
theorem committed_prefix (g : Led S proposed blk s) (h : CoreOk S s) :
    committed s.out <+: proposed :=
  Path.prefix_of_ext S.par_genesis h.chain g.path (g.bExec h)

theorem decided (g : Led S proposed blk s) (h : CoreOk S s) :
    ∃ l, decidedCmds s.out ++ l = proposed.flatMap S.cmdsOf := by
  obtain ⟨l, hl⟩ := g.committed_prefix h
  refine ⟨l.flatMap S.cmdsOf, ?_⟩
  rw [h.decidedCmds_eq, ← List.flatMap_append, hl]

end Core.Led

/-- The leader's own vote for `blk` while `on_propose` runs. -/
def Core.Cast (s : Core Hash Sig) (blk : Hash) : List (Frame Hash) → Prop
  | .receiveProposal_ _ op :: _ => op = true ∧ s.voted blk = []
  | .vote _ op :: _ => op = true ∧ s.voted blk = []
  | _ => (s.voted blk).length = 1

/-- The frames of `on_propose` cast that vote. -/
theorem Watched.Steady.cast (h : w.Steady S) (hresp : O.beatResp = fun _ => w.replica.core.id)
    (hvd : w.replica.core.voteDisabled = false)
    (hst : w.replica.stack = above ++ below)
    (hm : Making S w.replica.core w.announced prop above) (hc : w.replica.core.Cast prop.blk above)
    (hrun : (w.step S O .resume).replica = ⟨s', above' ++ below, w.replica.thrown⟩) :
    s'.Cast prop.blk above' := by
  have hsame {fs : List (Frame Hash)} {s₁ : Core Hash Sig} (l : List (Frame Hash))
      (heq : (w.step S O .resume).replica = ⟨s₁, fs ++ (l ++ below), w.replica.thrown⟩) :
      s' = s₁ ∧ above' = fs ++ l := by
    have heq := hrun.symm.trans heq
    injection heq with hs hl
    rw [← List.append_assoc] at hl
    exact ⟨hs, List.append_cancel_right hl⟩
  have hn : 0 < S.nmajority := by
    have := S.three_nfaulty_lt (Nat.zero_lt_of_lt (of_decide_eq_true h.fluent.id))
    simp only [Setup.nmajority]
    omega
  cases hm with
  | @receive op ho =>
    obtain ⟨fs, s₁, ⟨rfl, rfl⟩, heq⟩ := h.resumed (O := O) hst
    obtain ⟨rfl, rfl⟩ := hsame [.propose_ prop] heq
    refine ⟨hc.1, ?_⟩
    have hstor : (w.replica.core.tailReceived prop.blk).storage = w.replica.core.storage := by
      unfold Core.tailReceived
      split <;> rfl
    rw [(SameVotes.of_storage hstor).voted]
    exact hc.2
  | @vote op ho =>
    obtain ⟨rfl, hv⟩ := hc
    obtain ⟨fs, s₁, hpost, heq⟩ := h.resumed (O := O) hst
    obtain ⟨rfl, rfl⟩ := hsame [.propose_ prop] heq
    have hone : (s'.voted prop.blk).length = 1 := by
      have hspec := castVote_counts hvd hv hn
      rw [← hresp] at hspec
      simp only [Watched.step, Replica.step, hst, Replica.runOn, List.cons_append] at heq
      cases hx : resume S O.beatResp (.vote prop true) w.replica.core with
      | ok fs' s₂ =>
        simp only [hx] at heq
        injection heq with hs
        subst hs
        exact hspec.ok hx
      | error e s₂ =>
        simp only [hx] at heq
        injection heq with _ _ ht
        simp at ht
    rcases hpost with ⟨rfl, -⟩ | ⟨-, ⟨rfl, -⟩ | hc⟩
    · exact hone
    · exact hone
    · cases hc with
      | part => exact hone
      | full => exact hone
  | finish ht =>
    obtain ⟨fs, s₁, hpost, heq⟩ := h.resumed (O := O) hst
    obtain ⟨rfl, rfl⟩ := hsame [.propose_ prop] heq
    rcases hpost with ⟨-, rfl, rfl⟩ | ⟨p, -, rfl, rfl⟩
    · exact hc
    · show ((w.replica.core.settlePm p .fulfilled).voted prop.blk).length = 1
      have hstor : (w.replica.core.settlePm p .fulfilled).storage = w.replica.core.storage := by
        unfold Core.settlePm
        split <;> rfl
      rw [(SameVotes.of_storage hstor).voted]
      exact hc
  | tell =>
    obtain ⟨fs, s₁, ⟨rfl, rfl⟩, heq⟩ := h.resumed (O := O) hst
    obtain ⟨rfl, rfl⟩ := hsame [] heq
    exact hc
  | send =>
    obtain ⟨fs, s₁, ⟨rfl, rfl⟩, heq⟩ := h.resumed (O := O) hst
    obtain ⟨rfl, rfl⟩ := hsame [] heq
    exact hc

end

end HotStuffTx
