import HotStuffTx.Steps

/-!
# Votes of one replica

A replica has endorsed a block once the vote rule has passed on it: the vote is
in the log or still waits on the control stack. `vheight` is at the last
endorsed height already while callbacks run, so no nesting of calls endorses
two blocks of one height.
-/

set_option linter.unusedSectionVars false

namespace HotStuffTx

open Core

variable {Hash Sig : Type} [DecidableEq Hash]

/-- The block of a vote that waits on the stack. -/
def Frame.endorses : Frame Hash → Option Hash
  | .receiveProposal_ prop true | .vote prop true => some prop.blk
  | _ => none

def Output.votedFor : Output Hash Sig → Option Hash
  | .vote _ v => some v.blkHash
  | _ => none

namespace Replica

/-- The replica has signed a vote for `h` and passed it to `do_vote`. -/
def Signed (r : Replica Hash Sig) (h : Hash) : Prop :=
  ∃ dst v, Output.vote dst v ∈ r.core.out ∧ v.blkHash = h

instance (r : Replica Hash Sig) (h : Hash) : Decidable (r.Signed h) :=
  decidable_of_iff (∃ o ∈ r.core.out, o.votedFor = some h) <| by
    constructor
    · rintro ⟨o, ho, hv⟩
      cases o <;> simp only [Output.votedFor, reduceCtorEq, Option.some.injEq] at hv
      exact ⟨_, _, ho, hv⟩
    · rintro ⟨dst, v, ho, rfl⟩
      exact ⟨_, ho, rfl⟩

def Endorsed (r : Replica Hash Sig) (h : Hash) : Prop :=
  r.Signed h ∨ ∃ f ∈ r.stack, f.endorses = some h

/-- How a step endorses `n`: the vote rule passed in the state `update` left. -/
inductive Endorses (S : Setup Hash Sig) (O : Options) (r : Replica Hash Sig) :
    Event Hash Sig → Hash → Core Hash Sig → Prop
  | own {prop} (hp : prop.proposer = r.core.id) (hv : r.core.vheight < r.core.height prop.blk)
      (hr : Rule S r.core prop.blk) : Endorses S O r (.call (.receiveProposal prop)) prop.blk
        { r.core with vheight := r.core.height prop.blk }
  | other {prop s₁} (hp : prop.proposer ≠ r.core.id) (hd : r.core.delivered prop.blk = true)
      (hu : Updated O.build r.core prop.blk s₁) (hv : s₁.vheight < s₁.height prop.blk)
      (hr : Rule S s₁ prop.blk) : Endorses S O r (.call (.receiveProposal prop)) prop.blk
        { s₁ with vheight := s₁.height prop.blk }
  | propose {cmds parents extra n s₁ s₂} (hp : Proposed S r.core cmds parents extra n s₁)
      (hu : Updated O.build s₁ n s₂) (hv : s₂.vheight < s₂.height n) (hr : Rule S s₂ n) :
      Endorses S O r (.call (.propose cmds parents extra)) n { s₂ with vheight := s₂.height n }

end Replica

section
variable {S : Setup Hash Sig} {O : Options} {s s' : Core Hash Sig} {r r' : Replica Hash Sig}

-- ---------------------------------------------------------------------------
-- The log
-- ---------------------------------------------------------------------------

/-- The calls add to the log only what `isCommit` tells apart. -/
def SameSent (s s' : Core Hash Sig) : Prop := ∀ o : Output Hash Sig, o.isCommit = false →
  (o ∈ s'.out ↔ o ∈ s.out)

theorem SameSent.of_eq (h : s'.out = s.out) : SameSent s s' := fun o _ => by rw [h]

theorem SameSent.trans (h : SameSent s s') (h' : SameSent s' s'') : SameSent s s'' :=
  fun o ho => (h' o ho).trans (h o ho)

@[simp] theorem Core.out_updateHqc : (s.updateHqc h qc).out = s.out := by
  unfold updateHqc
  split <;> rfl

@[simp] theorem Core.out_advance : (s.advance build t qc).out = s.out := by
  unfold advance raiseLock
  split
  · simp
  · split <;> simp

theorem Core.Updated.sameSent (h : CoreOk S s) (hu : Updated build s n s') : SameSent s s' := by
  cases hu with
  | idle => exact .of_eq rfl
  | advanced => exact .of_eq (by simp)
  | @committed b t c _ hb ht hd hc hrun =>
    obtain ⟨l, s₁, -, hdec, rfl⟩ := h.commit_ok hb ht hd hc hrun
    intro o ho
    show o ∈ s₁.out ↔ o ∈ s.out
    rw [hdec.out, out_advance, List.mem_append, or_iff_left]
    intro hmem
    obtain ⟨x, -, hx⟩ := List.mem_flatMap.mp hmem
    rcases List.mem_cons.mp hx with rfl | hx
    · cases ho
    · obtain ⟨i, hi, rfl⟩ := List.mem_mapIdx.mp hx
      cases ho

theorem Core.Judged.sameSent (hj : Judged S s n op s') : SameSent s s' := by
  cases hj <;> exact .of_eq rfl

theorem Core.Received.sameSent (h : CoreOk S s) (hr : Received S build s prop fs s') :
    SameSent s s' := by
  cases hr with
  | own _ hj => exact hj.sameSent
  | other _ _ hu hj => exact (hu.sameSent h).trans hj.sameSent

theorem Core.Counted.out_eq (hc : Counted S s v fs s') : s'.out = s.out := by
  cases hc with
  | part => rfl
  | full => simp [setBlk]

theorem Core.Miscounted.out_eq (hc : Miscounted S s v e s') : s'.out = s.out := by
  cases hc
  rfl

theorem Core.out_settlePm : (s.settlePm p st).out = s.out := by
  unfold settlePm
  split <;> rfl

theorem Call.Post.sameSent (h : CoreOk S s) {c : Call Hash Sig} (hp : c.Post S O s fs s') :
    SameSent s s' := by
  cases c with
  | addBlk w =>
    obtain ⟨-, n, hst, -⟩ := hp
    exact .of_eq (hst.stores h.store).out
  | deliver blk => exact .of_eq (hp.2.stores h.store).out
  | propose cmds parents extra =>
    obtain ⟨n, s₁, s₂, op, hprop, hu, -, hj, -⟩ := hp
    have hst := hprop.stores h.store
    exact ((SameSent.of_eq hst.out).trans (hu.sameSent (h.stores hst).1)).trans hj.sameSent
  | receiveProposal prop => exact Received.sameSent h hp
  | receiveVote v =>
    rcases hp with ⟨-, rfl⟩ | hp
    · exact .of_eq rfl
    · exact .of_eq hp.out_eq
  | asyncQcFinish blk =>
    obtain ⟨-, pms, rfl | rfl⟩ := hp <;> exact .of_eq rfl
  | rejectPm pm =>
    obtain ⟨-, rfl⟩ := hp
    exact .of_eq out_settlePm

theorem Call.Thrown.sameSent (h : CoreOk S s) {c : Call Hash Sig} (hp : c.Thrown S O s e s') :
    SameSent s s' := by
  cases c with
  | addBlk w => exact hp.elim
  | deliver blk => exact .of_eq (hp.2.stores h.store).out
  | propose cmds parents extra =>
    rcases hp with ⟨-, rfl⟩ | ⟨n, s₁, hprop, hr⟩
    · exact .of_eq rfl
    · have hst := hprop.stores h.store
      have hok := (h.stores hst).1
      refine (SameSent.of_eq hst.out).trans ?_
      rcases hr with hr | ⟨-, hu⟩
      · exact .of_eq (hok.refused hr).2.2.2.2.2.1
      · exact hu.sameSent hok
  | receiveProposal prop =>
    obtain ⟨-, ⟨-, rfl⟩ | ⟨-, hr⟩⟩ := hp
    · exact .of_eq rfl
    · exact .of_eq (h.refused hr).2.2.2.2.2.1
  | receiveVote v =>
    rcases hp with ⟨-, rfl⟩ | hp
    · exact .of_eq rfl
    · exact .of_eq (Miscounted.out_eq hp)
  | asyncQcFinish blk => exact hp.elim
  | rejectPm pm => exact hp.elim

-- ---------------------------------------------------------------------------
-- Endorsements
-- ---------------------------------------------------------------------------

namespace Replica

theorem signed_congr (h : SameSent r.core r'.core) : r'.Signed x ↔ r.Signed x :=
  exists_congr fun _ => exists_congr fun _ => and_congr_left' (h _ rfl)

/-- What a call endorses is on the frames it leaves. -/
theorem Endorsed.of_call (hx : Endorsed ⟨s', fs ++ r.stack, l⟩ x) (h : SameSent r.core s') :
    r.Endorsed x ∨ ∃ f ∈ fs, f.endorses = some x := by
  rcases hx with hx | ⟨f, hf, hx⟩
  · exact .inl (.inl ((signed_congr (show SameSent r.core (Replica.mk s' (fs ++ r.stack) l).core from h)).mp hx))
  · rcases List.mem_append.mp hf with hf | hf
    · exact .inr ⟨f, hf, hx⟩
    · exact .inl (.inr ⟨f, hf, hx⟩)

theorem Endorsed.of_throw (hx : Endorsed ⟨s', [], l⟩ x) (h : SameSent r.core s') :
    r.Endorsed x := by
  rcases hx with hx | ⟨f, hf, -⟩
  · exact .inl ((signed_congr (show SameSent r.core (Replica.mk s' [] l).core from h)).mp hx)
  · cases hf

theorem endorses_judged {prop : Proposal Hash} (hx : ∃ f ∈ [Frame.receiveProposal_ prop op], f.endorses = some x) :
    op = true ∧ x = prop.blk := by
  obtain ⟨f, hf, hx⟩ := hx
  obtain rfl := List.mem_singleton.mp hf
  cases op
  · cases hx
  · cases hx
    exact ⟨rfl, rfl⟩

theorem not_endorses_nil {x : Hash} : ¬ ∃ f ∈ ([] : List (Frame Hash)), f.endorses = some x := by
  simp

theorem Counted.not_endorses (hc : Counted S s v fs s') : ¬ ∃ f ∈ fs, f.endorses = some x := by
  cases hc with
  | part => exact not_endorses_nil
  | full => simp [Frame.endorses]

/-- A call endorses at most one block, by the vote rule. -/
theorem call_endorsed {c : Call Hash Sig} (hp : c.Post S O r.core fs s') :
    (∀ x, ¬ ∃ f ∈ fs, f.endorses = some x) ∨
      ∃ n, Endorses S O r (.call c) n s' ∧ ∀ x, (∃ f ∈ fs, f.endorses = some x) → x = n := by
  cases c with
  | addBlk w =>
    obtain ⟨rfl, -⟩ := hp
    exact .inl fun _ => not_endorses_nil
  | deliver blk =>
    obtain ⟨rfl, -⟩ := hp
    exact .inl fun _ => not_endorses_nil
  | propose cmds parents extra =>
    obtain ⟨n, s₁, s₂, op, hprop, hu, hlt, hj, rfl⟩ := hp
    cases hj with
    | no => exact .inl fun _ => by simp [Frame.endorses]
    | yes hv hr =>
      refine .inr ⟨n, .propose hprop hu hv hr, fun x hx => ?_⟩
      simpa [Frame.endorses, eq_comm] using hx
  | receiveProposal prop =>
    cases hp with
    | own hp hj =>
      cases hj with
      | no => exact .inl fun _ hx => by simpa using (endorses_judged hx).1
      | yes hv hr => exact .inr ⟨prop.blk, .own hp hv hr, fun x hx => (endorses_judged hx).2⟩
    | @other s₁ op _ hp hd hu hj =>
      have hx {x op} (hx : ∃ f ∈ ((s'.qcRef prop.blk).map Frame.qcFinish).toList ++
          [Frame.receiveProposal_ prop op], f.endorses = some x) :
          ∃ f ∈ [Frame.receiveProposal_ prop op], f.endorses = some x := by
        obtain ⟨f, hf, hx⟩ := hx
        rcases List.mem_append.mp hf with hf | hf
        · obtain ⟨q, -, rfl⟩ := Option.map_eq_some_iff.mp (Option.mem_toList.mp hf)
          cases hx
        · exact ⟨f, hf, hx⟩
      cases hj with
      | no => exact .inl fun _ h => by simpa using (endorses_judged (hx h)).1
      | yes hv hr =>
        exact .inr ⟨prop.blk, .other hp hd hu hv hr, fun x h => (endorses_judged (hx h)).2⟩
  | receiveVote v =>
    rcases hp with ⟨rfl, -⟩ | hp
    · exact .inl fun _ => not_endorses_nil
    · exact .inl fun _ => Counted.not_endorses hp
  | asyncQcFinish blk =>
    obtain ⟨rfl, -⟩ := hp
    exact .inl fun _ => not_endorses_nil
  | rejectPm pm =>
    obtain ⟨rfl, -⟩ := hp
    exact .inl fun _ => not_endorses_nil

theorem signed_sent {prop : Proposal Hash}
    (hx : Signed ⟨r.core.sent S prop.proposer prop.blk, st, l⟩ x) : r.Signed x ∨ x = prop.blk := by
  obtain ⟨dst, v, hv, rfl⟩ := hx
  rcases List.mem_append.mp hv with hv | hv
  · exact .inl ⟨dst, v, hv, rfl⟩
  · obtain ⟨-, rfl⟩ := Output.vote.inj (List.mem_singleton.mp hv)
    exact .inr rfl

/-- A frame endorses nothing: it passes on the endorsement it holds. -/
theorem frame_endorsed {f : Frame Hash} (hs : r.stack = f :: rest) (hp : f.Post S r.core fs s')
    (hx : Endorsed ⟨s', fs ++ rest, l⟩ x) : r.Endorsed x := by
  have hrest (hx : ∃ g ∈ rest, g.endorses = some x) : r.Endorsed x := by
    obtain ⟨g, hg, hx⟩ := hx
    exact .inr ⟨g, by simp [hs, hg], hx⟩
  have hquiet (hout : ∀ dst v, Output.vote dst v ∈ s'.out → Output.vote dst v ∈ r.core.out)
      (hfs : (∃ g ∈ fs, g.endorses = some x) → f.endorses = some x) : r.Endorsed x := by
    rcases hx with ⟨dst, v, hv, hx⟩ | ⟨g, hg, hx⟩
    · exact .inl ⟨dst, v, hout dst v hv, hx⟩
    · rcases List.mem_append.mp hg with hg | hg
      · exact .inr ⟨f, by simp [hs], hfs ⟨g, hg, hx⟩⟩
      · exact hrest ⟨g, hg, hx⟩
  cases f with
  | qcFinish blk =>
    rcases hp with ⟨-, rfl, rfl⟩ | ⟨p, -, rfl, rfl⟩
    · exact hquiet (fun _ _ h => h) (by simp)
    · exact hquiet (fun _ _ h => by rwa [out_settlePm] at h) (by simp [Frame.endorses])
  | qcErase blk =>
    obtain ⟨rfl, rfl⟩ := hp
    exact hquiet (fun _ _ h => h) (by simp)
  | receiveProposal_ prop op =>
    obtain ⟨rfl, rfl⟩ := hp
    refine hquiet (fun _ _ h => ?_) ?_
    · unfold tailReceived at h
      split at h <;> exact h
    · rintro ⟨g, hg, hx⟩
      obtain rfl := List.mem_singleton.mp hg
      cases op
      · cases hx
      · exact hx
  | vote prop op =>
    rcases hp with ⟨rfl, rfl⟩ | ⟨rfl, hp⟩
    · exact hquiet (fun _ _ h => h) (by simp)
    · have hsent : Signed ⟨r.core.sent S prop.proposer prop.blk, fs ++ rest, l⟩ x ∨
          ∃ g ∈ fs ++ rest, g.endorses = some x := by
        rcases hp with ⟨-, rfl⟩ | hp
        · exact hx
        · rcases hx with ⟨dst, v, hv, hx⟩ | hx
          · exact .inl ⟨dst, v, hp.out_eq ▸ hv, hx⟩
          · exact .inr hx
      rcases hsent with hx | ⟨g, hg, hx⟩
      · rcases signed_sent hx with hx | rfl
        · exact .inl hx
        · exact .inr ⟨.vote prop true, by simp [hs], rfl⟩
      · rcases List.mem_append.mp hg with hg | hg
        · rcases hp with ⟨rfl, -⟩ | hp
          · cases hg
          · exact (Counted.not_endorses hp ⟨g, hg, hx⟩).elim
        · exact hrest ⟨g, hg, hx⟩
  | propose_ prop =>
    obtain ⟨rfl, rfl⟩ := hp
    exact hquiet (fun _ _ h => h) (by simp [Frame.endorses])
  | broadcast prop =>
    obtain ⟨rfl, rfl⟩ := hp
    refine hquiet (fun _ _ h => ?_) (by simp)
    simpa using h

theorem frame_thrown_endorsed {f : Frame Hash} (hs : r.stack = f :: rest)
    (hp : f.Thrown S r.core e s') (hx : Endorsed ⟨s', [], l⟩ x) : r.Endorsed x := by
  rcases hx with hx | ⟨g, hg, -⟩
  · cases f with
    | vote prop op =>
      obtain ⟨rfl, hp⟩ := hp
      have hsent : Signed ⟨r.core.sent S prop.proposer prop.blk, [], l⟩ x := by
        obtain ⟨dst, v, hv, hx⟩ := hx
        rcases hp with ⟨-, rfl⟩ | hp
        · exact ⟨dst, v, hv, hx⟩
        · exact ⟨dst, v, hp.out_eq ▸ hv, hx⟩
      rcases signed_sent hsent with hx | rfl
      · exact .inl hx
      · exact .inr ⟨.vote prop true, by simp [hs], rfl⟩
    | _ => exact hp.elim
  · cases hg

/-- A step endorses at most one block, by the vote rule. -/
theorem Stepped.endorsed (h : CoreOk S r.core) (hs : Stepped S O r e r') :
    (∀ x, r'.Endorsed x → r.Endorsed x) ∨
      ∃ n, Endorses S O r e n r'.core ∧ ∀ x, r'.Endorsed x → r.Endorsed x ∨ x = n := by
  cases hs with
  | call hp =>
    have hsame := hp.sameSent h
    rcases call_endorsed hp with hno | ⟨n, hn, honly⟩
    · exact .inl fun x hx => (hx.of_call hsame).resolve_right (hno x)
    · exact .inr ⟨n, hn, fun x hx => (hx.of_call hsame).imp_right (honly x)⟩
  | callThrew hp => exact .inl fun x hx => hx.of_throw (hp.sameSent h)
  | idle => exact .inl fun _ hx => hx
  | frame hs hp => exact .inl fun x hx => frame_endorsed hs hp hx
  | frameThrew hs hp => exact .inl fun x hx => frame_thrown_endorsed hs hp hx

-- ---------------------------------------------------------------------------
-- One vote for a height
-- ---------------------------------------------------------------------------

/-- The endorsed blocks are at or below `vheight`, one at a height. -/
structure VotesOk (S : Setup Hash Sig) (r : Replica Hash Sig) : Prop where
  core : CoreOk S r.core
  placed : r.Endorsed h → 0 < r.core.height h ∧ r.core.height h ≤ r.core.vheight
  unique : r.Endorsed a → r.Endorsed b → r.core.height a = r.core.height b → a = b

theorem Endorses.spec (h : CoreOk S r.core) (he : Endorses S O r e n s') :
    r.core.vheight < s'.height n ∧ s'.height n = s'.vheight := by
  cases he with
  | own hp hv hr => exact ⟨hv, rfl⟩
  | other hp hd hu hv hr => exact ⟨Nat.lt_of_le_of_lt (h.updated hu).2.vheight hv, rfl⟩
  | propose hp hu hv hr =>
    obtain ⟨hok, hadv⟩ := h.stores (hp.stores h.store)
    exact ⟨Nat.lt_of_le_of_lt (hadv.trans (hok.updated hu).2).vheight hv, rfl⟩

theorem VotesOk.step (h : VotesOk S r) (hs : Stepped S O r e r') : VotesOk S r' := by
  obtain ⟨hok, hadv⟩ := hs.coreOk h.core
  have hheight {x} (hx : r.Endorsed x) : r'.core.height x = r.core.height x :=
    hadv.grow.height (h.placed hx).1
  have hold {x} (hx : r.Endorsed x) :
      0 < r'.core.height x ∧ r'.core.height x ≤ r.core.vheight := by
    rw [hheight hx]
    exact h.placed hx
  rcases hs.endorsed h.core with hno | ⟨n, hn, honly⟩
  · refine ⟨hok, fun hx => ?_, fun ha hb hab => ?_⟩
    · exact ⟨(hold (hno _ hx)).1, Nat.le_trans (hold (hno _ hx)).2 hadv.vheight⟩
    · rw [hheight (hno _ ha), hheight (hno _ hb)] at hab
      exact h.unique (hno _ ha) (hno _ hb) hab
  · obtain ⟨hlt, heq⟩ := hn.spec h.core
    refine ⟨hok, fun hx => ?_, fun ha hb hab => ?_⟩
    · rcases honly _ hx with hx | rfl
      · exact ⟨(hold hx).1, Nat.le_trans (hold hx).2 hadv.vheight⟩
      · exact ⟨Nat.zero_lt_of_lt hlt, Nat.le_of_eq heq⟩
    · rcases honly _ ha with ha | rfl <;> rcases honly _ hb with hb | rfl
      · rw [hheight ha, hheight hb] at hab
        exact h.unique ha hb hab
      · have := (hold ha).2
        omega
      · have := (hold hb).2
        omega
      · rfl

theorem votesOk_init {rid : ReplicaID} : VotesOk S (Replica.init S rid : Replica Hash Sig) where
  core := coreOk_init
  placed hx := by
    rcases hx with ⟨_, _, hv, -⟩ | ⟨_, hf, -⟩
    · cases hv
    · cases hf
  unique hx := by
    rcases hx with ⟨_, _, hv, -⟩ | ⟨_, hf, -⟩
    · cases hv
    · cases hf

end Replica

end

end HotStuffTx
