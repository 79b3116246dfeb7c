import HotStuffTx.Steps

/-!
# What the calls write

A call of the core stores blocks, delivers a stored one, changes the other
members of the objects and of the replica, and adds to its outputs; the promises
of `async_qc_finish` it leaves alone. A relation between states that allows
these writes holds between the two ends of every call.
-/

set_option linter.unusedSectionVars false

namespace HotStuffTx

open Core

variable {Hash Sig : Type} [DecidableEq Hash]

/-- The members that delivery fixes are the same. -/
structure Block.Kept (b b' : Block Hash Sig) : Prop where
  delivered : b'.delivered = b.delivered
  height : b'.height = b.height
  parents : b'.parents = b.parents
  wire : b'.wire = b.wire

/-- The call stores no block but those of `A`. -/
def Call.Within (S : Setup Hash Sig) (A : Hash → Prop) (s : Core Hash Sig) : Call Hash Sig → Prop
  | .addBlk w => ∀ b, Block.unserialize w = some b → A (S.hash b.wire)
  | .propose cmds parents extra => ∀ p, parents.head? = some p →
      A (S.hash (s.newBlock cmds parents extra p).wire)
  | _ => True

theorem Call.within {S : Setup Hash Sig} {s : Core Hash Sig} (c : Call Hash Sig) :
    c.Within S (fun _ => True) s := by
  cases c with
  | addBlk => exact fun _ _ => trivial
  | propose => exact fun _ _ => trivial
  | _ => trivial

namespace Core

/-- The replica and the promises are the same, and outputs have been added. -/
structure Beside (s s' : Core Hash Sig) : Prop where
  id : s'.id = s.id
  pms : s'.pms = s.pms
  out : s.out <+: s'.out

/-- Only the object under `h` has changed. -/
def OnlyAt (h : Hash) (s s' : Core Hash Sig) : Prop := ∀ x, x ≠ h → s'.storage x = s.storage x

/-- `R` allows the writes of the calls, and to store the blocks of `A`. -/
structure Allows (A : Hash → Prop) (R : Core Hash Sig → Core Hash Sig → Prop) : Prop where
  trans : ∀ {a b c}, R a b → R b c → R a c
  beside : ∀ {s s'}, s'.storage = s.storage → Beside s s' → R s s'
  edit : ∀ {s : Core Hash Sig} {n} {f : Block Hash Sig → Block Hash Sig},
    (∀ b, Block.Kept b (f b)) → R s (s.modifyBlk n f)
  store : ∀ {s : Core Hash Sig} {n b}, s.storage n = none → A n → R s (s.setBlk n b)
  deliver : ∀ {s s' : Core Hash Sig} {n}, s.delivered n = false → s.isBlkFetched n = true →
    OnlyAt n s s' → Beside s s' → R s s'

variable {S : Setup Hash Sig} {s s' s'' : Core Hash Sig} {n : Hash} {qc : QuorumCert Hash Sig} {A : Hash → Prop}
  {R : Core Hash Sig → Core Hash Sig → Prop}

theorem Beside.same (hi : s'.id = s.id) (hp : s'.pms = s.pms) (ho : s'.out = s.out) : Beside s s' :=
  ⟨hi, hp, ho ▸ List.prefix_rfl⟩

theorem Beside.updateHqc : Beside s (s.updateHqc n qc) := by
  unfold Core.updateHqc
  split <;> exact .same rfl rfl rfl

theorem Beside.raiseLock : Beside s (s.raiseLock n) := by
  unfold Core.raiseLock
  split <;> exact .same rfl rfl rfl

theorem OnlyAt.trans (h : OnlyAt n s s') (h' : OnlyAt n s' s'') : OnlyAt n s s'' :=
  fun x hx => (h' x hx).trans (h x hx)

theorem OnlyAt.modifyBlk {f : Block Hash Sig → Block Hash Sig} : OnlyAt n s (s.modifyBlk n f) :=
  fun _ hx => Function.update_of_ne hx _ _

/-- Whether it returns or throws, `x` relates the state before to that after. -/
abbrev Writing (R : Core Hash Sig → Core Hash Sig → Prop) (x : CoreM Hash Sig α) : Prop :=
  Triple.Frame R x

namespace Allows

variable (h : Allows A R)
include h

theorem refl (s : Core Hash Sig) : R s s := h.beside rfl (.same rfl rfl rfl)

theorem pure' : Writing R (pure a : CoreM Hash Sig α) := Triple.Frame.pure' h.refl

theorem throw' : Writing R (throw e : CoreM Hash Sig α) := Triple.Frame.throw' h.refl

theorem bind {x : CoreM Hash Sig α} {f : α → CoreM Hash Sig β} (hx : Writing R x)
    (hf : ∀ a, Writing R (f a)) : Writing R (x >>= f) :=
  Triple.Frame.bind (fun _ _ _ => h.trans) hx hf

/-- `f` leaves the objects as they are. -/
theorem modify' {f : Core Hash Sig → Core Hash Sig}
    (hf : ∀ s, (f s).storage = s.storage ∧ Beside s (f s)) : Writing R (modify f) :=
  Triple.Frame.modify' fun s => h.beside (hf s).1 (hf s).2

theorem modifyBlk' {f : Block Hash Sig → Block Hash Sig} (hf : ∀ b, Block.Kept b (f b)) :
    Writing R (modify (·.modifyBlk n f)) :=
  Triple.Frame.modify' fun _ => h.edit hf

end Allows

theorem Writing.get_bind {f : Core Hash Sig → CoreM Hash Sig α} (hf : ∀ s, Writing R (f s)) :
    Writing R (get >>= f) :=
  Triple.Frame.get_bind fun s => hf s s

theorem Writing.ite {c : Prop} [Decidable c] {x y : CoreM Hash Sig α} (hx : Writing R x)
    (hy : Writing R y) : Writing R (if c then x else y) := by
  split
  · exact hx
  · exact hy

-- ---------------------------------------------------------------------------
-- The calls
-- ---------------------------------------------------------------------------

namespace Allows

variable (h : Allows A R)
include h

theorem addBlk {b : Block Hash Sig} (ha : A (S.hash b.wire)) : Writing R (addBlk S b) := by
  unfold Core.addBlk
  refine Triple.Frame.get_bind fun s =>
    .ite (fun _ => .pure' (h.refl s)) fun hf => .modify_bind (.pure' ?_)
  rw [Bool.not_eq_true] at hf
  simp only [isBlkFetched, Option.isSome_eq_false_iff, Option.isNone_iff_eq_none] at hf
  exact h.store hf ha

theorem onDeliverBlk {n : Hash} : Writing R (Core.onDeliverBlk n : CoreM Hash Sig Bool) := by
  unfold Core.onDeliverBlk
  refine Triple.Frame.get_bind fun s => ?_
  cases hb : s.storage n with
  | none => exact .throw' (h.refl s)
  | some b =>
    refine .ite (fun _ => .pure' (h.refl s)) fun hd => ?_
    have hd' : s.delivered n = false := by rw [delivered_of hb]; simpa using hd
    refine Triple.mono (Q := fun _ s' => OnlyAt n s s' ∧ Beside s s')
      (E := fun _ s' => OnlyAt n s s' ∧ Beside s s') ?_
      (fun _ _ hs => h.deliver hd' (isBlkFetched_of hb) hs.1 hs.2)
      fun _ _ hs => h.deliver hd' (isBlkFetched_of hb) hs.1 hs.2
    refine .modify_bind (.ite (fun _ => ?_) fun _ => .throw_bind ⟨.modifyBlk, .same rfl rfl rfl⟩)
    cases b.parentHashes.head? with
    | none => exact .throw' ⟨.modifyBlk, .same rfl rfl rfl⟩
    | some p =>
      refine .modify_bind (.get_bind (.ite (fun _ => ?_)
        fun _ => .throw_bind ⟨OnlyAt.modifyBlk.trans .modifyBlk, .same rfl rfl rfl⟩))
      refine .modify_bind (.modify_bind (.modify_bind (.pure' ⟨?_, .same rfl rfl rfl⟩)))
      exact ((OnlyAt.modifyBlk.trans .modifyBlk).trans .modifyBlk).trans .modifyBlk

theorem decideBlks {l : List Hash} : R s (l.foldl decideBlk s) := by
  induction l generalizing s with
  | nil => exact h.refl s
  | cons n l ih =>
    have hmod : R s (s.modifyBlk n ({ · with decision := true })) :=
      h.edit fun _ => ⟨rfl, rfl, rfl, rfl⟩
    have hone : R s (s.decideBlk n) :=
      h.trans hmod (h.beside rfl ⟨rfl, rfl, List.prefix_append _ _⟩)
    exact h.trans hone ih

theorem commit {c : Hash} : Writing R (Core.commit c : CoreM Hash Sig Unit) := by
  unfold Core.commit
  refine Triple.Frame.get_bind fun s => ?_
  cases s.walk (s.height s.bExec) c with
  | none => exact .throw' (h.refl s)
  | some r =>
    refine .ite (fun _ => .set_bind (.pure' ?_)) fun _ => .throw' (h.refl s)
    exact h.trans (h.decideBlks (l := r.1.reverse)) (h.beside rfl (.same rfl rfl rfl))

theorem directParent {child parent : Hash} :
    Writing R (directParent child parent : CoreM Hash Sig Bool) := by
  refine .get_bind fun s => ?_
  cases (s.parents child).head? with
  | none => exact h.throw'
  | some p => exact h.pure'

theorem updateHqc' {n : Hash} {qc : QuorumCert Hash Sig} :
    Writing R (modify (·.updateHqc n qc) : CoreM Hash Sig PUnit) :=
  h.modify' fun _ => ⟨storage_updateHqc, .updateHqc⟩

theorem raiseLock' {n : Hash} : Writing R (modify (·.raiseLock n) : CoreM Hash Sig PUnit) :=
  h.modify' fun _ => ⟨storage_raiseLock, .raiseLock⟩

theorem updateThreeStep {n : Hash} : Writing R (updateThreeStep n : CoreM Hash Sig Unit) := by
  refine .get_bind fun s => ?_
  cases s.storage n with
  | none => exact h.pure'
  | some nb =>
    dsimp only
    cases nb.qcRef with
    | none => exact h.pure'
    | some blk2 =>
      refine .get_bind fun s => .ite h.pure' (h.bind h.updateHqc' fun _ => .get_bind fun s => ?_)
      cases s.qcRef blk2 with
      | none => exact h.pure'
      | some blk1 =>
        refine .get_bind fun s => .ite h.pure' (h.bind h.raiseLock' fun _ => .get_bind fun s => ?_)
        cases s.qcRef blk1 with
        | none => exact h.pure'
        | some blk =>
          refine .get_bind fun s => .ite h.pure' (h.bind h.directParent fun _ => ?_)
          exact .ite (h.bind h.directParent fun _ => .ite h.commit h.pure') h.pure'

theorem updateTwoStep {n : Hash} : Writing R (updateTwoStep n : CoreM Hash Sig Unit) := by
  refine .get_bind fun s => ?_
  cases s.storage n with
  | none => exact h.pure'
  | some nb =>
    dsimp only
    cases nb.qcRef with
    | none => exact h.pure'
    | some blk1 =>
      refine .get_bind fun s => .ite h.pure' (h.bind h.updateHqc' fun _ => ?_)
      refine h.bind h.raiseLock' fun _ => .get_bind fun s => ?_
      cases s.qcRef blk1 with
      | none => exact h.pure'
      | some blk =>
        refine .get_bind fun s => .ite h.pure' (h.bind h.directParent fun _ => ?_)
        exact .ite h.commit h.pure'

theorem update {n : Hash} : Writing R (update build n : CoreM Hash Sig Unit) := by
  cases build
  · exact h.updateThreeStep
  · exact h.updateTwoStep

theorem opinion {n : Hash} : Writing R (opinion n : CoreM Hash Sig Bool) := by
  have hset {s : Core Hash Sig} {v : Nat} : R s { s with vheight := v } := h.beside rfl (.same rfl rfl rfl)
  refine Triple.Frame.get_bind fun s => .ite (fun _ => .ite (fun _ => ?_) fun _ => ?_)
    fun _ => .pure' (h.refl s)
  · exact .set_bind (.pure' hset)
  · cases s.walk (s.height s.bLock) n with
    | none => exact .throw' (h.refl s)
    | some r => exact .ite (fun _ => .set_bind (.pure' hset)) fun _ => .pure' (h.refl s)

theorem sanityCheckDelivered {n : Hash} :
    Writing R (sanityCheckDelivered n : CoreM Hash Sig Unit) :=
  .get_bind fun _ => .ite h.pure' h.throw'

theorem onReceiveProposal {prop : Proposal Hash} :
    Writing R (onReceiveProposal build prop : CoreM Hash Sig (List (Frame Hash))) := by
  refine .get_bind fun s => .ite ?_ (h.bind h.sanityCheckDelivered fun _ =>
    h.bind h.update fun _ => ?_)
  · exact h.bind h.opinion fun _ => .ite h.pure' (.get_bind fun _ => h.pure')
  · exact h.bind h.opinion fun _ => .ite h.pure' (.get_bind fun _ => h.pure')

theorem onPropose {cmds parents : List Hash} {extra : List UInt8}
    (ha : ∀ p, parents.head? = some p → A (S.hash (s.newBlock cmds parents extra p).wire)) :
    Triple (onPropose S build cmds parents extra) s (fun _ s' => R s s') (fun _ s' => R s s') := by
  unfold Core.onPropose
  cases hp : parents.head? with
  | none => exact .throw' (h.refl s)
  | some p =>
    refine .modify_bind (.get_bind ?_)
    have hts {s' : Core Hash Sig} (hs : R { s with tails := s.tails.filter (· ∉ parents) } s') :
        R s s' := by
      refine h.trans ?_ hs
      exact h.beside rfl (.same rfl rfl rfl)
    refine Triple.mono (h.bind (h.addBlk (ha p hp)) (fun n => ?_) _) (fun _ _ => hts) fun _ _ => hts
    refine h.bind (h.modifyBlk' fun _ => ⟨rfl, rfl, rfl, rfl⟩) fun _ => ?_
    refine h.bind h.onDeliverBlk fun _ => h.bind h.update fun _ => .get_bind fun s => ?_
    exact .ite (h.bind h.throw' fun _ => h.bind h.onReceiveProposal fun _ => h.pure')
      (h.bind h.onReceiveProposal fun _ => h.pure')

theorem onReceiveVote {v : Vote Hash Sig} : Writing R (onReceiveVote S v) := by
  refine h.bind h.sanityCheckDelivered fun _ => .get_bind fun s => ?_
  refine .ite h.pure' (.ite h.pure' (h.bind (h.modifyBlk' fun _ => ⟨rfl, rfl, rfl, rfl⟩) fun _ => ?_))
  refine h.bind (h.modifyBlk' fun _ => ⟨rfl, rfl, rfl, rfl⟩) fun _ => ?_
  cases ((s.selfQc v.blkHash).getD (.create S v.blkHash)).addPart v.voter v.cert with
  | error e => exact h.throw'
  | ok q =>
    refine h.bind (h.modifyBlk' fun _ => ⟨rfl, rfl, rfl, rfl⟩) fun _ => .ite ?_ h.pure'
    exact h.bind h.updateHqc' fun _ => h.pure'

/-- The frames that fulfil no promise. -/
theorem resume {beatResp : ReplicaID → ReplicaID} (f : Frame Hash) (hf : ∀ blk, f ≠ .qcFinish blk) :
    Writing R (resume S beatResp f) := by
  cases f with
  | qcFinish blk => exact absurd rfl (hf blk)
  | receiveProposal_ prop op =>
    refine h.bind (h.modify' fun s => ?_) fun _ => h.pure'
    unfold tailReceived
    split <;> exact ⟨rfl, .same rfl rfl rfl⟩
  | vote prop op =>
    refine Triple.Frame.get_bind fun s => .ite (fun _ => .set_bind (.ite (fun _ => ?_) fun _ => ?_))
      fun _ => .pure' (h.refl s)
    · have hsent : R s (s.sent S prop.proposer prop.blk) :=
        h.beside rfl ⟨rfl, rfl, List.prefix_append _ _⟩
      exact (h.onReceiveVote _).mono (fun _ _ hs => h.trans hsent hs) fun _ _ hs => h.trans hsent hs
    · exact .pure' (h.beside rfl ⟨rfl, rfl, List.prefix_append _ _⟩)
  | qcErase => exact h.bind (h.modify' fun _ => ⟨rfl, .same rfl rfl rfl⟩) fun _ => h.pure'
  | propose_ => exact h.bind (h.modify' fun _ => ⟨rfl, .same rfl rfl rfl⟩) fun _ => h.pure'
  | broadcast =>
    exact h.bind (h.modify' fun _ => ⟨rfl, rfl, rfl, List.prefix_append _ _⟩) fun _ => h.pure'

variable (hst : ∀ {s s' : Core Hash Sig}, s'.storage = s.storage → R s s')
include hst

theorem settlePm {p : Nat} {st : PmState} : R s (s.settlePm p st) := by
  unfold Core.settlePm
  split <;> exact hst rfl

/-- Any frame, where the promises may change. -/
theorem resume_any {beatResp : ReplicaID → ReplicaID} (f : Frame Hash) :
    Writing R (Core.resume S beatResp f) := by
  by_cases hf : ∃ blk, f = .qcFinish blk
  · obtain ⟨blk, rfl⟩ := hf
    refine .get_bind fun s => ?_
    cases s.qcWaiting.lookup blk with
    | none => exact h.pure'
    | some p => exact h.bind (Triple.Frame.modify' fun _ => h.settlePm hst) fun _ => h.pure'
  · exact h.resume f fun blk heq => hf ⟨blk, heq⟩

/-- Any call, where the promises may change. -/
theorem run {O : Options} {c : Call Hash Sig} (hc : c.Within S A s) :
    Triple (c.run S O) s (fun _ s' => R s s') (fun _ s' => R s s') := by
  cases c with
  | addBlk w =>
    cases hw : Block.unserialize w with
    | none =>
      simp only [Call.run, hw]
      exact h.pure' s
    | some b =>
      simp only [Call.run, hw]
      exact h.bind (h.addBlk (hc b hw)) (fun _ => h.pure') s
  | deliver => exact h.bind h.onDeliverBlk (fun _ => h.pure') s
  | propose => exact h.onPropose hc
  | receiveProposal => exact h.onReceiveProposal s
  | receiveVote => exact h.onReceiveVote s
  | asyncQcFinish blk =>
    have hawait : Writing R (Core.asyncQcFinish S blk) := by
      refine Triple.Frame.get_bind fun s => .ite (fun _ => .set_bind (.pure' (hst rfl))) fun _ => ?_
      cases s.qcWaiting.lookup blk with
      | none => exact .set_bind (.pure' (hst rfl))
      | some p => exact .pure' (h.refl s)
    exact h.bind hawait (fun _ => h.pure') s
  | rejectPm pm => exact h.bind (Triple.Frame.modify' fun _ => h.settlePm hst) (fun _ => h.pure') s

/-- A step of a replica. -/
theorem replica {O : Options} {r : Replica Hash Sig} {e : Event Hash Sig}
    (he : ∀ c, e = .call c → c.Within S A r.core) : R r.core (r.step S O e).core := by
  have hrun {m : CoreM Hash Sig (List (Frame Hash))} {rest}
      (hm : Triple m r.core (fun _ s' => R r.core s') (fun _ s' => R r.core s')) :
      R r.core (r.runOn m rest).core := by
    unfold Replica.runOn
    cases hx : m r.core with
    | ok fs s' => exact hm.ok hx
    | error e s' => exact hm.error hx
  cases e with
  | call c => exact hrun (h.run hst (he c rfl))
  | resume =>
    unfold Replica.step
    cases r.stack with
    | nil => exact h.refl _
    | cons f rest => exact hrun (h.resume_any hst f _)

end Allows

end Core

end HotStuffTx
