import HotStuffTx.Calls
import HotStuffTx.Replica

/-!
# The steps of a replica

`Call.Post` and `Call.Thrown` gather what a call does, `Frame.Post` what a
frame does; a step of a replica is one of these. The one thing asked of the
callers is that `on_propose` is given delivered parents.
-/

set_option linter.unusedSectionVars false

namespace HotStuffTx

open Core

variable {Hash Sig : Type} [DecidableEq Hash]

-- ---------------------------------------------------------------------------
-- Calls
-- ---------------------------------------------------------------------------

/-- The parents of a proposal are delivered blocks. -/
def Call.Sound (s : Core Hash Sig) : Call Hash Sig → Prop
  | .propose _ parents _ => ∀ p ∈ parents, s.delivered p = true
  | _ => True

instance Call.decidableSound (s : Core Hash Sig) (c : Call Hash Sig) : Decidable (c.Sound s) := by
  cases c <;> simp only [Call.Sound] <;> infer_instance

def Call.Post (S : Setup Hash Sig) (O : Options) (s : Core Hash Sig) :
    Call Hash Sig → List (Frame Hash) → Core Hash Sig → Prop
  | .addBlk _, fs, s' => fs = [] ∧ ∃ h, StoreStep S s h s' ∧
      s'.delivered = s.delivered ∧ s'.height = s.height
  | .deliver blk, fs, s' => fs = [] ∧ StoreStep S s blk s'
  | .propose cmds parents extra, fs, s' =>
    ∃ n s₁ s₂ op, Proposed S s cmds parents extra n s₁ ∧ Updated O.build s₁ n s₂ ∧
      s₂.vheight < s₂.height n ∧ Judged S s₂ n op s' ∧
      fs = [.receiveProposal_ ⟨s.id, n⟩ op, .propose_ ⟨s.id, n⟩]
  | .receiveProposal prop, fs, s' => Received S O.build s prop fs s'
  | .receiveVote v, fs, s' => fs = [] ∧ s' = s ∨ Counted S s v fs s'
  | .asyncQcFinish blk, fs, s' => fs = [] ∧ ∃ pms, s' = { s with pms := pms } ∨
      s' = { s with pms := pms, qcWaiting := (blk, s.pms.length) :: s.qcWaiting }
  | .rejectPm pm, fs, s' => fs = [] ∧ s' = s.settlePm pm .rejected

def Call.Thrown (S : Setup Hash Sig) (O : Options) (s : Core Hash Sig) :
    Call Hash Sig → CoreError → Core Hash Sig → Prop
  | .addBlk _, _, _ => False
  | .deliver blk, e, s' => e ≠ .safetyBreached ∧ StoreStep S s blk s'
  | .propose cmds parents extra, e, s' => e = .emptyParents ∧ s' = s ∨
      ∃ n s₁, Proposed S s cmds parents extra n s₁ ∧
        (Refused O.build s₁ n e s' ∨ e = .notHigher ∧ Updated O.build s₁ n s')
  | .receiveProposal prop, e, s' => prop.proposer ≠ s.id ∧
      (e = .blockNotDelivered ∧ s' = s ∨
        s.delivered prop.blk = true ∧ Refused O.build s prop.blk e s')
  | .receiveVote v, e, s' => e = .blockNotDelivered ∧ s' = s ∨ Miscounted S s v e s'
  | .asyncQcFinish _, _, _ => False
  | .rejectPm _, _, _ => False

section
variable {S : Setup Hash Sig} {O : Options} {s s' : Core Hash Sig}

theorem Call.run_spec (h : CoreOk S s) {c : Call Hash Sig} (hc : c.Sound s) :
    Triple (c.run S O) s (c.Post S O s) (c.Thrown S O s) := by
  cases c with
  | addBlk w =>
    cases hw : Block.unserialize w with
    | none =>
      simp only [Call.run, hw]
      exact .pure' ⟨rfl, S.genesis, .skip, rfl, rfl⟩
    | some b =>
      simp only [Call.run, hw]
      refine .bind ((addBlk_step (fresh_unserialize hw)).mono (fun _ _ h => h) fun _ _ h => h)
        fun n s' h => .pure' ⟨rfl, n, h⟩
  | deliver blk =>
    refine .bind ((onDeliverBlk_step h.store).mono (fun _ _ h => h) fun _ _ h => h)
      fun _ s' h => .pure' ⟨rfl, h⟩
  | propose cmds parents extra =>
    refine (onPropose_spec h hc).mono (fun _ _ h => h) fun e s' h =>
      h.imp (fun h => ⟨h.1, h.2.1⟩) ?_
    exact fun ⟨n, s₁, hn, h⟩ => ⟨n, s₁, hn, h.imp_right fun h => ⟨h.1, h.2.1⟩⟩
  | receiveProposal prop =>
    exact (onReceiveProposal_spec h).mono (fun _ _ h => h) fun e s' h =>
      h.imp_right (Or.imp_left fun h => ⟨h.1, h.2.1⟩)
  | receiveVote v =>
    exact onReceiveVote_spec.mono (fun _ _ h => h) fun e s' h => h.imp_left fun h => ⟨h.1, h.2.1⟩
  | asyncQcFinish blk =>
    refine .bind (Q := fun _ s' => ∃ pms, s' = { s with pms := pms } ∨
      s' = { s with pms := pms, qcWaiting := (blk, s.pms.length) :: s.qcWaiting }) ?_
      fun _ s' h => .pure' ⟨rfl, h⟩
    unfold Core.asyncQcFinish
    refine .get_bind (.ite (fun _ => .set_bind (.pure' ⟨_, .inl rfl⟩)) fun _ => ?_)
    cases s.qcWaiting.lookup blk with
    | none => exact .set_bind (.pure' ⟨_, .inr rfl⟩)
    | some p => exact .pure' ⟨s.pms, .inl rfl⟩
  | rejectPm pm => exact .modify_bind (.pure' ⟨rfl, rfl⟩)

theorem CoreOk.settlePm (h : CoreOk S s) : CoreOk S (s.settlePm p st) ∧ Advances s (s.settlePm p st) := by
  refine h.stores (.of_storage h.store ?_ ?_) <;> unfold Core.settlePm <;> split <;> rfl

theorem Call.Post.coreOk (h : CoreOk S s) {c : Call Hash Sig} (hp : c.Post S O s fs s') :
    CoreOk S s' ∧ Advances s s' := by
  cases c with
  | addBlk w =>
    obtain ⟨-, n, hst, -⟩ := hp
    exact h.stores (hst.stores h.store)
  | deliver blk => exact h.stores (hp.2.stores h.store)
  | propose cmds parents extra =>
    obtain ⟨n, s₁, s₂, op, hprop, hu, -, hj, -⟩ := hp
    obtain ⟨hok₁, hadv₁⟩ := h.stores (hprop.stores h.store)
    obtain ⟨hok₂, hadv₂⟩ := hok₁.updated hu
    obtain ⟨hok', hadv'⟩ := hok₂.judged hj
    exact ⟨hok', (hadv₁.trans hadv₂).trans hadv'⟩
  | receiveProposal prop => exact h.received hp
  | receiveVote v =>
    rcases hp with ⟨-, rfl⟩ | hp
    · exact ⟨h, .refl⟩
    · exact hp.coreOk h
  | asyncQcFinish blk =>
    obtain ⟨-, pms, rfl | rfl⟩ := hp
    · exact h.stores (.of_storage h.store rfl rfl)
    · exact h.stores (.of_storage h.store rfl rfl)
  | rejectPm pm =>
    obtain ⟨-, rfl⟩ := hp
    exact CoreOk.settlePm h

theorem Call.Thrown.coreOk (h : CoreOk S s) {c : Call Hash Sig} (hp : c.Thrown S O s e s') :
    CoreOk S s' ∧ Advances s s' := by
  cases c with
  | addBlk w => exact hp.elim
  | deliver blk => exact h.stores (hp.2.stores h.store)
  | propose cmds parents extra =>
    rcases hp with ⟨-, rfl⟩ | ⟨n, s₁, hprop, hr⟩
    · exact ⟨h, .refl⟩
    · obtain ⟨hok₁, hadv₁⟩ := h.stores (hprop.stores h.store)
      rcases hr with hr | ⟨-, hu⟩
      · obtain ⟨-, hok', hadv', -⟩ := hok₁.refused hr
        exact ⟨hok', hadv₁.trans hadv'⟩
      · obtain ⟨hok', hadv'⟩ := hok₁.updated hu
        exact ⟨hok', hadv₁.trans hadv'⟩
  | receiveProposal prop =>
    obtain ⟨-, ⟨-, rfl⟩ | ⟨-, hr⟩⟩ := hp
    · exact ⟨h, .refl⟩
    · obtain ⟨-, hok', hadv', -⟩ := h.refused hr
      exact ⟨hok', hadv'⟩
  | receiveVote v =>
    rcases hp with ⟨-, rfl⟩ | hp
    · exact ⟨h, .refl⟩
    · exact Miscounted.coreOk h hp
  | asyncQcFinish blk => exact hp.elim
  | rejectPm pm => exact hp.elim

end

-- ---------------------------------------------------------------------------
-- Frames
-- ---------------------------------------------------------------------------

/-- The replica having sent its vote for `blk`. -/
def Core.sent (S : Setup Hash Sig) (s : Core Hash Sig) (dst : ReplicaID) (blk : Hash) :
    Core Hash Sig :=
  { s with out := s.out ++ [Output.vote dst (s.castVote S blk)] }

def Frame.Post (S : Setup Hash Sig) (s : Core Hash Sig) :
    Frame Hash → List (Frame Hash) → Core Hash Sig → Prop
  | .qcFinish blk, fs, s' => s.qcWaiting.lookup blk = none ∧ fs = [] ∧ s' = s ∨
      ∃ p, s.qcWaiting.lookup blk = some p ∧ fs = [.qcErase blk] ∧ s' = s.settlePm p .fulfilled
  | .qcErase blk, fs, s' => fs = [] ∧
      s' = { s with qcWaiting := s.qcWaiting.filter (·.1 ≠ blk) }
  | .receiveProposal_ prop op, fs, s' => fs = [.vote prop op] ∧ s' = s.tailReceived prop.blk
  | .vote prop op, fs, s' => fs = [] ∧ s' = s ∨
      op = true ∧ (fs = [] ∧ s' = s.sent S prop.proposer prop.blk ∨
        Counted S (s.sent S prop.proposer prop.blk) (s.castVote S prop.blk) fs s')
  | .propose_ prop, fs, s' => fs = [.broadcast prop] ∧ s' = s.tailProposed prop.blk
  | .broadcast prop, fs, s' => fs = [] ∧ s' = { s with out := s.out ++ [.broadcast prop] }

def Frame.Thrown (S : Setup Hash Sig) (s : Core Hash Sig) :
    Frame Hash → CoreError → Core Hash Sig → Prop
  | .vote prop op, e, s' => op = true ∧
      (e = .blockNotDelivered ∧ s' = s.sent S prop.proposer prop.blk ∨
        Miscounted S (s.sent S prop.proposer prop.blk) (s.castVote S prop.blk) e s')
  | _, _, _ => False

section
variable {S : Setup Hash Sig} {O : Options} {s s' : Core Hash Sig}

theorem Frame.run_spec (f : Frame Hash) :
    Triple (resume S O.beatResp f) s (f.Post S s) (f.Thrown S s) := by
  cases f with
  | qcFinish blk =>
    unfold resume
    refine .get_bind ?_
    cases hl : s.qcWaiting.lookup blk with
    | none => exact .pure' (.inl ⟨hl, rfl, rfl⟩)
    | some p => exact .modify_bind (.pure' (.inr ⟨p, hl, rfl, rfl⟩))
  | qcErase blk => exact .modify_bind (.pure' ⟨rfl, rfl⟩)
  | receiveProposal_ prop op => exact .modify_bind (.pure' ⟨rfl, rfl⟩)
  | vote prop op =>
    unfold resume
    refine .get_bind (.ite (fun hop => .set_bind ?_) fun _ => .pure' (.inl ⟨rfl, rfl⟩))
    have hop : op = true := (Bool.and_eq_true _ _ ▸ hop).1
    refine .ite (fun _ => ?_) fun _ => .pure' (.inr ⟨hop, .inl ⟨rfl, rfl⟩⟩)
    exact onReceiveVote_spec.mono (fun fs s' h => .inr ⟨hop, h⟩)
      fun e s' h => ⟨hop, h.imp_left fun h => ⟨h.1, h.2.1⟩⟩
  | propose_ prop => exact .modify_bind (.pure' ⟨rfl, rfl⟩)
  | broadcast prop => exact .modify_bind (.pure' ⟨rfl, rfl⟩)

theorem CoreOk.tailReceived (h : CoreOk S s) :
    CoreOk S (s.tailReceived blk) ∧ Advances s (s.tailReceived blk) := by
  refine h.stores (.of_storage h.store ?_ ?_) <;> unfold Core.tailReceived <;> split <;> rfl

theorem CoreOk.sent (dst : ReplicaID) (blk : Hash) (h : CoreOk S s) : CoreOk S (s.sent S dst blk) ∧ Advances s (s.sent S dst blk) :=
  h.emit rfl

theorem Frame.Post.coreOk (h : CoreOk S s) {f : Frame Hash} (hp : f.Post S s fs s') :
    CoreOk S s' ∧ Advances s s' := by
  cases f with
  | qcFinish blk =>
    rcases hp with ⟨-, -, rfl⟩ | ⟨p, -, -, rfl⟩
    · exact ⟨h, .refl⟩
    · exact CoreOk.settlePm h
  | qcErase blk =>
    obtain ⟨-, rfl⟩ := hp
    exact h.stores (.of_storage h.store rfl rfl)
  | receiveProposal_ prop op =>
    obtain ⟨-, rfl⟩ := hp
    exact CoreOk.tailReceived h
  | vote prop op =>
    rcases hp with ⟨-, rfl⟩ | ⟨-, ⟨-, rfl⟩ | hp⟩
    · exact ⟨h, .refl⟩
    · exact CoreOk.sent _ _ h
    · obtain ⟨hok, hadv⟩ := CoreOk.sent prop.proposer prop.blk h
      exact ⟨(hp.coreOk hok).1, hadv.trans (hp.coreOk hok).2⟩
  | propose_ prop =>
    obtain ⟨-, rfl⟩ := hp
    exact h.stores (.of_storage h.store rfl rfl)
  | broadcast prop =>
    obtain ⟨-, rfl⟩ := hp
    exact h.emit rfl

theorem Frame.Thrown.coreOk (h : CoreOk S s) {f : Frame Hash} (hp : f.Thrown S s e s') :
    CoreOk S s' ∧ Advances s s' := by
  cases f with
  | vote prop op =>
    obtain ⟨hok, hadv⟩ := CoreOk.sent prop.proposer prop.blk h
    obtain ⟨-, ⟨-, rfl⟩ | hp⟩ := hp
    · exact ⟨hok, hadv⟩
    · exact ⟨(Miscounted.coreOk hok hp).1, hadv.trans (Miscounted.coreOk hok hp).2⟩
  | _ => exact hp.elim

end

-- ---------------------------------------------------------------------------
-- Steps
-- ---------------------------------------------------------------------------

namespace Replica

/-- What an event may do to a replica. -/
inductive Stepped (S : Setup Hash Sig) (O : Options) (r : Replica Hash Sig) :
    Event Hash Sig → Replica Hash Sig → Prop
  | call {c fs s'} (hp : c.Post S O r.core fs s') :
      Stepped S O r (.call c) { r with core := s', stack := fs ++ r.stack }
  | callThrew {c e s'} (hp : c.Thrown S O r.core e s') :
      Stepped S O r (.call c) { core := s', stack := [], thrown := r.thrown ++ [e] }
  | idle (hs : r.stack = []) : Stepped S O r .resume r
  | frame {f rest fs s'} (hs : r.stack = f :: rest) (hp : f.Post S r.core fs s') :
      Stepped S O r .resume { r with core := s', stack := fs ++ rest }
  | frameThrew {f rest e s'} (hs : r.stack = f :: rest) (hp : f.Thrown S r.core e s') :
      Stepped S O r .resume { core := s', stack := [], thrown := r.thrown ++ [e] }

/-- The event is a call its caller may make. -/
def Sound (r : Replica Hash Sig) : Event Hash Sig → Prop
  | .call c => c.Sound r.core
  | .resume => True

instance decidableSound (r : Replica Hash Sig) (e : Event Hash Sig) : Decidable (r.Sound e) := by
  cases e <;> simp only [Sound] <;> infer_instance

variable {S : Setup Hash Sig} {O : Options} {r r' : Replica Hash Sig}

theorem stepped (h : CoreOk S r.core) (he : r.Sound e) : Stepped S O r e (r.step S O e) := by
  cases e with
  | call c =>
    have hspec := Call.run_spec (O := O) h he
    cases hx : c.run S O r.core with
    | ok fs s' =>
      simp only [step, runOn, hx]
      exact .call (hspec.ok hx)
    | error e s' =>
      simp only [step, runOn, hx]
      exact .callThrew (hspec.error hx)
  | resume =>
    cases hs : r.stack with
    | nil =>
      simp only [step, hs]
      exact .idle hs
    | cons f rest =>
      have hspec := Frame.run_spec (S := S) (O := O) (s := r.core) f
      cases hx : resume S O.beatResp f r.core with
      | ok fs s' =>
        simp only [step, hs, runOn, hx]
        exact .frame hs (hspec.ok hx)
      | error e s' =>
        simp only [step, hs, runOn, hx]
        exact .frameThrew hs (hspec.error hx)

theorem Stepped.coreOk (h : CoreOk S r.core) (hs : Stepped S O r e r') :
    CoreOk S r'.core ∧ Advances r.core r'.core := by
  cases hs with
  | call hp => exact hp.coreOk h
  | callThrew hp => exact hp.coreOk h
  | idle => exact ⟨h, .refl⟩
  | frame _ hp => exact hp.coreOk h
  | frameThrew _ hp => exact hp.coreOk h

end Replica

theorem Core.coreOk_init {S : Setup Hash Sig} {rid : ReplicaID} : CoreOk S (Core.init S rid) := by
  have hst {x} : (Core.init S rid).storage x = if x = S.genesis then some {
      parentHashes := [], cmds := [], qc := .create S S.genesis, extra := []
      qcRef := some S.genesis, selfQc := some (.create S S.genesis), delivered := true
      decision := true, voted := ((List.range S.nreplicas).map UInt16.ofNat).eraseDups } else none := by
    simp [Core.init, Function.update_apply]
  have hheight {x} : (Core.init S rid).height x = 0 := by
    simp only [Core.height, hst]
    split <;> rfl
  have hdel {x} : (Core.init S rid).delivered x = true ↔ x = S.genesis := by
    simp only [Core.delivered, hst]
    split <;> simp_all
  have hdec {x} : (Core.init S rid).decision x = true ↔ x = S.genesis := by
    simp only [Core.decision, hst]
    split <;> simp_all
  refine ⟨⟨⟨_, by rw [hst, if_pos rfl], rfl, rfl, rfl, rfl, rfl, rfl⟩, ?_, ?_, ?_, ?_⟩, ?_, .inl rfl, rfl,
    .inl rfl, .nil, fun {x} => ?_, rfl, .inl rfl⟩
  · intro x b hb hx
    simp [hst, hx] at hb
  · intro x hx hl
    simp [hheight, hdel, hx] at hl
  · intro x hx hd
    exact absurd (hdel.mp hd) hx
  · intro x hd
    have hx : x ≠ S.genesis := fun hx => by rw [hdel.mpr hx] at hd; cases hd
    refine ⟨?_, ?_⟩
    · simp [Core.qcRef, hst, hx]
    · simpa [hx] using hdec (x := x)
  · intro x q hq
    simp only [Core.selfQc, hst] at hq
    split at hq
    · rename_i hx
      cases hq
      exact hx.symm
    · cases hq
  · rw [hdec]
    exact ⟨fun hx => hx ▸ .refl, S.ext_genesis⟩

end HotStuffTx
