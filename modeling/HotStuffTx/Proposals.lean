import HotStuffTx.Provenance

/-!
# Own proposals

What a replica proposes was built by a call of `on_propose`, which has stored
and delivered it by the time the pacemaker and the network hear of it.
-/

set_option linter.unusedSectionVars false

namespace HotStuffTx

open Core

variable {Hash Sig : Type} [DecidableEq Hash]

/-- The block of a proposal that waits on the stack. -/
def Frame.proposes : Frame Hash → Option Hash
  | .propose_ prop | .broadcast prop => some prop.blk
  | _ => none

/-- The replica has broadcast a proposal of `h`, or is about to. -/
def Replica.Proposes (r : Replica Hash Sig) (h : Hash) : Prop :=
  (∃ prop, Output.broadcast prop ∈ r.core.out ∧ prop.blk = h) ∨ ∃ f ∈ r.stack, f.proposes = some h

section
variable {S : Setup Hash Sig} {O : Options} {s s' : Core Hash Sig} {r r' : Replica Hash Sig}

theorem Core.Counted.not_proposes (hc : Counted S s v fs s') : ∀ f ∈ fs, f.proposes ≠ some x := by
  cases hc with
  | part => simp
  | full => simp [Frame.proposes]

theorem Core.out_tailReceived : (s.tailReceived blk).out = s.out := by
  unfold tailReceived
  split <;> rfl

theorem Core.broadcast_sent :
    Output.broadcast prop ∈ (s.sent S dst blk).out ↔ Output.broadcast prop ∈ s.out := by
  simp [sent]

namespace Replica

/-- A call leaves the frame of a proposal where it has built the block. -/
theorem call_proposes (h : CoreOk S r.core) {c : Call Hash Sig} (hp : c.Post S O r.core fs s')
    (hf : f ∈ fs) (hx : f.proposes = some x) : s'.delivered x = true ∧ ∃ cmds parents extra s₁,
      c = .propose cmds parents extra ∧ Proposed S r.core cmds parents extra x s₁ := by
  cases c with
  | propose cmds parents extra =>
    obtain ⟨n, s₁, s₂, op, hprop, hu, -, hj, rfl⟩ := hp
    obtain rfl : n = x := by
      rcases List.mem_cons.mp hf with rfl | hf
      · cases hx
      · cases List.mem_singleton.mp hf
        cases hx
        rfl
    refine ⟨?_, _, _, _, _, rfl, hprop⟩
    rw [(eq_of_storage hj.sameChain.storage).2.2.2.2, (hu.same (h.stores (hprop.stores h.store)).1).2.2]
    exact hprop.delivered_self
  | receiveProposal prop =>
    cases hp with
    | own =>
      cases List.mem_singleton.mp hf
      cases hx
    | other =>
      rcases List.mem_append.mp hf with hf | hf
      · obtain ⟨q, -, rfl⟩ := Option.map_eq_some_iff.mp (Option.mem_toList.mp hf)
        cases hx
      · cases List.mem_singleton.mp hf
        cases hx
  | receiveVote v =>
    rcases hp with ⟨rfl, -⟩ | hp
    · cases hf
    · exact absurd hx (Counted.not_proposes hp f hf)
  | _ =>
    obtain ⟨rfl, -⟩ := hp
    cases hf

/-- A frame passes the proposal it holds on, in the end to the network. -/
theorem frame_proposes {f : Frame Hash} (hp : f.Post S r.core fs s') :
    (∀ prop, Output.broadcast prop ∈ s'.out →
      Output.broadcast prop ∈ r.core.out ∨ f.proposes = some prop.blk) ∧
    ∀ g ∈ fs, ∀ x, g.proposes = some x → f.proposes = some x := by
  cases f with
  | qcFinish blk =>
    rcases hp with ⟨-, rfl, rfl⟩ | ⟨p, -, rfl, rfl⟩
    · exact ⟨fun _ => .inl, by simp⟩
    · refine ⟨fun _ hx => .inl (by rwa [out_settlePm] at hx), by simp [Frame.proposes]⟩
  | qcErase blk =>
    obtain ⟨rfl, rfl⟩ := hp
    exact ⟨fun _ => .inl, by simp⟩
  | receiveProposal_ prop op =>
    obtain ⟨rfl, rfl⟩ := hp
    exact ⟨fun _ hx => .inl (by rwa [out_tailReceived] at hx), by simp [Frame.proposes]⟩
  | vote prop op =>
    rcases hp with ⟨rfl, rfl⟩ | ⟨-, ⟨rfl, rfl⟩ | hp⟩
    · exact ⟨fun _ => .inl, by simp⟩
    · exact ⟨fun _ hx => .inl (broadcast_sent.mp hx), by simp⟩
    · refine ⟨fun _ hx => .inl ?_, fun g hg x hx => absurd hx (Counted.not_proposes hp g hg)⟩
      rw [hp.out_eq] at hx
      exact broadcast_sent.mp hx
  | propose_ prop =>
    obtain ⟨rfl, rfl⟩ := hp
    exact ⟨fun _ => .inl, by simp [Frame.proposes]⟩
  | broadcast prop =>
    obtain ⟨rfl, rfl⟩ := hp
    refine ⟨fun prop' hx => ?_, by simp⟩
    rcases List.mem_append.mp hx with hx | hx
    · exact .inl hx
    · cases List.mem_singleton.mp hx
      exact .inr rfl

/-- A replica proposes nothing it has not built. -/
theorem Stepped.proposes (h : CoreOk S r.core) (hs : Stepped S O r e r') (hx : r'.Proposes x) :
    r.Proposes x ∨ r'.core.delivered x = true ∧ ∃ cmds parents extra s₁,
      e = .call (.propose cmds parents extra) ∧ Proposed S r.core cmds parents extra x s₁ := by
  have hout {s' : Core Hash Sig} (hsent : SameSent r.core s')
      (hx : ∃ prop, Output.broadcast prop ∈ s'.out ∧ prop.blk = x) : r.Proposes x := by
    obtain ⟨prop, hp, hx⟩ := hx
    exact .inl ⟨prop, (hsent _ rfl).mp hp, hx⟩
  cases hs with
  | @call c fs s' hp =>
    rcases hx with hx | ⟨f, hf, hx⟩
    · exact .inl (hout (hp.sameSent h) hx)
    · rcases List.mem_append.mp hf with hf | hf
      · obtain ⟨hd, _, _, _, _, rfl, hprop⟩ := call_proposes h hp hf hx
        exact .inr ⟨hd, _, _, _, _, rfl, hprop⟩
      · exact .inl (.inr ⟨f, hf, hx⟩)
  | @callThrew c err s' hp =>
    rcases hx with hx | ⟨f, hf, -⟩
    · exact .inl (hout (hp.sameSent h) hx)
    · cases hf
  | idle => exact .inl hx
  | @frame f rest fs s' hst hp =>
    obtain ⟨hbr, hfs⟩ := frame_proposes hp
    have hself (hx : f.proposes = some x) : r.Proposes x := .inr ⟨f, by simp [hst], hx⟩
    rcases hx with ⟨prop, hx, rfl⟩ | ⟨g, hg, hx⟩
    · rcases hbr prop hx with hx | hx
      · exact .inl (.inl ⟨prop, hx, rfl⟩)
      · exact .inl (hself hx)
    · rcases List.mem_append.mp hg with hg | hg
      · exact .inl (hself (hfs g hg x hx))
      · exact .inl (.inr ⟨g, by simp [hst, hg], hx⟩)
  | @frameThrew f rest err s' hst hp =>
    rcases hx with ⟨prop, hx, rfl⟩ | ⟨f, hf, -⟩
    · cases f with
      | vote p op =>
        obtain ⟨-, ⟨-, rfl⟩ | hp⟩ := hp
        · exact .inl (.inl ⟨prop, broadcast_sent.mp hx, rfl⟩)
        · rw [hp.out_eq] at hx
          exact .inl (.inl ⟨prop, broadcast_sent.mp hx, rfl⟩)
      | _ => exact hp.elim
    · cases hf

theorem Stepped.proposes_delivered (h : CoreOk S r.core) (hs : Stepped S O r e r')
    (hr : ∀ x, r.Proposes x → x ≠ S.genesis ∧ r.core.delivered x = true) (hx : r'.Proposes x) :
    x ≠ S.genesis ∧ r'.core.delivered x = true := by
  rcases hs.proposes h hx with hx | ⟨hd, _, _, _, _, -, hp⟩
  · exact ⟨(hr x hx).1, (hs.coreOk h).2.grow.delivered (hr x hx).2⟩
  · exact ⟨hp.ne_genesis, hd⟩

theorem proposes_init {rid : ReplicaID} : ¬ (init S rid).Proposes x := by
  rintro (⟨_, hx, -⟩ | ⟨_, hx, -⟩) <;> cases hx

end Replica

end

end HotStuffTx
