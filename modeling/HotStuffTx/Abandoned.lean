import HotStuffTx.Attempts

/-!
# What a failed proposal leaves

`on_propose` is not undone where it throws. Up to the throw it has touched no
block but the new one, voted for nothing and sent nothing; `hqc` and `vheight`
are as they were, since the new block certifies the block of `hqc` again.
-/

set_option linter.unusedSectionVars false

namespace HotStuffTx

open Core

variable {Hash Sig : Type} [DecidableEq Hash]

/-- What `on_propose` leaves where it throws with the block `n` in hand. Only a
block that is not higher than `vheight` has been through `update`. -/
structure Core.Abandoned (s : Core Hash Sig) (n : Hash) (e : CoreError) (s' : Core Hash Sig) :
    Prop where
  vheight : s'.vheight = s.vheight
  hqc : s'.hqc = s.hqc
  sent : s'.out.filter (!·.isCommit) = s.out.filter (!·.isCommit)
  others : ∀ x ≠ n, s'.isBlkFetched x = s.isBlkFetched x ∧ s'.delivered x = s.delivered x ∧
    s'.selfQc x = s.selfQc x
  undecided : e ≠ .notHigher → s'.bExec = s.bExec ∧ s'.decision = s.decision ∧ s'.out = s.out

section
variable {S : Setup Hash Sig} {s s' s₁ : Core Hash Sig} {build : Build}

/-- The block of `hqc` seen certified again moves the lock alone. -/
theorem Core.advance_hqc (s : Core Hash Sig) (qc : QuorumCert Hash Sig) :
    (s.advance build s.hqc.1 qc).hqc = s.hqc := by
  have hsame : s.updateHqc s.hqc.1 qc = s := if_neg (Nat.lt_irrefl _)
  unfold advance raiseLock
  rw [hsame]
  repeat' split
  all_goals rfl

/-- What `update` leaves of a block that certifies the block of `hqc`. -/
theorem Core.Updated.keeps (h : CoreOk S s) (hn : S.target n = some s.hqc.1)
    (hu : Updated build s n s') :
    s'.hqc = s.hqc ∧ s'.out.filter (!·.isCommit) = s.out.filter (!·.isCommit) ∧
      s'.isBlkFetched = s.isBlkFetched ∧ s'.delivered = s.delivered ∧ s'.selfQc = s.selfQc := by
  have htarget {b t} (hb : s.storage n = some b) (ht : b.qcRef = some t) (hd : s.decision t = false) :
      t = s.hqc.1 := by
    have h' := (h.qc_of_stored hb ht hd).2.1
    rw [hn] at h'
    exact (Option.some.inj h').symm
  have hfetched {x t qc} : (s.advance build t qc).isBlkFetched x = s.isBlkFetched x := by
    simp only [isBlkFetched, storage_advance]
  have hself {t qc} : (s.advance build t qc).selfQc = s.selfQc :=
    (SameVotes.of_storage storage_advance).selfQc
  cases hu with
  | idle => exact ⟨rfl, rfl, rfl, rfl, rfl⟩
  | @advanced b t hb ht hd hc =>
    obtain rfl := htarget hb ht hd
    exact ⟨advance_hqc s b.qc, by rw [out_advance], funext fun _ => hfetched,
      (s.same_advance build _ b.qc).2.2.2.2, hself⟩
  | @committed b t c _ hb ht hd hc hrun =>
    obtain rfl := htarget hb ht hd
    obtain ⟨l, s₂, -, hdec, rfl⟩ := h.commit_ok hb ht hd hc hrun
    have hcommits : (l.flatMap fun x => Output.consensus x ::
        (s.advance build s.hqc.1 b.qc).decides x).filter (!·.isCommit) = [] := by
      refine List.filter_eq_nil_iff.mpr fun o ho => ?_
      obtain ⟨x, -, ho⟩ := List.mem_flatMap.mp ho
      rcases List.mem_cons.mp ho with rfl | ho
      · simp [Output.isCommit]
      · obtain ⟨i, -, rfl⟩ := List.mem_mapIdx.mp ho
        simp [Output.isCommit]
    refine ⟨hdec.hqc.trans (advance_hqc s b.qc), ?_, ?_, ?_, ?_⟩
    · show s₂.out.filter _ = _
      rw [hdec.out, List.filter_append, hcommits, List.append_nil, out_advance]
    · exact hdec.same.2.2.2.2.2.trans (funext fun _ => hfetched)
    · exact hdec.same.2.2.2.1.trans (s.same_advance build _ b.qc).2.2.2.2
    · exact hdec.votes.selfQc.trans hself

/-- Up to `update` the call has written to the new block and the tails. -/
theorem Core.Abandoned.of_store {ts : List Hash} {b : Block Hash Sig} (hd : b.decision = s.decision n) :
    Abandoned s n e { s.setBlk n b with tails := ts } where
  vheight := rfl
  hqc := rfl
  sent := rfl
  others x hx := by
    have hblk : (s.setBlk n b).storage x = s.storage x := by rw [storage_setBlk, if_neg hx]
    exact ⟨congrArg Option.isSome hblk, congrArg (fun o => o.any Block.delivered) hblk,
      congrArg (fun o => o.bind Block.selfQc) hblk⟩
  undecided _ := by
    refine ⟨rfl, funext fun x => ?_, rfl⟩
    refine (decision_setBlk (s := s)).trans ?_
    split
    · rename_i hx
      rw [hx, hd]
    · rfl

/-- Every throw of `on_propose`: at once, or with its new block in hand. -/
theorem Core.onPropose_abandoned (h : CoreOk S s) {cmds parents : List Hash} {extra : List UInt8} :
    Triple (onPropose S build cmds parents extra) s (fun _ _ => True)
      (fun e s' => parents = [] ∧ s' = s ∨ ∃ p, parents.head? = some p ∧
        Abandoned s (S.hash (s.newBlock cmds parents extra p).wire) e s') := by
  cases hp : parents.head? with
  | none =>
    unfold onPropose
    simp only [hp]
    exact .throw' (.inl ⟨List.head?_eq_none_iff.mp hp, rfl⟩)
  | some p =>
    have hhash {n : Hash} (hn : S.wireOf n = some (s.newBlock cmds parents extra p).wire) :
        n = S.hash (s.newBlock cmds parents extra p).wire := (S.wireOf_eq_some.mp hn).symm
    rw [onPropose_eq hp]
    refine .bind ((propose_store h hp).mono (fun _ _ h => h) ?_) fun n s₁ hn => ?_
    · rintro e s' ⟨-, -, n, b, hwire, hd, rfl⟩
      exact .inr ⟨p, rfl, hhash hwire ▸ .of_store (s := s) hd⟩
    have hst := hn.stores h.store
    have hok₁ := (h.stores hst).1
    have htarget : S.target n = some s₁.hqc.1 := by rw [hst.hqc, hn.target_eq h]
    have hstored (e : CoreError) : Abandoned s n e s₁ := by
      cases hn with
      | intro _ _ hw =>
        exact .of_store (by rw [← hw.decision_eq, decision_setBlk, if_pos rfl])
    have hn' : n = S.hash (s.newBlock cmds parents extra p).wire := by
      cases hn with
      | intro hp' hwire =>
        cases hp.symm.trans hp'
        exact hhash hwire
    subst hn'
    refine .bind ((update_spec hok₁.store).mono (fun _ _ h => h) fun e s' hr => ?_) fun _ s₂ hu => ?_
    · -- the commit is refused before it decides anything
      obtain ⟨-, -, -, hstorage, hexec, hout, hv⟩ := hok₁.refused hr
      have hsame := eq_of_storage hstorage
      have hqc : s'.hqc = s₁.hqc := by
        cases hr with
        | @intro b t c _ hb ht hd hc hrun =>
          obtain ⟨-, rfl, -⟩ := hok₁.commit_error hb ht hd hc hrun
          have heq := (hok₁.qc_of_stored hb ht hd).2.1
          cases htarget.symm.trans heq
          exact advance_hqc s₁ b.qc
      have hab := hstored e
      refine .inr ⟨p, rfl, hv.trans hab.vheight, hqc.trans hab.hqc, hout ▸ hab.sent, fun x hx => ?_,
        fun he => ?_⟩
      · obtain ⟨hf, hd, hq⟩ := hab.others x hx
        refine ⟨?_, (congrFun hsame.2.2.2.2 x).trans hd, ?_⟩
        · rw [← hf, isBlkFetched, isBlkFetched, hstorage]
        · rw [← hq, Core.selfQc, Core.selfQc, hstorage]
      · obtain ⟨h1, h2, h3⟩ := hab.undecided he
        exact ⟨hexec.trans h1, hsame.2.2.2.1.trans h2, hout.trans h3⟩
    · obtain ⟨hqc, hout, hf, hd, hq⟩ := hu.keeps hok₁ htarget
      obtain ⟨hok₂, hadv₂⟩ := hok₁.updated hu
      have hab := hstored .notHigher
      refine .get_bind (.ite (fun hle => .throw_bind (.inr ⟨p, rfl, ?_⟩)) fun _ => ?_)
      · refine ⟨(hu.vheight_eq hok₁).trans hab.vheight, hqc.trans hab.hqc, hout.trans hab.sent,
          fun x hx => ?_, fun he => absurd rfl he⟩
        obtain ⟨hf', hd', hq'⟩ := hab.others x hx
        exact ⟨(congrFun hf x).trans hf', (congrFun hd x).trans hd', (congrFun hq x).trans hq'⟩
      · exact .bind ((onReceiveProposal_spec hok₂).mono (fun _ _ h => h) fun _ _ h =>
          absurd rfl h.1) fun _ _ _ => .pure' trivial

end

/-- A throwing `on_propose` leaves `vheight` and `hqc` alone, has sent nothing, has
written to no block but the new one, and has decided nothing unless the new
block was found not to be higher than `vheight` at the end; without parents it
changes nothing at all. -/
theorem abandoned_proposal (S : Setup Hash Sig) (O : Options) (rid : ReplicaID)
    (es : List (Event Hash Sig))
    (h : Run.Allowed (Replica.step S O) Replica.Sound (Replica.init S rid) es)
    (cmds parents : List Hash) (extra : List UInt8) (e : CoreError) (s' : Core Hash Sig) :
    let s := (Run.exec (Replica.step S O) (Replica.init S rid) es).core
    onPropose S O.build cmds parents extra s = .error e s' →
      parents = [] ∧ s' = s ∨ ∃ p, parents.head? = some p ∧
        Abandoned s (S.hash (s.newBlock cmds parents extra p).wire) e s' := by
  intro s hrun
  have hok : CoreOk S s := h.inv coreOk_init fun r ev hr hev => (Replica.stepped hr hev).coreOk hr |>.1
  exact (onPropose_abandoned hok).error hrun

/-- The events of replica 0 in `fork3Run`. -/
def fork3Own : List (Event Nat TableSig) := (fork3Run.filter (·.1 = 0)).map (·.2)

/-- Replica 0 has voted for a higher block than `hqc_tail`: its proposal throws,
and the tails and the stored blocks are no longer what they were. -/
theorem abandoned_proposal_fork3 :
    let S := tableSetup 7 fork3
    let r := Run.exec (Replica.step S ⟨.threeStep, id⟩) (Replica.init S 0) fork3Own
    let r' := r.step S ⟨.threeStep, id⟩ (.call (.propose [15] [3] []))
    Run.Allowed (Replica.step S ⟨.threeStep, id⟩) Replica.Sound (Replica.init S 0) fork3Own ∧
      r.thrown = [] ∧ r'.thrown = [.notHigher] ∧ r.core.tails = [3, 2] ∧
      r'.core.tails = [2, r.core.bnew S [15] []] ∧
      r.core.isBlkFetched (r.core.bnew S [15] []) = false ∧
      r'.core.delivered (r.core.bnew S [15] []) = true := by
  decide +kernel

theorem abandoned_proposal_notHigher :
    let S := tableSetup 7 fork3
    let s := (Run.exec (Replica.step S ⟨.threeStep, id⟩) (Replica.init S 0) fork3Own).core
    ∃ e s', onPropose S .threeStep [15] [3] [] s = .error e s' ∧
      s'.vheight = s.vheight ∧ s'.hqc = s.hqc := by
  intro S s
  have hthrown : ((Run.exec (Replica.step S ⟨.threeStep, id⟩) (Replica.init S 0) fork3Own).step S
      ⟨.threeStep, id⟩ (.call (.propose [15] [3] []))).thrown ≠
      (Run.exec (Replica.step S ⟨.threeStep, id⟩) (Replica.init S 0) fork3Own).thrown := by
    decide +kernel
  cases hrun : onPropose S .threeStep [15] [3] [] s with
  | ok fs s' => exact absurd (by simp only [Replica.step, Replica.runOn, Call.run, s, hrun]) hthrown
  | error e s' =>
    rcases abandoned_proposal S ⟨.threeStep, id⟩ 0 fork3Own (by decide +kernel) [15] [3] [] e s' hrun
      with ⟨hnil, -⟩ | ⟨p, -, hab⟩
    · cases hnil
    · exact ⟨e, s', rfl, hab.vheight, hab.hqc⟩

end HotStuffTx
