import HotStuffTx.Deliver

/-!
# What update does

Both builds of `update` read a certified block `t` off the new block, move
`hqc` to it, raise the lock to `lockTarget t`, and commit `commitTarget t`
where the direct-parent chain is there. `update_spec` says so once for both;
`commit_spec` says when the commit goes through.
-/

set_option linter.unusedSectionVars false

namespace HotStuffTx

open Forest

namespace Core

variable {Hash Sig : Type} [DecidableEq Hash]

-- ---------------------------------------------------------------------------
-- update
-- ---------------------------------------------------------------------------

/-- The block the lock is raised to once `t` is seen certified. -/
def lockTarget (s : Core Hash Sig) : Build → Hash → Option Hash
  | .threeStep, t => (s.qcRef t).filter fun l => !s.decision l
  | .twoStep, t => some t

/-- The block committed once `t` is seen certified. -/
def commitTarget (s : Core Hash Sig) : Build → Hash → Option Hash
  | .threeStep, t => (s.lockTarget .threeStep t).bind fun l => (s.qcRef l).filter fun c =>
      !s.decision c && decide ((s.parents t).head? = some l) && decide ((s.parents l).head? = some c)
  | .twoStep, t => (s.qcRef t).filter fun c =>
      !s.decision c && decide ((s.parents t).head? = some c)

/-- `hqc` and the lock after `t` is seen certified by `qc`. -/
def advance (s : Core Hash Sig) (build : Build) (t : Hash) (qc : QuorumCert Hash Sig) :
    Core Hash Sig :=
  match s.lockTarget build t with
  | none => s.updateHqc t qc
  | some l => (s.updateHqc t qc).raiseLock l

/-- How `update` returns. -/
inductive Updated (build : Build) (s : Core Hash Sig) (n : Hash) : Core Hash Sig → Prop
  | idle (h : ∀ t, s.qcRef n = some t → s.decision t = true) : Updated build s n s
  | advanced (hb : s.storage n = some b) (ht : b.qcRef = some t) (hd : s.decision t = false)
      (hc : s.commitTarget build t = none) : Updated build s n (s.advance build t b.qc)
  | committed (hb : s.storage n = some b) (ht : b.qcRef = some t) (hd : s.decision t = false)
      (hc : s.commitTarget build t = some c)
      (hrun : commit c (s.advance build t b.qc) = .ok ⟨⟩ s') : Updated build s n s'

/-- How `update` throws: in the commit. -/
inductive Refused (build : Build) (s : Core Hash Sig) (n : Hash) (e : CoreError) :
    Core Hash Sig → Prop
  | intro (hb : s.storage n = some b) (ht : b.qcRef = some t) (hd : s.decision t = false)
      (hc : s.commitTarget build t = some c)
      (hrun : commit c (s.advance build t b.qc) = .error e s') : Refused build s n e s'

variable {S : Setup Hash Sig} {s s' s'' : Core Hash Sig}

@[simp] theorem storage_updateHqc : (s.updateHqc h qc).storage = s.storage := by
  unfold updateHqc
  split <;> rfl

@[simp] theorem storage_raiseLock : (s.raiseLock h).storage = s.storage := by
  unfold raiseLock
  split <;> rfl

@[simp] theorem storage_advance : (s.advance build t qc).storage = s.storage := by
  unfold advance
  split <;> simp

theorem eq_of_storage (h : s'.storage = s.storage) : s'.height = s.height ∧
    s'.parents = s.parents ∧ s'.qcRef = s.qcRef ∧ s'.decision = s.decision ∧
    s'.delivered = s.delivered := by
  refine ⟨?_, ?_, ?_, ?_, ?_⟩ <;> funext x
  · simp [height, h]
  · simp [parents, h]
  · simp [qcRef, h]
  · simp [decision, h]
  · simp [delivered, h]

theorem same_updateHqc (s : Core Hash Sig) (h : Hash) (qc : QuorumCert Hash Sig) :
    (s.updateHqc h qc).height = s.height ∧ (s.updateHqc h qc).parents = s.parents ∧
      (s.updateHqc h qc).qcRef = s.qcRef ∧ (s.updateHqc h qc).decision = s.decision ∧
      (s.updateHqc h qc).delivered = s.delivered := eq_of_storage storage_updateHqc

theorem same_advance (s : Core Hash Sig) (build : Build) (t : Hash) (qc : QuorumCert Hash Sig) :
    (s.advance build t qc).height = s.height ∧ (s.advance build t qc).parents = s.parents ∧
      (s.advance build t qc).qcRef = s.qcRef ∧ (s.advance build t qc).decision = s.decision ∧
      (s.advance build t qc).delivered = s.delivered := eq_of_storage storage_advance

/-- A block that is certified, undecided and knows its own certificate's block
has a direct parent to compare with. -/
theorem StoreOk.head_of_qcRef (hs : StoreOk S s) (hq : s.qcRef t = some l)
    (hd : s.decision t = false) : ∃ p, (s.parents t).head? = some p := by
  have hne : t ≠ S.genesis := by
    rintro rfl
    simp [hs.decision_genesis] at hd
  obtain ⟨p, _, hp, _⟩ := hs.link hne (.inr (hs.delivered_of_qcRef hq))
  exact ⟨p, hp⟩

/-- Whoever has a `qc_ref` and is not decided has its parents. -/
def Headed (s : Core Hash Sig) : Prop :=
  ∀ x z, s.qcRef x = some z → s.decision x = false → ∃ p, (s.parents x).head? = some p

theorem updateThreeStep_spec (hs : Headed s) :
    Triple (updateThreeStep n) s (fun _ s' => Updated .threeStep s n s')
      (fun e s' => Refused .threeStep s n e s') := by
  unfold updateThreeStep
  refine .get_bind ?_
  cases hb : s.storage n with
  | none => exact .pure' (.idle fun t ht => by simp [qcRef, hb] at ht)
  | some b =>
    dsimp only
    cases ht : b.qcRef with
    | none => exact .pure' (.idle fun t ht' => by simp [qcRef_of hb, ht] at ht')
    | some t =>
      refine .get_bind (.ite (fun hd => .pure' (.idle fun t' ht' => ?_)) fun hd => ?_)
      · rw [qcRef_of hb, ht] at ht'
        cases ht'
        exact hd
      have hd : s.decision t = false := by simpa using hd
      obtain ⟨-, -, hq, hdec, -⟩ := s.same_updateHqc t b.qc
      refine .modify_bind (.get_bind ?_)
      rw [hq]
      cases hl : s.qcRef t with
      | none =>
        have hlock : s.lockTarget .threeStep t = none := by simp [lockTarget, hl]
        have : Updated .threeStep s n _ := .advanced hb ht hd (by simp [commitTarget, hlock])
        simp only [advance, hlock] at this
        exact .pure' this
      | some l =>
        refine .get_bind ?_
        rw [hdec]
        refine .ite (fun hdl => ?_) fun hdl => ?_
        · have hlock : s.lockTarget .threeStep t = none := by simp [lockTarget, hl, hdl]
          have : Updated .threeStep s n _ := .advanced hb ht hd (by simp [commitTarget, hlock])
          simp only [advance, hlock] at this
          exact .pure' this
        have hlock : s.lockTarget .threeStep t = some l := by simp [lockTarget, hl, hdl]
        have hadv : (s.updateHqc t b.qc).raiseLock l = s.advance .threeStep t b.qc := by
          simp only [advance, hlock]
        obtain ⟨-, hpar, hq, hdec, -⟩ := s.same_advance .threeStep t b.qc
        refine .modify_bind (.get_bind ?_)
        rw [hadv, hq]
        cases hc : s.qcRef l with
        | none =>
          exact .pure' (.advanced hb ht hd (by simp [commitTarget, hlock, hc]))
        | some c =>
          refine .get_bind ?_
          rw [hdec]
          refine .ite (fun hdc => ?_) fun hdc => ?_
          · exact .pure' (.advanced hb ht hd (by simp [commitTarget, hlock, hc, hdc]))
          obtain ⟨p, hp⟩ := hs t l hl hd
          obtain ⟨p', hp'⟩ := hs l c hc (by simpa using hdl)
          unfold directParent
          refine .bind (.get_bind (Q := fun r s' => r = decide (p = l) ∧
            s' = s.advance .threeStep t b.qc) ?_) ?_
          · rw [hpar, hp]
            exact .pure' ⟨rfl, rfl⟩
          rintro _ _ ⟨rfl, rfl⟩
          refine .ite (fun hpl => ?_) fun hpl => ?_
          · have hpl : p = l := by simpa using hpl
            refine .bind (.get_bind (Q := fun r s' => r = decide (p' = c) ∧
              s' = s.advance .threeStep t b.qc) ?_) ?_
            · rw [hpar, hp']
              exact .pure' ⟨rfl, rfl⟩
            rintro _ _ ⟨rfl, rfl⟩
            refine .ite (fun hpc => ?_) fun hpc => ?_
            · have hpc : p' = c := by simpa using hpc
              have htarget : s.commitTarget .threeStep t = some c := by
                simp [commitTarget, hlock, hc, hdc, hp, hp', hpl, hpc]
              unfold Triple
              split
              · exact .committed hb ht hd htarget ‹_›
              · exact .intro hb ht hd htarget ‹_›
            · have hpc : p' ≠ c := by simpa using hpc
              exact .pure' (.advanced hb ht hd (by simp [commitTarget, hlock, hc, hp', hpc]))
          · have hpl : p ≠ l := by simpa using hpl
            exact .pure' (.advanced hb ht hd (by simp [commitTarget, hlock, hc, hp, hpl]))

theorem updateTwoStep_spec (hs : Headed s) :
    Triple (updateTwoStep n) s (fun _ s' => Updated .twoStep s n s')
      (fun e s' => Refused .twoStep s n e s') := by
  unfold updateTwoStep
  refine .get_bind ?_
  cases hb : s.storage n with
  | none => exact .pure' (.idle fun t ht => by simp [qcRef, hb] at ht)
  | some b =>
    dsimp only
    cases ht : b.qcRef with
    | none => exact .pure' (.idle fun t ht' => by simp [qcRef_of hb, ht] at ht')
    | some t =>
      refine .get_bind (.ite (fun hd => .pure' (.idle fun t' ht' => ?_)) fun hd => ?_)
      · rw [qcRef_of hb, ht] at ht'
        cases ht'
        exact hd
      have hd : s.decision t = false := by simpa using hd
      have hadv : (s.updateHqc t b.qc).raiseLock t = s.advance .twoStep t b.qc := rfl
      obtain ⟨-, hpar, hq, hdec, -⟩ := s.same_advance .twoStep t b.qc
      refine .modify_bind (.modify_bind (.get_bind ?_))
      rw [hadv, hq]
      cases hc : s.qcRef t with
      | none => exact .pure' (.advanced hb ht hd (by simp [commitTarget, hc]))
      | some c =>
        refine .get_bind ?_
        rw [hdec]
        refine .ite (fun hdc => ?_) fun hdc => ?_
        · exact .pure' (.advanced hb ht hd (by simp [commitTarget, hc, hdc]))
        obtain ⟨p, hp⟩ := hs t c hc hd
        unfold directParent
        refine .bind (.get_bind (Q := fun r s' => r = decide (p = c) ∧
          s' = s.advance .twoStep t b.qc) ?_) ?_
        · rw [hpar, hp]
          exact .pure' ⟨rfl, rfl⟩
        rintro _ _ ⟨rfl, rfl⟩
        refine .ite (fun hpc => ?_) fun hpc => ?_
        · have hpc : p = c := by simpa using hpc
          have htarget : s.commitTarget .twoStep t = some c := by
            simp [commitTarget, hc, hdc, hp, hpc]
          unfold Triple
          split
          · exact .committed hb ht hd htarget ‹_›
          · exact .intro hb ht hd htarget ‹_›
        · have hpc : p ≠ c := by simpa using hpc
          exact .pure' (.advanced hb ht hd (by simp [commitTarget, hc, hp, hpc]))

theorem update_spec_of_headed (hs : Headed s) : Triple (update build n) s
    (fun _ s' => Updated build s n s') (fun e s' => Refused build s n e s') := by
  cases build with
  | threeStep => exact updateThreeStep_spec hs
  | twoStep => exact updateTwoStep_spec hs

theorem update_spec (hs : StoreOk S s) : Triple (update build n) s
    (fun _ s' => Updated build s n s') (fun e s' => Refused build s n e s') :=
  update_spec_of_headed fun _ _ hq hd => hs.head_of_qcRef hq hd

-- ---------------------------------------------------------------------------
-- The commit loop
-- ---------------------------------------------------------------------------

/-- What the loop over the blocks `l` of `commit_queue` leaves. -/
structure Decides (s : Core Hash Sig) (l : List Hash) (s' : Core Hash Sig) : Prop where
  storage : s'.storage h = if h ∈ l then (s.storage h).map ({ · with decision := true })
    else s.storage h
  out : s'.out = s.out ++ l.flatMap fun h => .consensus h :: s.decides h
  hqc : s'.hqc = s.hqc
  bLock : s'.bLock = s.bLock
  vheight : s'.vheight = s.vheight
  id : s'.id = s.id
  hqcTail : s'.hqcTail = s.hqcTail
  tails : s'.tails = s.tails
  qcWaiting : s'.qcWaiting = s.qcWaiting
  pms : s'.pms = s.pms

theorem storage_decideBlk : (s.decideBlk h).storage x =
    if x = h then (s.storage x).map ({ · with decision := true }) else s.storage x := by
  simp only [decideBlk, modifyBlk, Function.update_apply]
  split <;> simp_all

theorem decides_decideBlk : (s.decideBlk h).decides x = s.decides x := by
  have hheight : (s.decideBlk h).height x = s.height x := by
    simp only [height, storage_decideBlk]
    split <;> cases s.storage x <;> rfl
  have hcmds : (s.decideBlk h).cmds x = s.cmds x := by
    simp only [cmds, storage_decideBlk]
    split <;> cases s.storage x <;> rfl
  simp only [decides, hheight, hcmds]
  rfl

theorem decides_foldl : Decides s l (l.foldl decideBlk s) := by
  induction l generalizing s with
  | nil => exact ⟨by simp, by simp, rfl, rfl, rfl, rfl, rfl, rfl, rfl, rfl⟩
  | cons a l ih =>
    obtain ⟨hst, hout, h1, h2, h3, h4, h5, h6, h7, h8⟩ := ih (s := s.decideBlk a)
    refine ⟨fun {x} => ?_, ?_, h1, h2, h3, h4, h5, h6, h7, h8⟩
    · rw [List.foldl_cons, hst, storage_decideBlk]
      by_cases hxa : x = a
      · subst x
        by_cases hal : a ∈ l <;> cases s.storage a <;> simp [hal]
      · simp [hxa]
    · rw [List.foldl_cons, hout]
      simp only [decides_decideBlk]
      simp [decideBlk]

namespace Decides

variable {l : List Hash} (h : Decides s l s')
include h

theorem same : s'.height = s.height ∧ s'.parents = s.parents ∧ s'.qcRef = s.qcRef ∧
    s'.delivered = s.delivered ∧ s'.cmds = s.cmds ∧ s'.isBlkFetched = s.isBlkFetched := by
  refine ⟨?_, ?_, ?_, ?_, ?_, ?_⟩ <;> funext x
  · simp only [height, h.storage]
    split <;> cases s.storage x <;> rfl
  · simp only [parents, h.storage]
    split <;> cases s.storage x <;> rfl
  · simp only [qcRef, h.storage]
    split <;> cases s.storage x <;> rfl
  · simp only [delivered, h.storage]
    split <;> cases s.storage x <;> rfl
  · simp only [cmds, h.storage]
    split <;> cases s.storage x <;> rfl
  · simp only [isBlkFetched, h.storage]
    split <;> cases s.storage x <;> rfl

theorem votes : SameVotes s s' := by
  refine ⟨?_, ?_⟩ <;> funext x
  · simp only [voted, h.storage]
    split <;> cases s.storage x <;> rfl
  · simp only [selfQc, h.storage]
    split <;> cases s.storage x <;> rfl

theorem decision : s'.decision x = true ↔ s.decision x = true ∨ x ∈ l ∧ s.isBlkFetched x = true := by
  simp only [Core.decision, isBlkFetched, h.storage]
  by_cases hx : x ∈ l <;> cases s.storage x <;> simp [hx]

theorem storeOk (hs : StoreOk S s) (hl : ∀ x ∈ l, s.delivered x = true) : StoreOk S s' := by
  obtain ⟨hheight, hparents, hqcRef, hdel, -, hf⟩ := h.same
  refine ⟨?_, ?_, ?_, ?_, ?_⟩
  · obtain ⟨g, hg, h1, h2, h3⟩ := hs.genesis
    rw [h.storage, hg]
    split
    · exact ⟨_, rfl, h1, rfl, h3⟩
    · exact ⟨g, rfl, h1, h2, h3⟩
  · intro x b hb hx
    rw [h.storage] at hb
    split at hb
    · obtain ⟨c, hc, rfl⟩ := Option.map_eq_some_iff.mp hb
      exact (hs.wire hc hx :)
    · exact hs.wire hb hx
  · rw [hheight, hparents, hdel]
    exact hs.link
  · rw [hdel, hqcRef, hf]
    exact hs.ref
  · intro x hx
    rw [hdel] at hx
    obtain ⟨hq, hd⟩ := hs.undelivered hx
    refine ⟨hqcRef ▸ hq, ?_⟩
    rw [← Bool.not_eq_true, h.decision]
    rintro (h' | ⟨h', -⟩)
    · simp [hd] at h'
    · simp [hl x h'] at hx

theorem grow : Grow s s' := by
  obtain ⟨hheight, -, -, hdel, -, hf⟩ := h.same
  exact ⟨fun hx => hf ▸ hx, fun _ => by rw [hheight], fun hx => hdel ▸ hx,
    fun hx => h.decision.mpr (.inl hx)⟩

end Decides

end Core

end HotStuffTx
