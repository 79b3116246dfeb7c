import HotStuffTx.Pacemaker

/-!
# The rotation timer

`impeach` does nothing while the pacemaker is rotating, so the timer alone moves
a rotation on. `on_consensus` deletes it before it looks whether the block is the
one the rotation waits for, and `on_exp_timeout` sets it after a proposal that
may itself commit that block.
-/

set_option linter.unusedSectionVars false

namespace HotStuffTx

open Core

variable {Hash Sig : Type} [DecidableEq Hash]

namespace Paced

/-- The `on_exp_timeout` calls that are at their `do_new_consensus`. -/
def arming (m : Paced Hash Sig) : Nat := m.stack.countP Task.isArm

/-- An exception has left an `on_exp_timeout` unfinished. -/
def Disarmed (m : Paced Hash Sig) : Prop := ∃ x ∈ m.thrown, x.2.any Task.isArm = true

/-- Where `update` commits blocks during a rotation, the first block of the new
proposer is one of them, unless they are committed by the proposal of
`on_exp_timeout`; then it is none of them. -/
def Timely (m : Paced Hash Sig) : Occurrence Hash Sig → Prop
  | .resume =>
    match m.stack with
    | .commits out :: rest => m.rotating = true → committed out ≠ [] →
        (rest.any Task.isArm = false ↔ ∃ blk ∈ committed out, m.propBlk m.proposer = some blk)
    | _ => True
  | _ => True

instance (m : Paced Hash Sig) (e : Occurrence Hash Sig) : Decidable (m.Timely e) :=
  match e with
  | .resume =>
    show Decidable (match m.stack with
      | .commits out :: rest => m.rotating = true → committed out ≠ [] →
          (rest.any Task.isArm = false ↔ ∃ blk ∈ committed out, m.propBlk m.proposer = some blk)
      | _ => True) from
    match m.stack with
    | .commits out :: rest => inferInstanceAs (Decidable (m.rotating = true → committed out ≠ [] →
        (rest.any Task.isArm = false ↔ ∃ blk ∈ committed out, m.propBlk m.proposer = some blk)))
    | [] | .frame _ :: _ | .attach .. :: _ | .callback _ :: _ | .schedule _ :: _ | .lock :: _
    | .listen :: _ | .arm :: _ | .dequeue :: _ => instDecidableTrue
  | .call _ | .impeach | .expire | .repropose | .pending | .submit _ => instDecidableTrue

end Paced

open Paced

section
variable {S : Setup Hash Sig} {P : Running Hash} {m m' m₁ : Paced Hash Sig}

-- ---------------------------------------------------------------------------
-- What leaves the timer alone
-- ---------------------------------------------------------------------------

/-- Neither the timer nor `rotating` changes, and `on_exp_timeout` goes on where it
was, unless it is abandoned. -/
structure Ticks (m m' : Paced Hash Sig) : Prop where
  timer : m'.timer = m.timer
  rotating : m'.rotating = m.rotating
  abandoned : m.Disarmed → m'.Disarmed
  arming : m'.Disarmed ∨ m'.arming = m.arming

namespace Ticks

theorem of_stack (ht : m'.timer = m.timer) (hr : m'.rotating = m.rotating)
    (he : m'.thrown = m.thrown) (hs : m'.arming = m.arming) : Ticks m m' where
  timer := ht
  rotating := hr
  abandoned h := by
    unfold Disarmed at h ⊢
    rwa [he]
  arming := .inr hs

theorem refl : Ticks m m := of_stack rfl rfl rfl rfl

theorem trans (h : Ticks m m₁) (h' : Ticks m₁ m') : Ticks m m' where
  timer := h'.timer.trans h.timer
  rotating := h'.rotating.trans h.rotating
  abandoned hm := h'.abandoned (h.abandoned hm)
  arming := by
    rcases h.arming with ha | ha
    · exact .inl (h'.abandoned ha)
    · exact h'.arming.imp_right (·.trans ha)

theorem runCore (f : CoreM Hash Sig (List (Frame Hash))) : Ticks m (m.runCore f) := by
  unfold Paced.runCore
  cases f m.core with
  | ok frames core =>
    refine of_stack rfl rfl rfl ?_
    simp [Paced.arming, Task.isArm, List.countP_map, Function.comp_def]
  | error e core =>
    refine ⟨rfl, rfl, fun ⟨x, hx, ha⟩ => ⟨x, List.mem_append_left _ hx, ha⟩, ?_⟩
    cases ha : m.stack.any Task.isArm with
    | true => exact .inl ⟨(e, m.stack), List.mem_append_right _ (List.mem_singleton.mpr rfl), ha⟩
    | false =>
      have hnone : m.stack.countP Task.isArm = 0 :=
        List.countP_eq_zero.mpr fun t ht => by simpa using List.any_eq_false.mp ha t ht
      exact .inr (by simp [Paced.arming, hnone, Task.isArm])

theorem onPropose (cmds : List Hash) : Ticks m (m.onPropose S P cmds) := by
  have h : Ticks m (m.runCore (Core.onPropose S P.build cmds m.core.getParents [])) := runCore _
  unfold Paced.onPropose
  cases Core.onPropose S P.build cmds m.core.getParents [] m.core with
  | ok => exact h.trans (of_stack rfl rfl rfl rfl)
  | error => exact h

theorem reject (pm : Option Nat) : Ticks m (m.reject pm) := of_stack rfl rfl rfl rfl

theorem push {t : Task Hash Sig} (ht : t.isArm = false) : Ticks m (m.push t) :=
  of_stack rfl rfl rfl (by simp [Paced.arming, Paced.push, ht])

theorem popped {t : Task Hash Sig} (hst : m.stack = t :: rest) (ht : t.isArm = false) :
    Ticks m (m.popped rest) :=
  of_stack rfl rfl rfl (by simp [Paced.arming, Paced.popped, hst, ht])

theorem andThen (pm : Nat) (cb : Callback Hash) : Ticks m (m.andThen pm cb) := by
  unfold Paced.andThen
  split
  · exact push rfl
  · exact of_stack rfl rfl rfl rfl
  · exact of_stack rfl rfl rfl rfl

theorem awaitBeat (cmds : List Hash) (making : Bool) : Ticks m (m.awaitBeat S cmds making) := by
  unfold Paced.awaitBeat
  cases Core.asyncQcFinish S m.lastProposed m.core with
  | ok pm core =>
    have h : Ticks m { m with core := core, pmQcFinish := some pm } := of_stack rfl rfl rfl rfl
    cases making with
    | true => exact (h.trans (andThen pm _)).trans (push rfl)
    | false => exact (h.trans (push rfl)).trans (andThen pm _)
  | error => exact refl

theorem scheduleNext (beating : Bool) : Ticks m (m.scheduleNext S beating) := by
  unfold Paced.scheduleNext
  split
  · refine .trans ?_ (awaitBeat _ _)
    exact of_stack rfl rfl rfl rfl
  · exact refl

theorem doNewConsensus (x : Nat) (cmds : List Hash) : Ticks m (m.doNewConsensus S P x cmds) :=
  (push rfl).trans (onPropose cmds)

theorem attach (x : Nat) (blk : Hash) : Ticks m (m.attach S x blk) := by
  unfold Paced.attach
  refine (reject m.pmQcManual).trans ?_
  unfold Paced.awaitManual
  split
  · refine .trans ?_ (andThen _ _)
    exact of_stack rfl rfl rfl rfl
  · exact refl

theorem call (cb : Callback Hash) : Ticks m (m.call S P cb) := by
  cases cb with
  | beat cmds =>
    simp only [Paced.call]
    split
    · refine .trans ?_ (onPropose cmds)
      exact of_stack rfl rfl rfl rfl
    · exact of_stack rfl rfl rfl rfl
  | manual x =>
    simp only [Paced.call]
    split
    · exact refl
    · exact doNewConsensus _ _

theorem record (rid : ReplicaID) (blk : Hash) : Ticks m (m.record rid blk) := by
  unfold Paced.record
  split <;> exact of_stack rfl rfl rfl rfl

theorem onProposed (blk : Hash) : Ticks m (m.onProposed blk) := by
  unfold Paced.onProposed
  split
  · refine (record m.core.id blk).trans ?_
    exact of_stack rfl rfl rfl rfl
  · exact refl

theorem updateLastProposed (blk : Hash) : Ticks m (m.updateLastProposed blk) := by
  unfold Paced.updateLastProposed
  split
  · exact of_stack rfl rfl rfl rfl
  · exact refl

theorem onReceived (prop : Proposal Hash) : Ticks m (m.onReceived prop) := by
  unfold Paced.onReceived
  split
  · refine (record prop.proposer prop.blk).trans ?_
    exact of_stack rfl rfl rfl rfl
  · exact refl

theorem fulfil (blk : Hash) : Ticks m (m.fulfil blk) := by
  unfold Paced.fulfil
  split
  · exact refl
  · exact of_stack rfl rfl rfl (by simp [Paced.arming, Task.isArm, List.countP_map, Function.comp_def])

theorem runFrame (f : Frame Hash) : Ticks m (m.runFrame S P f) := by
  refine (runCore (Core.resume S P.options.beatResp f)).trans ?_
  cases f with
  | qcFinish blk => exact fulfil blk
  | receiveProposal_ prop => exact onReceived prop
  | propose_ prop =>
    refine .trans ?_ ((onProposed prop.blk).trans (updateLastProposed prop.blk))
    exact of_stack rfl rfl rfl rfl
  | qcErase => exact refl
  | vote => exact refl
  | broadcast => exact refl

theorem beat (cmds : List Hash) : Ticks m (m.beat P cmds) := by
  unfold Paced.beat
  split <;> exact of_stack rfl rfl rfl rfl

theorem dequeue : Ticks m (m.dequeue P) := by
  unfold Paced.dequeue
  split
  · exact refl
  · unfold Paced.take
    dsimp only
    split
    · split
      · refine .trans ?_ (beat _)
        exact of_stack rfl rfl rfl rfl
      · exact of_stack rfl rfl rfl rfl
    · exact of_stack rfl rfl rfl rfl

theorem repropose : Ticks m (m.repropose S P) := by
  unfold Paced.repropose
  split
  · exact refl
  · split
    · exact of_stack rfl rfl rfl rfl
    · refine .trans ?_ (doNewConsensus 0 _)
      exact of_stack rfl rfl rfl rfl

end Ticks

-- ---------------------------------------------------------------------------
-- Role transitions
-- ---------------------------------------------------------------------------

/-- The `do_consensus` and `do_decide` calls of one `update`. -/
theorem Paced.heard_all {out : List (Output Hash Sig)} (hp : P.pacemaker = .roundRobin) :
    let m' := out.foldl (heard S P) m
    m'.stack = m.stack ∧ m'.thrown = m.thrown ∧
      m'.timer = (if committed out = [] then m.timer else none) ∧
      m'.rotating = (m.rotating &&
        decide (¬ ∃ blk ∈ committed out, m.propBlk m.proposer = some blk)) := by
  induction out generalizing m with
  | nil => simp [committed]
  | cons o out ih =>
    simp only [List.foldl_cons]
    cases o with
    | consensus blk =>
      have hc : committed (.consensus blk :: out) = blk :: committed out := rfl
      simp only [heard, onConsensus, hp, hc]
      by_cases hb : m.propBlk m.proposer = some blk
      · rw [if_pos hb]
        obtain ⟨hs, he, ht, hr⟩ := ih (m := m.resetTimer.stopRotate S)
        refine ⟨hs, he, ?_, ?_⟩
        · rw [ht]
          split <;> rfl
        · rw [hr]
          simp [hb, stopRotate]
      · rw [if_neg hb]
        obtain ⟨hs, he, ht, hr⟩ := ih (m := m.resetTimer)
        refine ⟨hs, he, ?_, ?_⟩
        · rw [ht]
          split <;> rfl
        · rw [hr]
          simp [hb, resetTimer]
    | decide fin => exact ih
    | vote => exact ih
    | broadcast => exact ih

theorem Paced.heard_all_fixed {out : List (Output Hash Sig)} (hp : P.pacemaker = .fixed rid) :
    Ticks m (out.foldl (heard S P) m) := by
  induction out generalizing m with
  | nil => exact .refl
  | cons o out ih =>
    refine .trans ?_ ih
    cases o with
    | consensus blk =>
      simp only [heard, onConsensus, hp]
      exact .refl
    | decide fin => exact .of_stack rfl rfl rfl rfl
    | vote => exact .refl
    | broadcast => exact .refl

/-- The timer is armed exactly during a rotation, and is not while `on_exp_timeout`
is about to set it. -/
def Paced.Wound (m : Paced Hash Sig) : Prop :=
  m.Disarmed ∨ m.arming = 0 ∧ m.timer.isSome = m.rotating ∨
    m.arming = 1 ∧ m.timer = none ∧ m.rotating = true

namespace Paced.Wound

theorem ticks (h : m.Wound) (ht : Ticks m m') : m'.Wound := by
  rcases ht.arming with ha | ha
  · exact .inl ha
  · rcases h with h | ⟨hm, h⟩ | ⟨hm, h, hr⟩
    · exact .inl (ht.abandoned h)
    · exact .inr (.inl ⟨ha.trans hm, by rw [ht.timer, ht.rotating, h]⟩)
    · exact .inr (.inr ⟨ha.trans hm, ht.timer.trans h, ht.rotating.trans hr⟩)

/-- A handler that is called finds `on_exp_timeout` finished. -/
theorem idle (hs : m.stack.isEmpty = true) : m.arming = 0 := by
  simp [Paced.arming, List.isEmpty_iff.mp hs]

theorem rotate (hs : m.stack.isEmpty = true) : (m.rotate S).Wound :=
  .inr (.inl ⟨idle hs, rfl⟩)

/-- The timer has fired. -/
theorem fired (h : m.Wound) (hs : m.stack.isEmpty = true) (ht : m.timer.isSome = true) :
    m.Disarmed ∨ m.rotating = true := by
  rcases h with h | ⟨-, h⟩ | ⟨ha, -⟩
  · exact .inl h
  · exact .inr (h.symm.trans ht)
  · rw [idle hs] at ha
    cases ha

theorem expire (h : m.Wound) (hs : m.stack.isEmpty = true) : (m.expire S P).Wound := by
  unfold Paced.expire
  split
  · exact h
  · rename_i ht
    have harm : ({ m with timer := none }.push .arm : Paced Hash Sig).Wound :=
      (h.fired hs (by rw [ht]; rfl)).imp_right fun hr =>
        .inr ⟨(List.countP_cons_of_pos rfl).trans (congrArg (· + 1) (idle hs)), rfl, hr⟩
    unfold Paced.onExpTimeout
    split
    · exact harm.ticks (.doNewConsensus 0 _)
    · exact harm
  · exact rotate hs

theorem commits {out : List (Output Hash Sig)} {rest : List (Task Hash Sig)} (h : m.Wound)
    (hst : m.stack = .commits out :: rest) (he : m.Timely .resume) :
    (out.foldl (heard S P) (m.popped rest)).Wound := by
  have h := h.ticks (.popped hst rfl)
  cases hp : P.pacemaker with
  | fixed rid => exact h.ticks (heard_all_fixed hp)
  | roundRobin =>
    obtain ⟨hs, ht, htimer, hrot⟩ := @heard_all _ _ _ S P (m.popped rest) out hp
    have harm : (out.foldl (heard S P) (m.popped rest)).arming = rest.countP Task.isArm :=
      congrArg (·.countP Task.isArm) hs
    by_cases hc : committed out = []
    · refine h.ticks (.of_stack ?_ ?_ ht harm)
      · rw [htimer, if_pos hc]
      · rw [hrot, hc]
        simp
    rw [if_neg hc] at htimer
    simp only [Timely, hst] at he
    rcases h with h | ⟨ha, h⟩ | ⟨ha, h, hr⟩
    · left
      unfold Disarmed at h ⊢
      rwa [ht]
    · refine .inr (.inl ⟨harm.trans ha, ?_⟩)
      rw [htimer, hrot]
      cases hm : (m.popped rest).rotating with
      | false => rfl
      | true =>
        have hnone : rest.any Task.isArm = false := by
          rw [List.any_eq_false]
          exact fun t ht => List.countP_eq_zero.mp ha t ht
        simpa [popped] using (he hm hc).mp hnone
    · refine .inr (.inr ⟨harm.trans ha, htimer, ?_⟩)
      have hone : ¬ rest.any Task.isArm = false := fun hno => by
        rw [List.any_eq_false] at hno
        exact absurd ((List.countP_eq_zero.mpr hno).symm.trans ha) (by decide)
      have hno := mt (he hr hc).mpr hone
      rw [hrot, hr, Bool.true_and]
      exact decide_eq_true hno

theorem resume (h : m.Wound) (he : m.Timely .resume) : (m.step S P .resume).Wound := by
  cases hst : m.stack with
  | nil => simpa only [Paced.step, hst] using h
  | cons t rest =>
    simp only [Paced.step, hst]
    cases t with
    | arm =>
      rcases h with h | ⟨ha, -⟩ | ⟨ha, -, hr⟩
      · exact .inl h
      · simp [Paced.arming, hst, Task.isArm] at ha
      · refine .inr (.inl ⟨?_, hr.symm⟩)
        rw [Paced.arming, hst, List.countP_cons_of_pos rfl] at ha
        exact Nat.succ.inj ha
    | commits out => exact h.commits hst he
    | frame f => exact (h.ticks (.popped hst rfl)).ticks (.runFrame f)
    | callback cb => exact (h.ticks (.popped hst rfl)).ticks (.call cb)
    | attach x blk => exact (h.ticks (.popped hst rfl)).ticks (.attach x blk)
    | schedule beating => exact (h.ticks (.popped hst rfl)).ticks (.scheduleNext beating)
    | dequeue => exact (h.ticks (.popped hst rfl)).ticks .dequeue
    | lock => exact (h.ticks (.popped hst rfl)).ticks (.of_stack rfl rfl rfl rfl)
    | listen => exact (h.ticks (.popped hst rfl)).ticks (.of_stack rfl rfl rfl rfl)

theorem step {e : Occurrence Hash Sig} (h : m.Wound) (ha : m.Admits e) (he : m.Timely e) :
    (m.step S P e).Wound := by
  cases e with
  | call c => exact h.ticks (.runCore _)
  | impeach =>
    simp only [Paced.step, Paced.impeach]
    split
    · exact h
    · split
      · exact h
      · exact rotate ha
  | expire => exact h.expire ha
  | repropose => exact h.ticks .repropose
  | submit cmdHash => exact h.ticks (.of_stack rfl rfl rfl rfl)
  | pending => exact h.ticks (.push rfl)
  | resume => exact h.resume he

end Paced.Wound

theorem Paced.wound_init {rid : ReplicaID} : (Paced.init S P rid).Wound :=
  .inr (.inl ⟨rfl, rfl⟩)

end

-- ---------------------------------------------------------------------------
-- Runs
-- ---------------------------------------------------------------------------

/-- In a run whose commits are timely, the timer is armed exactly during a rotation
whenever the handlers have finished. -/
theorem timer_armed_iff_rotating (S : Setup Hash Sig) (P : Running Hash) (rid : ReplicaID)
    (es : List (Occurrence Hash Sig))
    (h : Run.Allowed (Paced.step S P) (fun m e => m.Admits e ∧ m.Timely e) (Paced.init S P rid) es) :
    let m := Run.exec (Paced.step S P) (Paced.init S P rid) es
    m.stack = [] → ¬ m.Disarmed →
      (m.timer.isSome = true ↔ m.rotating = true) ∧
      (m.rotating = true → m.timer = some .onExpTimeout ∨ m.timer = some .rotate) := by
  intro m hst hab
  have hw : m.Wound := h.inv (I := Paced.Wound) Paced.wound_init fun m e hm he => hm.step he.1 he.2
  have hiff : m.timer.isSome = m.rotating := by
    rcases hw with hw | ⟨-, hw⟩ | ⟨ha, -⟩
    · exact absurd hw hab
    · exact hw
    · rw [Paced.Wound.idle (List.isEmpty_iff.mpr hst)] at ha
      cases ha
  refine ⟨by rw [hiff], fun hr => ?_⟩
  rw [hr] at hiff
  obtain ⟨c, hc⟩ := Option.isSome_iff_exists.mp hiff
  cases c with
  | onExpTimeout => exact .inl hc
  | rotate => exact .inr hc

/-- Block `h` arrives, is delivered, and is proposed by `p`. -/
def pacedFeed (tbl : List (WireBlock Nat TableSig)) (h : Nat) (p : ReplicaID) :
    List (Occurrence Nat TableSig) :=
  (tbl[h - 1]?.map fun w => Occurrence.call (.addBlk w)).toList ++
    [.resume, .call (.deliver h), .resume, .call (.receiveProposal ⟨p, h⟩)] ++ List.replicate 8 .resume

/-- Replica 3 impeaches, and the four blocks of the new proposer come. -/
def rotationFeed : List (Occurrence Nat TableSig) :=
  .impeach :: .expire :: .resume :: [1, 2, 3, 4].flatMap (pacedFeed chain4 · 1)

theorem timer_armed_iff_rotating_chain4 :
    let S := tableSetup 4 chain4
    let P : Running Nat := ⟨.threeStep, .roundRobin, 1, 0⟩
    let m := Run.exec (Paced.step S P) (Paced.init S P 3) rotationFeed
    m.rotating = false ∧ m.timer.isSome = false ∧ (m.timer.isSome = true ↔ m.rotating = true) := by
  intro S P m
  have h : Run.Allowed (Paced.step S P) (fun m e => m.Admits e ∧ m.Timely e) (Paced.init S P 3)
      rotationFeed := by decide +kernel
  have hst : m.stack = [] := by
    rw [← List.isEmpty_iff]
    decide +kernel
  have hab : ¬ m.Disarmed := by
    rintro ⟨x, hx, -⟩
    have hno : m.thrown.isEmpty = true := by decide +kernel
    rw [List.isEmpty_iff.mp hno] at hx
    cases hx
  exact ⟨by decide +kernel, by decide +kernel, (timer_armed_iff_rotating S P 3 rotationFeed h hst hab).1⟩

/-- Replica 3 impeaches while the fourth block of the old proposer is under way. -/
def wedgeFeed : List (Occurrence Nat TableSig) :=
  [1, 2, 3].flatMap (pacedFeed chain4 · 0) ++ .impeach :: pacedFeed chain4 4 0

/-- The commit of the first block deletes the timer, and the rotation goes on without one. -/
theorem rotating_without_timer_chain4 :
    let S := tableSetup 4 chain4
    let P : Running Nat := ⟨.threeStep, .roundRobin, 1, 0⟩
    let m := Run.exec (Paced.step S P) (Paced.init S P 3) wedgeFeed
    Run.Allowed (Paced.step S P) Paced.Admits (Paced.init S P 3) wedgeFeed ∧
      m.stack.isEmpty = true ∧ m.thrown.isEmpty = true ∧ m.core.bExec = 1 ∧
      m.rotating = true ∧ m.timer = none ∧
      (m.step S P .impeach).timer = none ∧ (m.step S P .expire).timer = none := by
  decide +kernel

end HotStuffTx
