import HotStuffTx.Pacemaker
import HotStuffTx.Writes

/-!
# Where the batches are

A batch given to `beat` waits in `pending_beats`, then for a promise of
`async_qc_finish`, and then its callback proposes it, unless the promise is
rejected first. `tally` counts a batch over these places, those dropped
included; every step keeps the count. The commands of a batch that is dropped
are not lost: they stay in `decision_waiting`, which a re-proposal takes whole.
-/

set_option linter.unusedSectionVars false

namespace HotStuffTx

open Core

variable {Hash Sig : Type} [DecidableEq Hash]

namespace Paced

/-- The batches that wait for a promise. -/
def hanging (m : Paced Hash Sig) : List (List Hash) := m.hangs.filterMap (·.2.batch)

/-- The batches whose callbacks are about to run. -/
def queued (m : Paced Hash Sig) : List (List Hash) := m.stack.filterMap Task.batch

/-- How often a batch is in one of its places. -/
def tally (m : Paced Hash Sig) (b : List Hash) : Nat :=
  m.pendingBeats.count b + m.hanging.count b + m.queued.count b + m.passed.count b + m.dropped.count b

/-- The command is decided, or a decision is waited for. -/
def Answered (m : Paced Hash Sig) (c : Hash) : Prop :=
  c ∈ decidedCmds m.core.out ∨ c ∈ m.clients.decisionWaiting

/-- A block with the batch is proposed, or an exception has reached the event loop. -/
def Made (S : Setup Hash Sig) (m : Paced Hash Sig) (b : List Hash) : Prop :=
  m.thrown ≠ [] ∨ ∃ n ∈ m.proposed, S.cmdsOf n = b

/-- The promises waited for are pending, and the calls of an `update` are made. -/
structure Sound (m : Paced Hash Sig) : Prop where
  pending : ∀ x ∈ m.hangs, m.core.pms[x.1]? = some .pending
  made : ∀ out, .commits out ∈ m.stack → ∀ o ∈ out, o ∈ m.core.out

/-- The members that only a command from a client and a round of the handler of
`cmd_pending` change. -/
def queue (m : Paced Hash Sig) : List (List Hash) × List Hash × List Hash × List Hash :=
  (m.handed, m.taken, m.cmdPendingBuffer, m.cmdPending)

end Paced

open Paced

section
variable {S : Setup Hash Sig} {P : Running Hash} {m m' m₁ : Paced Hash Sig} {b cmds : List Hash}
  {l : List (List Hash)}

theorem beside_allows : Allows (fun _ => True) (@Beside Hash Sig) where
  trans h h' := ⟨h'.id.trans h.id, h'.pms.trans h.pms, h.out.trans h'.out⟩
  beside _ h := h
  edit _ := .same rfl rfl rfl
  store _ _ := .same rfl rfl rfl
  deliver _ _ _ h := h

/-- `async_qc_finish` leaves the other promises as they are. -/
theorem Core.asyncQcFinish_kept {s s' : Core Hash Sig} {blk : Hash}
    (hx : Core.asyncQcFinish S blk s = .ok pm s') :
    (∀ (i : Nat) (st : PmState), s.pms[i]? = some st → s'.pms[i]? = some st) ∧ s'.out = s.out := by
  have happ {st : PmState} : ∀ (i : Nat) (st' : PmState), s.pms[i]? = some st' → (s.pms ++ [st])[i]? = some st' :=
    fun i st' hi => by
      rw [List.getElem?_append_left (List.getElem?_eq_some_iff.mp hi).1]
      exact hi
  rcases asyncQcFinish_spec.ok hx with ⟨-, rfl, rfl⟩ | ⟨-, ⟨-, rfl⟩ | ⟨-, rfl, rfl⟩⟩
  · exact ⟨happ, rfl⟩
  · exact ⟨fun _ _ h => h, rfl⟩
  · exact ⟨happ, rfl⟩

-- ---------------------------------------------------------------------------
-- The places of a batch
-- ---------------------------------------------------------------------------

theorem Paced.count_hanging (m : Paced Hash Sig) (pm : Option Nat) (b : List Hash) :
    m.hanging.count b = ((m.hangs.filter (some ·.1 ≠ pm)).filterMap (·.2.batch)).count b +
      (m.batches pm).count b := by
  have hperm := (List.filter_append_perm (fun x => decide (some x.1 = pm)) m.hangs).filterMap (·.2.batch)
  have hcount := hperm.count_eq b
  rw [List.filterMap_append, List.count_append] at hcount
  simp only [hanging, batches, ne_eq, decide_not]
  omega

theorem Task.batches_cons (t : Task Hash Sig) (st : List (Task Hash Sig)) :
    (t :: st).filterMap Task.batch = t.batch.toList ++ st.filterMap Task.batch := by
  rw [List.filterMap_cons]
  cases t.batch <;> rfl

theorem Task.batches_frames (frames : List (Frame Hash)) (st : List (Task Hash Sig)) :
    (frames.map Task.frame ++ st).filterMap Task.batch = st.filterMap Task.batch := by
  rw [List.filterMap_append, List.filterMap_map]
  have hnone : frames.filterMap (Task.batch ∘ (Task.frame : Frame Hash → Task Hash Sig)) = [] :=
    List.filterMap_eq_nil_iff.mpr fun _ _ => rfl
  rw [hnone, List.nil_append]

theorem Paced.callbacks_tasks (m : Paced Hash Sig) (pm : Nat) (st : List (Task Hash Sig)) :
    ((m.callbacks pm).map Task.callback ++ st).filterMap Task.batch =
      m.batches (some pm) ++ st.filterMap Task.batch := by
  rw [List.filterMap_append, List.filterMap_map]
  simp only [callbacks, batches, List.filterMap_map, Option.some_inj]
  rfl

theorem Paced.tally_popped {t : Task Hash Sig} (hst : m.stack = t :: rest) (b : List Hash) :
    m.tally b = (m.popped rest).tally b + t.batch.toList.count b := by
  have hq : m.queued = t.batch.toList ++ (m.popped rest).queued := by
    simp only [queued, popped, hst, Task.batches_cons]
  simp only [tally, hq, List.count_append]
  simp only [popped, hanging]
  omega

theorem Paced.Answered.mono {c : Hash} (h : m.Answered c) (ho : m.core.out <+: m'.core.out)
    (hc : m'.clients = m.clients) : m'.Answered c := by
  refine h.imp (fun h => ?_) (hc ▸ ·)
  obtain ⟨t, ht⟩ := ho
  rw [← ht, decidedCmds_append]
  exact List.mem_append_left _ h

theorem Paced.runCore_rest (f : CoreM Hash Sig (List (Frame Hash))) :
    (m.runCore f).queue = m.queue ∧ (m.runCore f).hangs = m.hangs ∧
      (m.runCore f).pendingBeats = m.pendingBeats ∧ (m.runCore f).passed = m.passed ∧
      (m.runCore f).proposed = m.proposed ∧ (m.runCore f).clients = m.clients := by
  unfold Paced.runCore
  split <;> exact ⟨rfl, rfl, rfl, rfl, rfl, rfl⟩

/-- The batches `l` come in, none is lost, nothing that is answered or made stops being
so, and no further decision is waited for. -/
structure Flow (S : Setup Hash Sig) (l : List (List Hash)) (m m' : Paced Hash Sig) : Prop where
  queue : m'.queue = m.queue
  tally : ∀ b, m'.tally b = m.tally b + l.count b
  sound : m.Sound → m'.Sound
  answered : ∀ c, m.Answered c → m'.Answered c
  waiting : ∀ c ∈ m'.clients.decisionWaiting, c ∈ m.clients.decisionWaiting
  made : ∀ b, m.Made S b → m'.Made S b
  passed : ∀ b ∈ m'.passed, b ∈ m.passed ∨ m'.Made S b

namespace Flow

theorem refl : Flow S [] m m :=
  ⟨rfl, fun _ => rfl, fun h => h, fun _ h => h, fun _ h => h, fun _ h => h, fun _ h => .inl h⟩

theorem passed_trans (h : Flow S l m m₁) (h' : Flow S l' m₁ m') :
    ∀ b ∈ m'.passed, b ∈ m.passed ∨ m'.Made S b :=
  fun b hb => (h'.passed b hb).elim (fun hb => (h.passed b hb).imp_right (h'.made b)) .inr

theorem trans (h : Flow S l m m₁) (h' : Flow S [] m₁ m') : Flow S l m m' where
  queue := h'.queue.trans h.queue
  tally b := by rw [h'.tally, h.tally, List.count_nil, Nat.add_zero]
  sound hm := h'.sound (h.sound hm)
  answered c hc := h'.answered c (h.answered c hc)
  waiting c hc := h.waiting c (h'.waiting c hc)
  made b hb := h'.made b (h.made b hb)
  passed := passed_trans h h'

theorem after (h : Flow S [] m m₁) (h' : Flow S l m₁ m') : Flow S l m m' where
  queue := h'.queue.trans h.queue
  tally b := by rw [h'.tally, h.tally, List.count_nil, Nat.add_zero]
  sound hm := h'.sound (h.sound hm)
  answered c hc := h'.answered c (h.answered c hc)
  waiting c hc := h.waiting c (h'.waiting c hc)
  made b hb := h'.made b (h.made b hb)
  passed := passed_trans h h'

/-- Nothing is proposed and nothing is thrown. -/
theorem of_tally (hq : m'.queue = m.queue) (ht : ∀ b, m'.tally b = m.tally b + l.count b)
    (hs : m.Sound → m'.Sound) (ho : m'.core.out = m.core.out)
    (hp : (m'.clients, m'.thrown, m'.proposed, m'.passed) = (m.clients, m.thrown, m.proposed, m.passed)) :
    Flow S l m m' where
  queue := hq
  tally := ht
  sound := hs
  answered c h := h.mono (ho ▸ List.prefix_rfl) (Prod.mk.inj hp).1
  waiting c hc := by
    rw [(Prod.mk.inj hp).1] at hc
    exact hc
  made b hb := by
    simp only [Prod.mk.injEq] at hp
    unfold Paced.Made at hb ⊢
    rwa [hp.2.1, hp.2.2.1]
  passed b hb := by
    simp only [Prod.mk.injEq] at hp
    exact .inl (hp.2.2.2 ▸ hb)

/-- The batches `l` are taken from their places first. -/
theorem taking (h : Flow S l m₁ m') (hq : m₁.queue = m.queue)
    (ht : ∀ b, m.tally b = m₁.tally b + l.count b) (hs : m.Sound → m₁.Sound) (hc : m₁.core = m.core)
    (hp : (m₁.clients, m₁.thrown, m₁.proposed, m₁.passed) = (m.clients, m.thrown, m.proposed, m.passed)) :
    Flow S [] m m' where
  queue := h.queue.trans hq
  tally b := by rw [ht, h.tally, List.count_nil, Nat.add_zero]
  sound hm := h.sound (hs hm)
  answered c h' := h.answered c (h'.mono (hc ▸ List.prefix_rfl) (Prod.mk.inj hp).1)
  waiting c hw := by
    have hw := h.waiting c hw
    rw [(Prod.mk.inj hp).1] at hw
    exact hw
  made b hb := by
    simp only [Prod.mk.injEq] at hp
    refine h.made b ?_
    unfold Paced.Made at hb ⊢
    rwa [hp.2.1, hp.2.2.1]
  passed b hb := by
    simp only [Prod.mk.injEq] at hp
    exact (h.passed b hb).imp_left (hp.2.2.2 ▸ ·)

theorem popped {t : Task Hash Sig} (hst : m.stack = t :: rest)
    (h : Flow S t.batch.toList (m.popped rest) m') : Flow S [] m m' := by
  refine taking h rfl (Paced.tally_popped hst) (fun hs => ⟨hs.pending, fun out hout => ?_⟩) rfl rfl
  exact hs.made out (hst ▸ List.mem_cons_of_mem _ hout)

/-- A call of the core. -/
theorem runCore {f : CoreM Hash Sig (List (Frame Hash))}
    (hf : Triple f m.core (fun _ s' => Beside m.core s') (fun _ s' => Beside m.core s')) :
    Flow S [] m (m.runCore f) := by
  have hbeside : Beside m.core (m.runCore f).core := by
    unfold Paced.runCore
    cases hx : f m.core with
    | ok fs core => exact hf.ok hx
    | error e core => exact hf.error hx
  obtain ⟨hq, hg, hpb, hps, hp, hc⟩ := runCore_rest (m := m) f
  have hqueue : ∀ b, (m.runCore f).queued.count b + (m.runCore f).dropped.count b =
      m.queued.count b + m.dropped.count b := by
    intro b
    unfold Paced.runCore
    cases f m.core with
    | ok frames core =>
      simp only [queued, Task.batches_cons, Task.batches_frames]
      rfl
    | error e core =>
      show ([] : List (List Hash)).count b + (m.dropped ++ m.queued).count b = _
      rw [List.count_append, List.count_nil]
      omega
  refine ⟨hq, fun b => ?_, fun hs => ⟨?_, ?_⟩, fun c hc' => hc'.mono hbeside.out hc, fun c hw => hc ▸ hw,
    fun b hb => ?_, fun b hb => .inl (hps ▸ hb)⟩
  · have := hqueue b
    simp only [Paced.tally, hanging, hg, hpb, hps, List.count_nil]
    omega
  · rw [hg, hbeside.pms]
    exact hs.pending
  · intro out hout o ho
    have hold : ∀ out, .commits out ∈ m.stack → ∀ o ∈ out, o ∈ (m.runCore f).core.out :=
      fun out hout o ho => hbeside.out.subset (hs.made out hout o ho)
    revert hold hout
    unfold Paced.runCore
    cases f m.core with
    | ok frames core =>
      intro hout hold
      rcases List.mem_cons.mp hout with hout | hout
      · cases hout
        exact List.mem_of_mem_drop ho
      · refine hold out ?_ o ho
        simpa using hout
    | error e core =>
      intro hout _
      cases List.mem_singleton.mp hout
      exact List.mem_of_mem_drop ho
  · refine hb.imp (fun hb => ?_) fun hb => hp.symm ▸ hb
    unfold Paced.runCore
    split
    · exact hb
    · exact List.append_ne_nil_of_left_ne_nil hb _

theorem onPropose (cmds : List Hash) : Flow S [] m (m.onPropose S P cmds) := by
  have h : Flow S [] m (m.runCore (Core.onPropose S P.build cmds m.core.getParents [])) :=
    runCore (beside_allows.onPropose fun _ _ => trivial)
  unfold Paced.onPropose
  cases Core.onPropose S P.build cmds m.core.getParents [] m.core with
  | error => exact h
  | ok =>
    have hp := (runCore_rest (m := m) (Core.onPropose S P.build cmds m.core.getParents [])).2.2.2.2.1
    refine ⟨h.queue, h.tally, fun hs => ⟨(h.sound hs).pending, (h.sound hs).made⟩, h.answered, h.waiting,
      fun b hb => ?_, fun b hb => ?_⟩
    · refine (h.made b hb).imp_right fun ⟨n, hn, hc⟩ => ⟨n, List.mem_append_left _ (hp ▸ hn), hc⟩
    · exact .inl ((runCore_rest (m := m) (Core.onPropose S P.build cmds m.core.getParents [])).2.2.2.1 ▸ hb)

/-- A batch passed to `on_propose` is in a block that is proposed, or is thrown with. -/
theorem onPropose_made {cmds : List Hash} : (m.onPropose S P cmds).Made S cmds := by
  unfold Paced.onPropose
  cases hx : Core.onPropose S P.build cmds m.core.getParents [] m.core with
  | ok =>
    refine .inr ⟨_, List.mem_append_right _ (List.mem_singleton.mpr rfl), ?_⟩
    rw [Setup.cmdsOf, bnew, S.wireOf_hash]
    rfl
  | error =>
    left
    simp only [Paced.runCore, hx]
    exact List.append_ne_nil_of_right_ne_nil _ (by simp)

theorem reject (pm : Option Nat) : Flow S [] m (m.reject pm) := by
  refine of_tally rfl (fun b => ?_) (fun hs => ?_) ?_ rfl
  · have hcount := m.count_hanging pm b
    simp only [Paced.tally, Paced.reject, Paced.hanging, Paced.queued, List.count_append,
      List.count_nil] at hcount ⊢
    omega
  · cases pm with
    | none => exact ⟨fun x hx => hs.pending x (List.mem_of_mem_filter hx), hs.made⟩
    | some p =>
      refine ⟨fun x hx => ?_, fun out hout o ho => ?_⟩
      · obtain ⟨hx, hne⟩ := List.mem_filter.mp hx
        have hne : p ≠ x.1 := fun h => by simp [h] at hne
        exact (pms_settlePm_ne hne).trans (hs.pending x hx)
      · have := hs.made out hout o ho
        simpa [Paced.reject, out_settlePm] using this
  · cases pm with
    | none => rfl
    | some p => simp [Paced.reject, out_settlePm]

theorem push {t : Task Hash Sig} (ht : ∀ out, t ≠ .commits out) : Flow S t.batch.toList m (m.push t) := by
  refine of_tally rfl (fun b => ?_) (fun hs => ⟨hs.pending, fun out hout => ?_⟩) rfl rfl
  · simp only [Paced.tally, Paced.push, Paced.queued, Paced.hanging, Task.batches_cons, List.count_append]
    omega
  · rcases List.mem_cons.mp hout with hout | hout
    · exact absurd hout.symm (ht out)
    · exact hs.made out hout

theorem andThen (pm : Nat) (cb : Callback Hash) : Flow S cb.batch.toList m (m.andThen pm cb) := by
  unfold Paced.andThen
  split
  · exact push (t := .callback cb) fun out h => by cases h
  · rename_i hpm
    refine of_tally rfl (fun b => ?_) (fun hs => ⟨fun x hx => ?_, hs.made⟩) rfl rfl
    · have hcount : ([(pm, cb)].filterMap (·.2.batch)).count b = cb.batch.toList.count b := by
        simp only [List.filterMap_cons, List.filterMap_nil]
        cases cb.batch <;> rfl
      simp only [Paced.tally, Paced.queued, Paced.hanging, List.filterMap_append, List.count_append, hcount]
      omega
    · rcases List.mem_append.mp hx with hx | hx
      · exact hs.pending x hx
      · cases List.mem_singleton.mp hx
        exact hpm
  · refine of_tally rfl (fun b => ?_) (fun hs => ⟨hs.pending, hs.made⟩) rfl rfl
    simp only [Paced.tally, Paced.queued, Paced.hanging, List.count_append]
    omega

/-- The batches and the stack are as they were. -/
theorem of_eq (hq : m'.queue = m.queue) (ht : ∀ b, m'.tally b = m.tally b) (hs : m.Sound → m'.Sound)
    (ho : m'.core.out = m.core.out)
    (hp : (m'.clients, m'.thrown, m'.proposed, m'.passed) = (m.clients, m.thrown, m.proposed, m.passed)) :
    Flow S [] m m' :=
  of_tally hq ht hs ho hp

/-- `async_qc_finish`, whose promise a pacemaker keeps. -/
theorem asyncQcFinish {blk : Hash} {core : Core Hash Sig} (hx : Core.asyncQcFinish S blk m.core = .ok pm core)
    (hc : m'.core = core) (hst : m'.stack = m.stack) (hh : m'.hangs = m.hangs) (hq : m'.queue = m.queue)
    (ht : ∀ b, m'.tally b = m.tally b)
    (hp : (m'.clients, m'.thrown, m'.proposed, m'.passed) = (m.clients, m.thrown, m.proposed, m.passed)) :
    Flow S [] m m' := by
  obtain ⟨hpms, ho⟩ := asyncQcFinish_kept hx
  subst hc
  refine of_eq hq ht (fun hs => ⟨fun x hx => hpms _ _ (hs.pending x (hh ▸ hx)), fun out hout o h => ?_⟩) ho hp
  exact ho ▸ hs.made out (hst ▸ hout) o h

theorem awaitBeat (cmds : List Hash) (making : Bool) : Flow S [cmds] m (m.awaitBeat S cmds making) := by
  unfold Paced.awaitBeat
  cases hx : Core.asyncQcFinish S m.lastProposed m.core with
  | error => exact (asyncQcFinish_spec.error hx).elim
  | ok pm core =>
    have h : Flow S [] m { m with core := core, pmQcFinish := some pm } :=
      asyncQcFinish hx rfl rfl rfl rfl (fun _ => rfl) rfl
    cases making with
    | true => exact (h.after (andThen pm (.beat cmds))).trans (push (t := .lock) fun out h => by cases h)
    | false => exact (h.trans (push (t := .lock) fun out h => by cases h)).after (andThen pm (.beat cmds))

theorem scheduleNext (beating : Bool) : Flow S [] m (m.scheduleNext S beating) := by
  unfold Paced.scheduleNext
  split
  · rename_i cmds beats hp hl
    refine (reject m.pmQcFinish).trans ?_
    refine taking (awaitBeat cmds _) rfl (fun b => ?_) (fun hs => ⟨hs.pending, hs.made⟩) rfl rfl
    have hbeats : (m.reject m.pmQcFinish).pendingBeats = [cmds] ++ beats := hp
    simp only [Paced.tally, hbeats, List.count_append]
    simp only [hanging, queued]
    omega
  · exact refl

theorem doNewConsensus (x : Nat) (cmds : List Hash) : Flow S [] m (m.doNewConsensus S P x cmds) := by
  have h : Flow S [] m (m.push (.attach x (m.core.bnew S cmds []))) :=
    push (t := .attach x _) fun out h => by cases h
  exact h.trans (onPropose cmds)

theorem attach (x : Nat) (blk : Hash) : Flow S [] m (m.attach S x blk) := by
  unfold Paced.attach
  refine (reject m.pmQcManual).trans ?_
  unfold Paced.awaitManual
  cases hx : Core.asyncQcFinish S blk (m.reject m.pmQcManual).core with
  | error => exact (asyncQcFinish_spec.error hx).elim
  | ok pm core =>
    refine .trans ?_ (andThen pm (.manual x))
    exact asyncQcFinish hx rfl rfl rfl rfl (fun _ => rfl) rfl

/-- The callback of a beat passes its batch to `on_propose`, or drops it. -/
theorem call (cb : Callback Hash) : Flow S cb.batch.toList m (m.call S P cb) := by
  cases cb with
  | beat cmds =>
    simp only [Paced.call]
    split
    · have h : Flow S [] { m with passed := m.passed ++ [cmds] }
          (Paced.onPropose S P { m with passed := m.passed ++ [cmds] } cmds) := onPropose cmds
      refine ⟨h.queue, fun b => ?_, fun hs => h.sound ⟨hs.pending, hs.made⟩, h.answered, h.waiting, h.made,
        fun b hb => ?_⟩
      · rw [h.tally, List.count_nil, Nat.add_zero]
        simp only [Paced.tally, List.count_append, hanging, queued, Callback.batch, Option.toList]
        omega
      · rcases h.passed b hb with hb | hb
        · rcases List.mem_append.mp hb with hb | hb
          · exact .inl hb
          · cases List.mem_singleton.mp hb
            exact .inr onPropose_made
        · exact .inr hb
    · refine of_tally rfl (fun b => ?_) (fun hs => ⟨hs.pending, hs.made⟩) rfl rfl
      simp only [Paced.tally, List.count_append, hanging, queued, Callback.batch, Option.toList]
      omega
  | manual x =>
    simp only [Paced.call]
    split
    · exact refl
    · exact doNewConsensus (x + 1) []

theorem record (rid : ReplicaID) (blk : Hash) : Flow S [] m (m.record rid blk) := by
  unfold Paced.record
  split
  · exact of_eq rfl (fun _ => rfl) (fun hs => ⟨hs.pending, hs.made⟩) rfl rfl
  · exact refl

theorem onProposed (blk : Hash) : Flow S [] m (m.onProposed blk) := by
  unfold Paced.onProposed
  split
  · refine (record m.core.id blk).trans ?_
    exact of_eq rfl (fun _ => rfl) (fun hs => ⟨hs.pending, hs.made⟩) rfl rfl
  · exact refl

theorem updateLastProposed (blk : Hash) : Flow S [] m (m.updateLastProposed blk) := by
  unfold Paced.updateLastProposed
  split
  · refine of_eq rfl (fun _ => rfl) (fun hs => ⟨hs.pending, fun out hout => ?_⟩) rfl rfl
    refine hs.made out ?_
    simpa using hout
  · exact refl

theorem onReceived (prop : Proposal Hash) : Flow S [] m (m.onReceived prop) := by
  unfold Paced.onReceived
  split
  · refine (record prop.proposer prop.blk).trans ?_
    exact of_eq rfl (fun _ => rfl) (fun hs => ⟨hs.pending, hs.made⟩) rfl rfl
  · exact refl

/-- The frame of `on_qc_finish`: the callbacks of the promise are about to run. -/
theorem qcFinish (blk : Hash) : Flow S [] m (m.runFrame S P (.qcFinish blk)) := by
  have hrun : m.runFrame S P (.qcFinish blk) =
      (m.runCore (Core.resume S P.options.beatResp (.qcFinish blk))).fulfil blk := rfl
  rw [hrun]
  unfold Paced.runCore
  cases hl : m.core.qcWaiting.lookup blk with
  | none =>
    rw [resume_qcFinish, hl]
    simp only [Paced.fulfil, hl]
    refine of_eq rfl (fun _ => rfl) (fun hs => ⟨hs.pending, fun out hout o ho => ?_⟩) rfl rfl
    rcases List.mem_cons.mp hout with hout | hout
    · cases hout
      exact List.mem_of_mem_drop ho
    · exact hs.made out hout o ho
  | some p =>
    rw [resume_qcFinish, hl]
    simp only [Paced.fulfil, waiting_settlePm, hl]
    refine of_eq rfl (fun b => ?_) (fun hs => ⟨fun x hx => ?_, fun out hout o ho => ?_⟩) out_settlePm rfl
    · have hcount := m.count_hanging (some p) b
      have hqueue (out : List (Output Hash Sig)) : (((m.callbacks p).map Task.callback ++
          Task.commits out :: ([Frame.qcErase blk].map Task.frame ++ m.stack)).filterMap Task.batch).count b =
          (m.batches (some p)).count b + m.queued.count b := by
        rw [callbacks_tasks, List.count_append, Task.batches_cons, Task.batches_frames]
        rfl
      simp only [ne_eq, Option.some_inj] at hcount
      show m.pendingBeats.count b + ((m.hangs.filter (¬ ·.1 = p)).filterMap (·.2.batch)).count b +
        (((m.callbacks p).map Task.callback ++ _).filterMap Task.batch).count b + m.passed.count b +
          m.dropped.count b = m.tally b
      rw [hqueue]
      simp only [Paced.tally]
      omega
    · obtain ⟨hx, hne⟩ := List.mem_filter.mp hx
      have hne : p ≠ x.1 := fun h => by simp [h] at hne
      exact (pms_settlePm_ne hne).trans (hs.pending x hx)
    · rcases List.mem_append.mp hout with hout | hout
      · obtain ⟨cb, -, hcb⟩ := List.mem_map.mp hout
        cases hcb
      · rw [out_settlePm] at hout ⊢
        rcases List.mem_cons.mp hout with hout | hout
        · cases hout
          exact List.mem_of_mem_drop ho
        · refine hs.made out ?_ o ho
          simpa using hout

theorem runFrame (f : Frame Hash) : Flow S [] m (m.runFrame S P f) := by
  have hrun (hf : ∀ blk, f ≠ .qcFinish blk) : Flow S [] m (m.runCore (Core.resume S P.options.beatResp f)) :=
    runCore (beside_allows.resume f hf _)
  cases f with
  | qcFinish blk => exact qcFinish blk
  | receiveProposal_ prop op => exact (hrun fun _ h => by cases h).trans (onReceived prop)
  | propose_ prop =>
    refine (hrun fun _ h => by cases h).trans (.trans ?_ ((onProposed prop.blk).trans (updateLastProposed prop.blk)))
    exact of_eq rfl (fun _ => rfl) (fun hs => ⟨hs.pending, hs.made⟩) rfl rfl
  | qcErase => exact hrun fun _ h => by cases h
  | vote => exact hrun fun _ h => by cases h
  | broadcast => exact hrun fun _ h => by cases h

theorem rotate : Flow S [] m (m.rotate S) := by
  refine (reject m.pmQcFinish).trans ((reject m.pmQcManual).trans ?_)
  exact of_eq rfl (fun _ => rfl) (fun hs => ⟨hs.pending, hs.made⟩) rfl rfl

theorem stopRotate : Flow S [] m (m.stopRotate S) := by
  refine (reject m.pmQcFinish).trans ((reject m.pmQcManual).trans ?_)
  exact of_eq rfl (fun _ => rfl) (fun hs => ⟨hs.pending, hs.made⟩) rfl rfl

theorem onConsensus (blk : Hash) : Flow S [] m (m.onConsensus S P blk) := by
  have hreset : Flow S [] m m.resetTimer :=
    of_eq rfl (fun _ => rfl) (fun hs => ⟨hs.pending, hs.made⟩) rfl rfl
  unfold Paced.onConsensus
  split
  · exact refl
  · split
    · exact hreset.trans stopRotate
    · exact hreset

theorem out_reject (pm : Option Nat) : (m.reject pm).core.out = m.core.out := by
  cases pm with
  | none => rfl
  | some p => exact out_settlePm

theorem out_onConsensus (blk : Hash) : (m.onConsensus S P blk).core.out = m.core.out := by
  unfold Paced.onConsensus
  split
  · rfl
  · split
    · exact (out_reject _).trans (out_reject _)
    · rfl

/-- The callback of a command is only erased where the command is decided. -/
theorem decided {fin : Finality Hash} (ho : .decide fin ∈ m.core.out) :
    Flow S [] m { m with clients := m.clients.doDecide fin } := by
  refine ⟨rfl, fun _ => rfl, fun hs => ⟨hs.pending, hs.made⟩, fun c hc => ?_, fun c hc => ?_, fun _ h => h,
    fun _ h => .inl h⟩
  rotate_left
  · revert hc
    show c ∈ (m.clients.doDecide fin).decisionWaiting → _
    unfold Clients.doDecide
    split
    · exact List.mem_of_mem_filter
    · exact id
  rcases hc with hc | hc
  · exact .inl hc
  by_cases hfin : c = fin.cmdHash
  · exact .inl (List.mem_filterMap.mpr ⟨_, ho, congrArg some hfin.symm⟩)
  · right
    show c ∈ (m.clients.doDecide fin).decisionWaiting
    unfold Clients.doDecide
    split
    · exact List.mem_filter.mpr ⟨hc, decide_eq_true hfin⟩
    · exact hc

/-- The calls of one `update`. -/
theorem heard {out : List (Output Hash Sig)} (ho : ∀ o ∈ out, o ∈ m.core.out) :
    Flow S [] m (out.foldl (heard S P) m) := by
  induction out generalizing m with
  | nil => exact refl
  | cons o out ih =>
    have hstep : Flow S [] m (m.heard S P o) ∧ (m.heard S P o).core.out = m.core.out := by
      cases o with
      | consensus blk => exact ⟨onConsensus blk, out_onConsensus blk⟩
      | decide fin => exact ⟨decided (ho _ List.mem_cons_self), rfl⟩
      | vote => exact ⟨refl, rfl⟩
      | broadcast => exact ⟨refl, rfl⟩
    exact hstep.1.trans (ih fun o h => hstep.2 ▸ ho o (List.mem_cons_of_mem _ h))

theorem expire : Flow S [] m (m.expire S P) := by
  have hfire : Flow S [] m { m with timer := none } :=
    of_eq rfl (fun _ => rfl) (fun hs => ⟨hs.pending, hs.made⟩) rfl rfl
  have harm : Flow S [] { m with timer := none } ({ m with timer := none }.push .arm) :=
    push (t := .arm) fun out h => by cases h
  unfold Paced.expire
  split
  · exact refl
  · unfold Paced.onExpTimeout
    split
    · exact (hfire.trans harm).trans (doNewConsensus 0 [])
    · exact hfire.trans harm
  · exact hfire.trans rotate

theorem repropose : Flow S [] m (m.repropose S P) := by
  unfold Paced.repropose
  split
  · exact refl
  · rename_i n _
    have h : Flow S [] m { m with elections := n } :=
      of_eq rfl (fun _ => rfl) (fun hs => ⟨hs.pending, hs.made⟩) rfl rfl
    split
    · exact h
    · exact h.trans (doNewConsensus 0 _)

/-- A call that a handler of the network layer makes. -/
theorem network (c : Call Hash Sig) (hc : fromNetwork c = true) :
    Flow S [] m (m.runCore (c.run S P.options)) := by
  refine runCore ?_
  cases c with
  | addBlk w =>
    cases hw : Block.unserialize w with
    | none =>
      simp only [Call.run, hw]
      exact .pure' (beside_allows.refl _)
    | some b =>
      simp only [Call.run, hw]
      exact beside_allows.bind (beside_allows.addBlk trivial) (fun _ => beside_allows.pure') _
  | deliver n => exact beside_allows.bind beside_allows.onDeliverBlk (fun _ => beside_allows.pure') _
  | receiveProposal prop => exact beside_allows.onReceiveProposal _
  | receiveVote v => exact beside_allows.onReceiveVote _
  | propose => cases hc
  | asyncQcFinish => cases hc
  | rejectPm => cases hc

end Flow

-- ---------------------------------------------------------------------------
-- The steps
-- ---------------------------------------------------------------------------

/-- What every step is but those that take a command. -/
theorem flow_step {e : Occurrence Hash Sig} (hs : m.Sound) (ha : m.Admits e) :
    Flow S [] m (m.step S P e) ∨ (∃ c, e = .submit c) ∨
      ∃ rest, e = .resume ∧ m.stack = .dequeue :: rest := by
  cases e with
  | call c => exact .inl (.network c ha.2)
  | impeach =>
    simp only [Paced.step, Paced.impeach]
    split
    · exact .inl .refl
    · split
      · exact .inl .refl
      · exact .inl .rotate
  | expire => exact .inl .expire
  | repropose => exact .inl .repropose
  | submit cmdHash => exact .inr (.inl ⟨cmdHash, rfl⟩)
  | pending => exact .inl (.push (t := .dequeue) fun out h => by cases h)
  | resume =>
    cases hst : m.stack with
    | nil =>
      simp only [Paced.step, hst]
      exact .inl .refl
    | cons t rest =>
      have hpop (hf : Flow S t.batch.toList (m.popped rest) ((m.popped rest).runTask S P t)) :
          Flow S [] m (m.step S P .resume) := by
        simp only [Paced.step, hst]
        exact .popped hst hf
      cases t with
      | dequeue => exact .inr (.inr ⟨rest, rfl, rfl⟩)
      | frame f => exact .inl (hpop (.runFrame f))
      | commits out => exact .inl (hpop (.heard (hs.made out (hst ▸ List.mem_cons_self))))
      | callback cb => exact .inl (hpop (.call cb))
      | attach x blk => exact .inl (hpop (.attach x blk))
      | schedule beating => exact .inl (hpop (.scheduleNext beating))
      | lock => exact .inl (hpop (.of_eq rfl (fun _ => rfl) (fun hs => ⟨hs.pending, hs.made⟩) rfl rfl))
      | listen => exact .inl (hpop (.of_eq rfl (fun _ => rfl) (fun hs => ⟨hs.pending, hs.made⟩) rfl rfl))
      | arm => exact .inl (hpop (.of_eq rfl (fun _ => rfl) (fun hs => ⟨hs.pending, hs.made⟩) rfl rfl))

/-- The batches are cut from the commands taken; each is in one place, and none of its
commands is forgotten. -/
structure Books (S : Setup Hash Sig) (m : Paced Hash Sig) : Prop where
  slices : (m.handed.flatten ++ m.cmdPendingBuffer).Sublist m.taken
  ledger : ∀ b, m.tally b = m.handed.count b
  sound : m.Sound
  answered : ∀ c ∈ m.taken, m.Answered c
  waiting : ∀ c ∈ m.clients.decisionWaiting, c ∈ m.taken
  made : ∀ b ∈ m.passed, m.Made S b

namespace Books

theorem flow (h : Books S m) (hf : Flow S [] m m') : Books S m' := by
  have hq := hf.queue
  simp only [Paced.queue, Prod.mk.injEq] at hq
  obtain ⟨hh, ht, hb, -⟩ := hq
  refine ⟨by rw [hh, ht, hb]; exact h.slices, fun b => ?_, hf.sound h.sound, fun c hc => ?_,
    fun c hc => ht ▸ h.waiting c (hf.waiting c hc), fun b hb => ?_⟩
  · rw [hf.tally, List.count_nil, Nat.add_zero, hh, h.ledger]
  · exact hf.answered c (h.answered c (ht ▸ hc))
  · exact (hf.passed b hb).elim (fun hb => hf.made b (h.made b hb)) id

/-- A command is taken. -/
theorem enlist (P : Running Hash) (c : Hash) (rest : List Hash) (h : Books S m) :
    Books S { m with
      cmdPending := rest
      taken := m.taken ++ [c]
      clients := m.clients.enlist m.core.id P.zero c } := by
  have hsub : (m.clients.enlist m.core.id P.zero c).decisionWaiting =
      m.clients.decisionWaiting ++ (if c ∈ m.clients.decisionWaiting then [] else [c]) := by
    unfold Clients.enlist
    split <;> simp
  refine ⟨h.slices.trans (List.sublist_append_left ..), h.ledger, ⟨h.sound.pending, h.sound.made⟩,
    fun d hd => ?_, fun d hd => ?_, h.made⟩
  rotate_left
  · simp only [hsub] at hd
    rcases List.mem_append.mp hd with hd | hd
    · exact List.mem_append_left _ (h.waiting d hd)
    · split at hd
      · cases hd
      · exact List.mem_append_right _ hd
  unfold Paced.Answered
  simp only [hsub]
  rcases List.mem_append.mp hd with hd | hd
  · exact (h.answered d hd).imp_right (List.mem_append_left _)
  · cases List.mem_singleton.mp hd
    right
    split
    · rwa [List.append_nil]
    · exact List.mem_append_right _ (List.mem_singleton.mpr rfl)

/-- A batch is given to `beat`; the buffer is what is left of it and `rest`. -/
theorem beat {buffer : List Hash} (h : Books S m)
    (hs : (m.handed.flatten ++ (cmds ++ buffer)).Sublist m.taken) :
    Books S ({ m with cmdPendingBuffer := buffer }.beat P cmds) := by
  have hslices : ((m.handed ++ [cmds]).flatten ++ buffer).Sublist m.taken := by simpa using hs
  unfold Paced.beat
  split
  · refine ⟨hslices, fun b => ?_, ⟨h.sound.pending, fun out hout => ?_⟩, h.answered, h.waiting, h.made⟩
    · have hl := h.ledger b
      simp only [Paced.tally, Paced.queued, hanging, Paced.push, Task.batches_cons, Task.batch, Callback.batch,
        Option.toList, List.count_append] at hl ⊢
      omega
    · exact h.sound.made out (by simpa [Paced.push] using hout)
  · refine ⟨hslices, fun b => ?_, ⟨h.sound.pending, fun out hout => ?_⟩, h.answered, h.waiting, h.made⟩
    · have hl := h.ledger b
      simp only [Paced.tally, Paced.queued, hanging, Paced.push, Task.batches_cons, Task.batch,
        Option.toList, List.count_append, List.nil_append] at hl ⊢
      omega
    · exact h.sound.made out (by simpa [Paced.push] using hout)

theorem dequeue (h : Books S m) : Books S (m.dequeue P) := by
  unfold Paced.dequeue
  split
  · exact h
  rename_i c rest hq
  have h' := h.enlist P c rest
  have hs : (m.handed.flatten ++ (m.cmdPendingBuffer ++ [c])).Sublist (m.taken ++ [c]) := by
    rw [← List.append_assoc]
    exact h.slices.append_right [c]
  unfold Paced.take
  dsimp only
  split
  · split
    · refine h'.beat ?_
      rwa [List.take_append_drop]
    · have hbuffer : Books S { m with
          cmdPending := rest
          taken := m.taken ++ [c]
          clients := m.clients.enlist m.core.id P.zero c
          cmdPendingBuffer := m.cmdPendingBuffer ++ [c] } :=
        ⟨hs, h'.ledger, ⟨h'.sound.pending, h'.sound.made⟩, h'.answered, h'.waiting, h'.made⟩
      exact hbuffer.flow (.push (t := .dequeue) fun out h => by cases h)
  · exact h'.flow (.push (t := .dequeue) fun out h => by cases h)

theorem step {e : Occurrence Hash Sig} (h : Books S m) (ha : m.Admits e) : Books S (m.step S P e) := by
  rcases flow_step (P := P) h.sound ha with hf | ⟨c, rfl⟩ | ⟨rest, rfl, hst⟩
  · exact h.flow hf
  · exact ⟨h.slices, h.ledger, ⟨h.sound.pending, h.sound.made⟩, h.answered, h.waiting, h.made⟩
  · simp only [Paced.step, hst]
    exact (h.flow (.popped hst .refl)).dequeue

theorem init {rid : ReplicaID} : Books S (Paced.init S P rid) where
  slices := List.Sublist.refl _
  ledger _ := rfl
  sound := ⟨fun _ hx => (List.not_mem_nil hx).elim, fun _ hx => (List.not_mem_nil hx).elim⟩
  answered _ hc := (List.not_mem_nil hc).elim
  waiting _ hc := (List.not_mem_nil hc).elim
  made _ hb := (List.not_mem_nil hb).elim

end Books

end

-- ---------------------------------------------------------------------------
-- Runs
-- ---------------------------------------------------------------------------

/-- In every run the batches given to `beat` are cut from the commands taken, in order,
and each is in exactly one place: it waits, for its turn or for a promise that is
pending, its callback is about to run, it has been passed to `on_propose`, which then
has proposed it or thrown, or it is dropped. No command taken is forgotten: it is
decided, or its decision is waited for. -/
theorem batches_accounted (S : Setup Hash Sig) (P : Running Hash) (rid : ReplicaID) (m : Paced Hash Sig)
    (h : Run.Reachable (Paced.step S P) Paced.Admits (Paced.init S P rid) m) :
    (m.handed.flatten ++ m.cmdPendingBuffer).Sublist m.taken ∧
      m.handed.Perm (m.pendingBeats ++ m.hanging ++ m.queued ++ m.passed ++ m.dropped) ∧
      (∀ x ∈ m.hangs, m.core.pms[x.1]? = some .pending) ∧ (∀ b ∈ m.passed, m.Made S b) ∧
      ∀ c ∈ m.taken, m.Answered c := by
  have hb : Books S m := h.inv (I := Books S) .init fun m e hm he => hm.step he
  refine ⟨hb.slices, List.perm_iff_count.mpr fun b => ?_, hb.sound.pending, hb.made, hb.answered⟩
  rw [← hb.ledger b]
  simp only [Paced.tally, List.count_append]

/-- Replica 0 proposes a command; a rotation finds the next one at the promise of its block. -/
def dropFeed : List (Occurrence Nat TableSig) :=
  [.submit 7, .submit 8, .pending] ++ List.replicate 16 .resume ++ [.pending] ++
    List.replicate 4 .resume ++ [.impeach]

theorem batches_accounted_chain4 :
    let S := tableSetup 4 chain4
    let P : Running Nat := ⟨.threeStep, .roundRobin, 1, 0⟩
    let m := Run.exec (Paced.step S P) (Paced.init S P 0) dropFeed
    m.passed = [[7]] ∧ m.dropped = [[8]] ∧ m.Answered 8 ∧
      m.handed.Perm (m.pendingBeats ++ m.hanging ++ m.queued ++ m.passed ++ m.dropped) := by
  intro S P m
  have h : Run.Reachable (Paced.step S P) Paced.Admits (Paced.init S P 0) m :=
    ⟨dropFeed, by decide +kernel, rfl⟩
  have hall := batches_accounted S P 0 m h
  exact ⟨by decide +kernel, by decide +kernel, hall.2.2.2.2 8 (by decide +kernel), hall.2.1⟩

end HotStuffTx
