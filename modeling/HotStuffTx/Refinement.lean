import HotStuffTx.Pacemaker
import HotStuffTx.Agreement

/-!
# The pacemaker calls as it may

Under the pacemaker runs a replica whose calls come from the network layer and
from the pacemaker. Each step of the pacemaker is a run of that replica: it calls
`on_propose` from the event loop or from a callback that allows it, and asks for the
certificate of a block only once the block is announced. What holds of every run of
a replica, or of a system of them, then holds with the pacemakers.
-/

set_option linter.unusedSectionVars false

namespace HotStuffTx

open Core

variable {Hash Sig : Type} [DecidableEq Hash]

-- ---------------------------------------------------------------------------
-- The replica below
-- ---------------------------------------------------------------------------

def Task.frame? : Task Hash Sig → Option (Frame Hash)
  | .frame f => some f
  | _ => none

/-- The block a task announces. -/
def Task.announces : Task Hash Sig → List Hash
  | .frame (.propose_ prop) => [prop.blk]
  | _ => []

/-- `on_propose` may be called above the frames. -/
def Inviting : List (Frame Hash) → Prop
  | [] | .qcErase _ :: _ | .broadcast _ :: _ => True
  | _ => False

/-- A task of the pacemaker is above such frames, and waits for an announced block. -/
def Task.Fits (announced : List Hash) (below : List (Frame Hash)) : Task Hash Sig → Prop
  | .frame _ | .commits _ => True
  | .attach _ blk => blk ∈ announced ∧ Inviting below
  | .callback _ | .schedule _ | .lock | .listen | .arm | .dequeue => Inviting below

/-- Every task fits in what is below it once what is above it has run. -/
def Staged (announced : List Hash) : List (Task Hash Sig) → Prop
  | [] => True
  | t :: st => t.Fits announced (st.filterMap Task.frame?) ∧ Staged (t.announces ++ announced) st

namespace Paced

def frames (m : Paced Hash Sig) : List (Frame Hash) := m.stack.filterMap Task.frame?

/-- The replica under the pacemaker. -/
def view (m : Paced Hash Sig) : Watched Hash Sig :=
  ⟨⟨m.core, m.frames, m.thrown.map Prod.fst⟩, m.announced⟩

variable (S : Setup Hash Sig) (P : Running Hash)

/-- The commands of the `on_propose` that the step calls. -/
def proposes (m : Paced Hash Sig) : Occurrence Hash Sig → Option (List Hash)
  | .expire => if m.timer = some .onExpTimeout ∧ m.proposer = m.core.id then some [] else none
  | .repropose =>
    if m.elections = 0 ∨ m.clients.decisionWaiting = [] then none else some m.clients.decisionWaiting
  | .resume =>
    match m.stack with
    | .callback (.beat cmds) :: _ => if m.proposer = m.core.id then some cmds else none
    | .callback (.manual x) :: _ => if x ≥ P.build.rounds then none else some []
    | _ => none
  | _ => none

/-- The events a step may make. A call of the network layer and `on_propose` are made
in the state before the step. -/
def Drives (m : Paced Hash Sig) (e : Occurrence Hash Sig) (w : Watched Hash Sig) :
    Event Hash Sig → Prop
  | .resume | .call (.asyncQcFinish _) | .call (.rejectPm _) => True
  | .call (.propose cmds _ _) => w = m.view ∧ m.proposes P e = some cmds
  | .call c => w = m.view ∧ e = .call c

/-- The network layer delivers a block after the one its certificate names is fetched. -/
def Fetched (m : Paced Hash Sig) : Occurrence Hash Sig → Prop
  | .call (.deliver blk) => ∀ b, m.core.storage blk = some b → m.core.isBlkFetched b.qc.objHash = true
  | _ => True

instance (m : Paced Hash Sig) (e : Occurrence Hash Sig) : Decidable (m.Fetched e) :=
  match e with
  | .call (.deliver blk) => inferInstanceAs (Decidable (∀ b, m.core.storage blk = some b →
      m.core.isBlkFetched b.qc.objHash = true))
  | .call (.addBlk _) | .call (.propose ..) | .call (.receiveProposal _) | .call (.receiveVote _)
  | .call (.asyncQcFinish _) | .call (.rejectPm _) | .impeach | .expire | .repropose | .submit _
  | .pending | .resume => instDecidableTrue

/-- What the pacemaker keeps: its tasks fit, and it builds on an announced block. -/
structure Poised (m : Paced Hash Sig) : Prop where
  staged : Staged m.announced m.stack
  lastProposed : m.lastProposed = S.genesis ∨ m.lastProposed ∈ m.announced

end Paced

open Paced

section
variable {S : Setup Hash Sig} {P : Running Hash} {m m' m₁ : Paced Hash Sig} {announced : List Hash}
  {st : List (Task Hash Sig)} {A : Watched Hash Sig → Event Hash Sig → Prop}

theorem Staged.mono (h : Staged announced st) (ha : ∀ x ∈ announced, x ∈ announced') :
    Staged announced' st := by
  induction st generalizing announced announced' with
  | nil => trivial
  | cons t st ih =>
    refine ⟨?_, ih h.2 fun x hx => ?_⟩
    · have hfits := h.1
      cases t <;> simp only [Task.Fits] at hfits ⊢
      case attach => exact ⟨ha _ hfits.1, hfits.2⟩
      all_goals exact hfits
    · rcases List.mem_append.mp hx with hx | hx
      · exact List.mem_append_left _ hx
      · exact List.mem_append_right _ (ha x hx)

/-- Frames of the core go on top. -/
theorem Staged.frames {frames : List (Frame Hash)} (h : Staged announced st) :
    Staged announced (frames.map Task.frame ++ st) := by
  induction frames generalizing announced with
  | nil => exact h
  | cons f frames ih => exact ⟨trivial, ih (h.mono fun x hx => List.mem_append_right _ hx)⟩

/-- Tasks of the pacemaker go on top, where they fit. -/
theorem Staged.push {t : Task Hash Sig} (h : Staged announced st)
    (ht : t.Fits announced (st.filterMap Task.frame?)) : Staged announced (t :: st) :=
  ⟨ht, h.mono fun x hx => List.mem_append_right _ hx⟩

theorem Task.frames_callbacks (cbs : List (Callback Hash)) :
    (cbs.map (Task.callback : Callback Hash → Task Hash Sig)).filterMap Task.frame? = [] := by
  rw [List.filterMap_map]
  exact List.filterMap_eq_nil_iff.mpr fun _ _ => rfl

theorem Staged.callbacks {cbs : List (Callback Hash)} (h : Staged announced st)
    (ho : Inviting (st.filterMap Task.frame?)) : Staged announced (cbs.map Task.callback ++ st) := by
  induction cbs with
  | nil => exact h
  | cons cb cbs ih =>
    refine ih.push ?_
    have hnone := @Task.frames_callbacks Hash Sig _ cbs
    show Inviting ((cbs.map Task.callback ++ st).filterMap Task.frame?)
    rwa [List.filterMap_append, hnone]

theorem Task.frames_filterMap (fs : List (Frame Hash)) (st : List (Task Hash Sig)) :
    (fs.map Task.frame ++ st).filterMap Task.frame? = fs ++ st.filterMap Task.frame? := by
  rw [List.filterMap_append, List.filterMap_map]
  have hsome : fs.filterMap (Task.frame? ∘ (Task.frame : Frame Hash → Task Hash Sig)) = fs :=
    List.filterMap_some
  rw [hsome]

theorem Inviting.mayPropose (h : Inviting m.frames) : Watched.MayPropose m.view.replica := by
  unfold Watched.MayPropose
  have hst : m.view.replica.stack = m.frames := rfl
  rw [hst]
  revert h
  cases m.frames with
  | nil => exact fun _ => trivial
  | cons f fs =>
    cases f with
    | qcErase => exact fun _ => trivial
    | broadcast => exact fun _ => trivial
    | _ => exact False.elim

/-- Whatever the pacemaker does, the replica below makes a run of allowed events. -/
structure Driven (S : Setup Hash Sig) (P : Running Hash) (A : Watched Hash Sig → Event Hash Sig → Prop)
    (m m' : Paced Hash Sig) : Prop where
  run : Run.Reachable (Watched.step S P.options) (fun w ev => w.Disciplined S ev ∧ A w ev) m.view m'.view
  poised : m.Poised S → m'.Poised S

/-- The events that a callback of the pacemaker may make anywhere. -/
structure Aside (A : Watched Hash Sig → Event Hash Sig → Prop) : Prop where
  reject : ∀ w p, A w (.call (.rejectPm p))
  await : ∀ w blk, A w (.call (.asyncQcFinish blk))

namespace Driven

theorem refl : Driven S P A m m := ⟨.refl, id⟩

theorem trans (h : Driven S P A m m₁) (h' : Driven S P A m₁ m') : Driven S P A m m' :=
  ⟨h.run.trans h'.run, fun hp => h'.poised (h.poised hp)⟩

/-- The replica below is the same. -/
theorem of_view (hv : m'.view = m.view) (hp : m.Poised S → m'.Poised S) : Driven S P A m m' :=
  ⟨hv ▸ .refl, hp⟩

theorem reject (hA : Aside A) (pm : Option Nat) : Driven S P A m (m.reject pm) := by
  refine ⟨?_, fun hp => ⟨hp.staged, hp.lastProposed⟩⟩
  cases pm with
  | none => exact .refl
  | some p => exact Run.Reachable.snoc (s := m.view) (e := Event.call (.rejectPm p)) .refl ⟨trivial, hA.reject _ p⟩

theorem push {t : Task Hash Sig} (hf : t.frame? = none) (ht : t.Fits m.announced m.frames) :
    Driven S P A m (m.push t) := by
  refine of_view ?_ fun hp => ⟨hp.staged.push ht, hp.lastProposed⟩
  simp only [view, Paced.frames, Paced.push, List.filterMap_cons, hf]

theorem andThen (pm : Nat) (cb : Callback Hash) (ho : Inviting m.frames) :
    Driven S P A m (m.andThen pm cb) := by
  unfold Paced.andThen
  split
  · exact push rfl ho
  · exact of_view rfl fun hp => ⟨hp.staged, hp.lastProposed⟩
  · exact of_view rfl fun hp => ⟨hp.staged, hp.lastProposed⟩

/-- `async_qc_finish` for a block that is announced. -/
theorem await (hA : Aside A) {blk : Hash} {core : Core Hash Sig}
    (hx : Core.asyncQcFinish S blk m.core = .ok pm core)
    (hb : blk = S.genesis ∨ blk ∈ m.announced) (hv : m'.view = { m with core := core }.view)
    (hp : m.Poised S → m'.Poised S) : Driven S P A m m' := by
  refine ⟨?_, hp⟩
  have hstep : m.view.step S P.options (.call (.asyncQcFinish blk)) = m'.view := by
    rw [hv]
    exact Watched.step_asyncQcFinish hx
  rw [← hstep]
  exact Run.Reachable.refl.snoc ⟨hb, hA.await _ blk⟩

theorem awaitBeat (hA : Aside A) (cmds : List Hash) (making : Bool) (ho : Inviting m.frames)
    (hb : m.lastProposed = S.genesis ∨ m.lastProposed ∈ m.announced) :
    Driven S P A m (m.awaitBeat S cmds making) := by
  unfold Paced.awaitBeat
  cases hx : Core.asyncQcFinish S m.lastProposed m.core with
  | error => exact (asyncQcFinish_spec.error hx).elim
  | ok pm core =>
    have h : Driven S P A m { m with core := core, pmQcFinish := some pm } :=
      await hA hx hb rfl fun hp => ⟨hp.staged, hp.lastProposed⟩
    cases making with
    | true =>
      refine (h.trans (andThen pm (.beat cmds) ho)).trans (push (t := .lock) rfl ?_)
      show Inviting (Paced.frames _)
      unfold Paced.andThen
      split <;> exact ho
    | false => exact (h.trans (push (t := .lock) rfl ho)).trans (andThen pm (.beat cmds) ho)

theorem scheduleNext (hA : Aside A) (beating : Bool) (ho : Inviting m.frames)
    (hb : m.lastProposed = S.genesis ∨ m.lastProposed ∈ m.announced) :
    Driven S P A m (m.scheduleNext S beating) := by
  unfold Paced.scheduleNext
  split
  · refine (reject hA m.pmQcFinish).trans (.trans ?_ (awaitBeat hA _ _ ho hb))
    exact of_view rfl fun hp => ⟨hp.staged, hp.lastProposed⟩
  · exact refl

theorem attach (hA : Aside A) (x : Nat) {blk : Hash} (ho : Inviting m.frames) (hb : blk ∈ m.announced) :
    Driven S P A m (m.attach S x blk) := by
  unfold Paced.attach
  refine (reject hA m.pmQcManual).trans ?_
  unfold Paced.awaitManual
  cases hx : Core.asyncQcFinish S blk (m.reject m.pmQcManual).core with
  | error => exact (asyncQcFinish_spec.error hx).elim
  | ok pm core =>
    refine .trans ?_ (andThen pm (.manual x) ho)
    exact await hA hx (.inr hb) rfl fun hp => ⟨hp.staged, hp.lastProposed⟩

theorem view_runCore (f : CoreM Hash Sig (List (Frame Hash))) :
    (m.runCore f).view = ⟨m.view.replica.runOn f m.frames, m.announced⟩ := by
  have hcore : m.view.replica.core = m.core := rfl
  unfold Paced.runCore Replica.runOn
  rw [hcore]
  cases f m.core with
  | ok frames core =>
    simp only [view, Paced.frames, List.filterMap_cons, Task.frame?, Task.frames_filterMap]
  | error e core => simp [view, Paced.frames, Task.frame?]

theorem poised_runCore (f : CoreM Hash Sig (List (Frame Hash))) (hp : m.Poised S) :
    (m.runCore f).Poised S := by
  unfold Paced.runCore
  cases f m.core with
  | ok frames core => exact ⟨⟨trivial, hp.staged.frames⟩, hp.lastProposed⟩
  | error e core => exact ⟨⟨trivial, trivial⟩, hp.lastProposed⟩

/-- A call of the core from where the stack is. -/
theorem call_ {c : Call Hash Sig} (hd : m.view.Disciplined S (.call c)) (hA : A m.view (.call c)) :
    Driven S P A m (m.runCore (c.run S P.options)) := by
  refine ⟨?_, poised_runCore _⟩
  rw [view_runCore]
  exact Run.Reachable.snoc (s := m.view) (e := Event.call c) .refl ⟨hd, hA⟩

theorem onPropose (cmds : List Hash) (ho : Inviting m.frames)
    (hA : A m.view (.call (.propose cmds m.core.getParents []))) :
    Driven S P A m (m.onPropose S P cmds) := by
  have h : Driven S P A m (m.runCore (Core.onPropose S P.build cmds m.core.getParents [])) :=
    call_ (c := .propose cmds m.core.getParents []) ⟨rfl, ho.mayPropose⟩ hA
  unfold Paced.onPropose
  split
  · exact h.trans (of_view rfl fun hp => ⟨hp.staged, hp.lastProposed⟩)
  · exact h

/-- What `on_propose` has left to run announces the block it has built. -/
theorem frames_onPropose {cmds : List Hash} (hok : m.view.Ok S)
    (hx : Core.onPropose S P.build cmds m.core.getParents [] m.core = .ok fs s') :
    ∃ op, fs = [.receiveProposal_ ⟨m.core.id, m.core.bnew S cmds []⟩ op,
      .propose_ ⟨m.core.id, m.core.bnew S cmds []⟩] := by
  have hd : ∀ x ∈ m.core.getParents, m.core.delivered x = true := fun x hx => by
    rw [List.mem_singleton.mp hx]
    exact hok.tail.tail
  obtain ⟨n, s₁, s₂, op, hn, -, -, -, hfs⟩ := (onPropose_spec hok.core hd).ok hx
  obtain rfl := hn.bnew_eq
  exact ⟨op, hfs⟩

theorem doNewConsensus (x : Nat) (cmds : List Hash) (hok : m.view.Ok S) (ho : Inviting m.frames)
    (hA : A m.view (.call (.propose cmds m.core.getParents []))) :
    Driven S P A m (m.doNewConsensus S P x cmds) := by
  refine ⟨(onPropose (m := m.push (.attach x (m.core.bnew S cmds []))) cmds ho hA).run, fun hp => ?_⟩
  have hstack : Staged (m.core.bnew S cmds [] :: m.announced) (.attach x (m.core.bnew S cmds []) :: m.stack) :=
    (hp.staged.mono fun _ => List.mem_cons_of_mem _).push ⟨List.mem_cons_self, ho⟩
  unfold Paced.doNewConsensus Paced.onPropose Paced.runCore
  have hcore : (m.push (.attach x (m.core.bnew S cmds []))).core = m.core := rfl
  rw [hcore]
  cases hx : Core.onPropose S P.build cmds m.core.getParents [] m.core with
  | ok fs s' =>
    obtain ⟨op, rfl⟩ := frames_onPropose hok hx
    exact ⟨⟨trivial, trivial, trivial, hstack⟩, hp.lastProposed⟩
  | error e s' => exact ⟨⟨trivial, trivial⟩, hp.lastProposed⟩

theorem call (cb : Callback Hash) (hok : m.view.Ok S) (ho : Inviting m.frames)
    (hA : match cb with
      | .beat cmds => m.proposer = m.core.id → A m.view (.call (.propose cmds m.core.getParents []))
      | .manual x => ¬ x ≥ P.build.rounds → A m.view (.call (.propose [] m.core.getParents []))) :
    Driven S P A m (m.call S P cb) := by
  cases cb with
  | beat cmds =>
    simp only [Paced.call]
    split
    · rename_i hid
      have h : Driven S P A m { m with passed := m.passed ++ [cmds] } :=
        of_view rfl fun hp => ⟨hp.staged, hp.lastProposed⟩
      exact h.trans (onPropose cmds ho (hA hid))
    · exact of_view rfl fun hp => ⟨hp.staged, hp.lastProposed⟩
  | manual x =>
    simp only [Paced.call]
    split
    · exact refl
    · rename_i hx
      exact doNewConsensus (x + 1) [] hok ho (hA hx)

-- ---------------------------------------------------------------------------
-- The frames
-- ---------------------------------------------------------------------------

theorem record (rid : ReplicaID) (blk : Hash) : Driven S P A m (m.record rid blk) := by
  unfold Paced.record
  split
  · exact of_view rfl fun hp => ⟨hp.staged, hp.lastProposed⟩
  · exact refl

theorem onProposed (blk : Hash) : Driven S P A m (m.onProposed blk) := by
  unfold Paced.onProposed
  split
  · refine (record m.core.id blk).trans ?_
    exact of_view rfl fun hp => ⟨hp.staged, hp.lastProposed⟩
  · exact refl

theorem frames_onProposed (blk : Hash) : (m.onProposed blk).frames = m.frames := by
  unfold Paced.onProposed Paced.record
  split
  · split <;> rfl
  · rfl

theorem announced_onProposed (blk : Hash) : (m.onProposed blk).announced = m.announced := by
  unfold Paced.onProposed Paced.record
  split
  · split <;> rfl
  · rfl

theorem onReceived (prop : Proposal Hash) : Driven S P A m (m.onReceived prop) := by
  unfold Paced.onReceived
  split
  · refine (record prop.proposer prop.blk).trans ?_
    exact of_view rfl fun hp => ⟨hp.staged, hp.lastProposed⟩
  · exact refl

theorem updateLastProposed {blk : Hash} (ho : Inviting m.frames) (hb : blk ∈ m.announced) :
    Driven S P A m (m.updateLastProposed blk) := by
  unfold Paced.updateLastProposed
  split
  · refine of_view rfl fun hp => ⟨?_, .inr hb⟩
    exact (hp.staged.push (t := .listen) ho).push (t := .schedule false) ho
  · exact refl

/-- The callbacks run above a frame that lets them propose. -/
theorem fulfil (blk : Hash) (ho : m.core.qcWaiting.lookup blk ≠ none → Inviting m.frames) :
    Driven S P A m (m.fulfil blk) := by
  unfold Paced.fulfil
  split
  · exact refl
  · rename_i pm hl
    refine of_view ?_ fun hp => ⟨hp.staged.callbacks (ho (by simp [hl])), hp.lastProposed⟩
    have hnone := @Task.frames_callbacks Hash Sig _ (m.callbacks pm)
    simp only [view, Paced.frames, List.filterMap_append, hnone, List.nil_append]

/-- The next frame of the core, before its callbacks. -/
theorem resumed {f : Frame Hash} (hst : m.stack = .frame f :: rest) (hA : A m.view .resume)
    (hf : ∀ prop, f ≠ .propose_ prop) :
    Driven S P A m ((m.popped rest).runCore (Core.resume S P.options.beatResp f)) := by
  have hfs : m.view.replica.stack = f :: (m.popped rest).frames := by
    show m.stack.filterMap Task.frame? = _
    rw [hst]
    rfl
  refine ⟨?_, fun hp => poised_runCore _ ?_⟩
  · have hstep : m.view.step S P.options .resume =
        ((m.popped rest).runCore (Core.resume S P.options.beatResp f)).view := by
      rw [view_runCore]
      simp only [Watched.step, Watched.announce, Replica.step, hfs]
      cases f with
      | propose_ prop => exact absurd rfl (hf prop)
      | _ => rfl
    rw [← hstep]
    exact Run.Reachable.refl.snoc ⟨trivial, hA⟩
  · have hs := hp.staged
    rw [hst] at hs
    refine ⟨?_, hp.lastProposed⟩
    cases f with
    | propose_ prop => exact absurd rfl (hf prop)
    | _ => exact hs.2

theorem runFrame {f : Frame Hash} (hst : m.stack = .frame f :: rest) (hA : A m.view .resume) :
    Driven S P A m ((m.popped rest).runFrame S P f) := by
  have h (hf : ∀ prop, f ≠ .propose_ prop) := resumed (S := S) (P := P) hst hA hf
  cases f with
  | qcFinish blk =>
    refine (h fun _ hf => by cases hf).trans (fulfil blk ?_)
    unfold Paced.runCore
    rw [resume_qcFinish]
    cases hl : (m.popped rest).core.qcWaiting.lookup blk with
    | none => exact fun hne => absurd hl hne
    | some p => exact fun _ => trivial
  | receiveProposal_ prop op => exact (h fun _ hf => by cases hf).trans (onReceived prop)
  | qcErase => exact h fun _ hf => by cases hf
  | vote => exact h fun _ hf => by cases hf
  | broadcast => exact h fun _ hf => by cases hf
  | propose_ prop =>
    have hfs : m.view.replica.stack = .propose_ prop :: (m.popped rest).frames := by
      show m.stack.filterMap Task.frame? = _
      rw [hst]
      rfl
    have hs : Driven S P A m { (m.popped rest).runCore (Core.resume S P.options.beatResp (.propose_ prop)) with
        announced := prop.blk :: m.announced } := by
      refine ⟨?_, fun hp => ?_⟩
      · have hstep : m.view.step S P.options .resume =
            { (m.popped rest).runCore (Core.resume S P.options.beatResp (.propose_ prop)) with
              announced := prop.blk :: m.announced : Paced Hash Sig }.view := by
          simp only [Watched.step, Watched.announce, Replica.step, hfs]
          exact congrArg (fun w : Watched Hash Sig => { w with announced := prop.blk :: m.announced })
            (view_runCore (m := m.popped rest) (Core.resume S P.options.beatResp (.propose_ prop))).symm
        rw [← hstep]
        exact Run.Reachable.refl.snoc ⟨trivial, hA⟩
      · have hst := hst ▸ hp.staged
        exact ⟨⟨trivial, trivial, hst.2⟩, hp.lastProposed.imp_right (List.mem_cons_of_mem _)⟩
    refine hs.trans ((onProposed prop.blk).trans (updateLastProposed ?_ ?_))
    · rw [frames_onProposed]
      trivial
    · rw [announced_onProposed]
      exact List.mem_cons_self

-- ---------------------------------------------------------------------------
-- The pacemaker
-- ---------------------------------------------------------------------------

theorem rotate (hA : Aside A) : Driven S P A m (m.rotate S) := by
  refine (reject hA m.pmQcFinish).trans ((reject hA m.pmQcManual).trans ?_)
  exact of_view rfl fun hp => ⟨hp.staged, hp.lastProposed⟩

theorem stopRotate (hA : Aside A) : Driven S P A m (m.stopRotate S) := by
  refine (reject hA m.pmQcFinish).trans ((reject hA m.pmQcManual).trans ?_)
  exact of_view rfl fun hp => ⟨hp.staged, .inl rfl⟩

/-- The `do_consensus` and `do_decide` calls. -/
theorem heard (hA : Aside A) {out : List (Output Hash Sig)} : Driven S P A m (out.foldl (heard S P) m) := by
  induction out generalizing m with
  | nil => exact refl
  | cons o out ih =>
    refine .trans ?_ ih
    cases o with
    | consensus blk =>
      have hreset : Driven S P A m m.resetTimer := of_view rfl fun hp => ⟨hp.staged, hp.lastProposed⟩
      simp only [Paced.heard, onConsensus]
      split
      · exact refl
      · split
        · exact hreset.trans (stopRotate hA)
        · exact hreset
    | decide fin => exact of_view rfl fun hp => ⟨hp.staged, hp.lastProposed⟩
    | vote => exact refl
    | broadcast => exact refl

theorem dequeue (ho : Inviting m.frames) : Driven S P A m (m.dequeue P) := by
  unfold Paced.dequeue Paced.take
  split
  · exact refl
  · dsimp only
    split
    · split
      · unfold Paced.beat
        split
        · refine .trans ?_ (push (t := .callback _) rfl ho)
          exact of_view rfl fun hp => ⟨hp.staged, hp.lastProposed⟩
        · refine .trans ?_ (push (t := .schedule true) rfl ho)
          exact of_view rfl fun hp => ⟨hp.staged, hp.lastProposed⟩
      · refine .trans ?_ (push (t := .dequeue) rfl ho)
        exact of_view rfl fun hp => ⟨hp.staged, hp.lastProposed⟩
    · refine .trans ?_ (push (t := .dequeue) rfl ho)
      exact of_view rfl fun hp => ⟨hp.staged, hp.lastProposed⟩

theorem expire (hok : m.view.Ok S) (hst : m.stack = []) (hA : Aside A)
    (hA' : m.timer = some .onExpTimeout ∧ m.proposer = m.core.id →
      A m.view (.call (.propose [] m.core.getParents []))) :
    Driven S P A m (m.expire S P) := by
  have hfs : m.frames = [] := by rw [Paced.frames, hst, List.filterMap_nil]
  have ho : Inviting m.frames := by rw [hfs]; trivial
  have hfire : Driven S P A m { m with timer := none } :=
    of_view rfl fun hp => ⟨hp.staged, hp.lastProposed⟩
  have harm : Driven S P A m ({ m with timer := none }.push .arm) := hfire.trans (push rfl ho)
  unfold Paced.expire
  split
  · exact refl
  · rename_i ht
    unfold Paced.onExpTimeout
    split
    · rename_i hid
      exact harm.trans (doNewConsensus 0 [] hok ho (hA' ⟨ht, hid⟩))
    · exact harm
  · exact hfire.trans (rotate hA)

theorem repropose (hok : m.view.Ok S) (hst : m.stack = [])
    (hA : ¬ (m.elections = 0 ∨ m.clients.decisionWaiting = []) →
      A m.view (.call (.propose m.clients.decisionWaiting m.core.getParents []))) :
    Driven S P A m (m.repropose S P) := by
  have ho : Inviting m.frames := by rw [Paced.frames, hst, List.filterMap_nil]; trivial
  unfold Paced.repropose
  split
  · exact refl
  · rename_i n hn
    have h : Driven S P A m { m with elections := n } :=
      of_view rfl fun hp => ⟨hp.staged, hp.lastProposed⟩
    split
    · exact h
    · rename_i hw
      exact h.trans (doNewConsensus 0 _ hok ho (hA (by simp [hn, hw])))

/-- The next task is taken. -/
theorem popped {t : Task Hash Sig} (hst : m.stack = t :: rest) (hf : t.frame? = none) :
    Driven S P A m (m.popped rest) := by
  refine of_view ?_ fun hp => ⟨?_, hp.lastProposed⟩
  · simp only [view, Paced.frames, hst, List.filterMap_cons, hf]
    rfl
  · have hs := hst ▸ hp.staged
    have hnone : t.announces = [] := by
      cases t with
      | frame f => cases hf
      | _ => rfl
    have h := hs.2
    rwa [hnone] at h

end Driven

/-- A call of the network layer that the pacemaker's replica admits is a disciplined one. -/
theorem Paced.Admits.disciplined {c : Call Hash Sig} (ha : m.Admits (.call c)) (hf : m.Fetched (.call c)) :
    m.view.Disciplined S (.call c) := by
  obtain ⟨hst, hc⟩ := ha
  have hnil : m.view.replica.stack = [] := by
    show m.stack.filterMap Task.frame? = []
    rw [List.isEmpty_iff.mp hst, List.filterMap_nil]
  cases c with
  | addBlk => exact hnil
  | deliver => exact ⟨hnil, hf⟩
  | receiveProposal => exact hnil
  | receiveVote => exact hnil
  | propose => cases hc
  | asyncQcFinish => cases hc
  | rejectPm => cases hc

theorem Aside.drives {e : Occurrence Hash Sig} : Aside (m.Drives P e) :=
  ⟨fun _ _ => trivial, fun _ _ => trivial⟩

/-- A step of the pacemaker is a run of the replica below. -/
theorem Paced.driven {e : Occurrence Hash Sig} (hok : m.view.Ok S) (hp : m.Poised S) (ha : m.Admits e)
    (hf : m.Fetched e) : Driven S P (m.Drives P e) m (m.step S P e) := by
  cases e with
  | call c =>
    refine .call_ (ha.disciplined hf) ?_
    cases c with
    | propose => cases ha.2
    | asyncQcFinish => trivial
    | rejectPm => trivial
    | _ => exact ⟨rfl, rfl⟩
  | impeach =>
    simp only [Paced.step, Paced.impeach]
    split
    · exact .refl
    · split
      · exact .refl
      · exact .rotate .drives
  | expire => exact .expire hok (List.isEmpty_iff.mp ha) .drives fun h => ⟨rfl, if_pos h⟩
  | repropose => exact .repropose hok (List.isEmpty_iff.mp ha) fun h => ⟨rfl, if_neg h⟩
  | submit cmdHash => exact .of_view rfl fun hp => ⟨hp.staged, hp.lastProposed⟩
  | pending =>
    refine .push rfl ?_
    rw [Paced.frames, List.isEmpty_iff.mp ha, List.filterMap_nil]
    trivial
  | resume =>
    cases hst : m.stack with
    | nil =>
      simp only [Paced.step, hst]
      exact .refl
    | cons t rest =>
      simp only [Paced.step, hst]
      have hs := hp.staged
      rw [hst] at hs
      have hfits := hs.1
      have hpop (hf : t.frame? = none) : Driven S P (m.Drives P .resume) m (m.popped rest) :=
        .popped hst hf
      have hview (hf : t.frame? = none) : (m.popped rest).view = m.view := by
        simp only [view, Paced.frames, hst, List.filterMap_cons, hf]
        rfl
      cases t with
      | frame f => exact .runFrame hst trivial
      | commits out => exact (hpop rfl).trans (.heard .drives)
      | callback cb =>
        refine (hpop rfl).trans (.call cb (hview rfl ▸ hok) hfits ?_)
        cases cb with
        | beat cmds => exact fun hid => ⟨hview rfl, by simp only [proposes, hst]; exact if_pos hid⟩
        | manual x => exact fun hx => ⟨hview rfl, by simp only [proposes, hst]; exact if_neg hx⟩
      | attach x blk => exact (hpop rfl).trans (.attach .drives x hfits.2 hfits.1)
      | schedule beating => exact (hpop rfl).trans (.scheduleNext .drives beating hfits hp.lastProposed)
      | dequeue => exact (hpop rfl).trans (.dequeue hfits)
      | lock => exact (hpop rfl).trans (.of_view rfl fun hp => ⟨hp.staged, hp.lastProposed⟩)
      | listen => exact (hpop rfl).trans (.of_view rfl fun hp => ⟨hp.staged, hp.lastProposed⟩)
      | arm => exact (hpop rfl).trans (.of_view rfl fun hp => ⟨hp.staged, hp.lastProposed⟩)

theorem Paced.poised_init {rid : ReplicaID} : (Paced.init S P rid).Poised S := ⟨trivial, .inl rfl⟩

/-- The replica below is as in some run of its own. -/
theorem Driven.ok (h : Driven S P A m m') (hok : m.view.Ok S) : m'.view.Ok S :=
  h.run.inv hok fun _ _ hw he => (hw.step he.1).1

end

-- ---------------------------------------------------------------------------
-- Runs
-- ---------------------------------------------------------------------------

/-- Every run of a replica with its pacemaker is, below the pacemaker, a run in which
the network layer and the pacemaker call as they may. -/
theorem pacemaker_disciplined (S : Setup Hash Sig) (P : Running Hash) (rid : ReplicaID)
    (m : Paced Hash Sig)
    (h : Run.Reachable (Paced.step S P) (fun m e => m.Admits e ∧ m.Fetched e) (Paced.init S P rid) m) :
    Run.Reachable (Watched.step S P.options) (Watched.Disciplined S) (Watched.init S rid) m.view := by
  have hinv : Run.Reachable (Watched.step S P.options) (Watched.Disciplined S) (Watched.init S rid) m.view ∧
      m.view.Ok S ∧ m.Poised S := by
    refine h.inv (I := fun m => Run.Reachable (Watched.step S P.options) (Watched.Disciplined S)
      (Watched.init S rid) m.view ∧ m.view.Ok S ∧ m.Poised S) ⟨.refl, Watched.ok_init, Paced.poised_init⟩ ?_
    rintro m e ⟨hr, hok, hp⟩ ⟨ha, hf⟩
    have hd := Paced.driven (P := P) hok hp ha hf
    exact ⟨hr.trans (hd.run.mono fun _ _ he => he.1), Driven.ok hd hok, hd.poised hp⟩
  exact hinv.1

/-- Replica 0 proposes a command; a rotation finds the next one at the promise of its
block, and the timer of the rotation fires twice. -/
def impeachFeed : List (Occurrence Nat TableSig) :=
  [.submit 7, .submit 8, .pending] ++ List.replicate 16 .resume ++ [.pending] ++
    List.replicate 4 .resume ++ [.impeach, .expire, .resume, .expire]

theorem pacemaker_disciplined_chain4 :
    let S := tableSetup 4 chain4
    let P : Running Nat := ⟨.threeStep, .roundRobin, 1, 0⟩
    let m := Run.exec (Paced.step S P) (Paced.init S P 0) impeachFeed
    m.announced ≠ [] ∧ m.proposer = 2 ∧ Run.Reachable (Watched.step S P.options)
      (Watched.Disciplined S) (Watched.init S 0) m.view := by
  intro S P m
  have h : Run.Reachable (Paced.step S P) (fun m e => m.Admits e ∧ m.Fetched e) (Paced.init S P 0) m :=
    ⟨impeachFeed, by decide +kernel, rfl⟩
  exact ⟨by decide +kernel, by decide +kernel, pacemaker_disciplined S P 0 m h⟩

end HotStuffTx
