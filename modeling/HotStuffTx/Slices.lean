import HotStuffTx.Pipeline

/-!
# The slices of the submissions

A fixed leader cuts what is submitted to it into blocks, in order. `Phase` says
where its newest block stands: `on_propose` runs for it, or it waits for its
certificate with at most one beat hanging on that, or the certificate has just
come. The beat behind that one waits while `locked`, which no listener resets
too early: an own block has its certificate before the listeners hear of it
only where one vote is enough, and there no beat ever waits.
-/

set_option linter.unusedSectionVars false

namespace HotStuffTx

open Core Forest

variable {Hash Sig : Type} [DecidableEq Hash]

namespace Pipeline

-- ---------------------------------------------------------------------------
-- Where the leader stands
-- ---------------------------------------------------------------------------

/-- What does not depend on where the newest block stands. -/
structure Kept (S : Setup Hash Sig) (F : Fixed Hash) (bs : List (List Hash)) (m : Pipeline Hash Sig) :
    Prop where
  steady : m.watched.Steady S
  id : F.proposer = m.core.id
  scheduling : m.scheduling = []
  nodup : m.submitted.Nodup
  answered : m.Answered
  sliced : m.Sliced F bs

/-- The votes for `blk` are too few: `hqc` is lower, or there is nobody left to vote. -/
def Lacking (S : Setup Hash Sig) (s : Core Hash Sig) (blk : Hash) : Prop :=
  (s.voted blk).length < S.nmajority ∧
    (s.height s.hqc.1 < s.height blk ∨ ∀ r, r ∈ s.voted blk)

/-- No beat waits for a certificate, and none is behind it. -/
structure Free (m : Pipeline Hash Sig) (blk : Hash) : Prop where
  awaiting : m.awaiting = none
  locked : m.locked = false
  pendingBeats : m.pendingBeats = []
  alone : ∀ p, (blk, p) ∉ m.core.qcWaiting

/-- One beat waits for the certificate of `blk`. -/
structure Held (m : Pipeline Hash Sig) (blk : Hash) : Prop where
  awaiting : ∃ pm cmds, m.awaiting = some (pm, cmds) ∧ m.core.Attached blk pm
  locked : m.locked = true

/-- The newest block, with the frames on the stack: `on_propose` runs for it up to
the listeners, it has been told of, or its certificate has just been completed. -/
inductive Phase (S : Setup Hash Sig) (m : Pipeline Hash Sig) (blk : Hash) : List (Frame Hash) → Prop
  | proposing (hp : prop.blk = blk) (hm : Making S m.core m.watched.announced prop t)
      (hin : .propose_ prop ∈ t) (hc : m.core.Cast blk t) (hb : m.core.Quiet blk below)
      (hw : ∀ p, (blk, p) ∉ m.core.qcWaiting) (ha : m.awaiting = none) (hl : m.locked = true) :
      Phase S m blk (t ++ below)
  | between (ht : t = [] ∨ ∃ prop, t = [.broadcast prop]) (hb : m.core.Quiet blk below)
      (hlast : m.lastProposed = blk) (hann : blk = S.genesis ∨ blk ∈ m.watched.announced)
      (hv : 0 < (m.core.voted blk).length)
      (hs : m.Free blk ∧ (Lacking S m.core blk ∨ Topped S m.core blk) ∨
        m.Held blk ∧ Lacking S m.core blk) :
      Phase S m blk (t ++ below)
  | finishing (hlast : m.lastProposed = blk) (hann : blk = S.genesis ∨ blk ∈ m.watched.announced)
      (hv : 0 < (m.core.voted blk).length) (ht : Topped S m.core blk) (hs : m.Free blk ∨ m.Held blk) :
      Phase S m blk [.qcFinish blk]

structure Ok (S : Setup Hash Sig) (F : Fixed Hash) (m : Pipeline Hash Sig) : Prop where
  kept : m.Kept S F (m.proposed.map S.cmdsOf ++ m.beats)
  listening : m.listening = true
  solo : S.nmajority ≤ 1 → m.pendingBeats = []
  chain : ∃ blk, Led S m.proposed blk m.core ∧ m.Phase S blk m.watched.replica.stack

section
variable {S : Setup Hash Sig} {F : Fixed Hash} {s s' : Core Hash Sig} {w : Watched Hash Sig}
  {m : Pipeline Hash Sig} {blk : Hash} {bs : List (List Hash)} {cmds : List Hash}
  {rest : List (List Hash)} {above below pre : List (Frame Hash)} {prop : Proposal Hash}
  {listener : Bool}

-- ---------------------------------------------------------------------------
-- What the pacemaker does
-- ---------------------------------------------------------------------------

/-- A beat whose callback runs on top of the newest block. -/
theorem ok_propose (h : m.Kept S F (m.proposed.map S.cmdsOf ++ cmds :: m.pendingBeats))
    (hlisten : m.listening = true) (hsolo : S.nmajority ≤ 1 → m.pendingBeats = [])
    (ha : m.awaiting = none) (hl : m.locked = true) (g : Led S m.proposed blk m.core)
    (ht : Topped S m.core blk) (hst : m.watched.replica.stack = [] ∨
      ∃ y, m.core.delivered y = true ∧ m.watched.replica.stack = [.qcErase y]) :
    (m.propose S F cmds).Ok S F := by
  have hok := h.steady.fluent.ok
  have htail := ht.2.2
  have hpar : S.par (m.core.bnew S cmds []) = some blk := by
    rw [bnew, par_of_wire (S.wireOf_hash _)]
    exact congrArg some htail
  have hn := g.fresh hpar
  have hmay : Watched.MayPropose m.watched.replica := by
    unfold Watched.MayPropose
    rcases hst with hst | ⟨y, -, hst⟩
    · rw [hst]
      trivial
    · rw [hst]
      trivial
  have hv : m.core.vheight ≤ m.core.height m.core.hqcTail := htail.symm ▸ g.vheight
  have hext : S.Ext m.core.bExec m.core.hqcTail := htail.symm ▸ g.bExec hok.core
  obtain ⟨fs, s', op, hrun, hw, hlaunch, ho, hwait, hop⟩ :=
    h.steady.launched (O := F.options) hmay hv hext hn
  have hsteady : (m.watched.step S F.options (.call (.propose cmds m.core.getParents []))).Steady S :=
    h.steady.step ⟨rfl, hmay⟩
  have hgrow := (Replica.stepped (O := F.options) hok.core
    (hok.sound (e := .call (.propose cmds m.core.getParents [])) ⟨rfl, hmay⟩)).coreOk hok.core
  have hlock : Triple (onPropose S F.build cmds m.core.getParents []) m.core _ _ :=
    launch_lock hok.core hok.tail.tail
  obtain ⟨hvd, hlock⟩ := hlock.ok hrun
  have g' := g.extend ht hlaunch hvd hlock
  have hbatches : (m.proposed ++ [m.core.bnew S cmds []]).map S.cmdsOf ++ m.beats =
      m.proposed.map S.cmdsOf ++ cmds :: m.pendingBeats := by
    have hcmds : S.cmdsOf (m.core.bnew S cmds []) = cmds := hlaunch.cmds
    simp [beats, ha, hcmds]
  have hans : (m.moved (m.watched.step S F.options (.call (.propose cmds m.core.getParents [])))).Answered := by
    refine h.answered.moved h.nodup hgrow.2.out ?_
    rw [hw]
    rw [hw] at hsteady
    obtain ⟨l, hdec⟩ := g'.decided hsteady.fluent.ok.core
    have hall := h.sliced.all
    rw [← hbatches] at hall
    refine ⟨l ++ m.beats.flatten ++ m.cmdPendingBuffer, ?_⟩
    rw [← hall, List.flatten_append, ← List.flatMap_def, ← hdec]
    simp only [List.append_assoc]
  rw [hw] at hsteady hans
  unfold propose
  rw [if_pos h.id]
  have hrun' : onPropose S F.build cmds m.core.getParents [] m.core = .ok fs s' := hrun
  simp only [hw, hrun']
  refine ⟨⟨hsteady, h.id.trans hlaunch.id.symm, ?_, h.nodup, ⟨hans.fired, hans.waiting⟩,
    ?_⟩, hlisten, hsolo, _, g', ?_⟩
  · show (if _ = _ then m.scheduling else []) = []
    rw [h.scheduling, ite_self]
  · show Sliced F ((m.proposed ++ [m.core.bnew S cmds []]).map S.cmdsOf ++ m.beats) _
    rw [hbatches]
    exact ⟨h.sliced.all, h.sliced.size, h.sliced.buffer⟩
  · refine .proposing (t := [.receiveProposal_ _ op, .propose_ _]) rfl (.receive ho) (by simp)
      ⟨hop g'.bLock, ?_⟩ ?_ hwait ha hl
    · show s'.voted _ = []
      rw [hlaunch.voted]
      exact h.steady.unheard _ hn
    · rcases hst with hst | ⟨y, hy, hst⟩
      · exact .inl hst
      · refine .inr ⟨y, ?_, (hlaunch.keeps y hy).1, hst⟩
        rintro rfl
        have hy : m.core.delivered (m.core.bnew S cmds []) = true := hy
        rw [hn] at hy
        cases hy

end

end Pipeline

section
variable {S : Setup Hash Sig} {F : Fixed Hash} {s s' : Core Hash Sig} {w : Watched Hash Sig}
  {m : Pipeline Hash Sig} {blk : Hash} {bs : List (List Hash)} {cmds : List Hash}
  {rest : List (List Hash)} {above below pre : List (Frame Hash)} {prop : Proposal Hash}
  {b : Bool}

namespace Pipeline

/-- `schedule_next` takes the first beat: it waits for the certificate of the newest
block, or is proposed at once. -/
theorem scheduleNext_spec (hs : m.watched.Steady S) (hb : m.pendingBeats = cmds :: rest)
    (hl : m.locked = false) (hlast : m.lastProposed = blk) (hw : ∀ p, (blk, p) ∉ m.core.qcWaiting)
    (hann : blk = S.genesis ∨ blk ∈ m.watched.announced) : ∃ l q pm,
    let w : Watched Hash Sig := ⟨⟨{ m.core with pms := l, qcWaiting := q }, m.watched.replica.stack,
      m.watched.replica.thrown⟩, m.watched.announced⟩
    w.Steady S ∧
      ((m.core.voted blk).length < S.nmajority ∧ w.replica.core.Attached blk pm ∧
        m.scheduleNext S F b = { m with
          watched := w, pendingBeats := rest, pmQcFinish := some pm
          awaiting := some (pm, cmds), locked := true } ∨
      S.nmajority ≤ (m.core.voted blk).length ∧ (b = false → rest = [] →
        m.scheduleNext S F b = propose S F { m with
          watched := w, pendingBeats := [], pmQcFinish := some pm
          awaiting := none, locked := true } cmds)) := by
  obtain ⟨l₁, hrej, hs₁⟩ := hs.reject (O := F.options) m.pmQcFinish
  rw [hrej] at hs₁
  obtain ⟨pm, l, q, hrun, hs₂, hpm⟩ := hs₁.awaits hw hann
  refine ⟨l, q, pm, hs₂, ?_⟩
  unfold scheduleNext
  simp only [hb, hl, hrej, hlast, hrun, Watched.step_asyncQcFinish hrun]
  rcases hpm with ⟨ht, hpm⟩ | ⟨ho, hatt⟩
  · refine .inr ⟨ht, fun hlisten hrest => ?_⟩
    rw [if_pos hpm, if_pos ⟨hlisten, hrest⟩, hrest]
  · refine .inl ⟨ho, hatt, ?_⟩
    rw [if_neg (by rw [hatt.pending]; simp)]

theorem scheduleNext_idle (h : m.pendingBeats = [] ∨ m.locked = true) :
    m.scheduleNext S F b = m := by
  unfold scheduleNext
  split
  · rename_i hb hl
    rcases h with h | h
    · cases h.symm.trans hb
    · cases h.symm.trans hl
  · rfl

/-- The leader has heard itself: an open block needs more than one vote. -/
theorem not_solo (hv : 0 < (s.voted blk).length) (hlt : (s.voted blk).length < S.nmajority) : ¬ S.nmajority ≤ 1 := by
  omega

/-- `beat` from the event loop. -/
theorem ok_beat (h : m.Kept S F (m.proposed.map S.cmdsOf ++ (m.beats ++ [cmds])))
    (hlisten : m.listening = true) (g : Led S m.proposed blk m.core)
    (hst : m.watched.replica.stack = [])
    (hph : m.Phase S blk []) : (m.beat S F cmds).Ok S F := by
  generalize hnil : ([] : List (Frame Hash)) = st at hph
  cases hph with
  | proposing hp hm => exact absurd (List.append_eq_nil_iff.mp hnil.symm).1 hm.ne_nil
  | finishing => cases hnil
  | between hpre hb hlast hann hv hs =>
    unfold beat
    rcases hs with ⟨hfree, hq⟩ | ⟨hheld, ho⟩
    · obtain ⟨l, q, pm, hsteady, hspec⟩ := scheduleNext_spec (S := S) (F := F) (b := false)
        (m := { m with pendingBeats := m.pendingBeats ++ [cmds] }) h.steady
        (by rw [hfree.pendingBeats]; rfl) hfree.locked hlast hfree.alone hann
      have hbeats : m.beats ++ [cmds] = [cmds] := by
        simp [beats, hfree.awaiting, hfree.pendingBeats]
      rw [hbeats] at h
      rcases hspec with ⟨hlt, hatt, heq⟩ | ⟨hge, heq⟩
      · have ho := hq.resolve_right fun ht => absurd hlt (Nat.not_lt_of_le ht.1)
        rw [heq]
        refine ⟨⟨hsteady, h.id, h.scheduling, h.nodup, ?_, ?_⟩, hlisten, fun _ => rfl, blk, ?_, ?_⟩
        · exact ⟨h.answered.fired, h.answered.waiting⟩
        · exact ⟨h.sliced.all, h.sliced.size, h.sliced.buffer⟩
        · exact g.calm (.of_eq rfl rfl rfl) (.of_eq rfl rfl rfl)
        · simp only [hst]
          exact .between (t := []) (.inl rfl) (.inl rfl) hlast hann hv
            (.inr ⟨⟨⟨pm, cmds, rfl, hatt⟩, rfl⟩, ho⟩)
      · have ht := hq.resolve_left fun ho => absurd hge (Nat.not_le_of_lt ho.1)
        rw [heq rfl rfl]
        refine ok_propose ⟨hsteady, h.id, h.scheduling, h.nodup, ?_, ?_⟩ hlisten (fun _ => rfl) rfl rfl
          (g.calm (.of_eq rfl rfl rfl) (.of_eq rfl rfl rfl)) ht (.inl hst)
        · exact ⟨h.answered.fired, h.answered.waiting⟩
        · exact ⟨h.sliced.all, h.sliced.size, h.sliced.buffer⟩
    · have heq : scheduleNext S F { m with pendingBeats := m.pendingBeats ++ [cmds] } false =
          { m with pendingBeats := m.pendingBeats ++ [cmds] } := scheduleNext_idle (.inr hheld.locked)
      rw [heq]
      refine ⟨⟨h.steady, h.id, h.scheduling, h.nodup, ?_, ?_⟩, hlisten,
        fun hone => absurd hone (not_solo hv ho.1), blk, g, ?_⟩
      · exact ⟨h.answered.fired, h.answered.waiting⟩
      · have hbeats : beats { m with pendingBeats := m.pendingBeats ++ [cmds] } = m.beats ++ [cmds] := by
          simp [beats]
        rw [hbeats]
        exact ⟨h.sliced.all, h.sliced.size, h.sliced.buffer⟩
      · simp only [hst]
        exact .between (t := []) (.inl rfl) (.inl rfl) hlast hann hv
          (.inr ⟨⟨hheld.awaiting, hheld.locked⟩, ho⟩)

/-- The listener of the proposals. -/
theorem ok_onProposal (h : m.Kept S F (m.proposed.map S.cmdsOf ++ m.beats))
    (ha : m.awaiting = none) (g : Led S m.proposed blk m.core)
    (hq : Open S m.core blk ∨ Topped S m.core blk ∧ m.pendingBeats = [])
    (hw : ∀ p, (blk, p) ∉ m.core.qcWaiting) (hann : blk ∈ m.watched.announced)
    (hv : 0 < (m.core.voted blk).length) (hb : m.core.Quiet blk below)
    (hst : m.watched.replica.stack = .broadcast prop :: below) : (m.onProposal S F blk).Ok S F := by
  unfold onProposal
  by_cases hbeats : m.pendingBeats = []
  · have heq : scheduleNext S F { m with lastProposed := blk, locked := false, listening := false } true =
        { m with lastProposed := blk, locked := false, listening := false } :=
      scheduleNext_idle (.inl hbeats)
    simp only [heq, and_self, ↓reduceIte]
    refine ⟨⟨h.steady, h.id, h.scheduling, h.nodup, ?_, ?_⟩, rfl, fun _ => hbeats, blk, g, ?_⟩
    · exact ⟨h.answered.fired, h.answered.waiting⟩
    · exact ⟨h.sliced.all, h.sliced.size, h.sliced.buffer⟩
    · simp only [hst]
      exact .between (t := [.broadcast prop]) (.inr ⟨prop, rfl⟩) hb rfl (.inr hann) hv
        (.inl ⟨⟨ha, rfl, hbeats, hw⟩, hq.imp (fun ho => ⟨ho.1, .inl ho.2⟩) And.left⟩)
  · have ho : Open S m.core blk := hq.resolve_right fun ht => hbeats ht.2
    obtain ⟨cmds, rest, hbeats⟩ := List.exists_cons_of_ne_nil hbeats
    obtain ⟨l, q, pm, hsteady, hspec⟩ := scheduleNext_spec (S := S) (F := F) (b := true)
      (m := { m with lastProposed := blk, locked := false, listening := false }) h.steady
      hbeats rfl rfl hw (.inr hann)
    rcases hspec with ⟨-, hatt, heq⟩ | ⟨hge, -⟩
    · simp only [heq, and_self, ↓reduceIte]
      refine ⟨⟨hsteady, h.id, h.scheduling, h.nodup, ?_, ?_⟩, rfl, fun hone => ?_, blk, ?_, ?_⟩
      · exact ⟨h.answered.fired, h.answered.waiting⟩
      · have hkeep : beats { m with
            watched := ⟨⟨{ m.core with pms := l, qcWaiting := q }, m.watched.replica.stack,
              m.watched.replica.thrown⟩, m.watched.announced⟩
            pendingBeats := rest, lastProposed := blk, locked := true, pmQcFinish := some pm
            awaiting := some (pm, cmds), listening := true } = m.beats := by
          simp [beats, ha, hbeats]
        rw [hkeep]
        exact ⟨h.sliced.all, h.sliced.size, h.sliced.buffer⟩
      · exact absurd hone (not_solo hv ho.1)
      · exact g.calm (.of_eq rfl rfl rfl) (.of_eq rfl rfl rfl)
      · simp only [hst]
        exact .between (t := [.broadcast prop]) (.inr ⟨prop, rfl⟩) hb rfl (.inr hann) hv
          (.inr ⟨⟨⟨pm, cmds, rfl, hatt⟩, rfl⟩, ho.1, .inl ho.2⟩)
    · exact absurd hge (Nat.not_le_of_lt ho.1)

theorem returned_eq (h : m.scheduling = []) : m.returned = m := by
  unfold returned
  simp only [h]

theorem fulfil_eq (ha : m.awaiting = some (pm, cmds)) (hp : m.core.pms[pm]? = some .fulfilled) :
    fulfil S F m = propose S F { m with awaiting := none } cmds := by
  unfold fulfil
  simp only [ha, hp, ↓reduceIte]

/-- Whatever the pacemaker waits for has not happened. -/
theorem Ok.settle_eq (h : m.Ok S F) : settle S F m = m := by
  obtain ⟨blk, -, hph⟩ := h.chain
  have hful : m.awaiting = none ∨ m.Held blk → fulfil S F m = m := by
    rintro (ha | ⟨⟨pm, cmds, ha, hatt⟩, -⟩)
    · unfold fulfil
      simp only [ha]
    · unfold fulfil
      simp only [ha, hatt.pending, Option.some.injEq, reduceCtorEq, ↓reduceIte]
  unfold settle
  rw [returned_eq h.kept.scheduling]
  generalize m.watched.replica.stack = st at hph
  refine hful ?_
  cases hph with
  | proposing hp hm hin hc hb hw ha hl => exact .inl ha
  | between hpre hb hlast hann hv hs =>
    rcases hs with ⟨hf, -⟩ | ⟨hh, -⟩
    · exact .inl hf.awaiting
    · exact .inr hh
  | finishing hlast hann hv ht hs =>
    rcases hs with hf | hh
    · exact .inl hf.awaiting
    · exact .inr hh

end Pipeline

end

section
variable {S : Setup Hash Sig} {F : Fixed Hash} {s s' : Core Hash Sig} {w : Watched Hash Sig}
  {m : Pipeline Hash Sig} {blk : Hash} {bs : List (List Hash)} {cmds : List Hash}
  {above below pre : List (Frame Hash)} {prop : Proposal Hash}

namespace Pipeline

-- ---------------------------------------------------------------------------
-- One step
-- ---------------------------------------------------------------------------

/-- A step of the core that commits nothing and does not throw. -/
theorem Kept.stepped (h : m.Kept S F bs) (he : m.watched.Disciplined S e)
    (ht : (m.watched.step S F.options e).replica.thrown = m.watched.replica.thrown)
    (hc : Calm m.core (m.watched.step S F.options e).replica.core) :
    (m.moved (m.watched.step S F.options e)).Kept S F bs := by
  have hok := h.steady.fluent.ok
  have hsteady : (m.watched.step S F.options e).Steady S := h.steady.step he
  have hadv := ((Replica.stepped (O := F.options) hok.core (hok.sound he)).coreOk hok.core).2
  refine ⟨hsteady, h.id.trans hadv.id.symm, ?_, h.nodup, ?_, ?_⟩
  · show (if _ = _ then m.scheduling else []) = []
    rw [if_pos ht]
    exact h.scheduling
  · exact h.answered.calm h.nodup hok.core hsteady.fluent.ok.core hadv.out hc
  · exact ⟨h.sliced.all, h.sliced.size, h.sliced.buffer⟩

theorem told_of_ne {f : Option (Frame Hash)} (h : ∀ prop, f ≠ some (.propose_ prop)) :
    m.told S F f = m := by
  unfold told
  split
  · exact absurd rfl (h _)
  · rfl

/-- A frame of `on_propose`. -/
theorem ok_proposing (h : m.Ok S F) (g : Led S m.proposed blk m.core)
    (hst : m.watched.replica.stack = above ++ below) (hp : prop.blk = blk)
    (hm : Making S m.core m.watched.announced prop above) (hin : .propose_ prop ∈ above)
    (hc : m.core.Cast blk above) (hb : m.core.Quiet blk below)
    (hw : ∀ p, (blk, p) ∉ m.core.qcWaiting) (ha : m.awaiting = none) (hl : m.locked = true) :
    (m.step S F .resume).Ok S F := by
  have hkept := h.kept
  subst hp
  obtain ⟨above', s', hrun, hcalm, hw', hin', hm'⟩ :=
    hkept.steady.making (O := F.options) g.top hst hm hw
  have hresp : F.options.beatResp = fun _ => m.watched.replica.core.id := by
    funext x
    exact hkept.id
  have hc' := hkept.steady.cast (O := F.options) hresp g.voteDisabled hst hm hc hrun
  have hcore : (m.watched.step S F.options .resume).replica.core = s' := by rw [hrun]
  have hstack : (m.watched.step S F.options .resume).replica.stack = above' ++ below := by rw [hrun]
  have hk := hkept.stepped (e := .resume) trivial (by rw [hrun]) (by rwa [hcore])
  have hhears : Hears m.core s' := by
    obtain ⟨f, fs, rfl⟩ := List.exists_cons_of_ne_nil hm.ne_nil
    obtain ⟨fs', s₁, hpost, hrun'⟩ := hkept.steady.resumed (O := F.options) hst
    have heq := hcore.symm.trans (congrArg Replica.core hrun')
    rw [heq]
    exact Frame.hears hpost
  have g' : Led S m.proposed prop.blk (m.watched.step S F.options .resume).replica.core := by
    rw [hcore]
    exact g.calm hcalm hhears
  have hb' : (m.watched.step S F.options .resume).replica.core.Quiet prop.blk below := by
    rw [hcore]
    rcases hb with hb | ⟨y, hne, hy, hb⟩
    · exact .inl hb
    · exact .inr ⟨y, hne, hcalm.delivered ▸ hy, hb⟩
  rw [← hcore] at hw' hc'
  unfold step
  by_cases htell : above = [.propose_ prop]
  · -- the listeners hear of the block
    subst htell
    obtain ⟨fs, s₁, ⟨rfl, -⟩, hrun'⟩ := hkept.steady.resumed (O := F.options) hst
    have habove : above' = [.broadcast prop] := by
      have heq := hstack.symm.trans (congrArg Replica.stack hrun')
      exact List.append_cancel_right heq
    subst habove
    have hhead : m.watched.replica.stack.head? = some (.propose_ prop) := by rw [hst]; rfl
    rw [hhead]
    have hone : ((m.watched.step S F.options .resume).replica.core.voted prop.blk).length = 1 := hc'
    obtain ⟨hq, hann⟩ : (Open S s' prop.blk ∨ Topped S s' prop.blk) ∧
        prop.blk ∈ (m.watched.step S F.options .resume).announced := by
      rcases hm' with hm' | ⟨hnil, -⟩
      · cases hm' with
        | send hq hann => exact ⟨hq, hann⟩
      · cases hnil
    rw [← hcore] at hq
    have hok : ((m.moved (m.watched.step S F.options .resume)).onProposal S F prop.blk).Ok S F := by
      refine ok_onProposal hk ha g' ?_ hw' hann
        (hone ▸ Nat.one_pos) hb' hstack
      rcases hq with ho | ht
      · exact .inl ho
      · exact .inr ⟨ht, h.solo (hone ▸ ht.1)⟩
    have htold : (m.moved (m.watched.step S F.options .resume)).told S F (some (.propose_ prop)) =
        (m.moved (m.watched.step S F.options .resume)).onProposal S F prop.blk := by
      show (if m.listening = true then _ else _) = _
      rw [if_pos h.listening]
    rw [htold, hok.settle_eq]
    exact hok
  · have htwo : above.length = 2 := by
      cases hm with
      | receive => rfl
      | vote => rfl
      | finish => rfl
      | tell => exact absurd rfl htell
      | send => simp at hin
    have hhead : ∀ p, m.watched.replica.stack.head? ≠ some (.propose_ p) := by
      rw [hst]
      cases hm with
      | receive => simp
      | vote => simp
      | finish => simp
      | tell => exact absurd rfl htell
      | send => simp at hin
    rw [told_of_ne hhead]
    have hm' := hm'.resolve_right fun hnil => by
      have := hin' htwo
      rw [hnil.1] at this
      cases this
    rw [← hcore] at hm'
    have hok : (m.moved (m.watched.step S F.options .resume)).Ok S F := by
      refine ⟨hk, h.listening, h.solo, prop.blk, g', ?_⟩
      show Phase S _ prop.blk (m.watched.step S F.options .resume).replica.stack
      rw [hstack]
      exact .proposing rfl hm' (hin' htwo) hc' hb' hw' ha hl
    rw [hok.settle_eq]
    exact hok

/-- A frame below the newest block, or none. -/
theorem ok_between (h : m.Ok S F) (g : Led S m.proposed blk m.core)
    (hst : m.watched.replica.stack = pre ++ below) (hpre : pre = [] ∨ ∃ prop, pre = [.broadcast prop])
    (hb : m.core.Quiet blk below) (hlast : m.lastProposed = blk)
    (hann : blk = S.genesis ∨ blk ∈ m.watched.announced) (hv : 0 < (m.core.voted blk).length)
    (hs : m.Free blk ∧ (Lacking S m.core blk ∨ Topped S m.core blk) ∨
      m.Held blk ∧ Lacking S m.core blk) :
    (m.step S F .resume).Ok S F := by
  have hkept := h.kept
  -- the frames touch neither votes nor promises, and wake nobody who waits for `blk`
  have hresult {s' : Core Hash Sig} {st : List (Frame Hash)}
      (hrun : (m.watched.step S F.options .resume).replica = ⟨s', st, m.watched.replica.thrown⟩)
      (hann' : (m.watched.step S F.options .resume).announced = m.watched.announced)
      (hs' : ∃ q out, s' = { m.core with qcWaiting := q, out := out } ∧
        (∀ p, (blk, p) ∉ m.core.qcWaiting → (blk, p) ∉ q) ∧
        ∀ pm, m.core.Attached blk pm → Attached { m.core with qcWaiting := q, out := out } blk pm)
      (hq : m.core.Quiet blk st) :
      (m.moved (m.watched.step S F.options .resume)).Ok S F := by
    obtain ⟨q, out, rfl, halone, hatt⟩ := hs'
    generalize hw : m.watched.step S F.options .resume = w at hrun hann'
    have hk := hkept.stepped (e := .resume) trivial (by rw [hw, hrun])
      (by rw [hw, hrun]; exact .of_eq rfl rfl rfl)
    rw [hw] at hk
    obtain ⟨r, ann⟩ := w
    subst hrun hann'
    refine ⟨hk, h.listening, h.solo, blk, g.calm (.of_eq rfl rfl rfl) (.of_eq rfl rfl rfl), ?_⟩
    refine .between (t := []) (.inl rfl) hq hlast hann hv ?_
    rcases hs with ⟨hf, hq⟩ | ⟨⟨⟨pm, cmds, haw, ha⟩, hl⟩, ho⟩
    · exact .inl ⟨⟨hf.awaiting, hf.locked, hf.pendingBeats, fun p => halone p (hf.alone p)⟩, hq⟩
    · exact .inr ⟨⟨⟨pm, cmds, haw, hatt pm ha⟩, hl⟩, ho⟩
  have hfinish (hhead : ∀ p, m.watched.replica.stack.head? ≠ some (.propose_ p))
      (hok : (m.moved (m.watched.step S F.options .resume)).Ok S F) : (m.step S F .resume).Ok S F := by
    unfold step
    simp only [told_of_ne hhead]
    rw [hok.settle_eq]
    exact hok
  rcases hpre with rfl | ⟨prop, rfl⟩
  · rcases hb with rfl | ⟨y, hne, hy, rfl⟩
    · refine hfinish (by rw [hst]; simp) (@hresult m.core [] ?_ ?_ ?_ (.inl rfl))
      · have hst : m.watched.replica.stack = [] := hst
        simp only [Watched.step, Replica.step, hst]
        rw [← hst]
      · simp only [Watched.step, Watched.announce, hst, List.append_nil]
      · exact ⟨_, _, rfl, fun _ h => h, fun _ h => h⟩
    · obtain ⟨fs, s', ⟨rfl, rfl⟩, hrun⟩ := hkept.steady.resumed (O := F.options) hst
      refine hfinish (by rw [hst]; simp) (hresult hrun ?_ ⟨_, _, rfl, fun p hp hq => ?_, fun pm ha => ?_⟩
        (.inl rfl))
      · simp only [Watched.step, Watched.announce, hst, List.nil_append]
      · exact hp (List.mem_of_mem_filter hq)
      · refine ⟨?_, ha.pending, fun z hz => ha.only z (List.mem_of_mem_filter hz)⟩
        show (m.core.qcWaiting.filter (·.1 ≠ y)).lookup blk = some pm
        rw [lookup_filter_of_ne (Ne.symm hne)]
        exact ha.lookup
  · obtain ⟨fs, s', ⟨rfl, rfl⟩, hrun⟩ := hkept.steady.resumed (O := F.options) hst
    refine hfinish (by rw [hst]; simp) (hresult hrun ?_ ⟨_, _, rfl, fun _ h => h, fun _ h => ?_⟩ hb)
    · simp only [Watched.step, Watched.announce, hst, List.cons_append]
    · exact ⟨h.lookup, h.pending, h.only⟩

/-- The frame of `on_qc_finish` for the newest block. -/
theorem ok_finishing (h : m.Ok S F) (g : Led S m.proposed blk m.core)
    (hst : m.watched.replica.stack = [.qcFinish blk]) (hlast : m.lastProposed = blk)
    (hann : blk = S.genesis ∨ blk ∈ m.watched.announced) (hv : 0 < (m.core.voted blk).length)
    (ht : Topped S m.core blk) (hs : m.Free blk ∨ m.Held blk) : (m.step S F .resume).Ok S F := by
  have hkept := h.kept
  have hhead : ∀ p, m.watched.replica.stack.head? ≠ some (.propose_ p) := by
    rw [hst]
    simp
  obtain ⟨fs, s', hpost, hrun⟩ := hkept.steady.resumed (O := F.options) hst
  have hann' : (m.watched.step S F.options .resume).announced = m.watched.announced := by
    simp only [Watched.step, Watched.announce, hst]
  have hk := hkept.stepped (e := .resume) trivial (by rw [hrun])
    (by rw [hrun]; exact Frame.calm hkept.steady.fluent.ok.core hkept.steady.fluent.ok.tail hpost)
  have g' : Led S m.proposed blk s' :=
    g.calm (Frame.calm hkept.steady.fluent.ok.core hkept.steady.fluent.ok.tail hpost)
      (Frame.hears hpost)
  unfold step
  simp only [told_of_ne hhead]
  generalize m.watched.step S F.options .resume = w at hrun hann' hk
  obtain ⟨r, ann⟩ := w
  subst hrun hann'
  rcases hs with hf | ⟨⟨pm, cmds, haw, ha⟩, hl⟩
  · rcases hpost with ⟨-, rfl, rfl⟩ | ⟨p, hlook, -, -⟩
    · have hok : (m.moved ⟨⟨m.core, [], m.watched.replica.thrown⟩, m.watched.announced⟩).Ok S F := by
        refine ⟨hk, h.listening, h.solo, blk, g', ?_⟩
        exact .between (t := []) (.inl rfl) (.inl rfl) hlast hann hv
          (.inl ⟨⟨hf.awaiting, hf.locked, hf.pendingBeats, hf.alone⟩, .inr ht⟩)
      have heq := hok.settle_eq
      exact heq.symm ▸ hok
    · obtain ⟨l₁, l₂, heq, -⟩ := List.lookup_eq_some_iff.mp hlook
      refine absurd ?_ (hf.alone p)
      show (blk, p) ∈ m.watched.replica.core.qcWaiting
      rw [heq]
      exact List.mem_append_right _ List.mem_cons_self
  · rcases hpost with ⟨hlook, -, -⟩ | ⟨p, hlook, rfl, rfl⟩
    · cases ha.lookup.symm.trans hlook
    · cases ha.lookup.symm.trans hlook
      have hset : (m.core.settlePm pm .fulfilled).pms[pm]? = some .fulfilled :=
        pms_settlePm_self ha.pending
      have htopped : Topped S (m.core.settlePm pm .fulfilled) blk := by
        unfold Core.settlePm
        split
        · exact ht
        · exact ht
      have hbeats : m.beats = cmds :: m.pendingBeats := by simp [beats, haw]
      rw [hbeats] at hk
      unfold settle
      rw [returned_eq hk.scheduling]
      have heq := fulfil_eq (S := S) (F := F) (m := m.moved ⟨⟨m.core.settlePm pm .fulfilled,
        [.qcErase blk], m.watched.replica.thrown⟩, m.watched.announced⟩) haw hset
      refine (congrArg (Ok S F) heq).mpr ?_
      refine ok_propose ⟨hk.steady, hk.id, hk.scheduling, hk.nodup, ?_, ?_⟩ h.listening
        h.solo rfl hl g' htopped (.inr ⟨blk, ?_, rfl⟩)
      · exact ⟨hk.answered.fired, hk.answered.waiting⟩
      · exact ⟨hk.sliced.all, hk.sliced.size, hk.sliced.buffer⟩
      · exact (g'.delivered blk).mpr .refl

theorem ok_resume (h : m.Ok S F) : (m.step S F .resume).Ok S F := by
  obtain ⟨blk, g, hph⟩ := h.chain
  generalize hst : m.watched.replica.stack = st at hph
  cases hph with
  | proposing hp hm hin hc hb hw ha hl => exact ok_proposing h g hst hp hm hin hc hb hw ha hl
  | between hpre hb hlast hann hv hs => exact ok_between h g hst hpre hb hlast hann hv hs
  | finishing hlast hann hv ht hs => exact ok_finishing h g hst hlast hann hv ht hs

end Pipeline

end

section
variable {S : Setup Hash Sig} {F : Fixed Hash} {s s' : Core Hash Sig} {w : Watched Hash Sig}
  {m m' : Pipeline Hash Sig} {blk : Hash} {bs : List (List Hash)} {cmds : List Hash}
  {st : List (Frame Hash)}

namespace Pipeline

theorem Free.same (h : m.Free blk) (hw : m'.watched = m.watched) (ha : m'.awaiting = m.awaiting)
    (hl : m'.locked = m.locked) (hb : m'.pendingBeats = m.pendingBeats) : m'.Free blk := by
  refine ⟨ha.trans h.awaiting, hl.trans h.locked, hb.trans h.pendingBeats, ?_⟩
  rw [core, hw]
  exact h.alone

theorem Held.same (h : m.Held blk) (hw : m'.watched = m.watched) (ha : m'.awaiting = m.awaiting)
    (hl : m'.locked = m.locked) : m'.Held blk := by
  obtain ⟨⟨pm, cmds, haw, hatt⟩, hlock⟩ := h
  refine ⟨⟨pm, cmds, ha.trans haw, ?_⟩, hl.trans hlock⟩
  rw [core, hw]
  exact hatt

/-- The queues of commands are not part of it. -/
theorem Phase.same (h : m.Phase S blk st) (hw : m'.watched = m.watched)
    (ha : m'.awaiting = m.awaiting) (hl : m'.locked = m.locked)
    (hp : m'.lastProposed = m.lastProposed) (hb : m'.pendingBeats = m.pendingBeats) :
    m'.Phase S blk st := by
  have hcore : m'.core = m.core := congrArg (·.replica.core) hw
  cases h with
  | proposing hp hm hin hc hq hwait haw hlock =>
    rw [← hcore, ← hw] at hm
    rw [← hcore] at hc hq hwait
    exact .proposing hp hm hin hc hq hwait (ha.trans haw) (hl.trans hlock)
  | between hpre hq hlast hann hv hs =>
    rw [← hw] at hann
    rw [← hcore] at hq hv
    refine .between hpre hq (hp.trans hlast) hann hv ?_
    rw [hcore]
    rcases hs with ⟨hf, ho⟩ | ⟨hh, ho⟩
    · exact .inl ⟨hf.same hw ha hl hb, ho⟩
    · exact .inr ⟨hh.same hw ha hl, ho⟩
  | finishing hlast hann hv ht hs =>
    rw [← hw] at hann
    rw [← hcore] at hv ht
    refine .finishing (hp.trans hlast) hann hv ht ?_
    rcases hs with hf | hh
    · exact .inl (hf.same hw ha hl hb)
    · exact .inr (hh.same hw ha hl)

/-- A command is enqueued. -/
theorem ok_submit (h : m.Ok S F) (hc : c ∉ m.submitted) : (m.step S F (.submit c)).Ok S F := by
  obtain ⟨hkept, hlisten, hsolo, blk, g, hph⟩ := h
  refine ⟨⟨hkept.steady, hkept.id, hkept.scheduling, ?_, ⟨hkept.answered.fired, ?_⟩,
    ⟨?_, hkept.sliced.size, hkept.sliced.buffer⟩⟩, hlisten, hsolo, blk, g, hph.same rfl rfl rfl rfl rfl⟩
  · exact List.nodup_append.mpr ⟨hkept.nodup, List.nodup_singleton c, by
      rintro x hx y hy rfl
      exact hc (List.mem_singleton.mp hy ▸ hx)⟩
  · show _ ++ (m.cmdPending ++ [c]) = m.submitted ++ [c]
    rw [← hkept.answered.waiting]
    simp [step]
  · show _ ++ (m.cmdPending ++ [c]) = m.submitted ++ [c]
    rw [← hkept.sliced.all]
    simp [step, beats]

/-- The handler of `cmd_pending`. -/
theorem ok_handlePending {queue : List Hash} (h : m.Ok S F) (hst : m.watched.replica.stack = [])
    (hq : m.cmdPending = queue) : (m.handlePending S F queue).Ok S F := by
  induction queue generalizing m with
  | nil => exact h
  | cons c queue ih =>
    obtain ⟨hkept, hlisten, hsolo, blk, g, hph⟩ := h
    rw [hst] at hph
    have hnew : c ∉ m.clients.decisionWaiting := by
      have hn := hkept.nodup
      rw [← hkept.answered.waiting, hq] at hn
      have hdis := (List.nodup_append.mp hn).2.2
      intro hmem
      exact hdis c (List.mem_append_right _ hmem) c List.mem_cons_self rfl
    have henlist : m.clients.enlist m.core.id F.zero c =
        ⟨m.clients.decisionWaiting ++ [c], m.clients.fired⟩ := by
      unfold Clients.enlist
      rw [if_neg hnew]
    have hwait : decidedCmds m.core.out ++ (m.clients.decisionWaiting ++ [c]) ++ queue = m.submitted := by
      rw [← hkept.answered.waiting, hq]
      simp
    have hall : (m.proposed.map S.cmdsOf ++ m.beats).flatten ++ (m.cmdPendingBuffer ++ [c]) ++ queue =
        m.submitted := by
      rw [← hkept.sliced.all, hq]
      simp
    have hbuf := hkept.sliced.buffer
    unfold handlePending
    simp only [henlist]
    rw [if_pos hkept.id]
    by_cases hfull : (m.cmdPendingBuffer ++ [c]).length ≥ F.blkSize
    · have hlen : (m.cmdPendingBuffer ++ [c]).length = F.blkSize := by
        simp only [List.length_append, List.length_singleton] at hfull ⊢
        omega
      rw [if_pos hfull, List.drop_of_length_le (Nat.le_of_eq hlen), List.take_of_length_le
        (Nat.le_of_eq hlen)]
      refine ok_beat ⟨hkept.steady, hkept.id, hkept.scheduling, hkept.nodup,
        ⟨hkept.answered.fired, hwait⟩, ⟨?_, ?_, ?_⟩⟩ hlisten g hst (hph.same rfl rfl rfl rfl rfl)
      · show (m.proposed.map S.cmdsOf ++ (m.beats ++ [m.cmdPendingBuffer ++ [c]])).flatten ++ [] ++ queue =
          m.submitted
        rw [← hall]
        simp
      · intro b hb
        rcases List.mem_append.mp hb with hb | hb
        · exact hkept.sliced.size b (List.mem_append_left _ hb)
        · rcases List.mem_append.mp hb with hb | hb
          · exact hkept.sliced.size b (List.mem_append_right _ hb)
          · exact List.mem_singleton.mp hb ▸ hlen
      · show 0 < F.blkSize
        omega
    · rw [if_neg hfull]
      refine ih ⟨⟨hkept.steady, hkept.id, hkept.scheduling, hkept.nodup, ⟨hkept.answered.fired, hwait⟩,
        ⟨hall, hkept.sliced.size, Nat.lt_of_not_le hfull⟩⟩, hlisten, hsolo, blk, g, ?_⟩ hst rfl
      rw [hst]
      exact hph.same rfl rfl rfl rfl rfl

/-- A vote. -/
theorem ok_vote {v : Vote Hash Sig} (h : m.Ok S F) (hst : m.watched.replica.stack = [])
    (hv : v.verify S = .ok true) (hd : m.core.delivered v.blkHash = true) :
    (m.step S F (.vote v)).Ok S F := by
  obtain ⟨blk, g, hph⟩ := h.chain
  have hkept := h.kept
  have hok := hkept.steady.fluent.ok
  obtain ⟨fs, s', hs', hrun⟩ := hkept.steady.heard (O := F.options) hst hv hd
  have hann' : (m.watched.step S F.options (.call (.receiveVote v))).announced =
      m.watched.announced := rfl
  have hcalm : Calm m.core s' := by
    rcases hs' with ⟨-, rfl⟩ | hc
    · exact .of_eq rfl rfl rfl
    · exact Calm.counted hok.core hok.tail hc
  have hhears : Hears m.core s' := by
    rcases hs' with ⟨-, rfl⟩ | hc
    · exact .of_eq rfl rfl rfl
    · exact hc.hears
  have hk := hkept.stepped (e := .call (.receiveVote v)) hst (by rw [hrun]) (by rw [hrun]; exact hcalm)
  have g' := g.calm hcalm hhears
  have hsettle (hok' : (m.moved (m.watched.step S F.options (.call (.receiveVote v)))).Ok S F) :
      (m.step S F (.vote v)).Ok S F := by
    show (settle S F (m.moved (m.watched.step S F.options (.call (.receiveVote v))))).Ok S F
    rw [hok'.settle_eq]
    exact hok'
  refine hsettle ?_
  generalize m.watched.step S F.options (.call (.receiveVote v)) = w at hrun hann' hk
  obtain ⟨r, ann⟩ := w
  subst hrun hann'
  rw [hst] at hph
  generalize hnil : ([] : List (Frame Hash)) = st at hph
  cases hph with
  | proposing hp hm => exact absurd (List.append_eq_nil_iff.mp hnil.symm).1 hm.ne_nil
  | finishing => cases hnil
  | between hpre hb hlast hann hpos hs =>
    have hpos' : 0 < (s'.voted blk).length := Nat.lt_of_lt_of_le hpos (hhears.voted blk)
    rcases hs' with ⟨rfl, rfl⟩ | hc
    · refine ⟨hk, h.listening, h.solo, blk, g', .between (t := []) (.inl rfl) (.inl rfl) hlast hann hpos ?_⟩
      rcases hs with ⟨hf, hq⟩ | ⟨hh, ho⟩
      · exact .inl ⟨⟨hf.awaiting, hf.locked, hf.pendingBeats, hf.alone⟩, hq⟩
      · exact .inr ⟨⟨hh.awaiting, hh.locked⟩, ho⟩
    · -- only the newest block lacks votes
      have hlack : (m.core.voted v.blkHash).length < S.nmajority := by
        cases hc with
        | part hb _ _ hn =>
          rw [Core.voted_of hb]
          omega
        | full hb _ _ hn =>
          rw [Core.voted_of hb]
          omega
      have hblk : v.blkHash = blk := by
        by_contra hne
        exact absurd (g.certified _ ((g.delivered _).mp hd) hne) (Nat.not_le_of_lt hlack)
      have ho : Open S m.core blk := by
        have hlacks : Lacking S m.core blk := by
          rcases hs with ⟨-, ho | ht⟩ | ⟨-, ho⟩
          · exact ho
          · exact absurd (hblk ▸ ht.1) (Nat.not_le_of_lt hlack)
          · exact ho
        refine ⟨hlacks.1, hlacks.2.resolve_right fun hall => ?_⟩
        exact (hc.voted (x := blk)).1 (hblk ▸ hall v.voter)
      have hfree (hf : m.Free blk) : Free (m.moved ⟨⟨s', fs, m.watched.replica.thrown⟩,
          m.watched.announced⟩) blk := by
        refine ⟨hf.awaiting, hf.locked, hf.pendingBeats, fun p => ?_⟩
        show (blk, p) ∉ s'.qcWaiting
        rw [hc.samePms.waiting]
        exact hf.alone p
      have hheld (hh : m.Held blk) : Held (m.moved ⟨⟨s', fs, m.watched.replica.thrown⟩,
          m.watched.announced⟩) blk := by
        obtain ⟨⟨pm, cmds, haw, hatt⟩, hl⟩ := hh
        refine ⟨⟨pm, cmds, haw, ?_, ?_, ?_⟩, hl⟩
        · show s'.qcWaiting.lookup blk = some pm
          rw [hc.samePms.waiting]
          exact hatt.lookup
        · show s'.pms[pm]? = some .pending
          rw [hc.samePms.pms]
          exact hatt.pending
        · show ∀ y, (y, pm) ∈ s'.qcWaiting → y = blk
          rw [hc.samePms.waiting]
          exact hatt.only
      refine ⟨hk, h.listening, h.solo, blk, g', ?_⟩
      rcases ho.counted hok.core hok.tail g.top (.inl hblk) hc with ⟨rfl, ht⟩ | ⟨ho', rfl | ⟨hne, -⟩⟩
      · refine .finishing hlast hann hpos' ht ?_
        rcases hs with ⟨hf, -⟩ | ⟨hh, -⟩
        · exact .inl (hfree hf)
        · exact .inr (hheld hh)
      · refine .between (t := []) (.inl rfl) (.inl rfl) hlast hann hpos' ?_
        rcases hs with ⟨hf, -⟩ | ⟨hh, -⟩
        · exact .inl ⟨hfree hf, .inl ⟨ho'.1, .inl ho'.2⟩⟩
        · exact .inr ⟨hheld hh, ho'.1, .inl ho'.2⟩
      · exact absurd hblk hne

theorem ok_step (h : m.Ok S F) (he : m.Admits S e) : (m.step S F e).Ok S F := by
  cases e with
  | submit c => exact ok_submit h he
  | pending => exact ok_handlePending h he rfl
  | vote v => exact ok_vote h he.1 he.2.1 he.2.2
  | resume => exact ok_resume h

theorem ok_init (hid : S.hasReplica F.proposer = true) (hblk : 1 ≤ F.blkSize) :
    (init S F.proposer).Ok S F := by
  have hsteady := Watched.steady_init hid
  have hdel {x} : (Core.init S F.proposer).delivered x = true ↔ x = S.genesis := by
    simp only [Core.init, Core.delivered, Function.update_apply]
    split <;> simp_all
  have hmem {r : ReplicaID} (hr : S.hasReplica r = true) :
      r ∈ (Core.init S F.proposer).voted S.genesis := by
    simp only [Core.init, Core.voted, Function.update_self, Option.elim_some]
    refine List.mem_eraseDups.mpr (List.mem_map.mpr ⟨r.toNat, ?_, UInt16.ofNat_toNat⟩)
    exact List.mem_range.mpr (of_decide_eq_true hr)
  have hext {y : Hash} (hy : S.Ext y S.genesis) : y = S.genesis := by
    rcases hy.eq_or_par with rfl | ⟨p, hp, -⟩
    · rfl
    · rw [S.par_genesis] at hp
      cases hp
  refine ⟨⟨hsteady, rfl, rfl, List.nodup_nil, ⟨rfl, rfl⟩, ⟨rfl, by simp [init, beats], hblk⟩⟩, rfl,
    fun _ => rfl, S.genesis, ⟨.nil, by simp [init], fun y => hdel.trans ⟨?_, hext⟩, ?_, .refl,
      Nat.zero_le _, rfl⟩, .between (t := []) (.inl rfl) (.inl rfl) rfl (.inl rfl) ?_
        (.inl ⟨⟨rfl, rfl, rfl, by simp [init, Watched.init, Replica.init, Core.init]⟩, ?_⟩)⟩
  · rintro rfl
    exact .refl
  · exact fun y hy hne => absurd (hext hy) hne
  · exact List.length_pos_of_mem (hmem hid)
  · by_cases hge : S.nmajority ≤ ((Core.init S F.proposer).voted S.genesis).length
    · exact .inr ⟨hge, rfl, rfl⟩
    · -- the ids have run out
      refine .inl ⟨Nat.lt_of_not_le hge, .inr fun r => hmem (decide_eq_true ?_)⟩
      by_contra hr
      have hr : S.nreplicas ≤ r.toNat := Nat.le_of_not_lt hr
      have hlt {a : Nat} (ha : a ∈ List.range S.nreplicas) : (UInt16.ofNat a).toNat = a :=
        UInt16.toNat_ofNat_of_lt' (Nat.lt_trans (List.mem_range.mp ha) (Nat.lt_of_le_of_lt hr r.toNat_lt))
      have hnodup : ((List.range S.nreplicas).map UInt16.ofNat).Nodup :=
        List.nodup_range.map_on fun a ha b hb heq => by rw [← hlt ha, heq, hlt hb]
      have hsub : (List.range S.nreplicas).map UInt16.ofNat ⊆ (Core.init S F.proposer).voted S.genesis := by
        intro x hx
        obtain ⟨a, ha, rfl⟩ := List.mem_map.mp hx
        exact hmem (decide_eq_true (by rw [hlt ha]; exact List.mem_range.mp ha))
      have hle := hnodup.length_le_of_subset hsub
      rw [List.length_map, List.length_range] at hle
      exact hge (Nat.le_trans (Nat.sub_le _ _) hle)

end Pipeline

end

-- ---------------------------------------------------------------------------
-- Every run
-- ---------------------------------------------------------------------------

/-- The pipeline is in order. -/
structure Pipeline.InOrder (S : Setup Hash Sig) (F : Fixed Hash) (m : Pipeline Hash Sig) : Prop where
  /-- The blocks carry the slices of the submissions, one after the other. -/
  slice : ∀ i (hi : i < m.proposed.length), m.core.cmds m.proposed[i] =
    (m.submitted.drop (i * F.blkSize)).take F.blkSize
  full : ∀ b ∈ m.proposed, (m.core.cmds b).length = F.blkSize
  /-- The others wait in their order: in the beats, the buffer and the queue. -/
  rest : m.proposed.flatMap m.core.cmds ++ m.beats.flatten ++ m.cmdPendingBuffer ++ m.cmdPending =
    m.submitted
  /-- A block has the one before it as its parent, and carries its certificate. -/
  parent : ∀ l a b l', S.genesis :: m.proposed = l ++ a :: b :: l' →
    (m.core.parents b).head? = some a ∧ m.core.qcRef b = some a ∧
      S.nmajority ≤ (m.core.voted a).length
  locked : m.pendingBeats ≠ [] → m.locked = true
  /-- The callbacks are called with what `do_decide` is given, once for each command. -/
  fired : m.clients.fired = finalities m.core.out
  decision : ∀ fin ∈ m.clients.fired, fin.decision = 1
  once : (m.clients.fired.map (·.cmdHash)).Nodup
  committed : ∀ c, c ∈ m.clients.fired.map (·.cmdHash) ↔
    ∃ b ∈ m.proposed, m.core.decision b = true ∧ c ∈ m.core.cmds b

section
variable {S : Setup Hash Sig} {F : Fixed Hash} {m : Pipeline Hash Sig}

/-- Where the pieces of a list have one length they are its slices. -/
theorem getElem_of_flatten {α : Type _} {ls : List (List α)} {r l : List α} {k i : Nat}
    (h : ls.flatten ++ r = l) (hk : ∀ x ∈ ls, x.length = k) (hi : i < ls.length) :
    ls[i] = (l.drop (i * k)).take k := by
  induction ls generalizing l i with
  | nil => cases hi
  | cons x ls ih =>
    have hx : x.length = k := hk x List.mem_cons_self
    rw [List.flatten_cons, List.append_assoc] at h
    cases i with
    | zero => rw [← h, Nat.zero_mul, List.drop_zero, List.take_left' hx, List.getElem_cons_zero]
    | succ i =>
      rw [List.getElem_cons_succ, ih rfl (fun y hy => hk y (List.mem_cons_of_mem _ hy))
        (Nat.lt_of_succ_lt_succ hi), ← h, Nat.succ_mul, Nat.add_comm, ← List.drop_drop,
        List.drop_left' hx]

theorem Pipeline.Ok.inOrder (h : m.Ok S F) : m.InOrder S F := by
  obtain ⟨hkept, -, -, blk, g, hph⟩ := h
  have hok := hkept.steady.fluent.ok.core
  have hmem {b : Hash} (hb : b ∈ m.proposed) : m.core.delivered b = true :=
    (g.delivered b).mpr ((g.path.mem_iff S.par_genesis).mp hb).1
  have hcmds {b : Hash} (hb : b ∈ m.proposed) : m.core.cmds b = S.cmdsOf b :=
    hok.store.cmds (hok.store.isBlkFetched_of_placed (hok.store.placed_of_delivered (hmem hb)))
  have hall := hkept.sliced.all
  rw [List.append_assoc] at hall
  have hfired : m.clients.fired.map (·.cmdHash) = decidedCmds m.core.out := by
    rw [hkept.answered.fired, map_finalities]
  refine {
    slice := fun i hi => ?_
    full := fun b hb => ?_
    rest := ?_
    parent := fun l a b l' heq => ?_
    locked := ?_
    fired := hkept.answered.fired
    decision := fun fin hfin => ?_
    once := ?_
    committed := fun c => ?_ }
  · have hi' : i < (m.proposed.map S.cmdsOf ++ m.beats).length := by
      simp only [List.length_append, List.length_map]
      omega
    have hslice := getElem_of_flatten hall hkept.sliced.size hi'
    rw [List.getElem_append_left (by simpa using hi), List.getElem_map] at hslice
    rw [hcmds (List.getElem_mem hi)]
    exact hslice
  · rw [hcmds hb]
    exact hkept.sliced.size _ (List.mem_append_left _ (List.mem_map_of_mem hb))
  · rw [List.flatMap_congr fun b hb => hcmds hb, List.flatMap_def, ← List.flatten_append]
    exact hkept.sliced.all
  · have hpar := g.path.par_of_append heq
    have hb : b ∈ m.proposed := by
      cases l with
      | nil =>
        injection heq with _ heq
        rw [heq]
        exact List.mem_cons_self
      | cons x l =>
        injection heq with _ heq
        rw [heq]
        simp
    have hne := S.ne_genesis_of_par hpar
    obtain ⟨p, hp, hhead, -⟩ := hok.store.link hne (.inr (hmem hb))
    obtain ⟨t, ht, hr, -⟩ := hok.store.ref hne (hmem hb)
    cases hpar.symm.trans hp
    cases ((g.target b hb).trans hpar).symm.trans ht
    have hext := (g.delivered b).mp (hmem hb)
    refine ⟨hhead, hr, g.certified a ((Ext.of_par hpar).trans hext) ?_⟩
    rintro rfl
    -- no block is its own parent
    rw [g.top b (hmem hb) (.of_par hpar)] at hpar
    have := g.path.height.unique S.par_genesis (.succ hpar g.path.height)
    omega
  · intro hbeats
    generalize m.watched.replica.stack = st at hph
    cases hph with
    | proposing hp hm hin hc hb hw ha hl => exact hl
    | between hpre hb hlast hann hv hs =>
      rcases hs with ⟨hf, -⟩ | ⟨hh, -⟩
      · exact absurd hf.pendingBeats hbeats
      · exact hh.locked
    | finishing hlast hann hv ht hs =>
      rcases hs with hf | hh
      · exact absurd hf.pendingBeats hbeats
      · exact hh.locked
  · rw [hkept.answered.fired] at hfin
    exact hok.decision_one (mem_finalities.mp hfin)
  · rw [hfired]
    have hn := hkept.nodup
    rw [← hkept.answered.waiting] at hn
    exact (List.nodup_append.mp (List.nodup_append.mp hn).1).1
  · rw [hfired, hok.decidedCmds_eq, List.mem_flatMap]
    have hdec {b : Hash} : b ∈ HotStuffTx.committed m.core.out ↔ b ∈ m.proposed ∧ m.core.decision b = true := by
      rw [hok.chain.mem_iff S.par_genesis, g.path.mem_iff S.par_genesis, hok.decision]
      exact ⟨fun hb => ⟨⟨hb.1.trans (g.bExec hok), hb.2⟩, hb.1⟩, fun hb => ⟨hb.2, hb.1.2⟩⟩
    constructor
    · rintro ⟨b, hb, hc⟩
      obtain ⟨hb, hd⟩ := hdec.mp hb
      exact ⟨b, hb, hd, (hcmds hb).symm ▸ hc⟩
    · rintro ⟨b, hb, hd, hc⟩
      exact ⟨b, hdec.mpr ⟨hb, hd⟩, hcmds hb ▸ hc⟩

end

/-- A leader whose commands are distinct cuts them into its blocks, one chain in which a
block waits for the certificate of the one before, and answers each command once, when its
block is committed. -/
theorem fixed_pipeline (S : Setup Hash Sig) (F : Fixed Hash) (hid : S.hasReplica F.proposer = true)
    (hblk : 1 ≤ F.blkSize) (es : List (Arrival Hash Sig))
    (h : Run.Allowed (Pipeline.step S F) (Pipeline.Admits S) (Pipeline.init S F.proposer) es) :
    (Run.exec (Pipeline.step S F) (Pipeline.init S F.proposer) es).InOrder S F :=
  (h.inv (Pipeline.ok_init hid hblk) fun _ _ h he => Pipeline.ok_step h he).inOrder

/-- Five blocks of two commands. -/
def slices4 : List (WireBlock Nat TableSig) :=
  [tableBlk 4 0 0 [11, 12] [], tableBlk 4 1 1 [13, 14] [0, 1, 2], tableBlk 4 2 2 [15, 16] [0, 1, 2],
    tableBlk 4 3 3 [17, 18] [0, 1, 2], tableBlk 4 4 4 [19, 20] [0, 1, 2]]

/-- The commands come first, and replicas 1 and 2 vote for the first four blocks. -/
def slices4Feed : List (Arrival Nat TableSig) :=
  (List.range' 11 11).map .submit ++ [.pending] ++ List.replicate 5 .resume ++
    List.replicate 5 .pending ++ [1, 2, 3, 4].flatMap fun h =>
      [.vote ⟨1, h, ⟨h, (1, h)⟩⟩, .vote ⟨2, h, ⟨h, (2, h)⟩⟩] ++ List.replicate 7 .resume

theorem fixed_pipeline_slices4 :
    let S := tableSetup 4 slices4
    let F : Fixed Nat := ⟨.threeStep, 0, 2, 0⟩
    let m := Run.exec (Pipeline.step S F) (Pipeline.init S 0) slices4Feed
    m.proposed = [1, 2, 3, 4, 5] ∧ m.cmdPendingBuffer = [21] ∧
      m.clients.fired.map (·.cmdHash) = [11, 12, 13, 14] ∧ m.InOrder S F := by
  intro S F
  exact ⟨by decide +kernel, by decide +kernel, by decide +kernel,
    fixed_pipeline S F (by decide +kernel) (by decide) slices4Feed (by decide +kernel)⟩

end HotStuffTx
