import HotStuffTx.Malformed

/-!
# Waiting for blocks to be fetched

`on_fetch_blk` resolves and erases the entry of `blk_fetch_waiting`, and only
`resp_blk_handler` calls it: a block that is stored by a proposal, by an own
proposal or by a response that is cut short leaves its waiters waiting. What is
registered stays unstored, but for what the handler still has to pass on, as
long as no block comes in another way and no exception leaves the handler then.
-/

set_option linter.unusedSectionVars false

namespace HotStuffTx

open Core

variable {Hash Sig Peer : Type} [DecidableEq Hash] [DecidableEq Peer]

-- ---------------------------------------------------------------------------
-- What is newly stored
-- ---------------------------------------------------------------------------

section
variable {S : Setup Hash Sig} {O : Options} {s s' s₁ s₂ : Core Hash Sig}

theorem Core.fetched_of_storage (h : s'.storage = s.storage) : s'.isBlkFetched = s.isBlkFetched := by
  funext x
  simp only [isBlkFetched, h]

theorem Core.fetched_setBlk (hb : s.storage h = some b) (b' : Block Hash Sig) :
    (s.setBlk h b').isBlkFetched = s.isBlkFetched := by
  funext x
  rw [isBlkFetched_setBlk]
  by_cases hx : x = h
  · simp [hx, isBlkFetched_of hb]
  · simp [hx]

theorem Core.ran_fetched_eq (h : CoreOk S s)
    (hu : Updated build s n s₂ ∨ Refused build s n e s₂) (hs : SameChain s₂ s') :
    s'.isBlkFetched = s.isBlkFetched := by
  rw [fetched_of_storage hs.storage]
  rcases hu with hu | hr
  · cases hu with
    | idle => rfl
    | advanced => exact fetched_of_storage storage_advance
    | committed hb ht hd hc hrun =>
      obtain ⟨l, s₁, -, hdec, rfl⟩ := h.commit_ok hb ht hd hc hrun
      exact hdec.same.2.2.2.2.2.trans (fetched_of_storage storage_advance)
  · exact fetched_of_storage (h.refused hr).2.2.2.1

theorem Core.StoreStep.fetched (h : StoreStep S s n s') (hx : s'.isBlkFetched x = true) :
    s.isBlkFetched x = true ∨ x = n := by
  have hset {b : Block Hash Sig} (hx : (s.setBlk n b).isBlkFetched x = true) :
      s.isBlkFetched x = true ∨ x = n := by
    rw [isBlkFetched_setBlk, Bool.or_eq_true, decide_eq_true_eq] at hx
    exact hx.symm
  cases h with
  | skip => exact .inl hx
  | write => exact hset hx
  | deliver => exact hset hx

theorem Core.Proposed.fetched {cmds parents : List Hash} {extra : List UInt8}
    (hp : Proposed S s cmds parents extra n s') (hx : s'.isBlkFetched x = true) :
    s.isBlkFetched x = true ∨ x = n := by
  cases hp with
  | intro =>
    have hx := (isBlkFetched_setBlk ..).symm.trans hx
    rw [Bool.or_eq_true, decide_eq_true_eq] at hx
    exact hx.symm

/-- A newly stored block was passed to a call that stores it. -/
theorem Replica.Effect.fetched {r : Replica Hash Sig} (h : CoreOk S r.core) (hs : Effect S O r e s')
    (hx : s'.isBlkFetched x = true) : r.core.isBlkFetched x = true ∨
      (∃ w, e = .call (.addBlk w)) ∨ e = .call (.deliver x) ∨
      ∃ cmds parents extra s₁, e = .call (.propose cmds parents extra) ∧
        Proposed S r.core cmds parents extra x s₁ := by
  cases hs with
  | quiet hq => exact .inl (fetched_of_storage hq.storage ▸ hx)
  | store hst hn hc =>
    rcases hst.fetched hx with hx | rfl
    · exact .inl hx
    · rcases hc with rfl | ⟨w, rfl⟩
      · exact .inr (.inr (.inl rfl))
      · exact .inr (.inl ⟨w, rfl⟩)
  | update hm hu hq =>
    rw [ran_fetched_eq (hm.spec h).1 hu hq] at hx
    rcases hm with ⟨rfl, -⟩ | ⟨cmds, parents, extra, rfl, hp⟩
    · exact .inl hx
    · rcases hp.fetched hx with hx | rfl
      · exact .inl hx
      · exact .inr (.inr (.inr ⟨cmds, parents, extra, _, rfl, hp⟩))
  | count hq _ hc =>
    refine .inl (fetched_of_storage hq.storage ▸ ?_)
    cases hc with
    | part hb => exact fetched_setBlk hb _ ▸ hx
    | full hb =>
      rw [fetched_of_storage storage_updateHqc, fetched_setBlk hb] at hx
      exact hx
  | miscount hq _ hc =>
    refine .inl (fetched_of_storage hq.storage ▸ ?_)
    cases hc with
    | intro hb => exact fetched_setBlk hb _ ▸ hx

theorem Watched.fetched_addBlk {w : Watched Hash Sig} {b : WireBlock Hash Sig}
    (hx : (w.step S O (.call (.addBlk b))).replica.core.isBlkFetched x = true) :
    w.replica.core.isBlkFetched x = true ∨ ∃ c, Block.unserialize b = some c ∧ x = S.hash c.wire := by
  cases hc : Block.unserialize b with
  | none =>
    have hrun : (Call.addBlk b : Call Hash Sig).run S O w.replica.core = .ok [] w.replica.core := by
      simp [Call.run, hc, pure, EStateM.pure]
    simp only [Watched.step, Replica.step, Replica.runOn, hrun] at hx
    exact .inl hx
  | some c =>
    have hspec := addBlk_spec (S := S) (b := c) (s := w.replica.core)
    cases hadd : Core.addBlk S c w.replica.core with
    | error e t => exact (hspec.error hadd).elim
    | ok n t =>
      have hrun : (Call.addBlk b : Call Hash Sig).run S O w.replica.core = .ok [] t := by
        simp [Call.run, hc, bind, EStateM.bind, hadd, pure, EStateM.pure]
      simp only [Watched.step, Replica.step, Replica.runOn, hrun] at hx
      obtain ⟨rfl, ⟨-, rfl⟩ | ⟨-, rfl⟩⟩ := hspec.ok hadd
      · exact .inl hx
      · rw [isBlkFetched_setBlk, Bool.or_eq_true, decide_eq_true_eq] at hx
        exact hx.symm.imp_right fun hx => ⟨c, rfl, hx⟩

end

namespace Base

section
variable {S : Setup Hash Sig} {O : Options} {N : Peering Peer}
  {s s' : Base Hash Sig Peer} {e : BaseEvent Hash Sig Peer}

/-- A newly stored block came with a message, or is an own proposal. -/
theorem Ok.newly_fetched (h : s.Ok S) (he : s.Admits S e)
    (hx : (s.step S O N e).core.isBlkFetched x = true) : s.core.isBlkFetched x = true ∨
      (∃ w ∈ e.brings, ∃ b, Block.unserialize w = some b ∧ x = S.hash b.wire) ∨
      ∃ ev, e = .core ev ∧ x ∈ s.builds S ev := by
  obtain ⟨evs, hevs, hexec⟩ := h.step_calls (O := O) (N := N) he
  rw [Base.core, hexec] at hx
  refine hevs.rel (I := fun w => w.Ok S) (R := fun w w' : Watched Hash Sig =>
      w'.replica.core.isBlkFetched x = true → w.replica.core.isBlkFetched x = true ∨
        (∃ w ∈ e.brings, ∃ b, Block.unserialize w = some b ∧ x = S.hash b.wire) ∨
        ∃ ev, e = .core ev ∧ x ∈ s.builds S ev)
    h.ok (fun w ev hw hev => (hw.step hev.disciplined).1) (fun _ => .inl)
    (fun a b c hab hbc hc => (hbc hc).elim hab .inr) (fun w ev hw hev hx => ?_) hx
  have heff := (Replica.stepped (O := O) hw.core (hw.sound hev.disciplined)).effect hw.core
  rcases heff.fetched hw.core hx with hx | ⟨b, rfl⟩ | rfl | ⟨cmds, parents, extra, s₁, rfl, hp⟩
  · exact .inl hx
  · rcases Watched.fetched_addBlk hx with hx | ⟨c, hc, hx⟩
    · exact .inl hx
    · exact .inr (.inl ⟨b, hev.addBlk b rfl, c, hc, hx⟩)
  · obtain ⟨⟨i, c, -, hc, hdone, hfound, hact⟩, rfl⟩ := hev.deliver x rfl
    exact .inl (Deliverable.of_cont (h.conts c (List.mem_of_getElem? hc)) hdone hfound hact).fetched
  · obtain ⟨rfl, rfl⟩ := hev.propose _ _ _ rfl
    obtain rfl : parents = _ := hev.disciplined.1
    exact .inr (.inr ⟨_, rfl, List.mem_singleton.mpr hp.bnew_eq⟩)

theorem Ok.fetched_mono (h : s.Ok S) (he : s.Admits S e) (hx : s.core.isBlkFetched x = true) :
    (s.step S O N e).core.isBlkFetched x = true := by
  obtain ⟨evs, hevs, hexec⟩ := h.step_calls (O := O) (N := N) he
  rw [Base.core, hexec]
  refine (hevs.inv (I := fun w => w.Ok S ∧ w.replica.core.isBlkFetched x = true) ⟨h.ok, hx⟩ ?_).2
  rintro w ev ⟨hw, hx⟩ hev
  have hs := Replica.stepped (O := O) hw.core (hw.sound hev.disciplined)
  exact ⟨(hw.step hev.disciplined).1, (hs.coreOk hw.core).2.grow.fetched hx⟩

-- ---------------------------------------------------------------------------
-- The waiters
-- ---------------------------------------------------------------------------

/-- What is registered is not stored yet, but for what the handler has still to
pass to `on_fetch_blk` or to erase; and who waits for a fetch is registered. -/
structure Awake (s : Base Hash Sig Peer) : Prop where
  waiting : ∀ x ∈ s.fetchWaiting, s.core.isBlkFetched x = true →
    .onFetchBlk x ∈ s.todo ∨ .eraseFetch x ∈ s.todo
  registered : ∀ c ∈ s.conts, ∀ x, .fetch x ∈ c.needs → x ∈ s.fetchWaiting
  pending : ∀ c ∈ s.conts, ∀ x, .fetch x ∈ c.needs → s.core.isBlkFetched x = true →
    .onFetchBlk x ∈ s.todo
  resolved : ∀ x, .eraseFetch x ∈ s.todo → s.core.isBlkFetched x = true ∧
    ∀ c ∈ s.conts, .fetch x ∉ c.needs

/-- Nothing registered is stored. -/
def NoneStored (s : Base Hash Sig Peer) : Prop :=
  ∀ x ∈ s.fetchWaiting, s.core.isBlkFetched x = false

namespace Awake

variable (h : s.Awake)
include h

theorem noneStored (htodo : s.todo = []) : s.NoneStored := by
  intro x hx
  rw [Bool.eq_false_iff]
  intro hf
  have := h.waiting x hx hf
  simp [htodo] at this

omit h in
theorem of_noneStored (hnone : s.NoneStored)
    (hreg : ∀ c ∈ s.conts, ∀ x, .fetch x ∈ c.needs → x ∈ s.fetchWaiting)
    (htodo : ∀ x, .eraseFetch x ∉ s.todo) : s.Awake where
  waiting x hx hf := absurd hf (by simp [hnone x hx])
  registered := hreg
  pending c hc x hx hf := absurd hf (by simp [hnone x (hreg c hc x hx)])
  resolved x hx := absurd hx (htodo x)

theorem asked (ha : Asked S s s') : s'.Awake where
  waiting x hx hf := by
    rw [ha.core] at hf
    rw [ha.todo]
    exact h.waiting x ((ha.fetching x hx).resolve_right (by simp [hf])) hf
  registered c hc x hx := by
    rcases ha.conts c hc with hc | ⟨-, hr⟩
    · exact ha.keeps x (h.registered c hc x hx)
    · exact (hr x hx).1
  pending c hc x hx hf := by
    rcases ha.conts c hc with hc | ⟨-, hr⟩
    · rw [ha.core] at hf
      rw [ha.todo]
      exact h.pending c hc x hx hf
    · exact absurd hf (by simp [(hr x hx).2])
  resolved x hx := by
    rw [ha.todo] at hx
    obtain ⟨hf, hno⟩ := h.resolved x hx
    rw [ha.core]
    refine ⟨hf, fun c hc hxc => ?_⟩
    rcases ha.conts c hc with hc | ⟨-, hr⟩
    · exact hno c hc hxc
    · rw [← ha.core, (hr x hxc).2] at hf
      cases hf

theorem escape (hnone : s.NoneStored) (x : Escape) : (s.escape x).Awake :=
  of_noneStored hnone h.registered nofun

theorem askedUpTo (ha : AskedUpTo S s s') (hcalm : s.NoneStored ∨ s'.escaped = s.escaped) :
    s'.Awake := by
  obtain ⟨t, ha, rfl | ⟨x, rfl⟩⟩ := ha
  · exact h.asked ha
  · refine (h.asked ha).escape (fun y hy => ?_) x
    rw [ha.core]
    rcases hcalm with hnone | heq
    · exact (ha.fetching y hy).elim (hnone y) id
    · rw [← ha.escaped] at heq
      exact absurd heq escaped_escape

/-- A call that stores nothing registered. -/
theorem enter {ev : Event Hash Sig}
    (hmono : ∀ x, s.core.isBlkFetched x = true → (s.enter S O ev).core.isBlkFetched x = true)
    (hnew : ∀ x ∈ s.fetchWaiting, (s.enter S O ev).core.isBlkFetched x = true →
      s.core.isBlkFetched x = true)
    (hcalm : s.NoneStored ∨ (s.enter S O ev).escaped = s.escaped) : (s.enter S O ev).Awake := by
  have hcore : (s.enter S O ev).core = (s.watched.step S O ev).replica.core := by
    rw [Base.core, watched_enter]
  rw [hcore] at hmono hnew
  have hw : Base.Awake { s with watched := s.watched.step S O ev } :=
    ⟨fun x hx hf => h.waiting x hx (hnew x hx hf), h.registered,
      fun c hc x hx hf => h.pending c hc x hx (hnew x (h.registered c hc x hx) hf),
      fun x hx => ⟨hmono x (h.resolved x hx).1, (h.resolved x hx).2⟩⟩
  rcases enter_cases (s := s) (S := S) (O := O) (e := ev) with ⟨heq, -⟩ | ⟨x, xs, -, heq⟩
  · rw [heq]
    exact hw
  · rw [heq] at hcalm ⊢
    refine hw.escape (fun y hy => ?_) _
    have hnone := hcalm.resolve_right escaped_escape y hy
    rw [Bool.eq_false_iff]
    intro hf
    rw [hnew y hy hf] at hnone
    cases hnone

/-- What is left to do besides the fetches does not matter. -/
theorem setTodo {todo : List (Todo Hash)} (hf : ∀ x, .onFetchBlk x ∈ s.todo → .onFetchBlk x ∈ todo)
    (he : ∀ x, .eraseFetch x ∈ todo ↔ .eraseFetch x ∈ s.todo) :
    Base.Awake { s with todo := todo } where
  waiting x hx hx' := (h.waiting x hx hx').imp (hf x) (he x).mpr
  registered := h.registered
  pending c hc x hx hx' := hf x (h.pending c hc x hx hx')
  resolved x hx := h.resolved x ((he x).mp hx)

/-- Continuations that wait for no more fetches than before. -/
theorem setConts {conts : List (Cont Hash Sig Peer)} (hc : ∀ c ∈ conts, ∀ x, .fetch x ∈ c.needs →
    ∃ c' ∈ s.conts, .fetch x ∈ c'.needs) : Base.Awake { s with conts := conts } where
  waiting := h.waiting
  registered c hc' x hx := by
    obtain ⟨c', hc', hx⟩ := hc c hc' x hx
    exact h.registered c' hc' x hx
  pending c hc' x hx hf := by
    obtain ⟨c', hc', hx⟩ := hc c hc' x hx
    exact h.pending c' hc' x hx hf
  resolved x hx := by
    refine ⟨(h.resolved x hx).1, fun c hc' hxc => ?_⟩
    obtain ⟨c', hc', hx'⟩ := hc c hc' x hxc
    exact (h.resolved x hx).2 c' hc' hx'

theorem resolve (n : Need Hash) : (s.resolve n).Awake := by
  refine h.setConts fun c hc x hx => ?_
  obtain ⟨c', hc', rfl⟩ := List.mem_map.mp hc
  exact ⟨c', hc', List.mem_of_mem_filter hx⟩

theorem reject (n : Need Hash) : (s.reject n).Awake :=
  h.setConts fun c hc x hx => ⟨c, List.mem_of_mem_filter hc, hx⟩

theorem verified (i : Nat) : (s.verified i).Awake := by
  refine h.setConts fun c hc x hx => ?_
  obtain ⟨j, hj⟩ := List.mem_iff_getElem?.mp hc
  rw [List.getElem?_modify] at hj
  obtain ⟨c', hc', rfl⟩ := Option.map_eq_some_iff.mp hj
  refine ⟨c', List.mem_of_getElem? hc', ?_⟩
  split at hx
  · exact List.mem_of_mem_filter hx
  · exact hx

theorem onDeliverBlk
    (hmono : ∀ x, s.core.isBlkFetched x = true → (s.onDeliverBlk S O blk).core.isBlkFetched x = true)
    (hnew : ∀ x ∈ s.fetchWaiting, (s.onDeliverBlk S O blk).core.isBlkFetched x = true →
      s.core.isBlkFetched x = true)
    (hcalm : s.NoneStored ∨ (s.onDeliverBlk S O blk).escaped = s.escaped) :
    (s.onDeliverBlk S O blk).Awake := by
  have hcore : (s.onDeliverBlk S O blk).core = (s.enter S O (.call (.deliver blk))).core := by
    rw [Base.core, Base.core, watched_onDeliverBlk, watched_enter]
  rw [hcore] at hmono hnew
  unfold Base.onDeliverBlk at hcalm ⊢
  cases hrun : Core.onDeliverBlk blk s.core with
  | error e t =>
    simp only [hrun] at hcalm
    exact h.enter hmono hnew hcalm
  | ok valid t =>
    simp only [hrun] at hcalm
    dsimp only
    split
    case isFalse hno =>
      rw [if_neg hno] at hcalm
      exact h.enter hmono hnew hcalm
    case isTrue hyes =>
      rw [if_pos hyes] at hcalm
      have h' : (s.enter S O (.call (.deliver blk))).Awake :=
        h.enter hmono hnew (hcalm.imp_right fun heq => by cases valid <;> exact heq)
      cases valid with
      | false => exact (h'.reject _).setTodo (fun _ => List.mem_cons_of_mem _) fun _ => by simp [Base.reject]
      | true => exact (h'.resolve _).setTodo (fun _ => List.mem_cons_of_mem _) fun _ => by simp [Base.resolve]

theorem next (hok : s.Ok S) : s.next.Awake := by
  unfold Base.next
  split
  case h_1 => exact h
  case h_2 blk todo ht =>
    have hmem {x} : .onFetchBlk x ∈ s.todo ↔ x = blk ∨ .onFetchBlk x ∈ todo := by
      rw [ht, List.mem_cons, Todo.onFetchBlk.injEq]
    have hmem' {x} : .eraseFetch x ∈ s.todo ↔ .eraseFetch x ∈ todo := by
      rw [ht, List.mem_cons]
      exact ⟨fun h => h.resolve_left nofun, .inr⟩
    split
    case isTrue hreg =>
      have hneeds {c} (hc : c ∈ (s.resolve (.fetch blk)).conts) {x} (hx : .fetch x ∈ c.needs) :
          x ≠ blk ∧ ∃ c' ∈ s.conts, .fetch x ∈ c'.needs := by
        obtain ⟨c', hc', rfl⟩ := List.mem_map.mp hc
        obtain ⟨hx, hne⟩ := List.mem_filter.mp hx
        exact ⟨by simpa using hne, c', hc', hx⟩
      refine ⟨fun x hx hf => ?_, fun c hc x hx => ?_, fun c hc x hx hf => ?_, fun x hx => ?_⟩
      · rcases h.waiting x hx hf with hx | hx
        · rcases hmem.mp hx with rfl | hx
          · exact .inr List.mem_cons_self
          · exact .inl (List.mem_cons_of_mem _ hx)
        · exact .inr (List.mem_cons_of_mem _ (hmem'.mp hx))
      · obtain ⟨-, c', hc', hx⟩ := hneeds hc hx
        exact h.registered c' hc' x hx
      · obtain ⟨hne, c', hc', hx⟩ := hneeds hc hx
        exact List.mem_cons_of_mem _ ((hmem.mp (h.pending c' hc' x hx hf)).resolve_left hne)
      · by_cases hne : x = blk
        · subst hne
          exact ⟨hok.todo x (hmem.mpr (.inl rfl)), fun c hc hxc => (hneeds hc hxc).1 rfl⟩
        · have hx : .eraseFetch x ∈ todo :=
            (List.mem_cons.mp hx).resolve_left fun heq => hne (Todo.eraseFetch.inj heq)
          obtain ⟨hf, hno⟩ := h.resolved x (hmem'.mpr hx)
          refine ⟨hf, fun c hc hxc => ?_⟩
          obtain ⟨-, c', hc', hxc⟩ := hneeds hc hxc
          exact hno c' hc' hxc
    case isFalse hreg =>
      have hne {x} (hx : x ∈ s.fetchWaiting) : x ≠ blk := fun heq => hreg (heq ▸ hx)
      refine ⟨fun x hx hf => ?_, h.registered, fun c hc x hx hf => ?_, fun x hx => ?_⟩
      · exact (h.waiting x hx hf).imp (fun hm => (hmem.mp hm).resolve_left (hne hx)) hmem'.mp
      · exact (hmem.mp (h.pending c hc x hx hf)).resolve_left (hne (h.registered c hc x hx))
      · exact h.resolved x (hmem'.mpr hx)
  case h_3 blk todo ht =>
    have hmem {x} : .onFetchBlk x ∈ s.todo ↔ .onFetchBlk x ∈ todo := by
      rw [ht, List.mem_cons]
      exact ⟨fun h => h.resolve_left nofun, .inr⟩
    have hmem' {x} : .eraseFetch x ∈ s.todo ↔ x = blk ∨ .eraseFetch x ∈ todo := by
      rw [ht, List.mem_cons, Todo.eraseFetch.injEq]
    have hno := (h.resolved blk (hmem'.mpr (.inl rfl))).2
    refine ⟨fun x hx hf => ?_, fun c hc x hx => ?_, fun c hc x hx hf => ?_, fun x hx => ?_⟩
    · obtain ⟨hx, hne⟩ := List.mem_filter.mp hx
      refine (h.waiting x hx hf).imp hmem.mp fun hm => (hmem'.mp hm).resolve_left ?_
      simpa using hne
    · refine List.mem_filter.mpr ⟨h.registered c hc x hx, decide_eq_true fun heq => ?_⟩
      exact hno c hc (heq ▸ hx)
    · exact hmem.mp (h.pending c hc x hx hf)
    · exact h.resolved x (hmem'.mpr (.inr hx))
  case h_4 blk todo ht =>
    have hmem {t : Todo Hash} (hne : t ≠ .eraseDelivery blk) : t ∈ s.todo ↔ t ∈ todo := by
      rw [ht, List.mem_cons]
      exact ⟨fun h => h.resolve_left hne, .inr⟩
    have h' : Base.Awake { s with todo := todo } :=
      h.setTodo (fun x hx => (hmem (by simp)).mp hx) fun x => (hmem (by simp)).symm
    exact ⟨h'.waiting, h'.registered, h'.pending, h'.resolved⟩

theorem perform {c : Cont Hash Sig Peer} (hok : s.Ok S) (hc : c.Sound S s.core)
    (hdone : c.needs = [])
    (hmono : ∀ x, s.core.isBlkFetched x = true → (s.perform S O c).core.isBlkFetched x = true)
    (hnew : ∀ x ∈ s.fetchWaiting, (s.perform S O c).core.isBlkFetched x = true →
      s.core.isBlkFetched x = true)
    (hcalm : s.NoneStored ∨ (s.perform S O c).escaped = s.escaped) : (s.perform S O c).Awake := by
  unfold Base.perform at hmono hnew hcalm ⊢
  cases hact : c.act with
  | start blk =>
    simp only [hact] at hcalm
    have hf : Need.Holds s.core (.fetch blk) := hc.holds hdone (hact ▸ .start)
    exact h.askedUpTo (hok.startDelivery hf (hc.ne_genesis blk (.inl hact))) hcalm
  | deliver blk =>
    simp only [hact] at hmono hnew hcalm
    dsimp only
    split
    · simp only [*, if_true] at hmono hnew hcalm
      exact h.onDeliverBlk hmono hnew hcalm
    · exact h
  | propose prop =>
    simp only [hact] at hmono hnew hcalm
    exact h.enter hmono hnew hcalm
  | vote v =>
    simp only [hact] at hmono hnew hcalm
    dsimp only
    split
    · simp only [*, if_true] at hmono hnew hcalm
      exact h.enter hmono hnew hcalm
    · exact h
  | respond replica blkHashes => exact ⟨h.waiting, h.registered, h.pending, h.resolved⟩

theorem run (hok : s.Ok S) (hst : s.stack = []) (i : Nat)
    (hmono : ∀ x, s.core.isBlkFetched x = true → (s.run S O i).core.isBlkFetched x = true)
    (hnew : ∀ x ∈ s.fetchWaiting, (s.run S O i).core.isBlkFetched x = true →
      s.core.isBlkFetched x = true)
    (hcalm : s.NoneStored ∨ (s.run S O i).escaped = s.escaped) : (s.run S O i).Awake := by
  unfold Base.run at hmono hnew hcalm ⊢
  cases hc : s.conts[i]? with
  | none => exact h
  | some c =>
    simp only [hc] at hmono hnew hcalm
    dsimp only
    split
    · rename_i hdone
      simp only [hdone, if_true] at hmono hnew hcalm
      have h' : Base.Awake { s with conts := s.conts.eraseIdx i } :=
        h.setConts fun c hc x hx => ⟨c, List.mem_of_mem_eraseIdx hc, hx⟩
      have hok' : Ok S { s with conts := s.conts.eraseIdx i } :=
        ⟨hok.ok, fun c hc => hok.conts c (List.mem_of_mem_eraseIdx hc), hok.todo, hok.verified, hok.parents⟩
      exact h'.perform hok' (hok.conts c (List.mem_of_getElem? hc)) hdone hmono hnew hcalm
    · exact h

theorem addBlk {w : WireBlock Hash Sig} (hw : Block.unserialize w = some b)
    (hno : S.hash b.wire ∉ s.fetchWaiting) : (s.enter S O (.call (.addBlk w))).Awake := by
  obtain ⟨t, heq, ht⟩ := enter_addBlk (s := s) (O := O) hw
  refine h.enter (fun x hx => ?_) (fun x hx hf => ?_) (.inr (by rw [heq]))
  · rw [heq]
    show t.isBlkFetched x = true
    rcases ht with ⟨-, rfl⟩ | ⟨-, rfl⟩
    · exact hx
    · rw [isBlkFetched_setBlk, hx, Bool.or_true]
  · rw [Base.core, watched_enter] at hf
    rcases Watched.fetched_addBlk hf with hf | ⟨c, hc, rfl⟩
    · exact hf
    · cases hw.symm.trans hc
      exact absurd hx hno

/-- A response cut short, with no one waiting for what it has stored. -/
theorem parseBlks (htodo : s.todo = []) (blks : List Hash) {ws : List (WireBlock Hash Sig)}
    (hno : ∀ w ∈ ws.takeWhile fun w => (Block.unserialize w).isSome,
      ∀ b, Block.unserialize w = some b → S.hash b.wire ∉ s.fetchWaiting) :
    (s.parseBlks S O blks ws).Awake := by
  induction ws generalizing s blks with
  | nil => exact .of_noneStored (h.noneStored htodo) h.registered (by simp [Base.parseBlks])
  | cons w ws ih =>
    rw [Base.parseBlks]
    cases hw : Block.unserialize w with
    | none => exact h.escape (h.noneStored htodo) _
    | some b =>
      rw [List.takeWhile_cons_of_pos (by simp [hw])] at hno
      obtain ⟨hb, hno⟩ := List.forall_mem_cons.mp hno
      have h' := h.addBlk (O := O) hw (hb b hw)
      obtain ⟨t, heq, -⟩ := enter_addBlk (s := s) (O := O) hw
      dsimp only
      rw [heq] at h' ⊢
      exact ih h' htodo (blks ++ [S.hash b.wire]) hno

omit h in
/-- A whole response: what it has stored is passed to `on_fetch_blk`. -/
theorem parseBlks_all (hreg : ∀ c ∈ s.conts, ∀ x, .fetch x ∈ c.needs → x ∈ s.fetchWaiting)
    (blks : List Hash) (hblks : ∀ x ∈ s.fetchWaiting, s.core.isBlkFetched x = true → x ∈ blks)
    {ws : List (WireBlock Hash Sig)} (hws : ∀ w ∈ ws, (Block.unserialize w).isSome = true) :
    (s.parseBlks S O blks ws).Awake := by
  induction ws generalizing s blks with
  | nil =>
    have hmem {x} (hx : x ∈ s.fetchWaiting) (hf : s.core.isBlkFetched x = true) :
        .onFetchBlk x ∈ blks.map Todo.onFetchBlk := List.mem_map_of_mem (hblks x hx hf)
    exact ⟨fun x hx hf => .inl (hmem hx hf), hreg, fun c hc x hx hf => hmem (hreg c hc x hx) hf,
      fun x hx => absurd hx (by simp [Base.parseBlks])⟩
  | cons w ws ih =>
    obtain ⟨hw, hws⟩ := List.forall_mem_cons.mp hws
    obtain ⟨b, hw⟩ := Option.isSome_iff_exists.mp hw
    obtain ⟨t, heq, ht⟩ := enter_addBlk (s := s) (O := O) (S := S) hw
    rw [Base.parseBlks]
    simp only [hw, heq]
    refine ih (s := { s with watched.replica.core := t }) hreg _ (fun x hx hf => ?_) hws
    have hf : t.isBlkFetched x = true := hf
    rcases ht with ⟨-, rfl⟩ | ⟨-, rfl⟩
    · exact List.mem_append_left _ (hblks x hx hf)
    · rw [isBlkFetched_setBlk, Bool.or_eq_true, decide_eq_true_eq] at hf
      rcases hf with rfl | hf
      · exact List.mem_append_right _ (List.mem_singleton_self _)
      · exact List.mem_append_left _ (hblks x hx hf)

end Awake

/-- Whatever the step stores that is registered is passed to `on_fetch_blk`, and
no exception leaves a handler that has still to do so. -/
def Wakes (S : Setup Hash Sig) (O : Options) (N : Peering Peer) (s : Base Hash Sig Peer)
    (e : BaseEvent Hash Sig Peer) : Prop :=
  match e with
  | .propose (some _) _ w => ∀ b, Block.unserialize w = some b → S.hash b.wire ∉ s.fetchWaiting
  | .respBlk blks => (∀ w ∈ blks, (Block.unserialize w).isSome = true) ∨
      ∀ w ∈ blks.takeWhile fun w => (Block.unserialize w).isSome,
        ∀ b, Block.unserialize w = some b → S.hash b.wire ∉ s.fetchWaiting
  | .core ev => (∀ x ∈ s.builds S ev, x ∉ s.fetchWaiting) ∧ (s.NoneStored ∨ s.Survives S O N e)
  | .run _ => s.NoneStored ∨ s.Survives S O N e
  | _ => True

instance (s : Base Hash Sig Peer) : Decidable s.NoneStored := by
  unfold NoneStored
  infer_instance

instance (S : Setup Hash Sig) (O : Options) (N : Peering Peer) (s : Base Hash Sig Peer)
    (e : BaseEvent Hash Sig Peer) : Decidable (s.Wakes S O N e) :=
  match e with
  | .propose (some _) _ w => inferInstanceAs (Decidable (∀ b, Block.unserialize w = some b →
      S.hash b.wire ∉ s.fetchWaiting))
  | .respBlk blks => inferInstanceAs (Decidable ((∀ w ∈ blks, (Block.unserialize w).isSome = true) ∨
      ∀ w ∈ blks.takeWhile fun w => (Block.unserialize w).isSome,
        ∀ b, Block.unserialize w = some b → S.hash b.wire ∉ s.fetchWaiting))
  | .core ev => inferInstanceAs (Decidable ((∀ x ∈ s.builds S ev, x ∉ s.fetchWaiting) ∧
      (s.NoneStored ∨ s.Survives S O N (.core ev))))
  | .run i => inferInstanceAs (Decidable (s.NoneStored ∨ s.Survives S O N (.run i)))
  | .propose none _ _ | .vote .. | .reqBlk .. | .next | .verified _ => instDecidableTrue

theorem Awake.step (h : s.Awake) (hok : s.Ok S) (hf : s.watched.Fluent S) (he : s.Admits S e)
    (hw : s.Wakes S O N e) : (s.step S O N e).Awake := by
  have hmono (x) (hx : s.core.isBlkFetched x = true) := hok.fetched_mono (O := O) (N := N) he hx
  have hcalm (hw : s.NoneStored ∨ s.Survives S O N e) :
      s.NoneStored ∨ (s.step S O N e).escaped = s.escaped :=
    hw.imp_right (hok.step_escaped he hf).mpr
  cases e with
  | propose peer proposer w =>
    cases peer with
    | none => exact h
    | some peer =>
      rcases hok.proposeHandler (O := O) (N := N) he.1 (some peer) proposer w with ha | ha
      · exact h.askedUpTo ha (.inl (h.noneStored he.2))
      · cases hb : Block.unserialize w with
        | none =>
          have : s.step S O N (.propose (some peer) proposer w) = s.escape .stream := by
            simp only [Base.step, Base.proposeHandler, hb]
          rw [this]
          exact h.escape (h.noneStored he.2) _
        | some b =>
          have h' := h.addBlk (O := O) hb (hw b hb)
          refine h'.askedUpTo ha (.inl (h'.noneStored ?_))
          obtain ⟨t, heq, -⟩ := enter_addBlk (s := s) (O := O) (S := S) hb
          rw [heq]
          exact he.2
  | vote peer v => exact h.askedUpTo hok.voteHandler (.inl (h.noneStored he.2))
  | reqBlk peer blkHashes => exact h.askedUpTo (Ok.reqBlkHandler (S := S)) (.inl (h.noneStored he.2))
  | respBlk blks =>
    rcases hw with hall | hno
    · refine Awake.parseBlks_all h.registered [] (fun x hx hfx => ?_) hall
      have := h.noneStored he.2 x hx
      rw [hfx] at this
      cases this
    · exact h.parseBlks he.2 [] hno
  | next => exact h.next hok
  | verified i => exact h.verified i
  | run i =>
    refine h.run hok he i hmono (fun x _ hfx => ?_) (hcalm hw)
    rcases hok.newly_fetched (O := O) (N := N) (e := .run i) he hfx with hx | ⟨w, hw, -⟩ | ⟨ev, heq, -⟩
    · exact hx
    · cases hw
    · cases heq
  | core ev =>
    have h' : (s.enter S O ev).Awake := by
      refine h.enter hmono (fun x hx hfx => ?_) (hcalm hw.2)
      rcases hok.newly_fetched (O := O) (N := N) (e := .core ev) he hfx with hx' | ⟨w, hw, -⟩ | ⟨ev', heq, hb⟩
      · exact hx'
      · cases hw
      · cases heq
        exact absurd hx (hw.1 x hb)
    exact ⟨h'.waiting, h'.registered, h'.pending, h'.resolved⟩

end

end Base

/-- Where each step wakes who waits for what it stores, no block is stored and
registered in `blk_fetch_waiting` once the handlers are through, and nothing
waits for the fetch of a stored block. -/
theorem no_lost_wakeup (S : Setup Hash Sig) (O : Options) (N : Peering Peer) (rid : ReplicaID)
    (hid : S.hasReplica rid = true) (es : List (BaseEvent Hash Sig Peer))
    (h : Run.Allowed (Base.step S O N) (fun s e => s.Admits S e ∧ s.Wakes S O N e)
      (Base.init S rid) es) :
    let s := Run.exec (Base.step S O N) (Base.init S rid) es
    s.todo = [] → (∀ x ∈ s.fetchWaiting, s.core.isBlkFetched x = false) ∧
      ∀ c ∈ s.conts, ∀ x, .fetch x ∈ c.needs → s.core.isBlkFetched x = false := by
  intro s htodo
  obtain ⟨-, -, hs⟩ : s.Ok S ∧ s.watched.Fluent S ∧ s.Awake := by
    refine h.inv (I := fun s => s.Ok S ∧ s.watched.Fluent S ∧ s.Awake)
      ⟨Base.ok_init, Watched.fluent_init hid, nofun, nofun, nofun, nofun⟩ ?_
    rintro s e ⟨hok, hf, hs⟩ ⟨he, hw⟩
    exact ⟨hok.step he, hok.step_fluent he hf, hs.step hok hf he hw⟩
  have hnone := hs.noneStored htodo
  exact ⟨hnone, fun c hc x hx => hnone x (hs.registered c hc x hx)⟩

/-- Peer 2 asks for a block nobody knows and votes for block 1. -/
def askTwo : List (BaseEvent Nat TableSig Nat) :=
  [.reqBlk (some 2) [7], .vote (some 2) { voter := 2, blkHash := 1, cert := ⟨1, (2, 1)⟩ }]

theorem no_lost_wakeup_chain4 :
    let S := tableSetup 4 chain4
    let s := Run.exec (Base.step S ⟨.threeStep, id⟩ tablePeers) (Base.init S 0)
      (askTwo ++ [.respBlk [tableBlk 4 0 0 [11] []], .next, .next])
    s.todo = [] ∧ s.core.isBlkFetched 1 = true ∧ 7 ∈ s.fetchWaiting ∧
      s.core.isBlkFetched 7 = false := by
  refine ⟨by decide +kernel, by decide +kernel, by decide +kernel, ?_⟩
  have hnone := no_lost_wakeup (tableSetup 4 chain4) ⟨.threeStep, id⟩ tablePeers 0 (by decide +kernel)
    (askTwo ++ [.respBlk [tableBlk 4 0 0 [11] []], .next, .next]) (by decide +kernel)
  exact (hnone (by decide +kernel)).1 7 (by decide +kernel)

/-- Block 1, voted for by peer 2, comes in a proposal: it is stored and still
registered, its delivery waits for its fetch, and nothing can run. -/
theorem no_lost_wakeup_vote :
    let S := tableSetup 4 chain4
    let step := Base.step S ⟨.threeStep, id⟩ tablePeers
    let es := askTwo ++ [.propose (some 3) 3 (tableBlk 4 0 0 [11] [])]
    let s := Run.exec step (Base.init S 0) es
    Run.Allowed step (Base.Admits S) (Base.init S 0) es ∧ s.Idle ∧
      s.core.isBlkFetched 1 = true ∧ 1 ∈ s.fetchWaiting ∧
      ⟨[.fetch 1], true, .start 1⟩ ∈ s.conts ∧ ∀ c ∈ s.conts, ∃ n ∈ c.needs, n ≠ .verify := by
  decide +kernel

end HotStuffTx
