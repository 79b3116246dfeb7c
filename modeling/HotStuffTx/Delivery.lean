import HotStuffTx.Formation
import HotStuffTx.Frozen
import HotStuffTx.Network

/-!
# Ordered delivery

The promise graph of `async_deliver_blk`, whatever order its fetches,
verifications and deliveries finish in. What a continuation wants is, for each
of it, either still among the promises it waits for or so already, and it
stays so: blocks are not taken out of the storage and stay delivered.
-/

set_option linter.unusedSectionVars false

namespace HotStuffTx

open Core

variable {Hash Sig Peer : Type} [DecidableEq Hash] [DecidableEq Peer]

-- ---------------------------------------------------------------------------
-- Verification
-- ---------------------------------------------------------------------------

/-- What the tasks find is what the loop returns. -/
theorem ReplicaConfig.checkBits_of_veriTasks {cfg : ReplicaConfig Hash Sig}
    {q : QuorumCert Hash Sig} (h : cfg.veriTasks q bits i = .ok found) :
    cfg.checkBits q bits i = .ok (found.all id) := by
  induction bits generalizing i found with
  | nil => cases h; rfl
  | cons b bits ih =>
    cases b with
    | false => exact ih h
    | true =>
      rw [veriTasks] at h
      rw [checkBits]
      cases hpk : cfg.getPubkey (.ofNat i) with
      | error e => simp [hpk, bind, Except.bind] at h
      | ok pubkey =>
        cases hrest : cfg.veriTasks q bits (i + 1) with
        | error e => simp [hpk, hrest, bind, Except.bind] at h
        | ok rest =>
          simp only [hpk, hrest, bind, Except.bind, pure, Except.pure, Except.ok.injEq] at h ⊢
          subst h
          cases hs : checkSig q pubkey (.ofNat i) with
          | false => rfl
          | true => simpa using ih hrest

/-- What `Block::verify` with a `VeriPool` will resolve to. -/
def ReplicaConfig.Pooled.result : ReplicaConfig.Pooled → Bool
  | .done result => result
  | .tasks found => found.all id

theorem Block.verify_of_pooled {S : Setup Hash Sig} {b : Block Hash Sig}
    (h : b.verifyPooled S = .ok pm) (hr : pm.result = true) : b.verify S = .ok true := by
  unfold Block.verifyPooled at h
  unfold Block.verify
  split at h
  · exact if_pos ‹_›
  · rw [if_neg ‹_›, ← ReplicaConfig.verify_config, ReplicaConfig.verify]
    unfold ReplicaConfig.verifyPooled at h
    split at h
    · cases h
      cases hr
    · rw [if_neg ‹_›]
      cases htasks : S.config.veriTasks b.qc b.qc.rids 0 with
      | error e => simp [htasks, Except.map] at h
      | ok found =>
        simp only [htasks, Except.map, Except.ok.injEq] at h
        subst h
        rw [ReplicaConfig.checkBits_of_veriTasks htasks]
        exact congrArg _ hr

-- ---------------------------------------------------------------------------
-- Continuations
-- ---------------------------------------------------------------------------

/-- The promise is resolved. -/
def Need.Holds (s : Core Hash Sig) : Need Hash → Prop
  | .fetch blk => s.isBlkFetched blk = true
  | .deliver blk => s.delivered blk = true
  | .verify => True

/-- What is waited for before the callback runs. -/
inductive Act.Wants (S : Setup Hash Sig) : Act Hash Sig Peer → Need Hash → Prop
  | start : Wants S (.start blk) (.fetch blk)
  | deliver : Wants S (.deliver blk) (.fetch blk)
  | qc (hw : S.wireOf blk = some w) : Wants S (.deliver blk) (.fetch w.qc.objHash)
  | parent (hw : S.wireOf blk = some w) (hp : p ∈ w.parentHashes) : Wants S (.deliver blk) (.deliver p)
  | propose : Wants S (.propose prop) (.deliver prop.blk)
  | vote : Wants S (.vote v) (.deliver v.blkHash)
  | respond (hb : blk ∈ blkHashes) : Wants S (.respond peer blkHashes) (.fetch blk)

/-- What the verification says where it succeeds. -/
def Act.Valid (S : Setup Hash Sig) : Act Hash Sig Peer → Prop
  | .deliver blk => S.Verified blk
  | .vote v => v.verify S = .ok true
  | _ => True

structure Cont.Sound (S : Setup Hash Sig) (s : Core Hash Sig) (c : Cont Hash Sig Peer) : Prop where
  wants : ∀ n, c.act.Wants S n → n ∈ c.needs ∨ n.Holds s
  valid : c.found = true → c.act.Valid S
  ne_genesis : ∀ blk, c.act = .start blk ∨ c.act = .deliver blk → blk ≠ S.genesis

section
variable {S : Setup Hash Sig} {O : Options} {N : Peering Peer}
  {s s' : Base Hash Sig Peer} {c : Cont Hash Sig Peer}

theorem Need.Holds.mono {t t' : Core Hash Sig} (h : Grow t t') {n : Need Hash} (hn : n.Holds t) :
    n.Holds t' := by
  cases n with
  | fetch => exact h.fetched hn
  | deliver => exact h.delivered hn
  | verify => trivial

theorem Cont.Sound.mono {t t' : Core Hash Sig} (hc : c.Sound S t) (h : Grow t t') : c.Sound S t' :=
  ⟨fun n hn => (hc.wants n hn).imp_right (·.mono h), hc.valid, hc.ne_genesis⟩

/-- A promise that holds may be taken off the list. -/
theorem Cont.Sound.filter {t : Core Hash Sig} (hc : c.Sound S t) {n : Need Hash} (hn : n.Holds t) :
    ({ c with needs := c.needs.filter (· ≠ n) } : Cont Hash Sig Peer).Sound S t := by
  refine ⟨fun m hm => ?_, hc.valid, hc.ne_genesis⟩
  rcases hc.wants m hm with hmem | hold
  · by_cases hmn : m = n
    · exact .inr (hmn ▸ hn)
    · exact .inl (List.mem_filter.mpr ⟨hmem, by simpa using hmn⟩)
  · exact .inr hold

theorem Cont.Sound.holds {t : Core Hash Sig} (hc : c.Sound S t) (hdone : c.needs = [])
    (hn : c.act.Wants S n) : n.Holds t := by
  refine (hc.wants n hn).resolve_left ?_
  rw [hdone]
  exact List.not_mem_nil

-- ---------------------------------------------------------------------------
-- The invariant
-- ---------------------------------------------------------------------------

namespace Base

structure Ok (S : Setup Hash Sig) (s : Base Hash Sig Peer) : Prop where
  ok : s.watched.Ok S
  conts : ∀ c ∈ s.conts, c.Sound S s.core
  todo : ∀ blk, .onFetchBlk blk ∈ s.todo → s.core.isBlkFetched blk = true
  verified : ∀ x, s.core.delivered x = true → x = S.genesis ∨ x ∈ s.built ∨ S.Verified x
  parents : ∀ x w, s.core.delivered x = true → S.wireOf x = some w →
    ∀ p ∈ w.parentHashes, s.core.delivered p = true

/-- The fetches among the promises are registered. -/
def Registers (s : Base Hash Sig Peer) (needs : List (Need Hash)) : Prop :=
  ∀ x, .fetch x ∈ needs → x ∈ s.fetchWaiting ∧ s.core.isBlkFetched x = false

/-- Promises were asked for. -/
structure Asked (S : Setup Hash Sig) (s s' : Base Hash Sig Peer) : Prop where
  watched : s'.watched = s.watched
  todo : s'.todo = s.todo
  built : s'.built = s.built
  escaped : s'.escaped = s.escaped
  conts : ∀ c ∈ s'.conts, c ∈ s.conts ∨ c.Sound S s.core ∧ s'.Registers c.needs
  keeps : ∀ x ∈ s.fetchWaiting, x ∈ s'.fetchWaiting
  fetching : ∀ x ∈ s'.fetchWaiting, x ∈ s.fetchWaiting ∨ s.core.isBlkFetched x = false

theorem Asked.refl : Asked S s s :=
  ⟨rfl, rfl, rfl, rfl, fun _ hc => .inl hc, fun _ => id, fun _ => .inl⟩

theorem Asked.core (h : Asked S s s') : s'.core = s.core := by rw [Base.core, h.watched]; rfl

theorem Registers.nil : s.Registers [] := nofun

theorem Registers.append (h : s.Registers needs) (h' : s.Registers needs') :
    s.Registers (needs ++ needs') := fun x hx => (List.mem_append.mp hx).elim (h x) (h' x)

theorem Registers.asked (h : s.Registers needs) (ha : Asked S s s') : s'.Registers needs :=
  fun x hx => ⟨ha.keeps x (h x hx).1, ha.core ▸ (h x hx).2⟩

theorem Asked.trans (h : Asked S s s') (h' : Asked S s' s'') : Asked S s s'' where
  watched := h'.watched.trans h.watched
  todo := h'.todo.trans h.todo
  built := h'.built.trans h.built
  escaped := h'.escaped.trans h.escaped
  conts c hc := (h'.conts c hc).elim
    (fun hc => (h.conts c hc).imp_right fun hc => ⟨hc.1, hc.2.asked h'⟩) fun hc => .inr (h.core ▸ hc)
  keeps x hx := h'.keeps x (h.keeps x hx)
  fetching x hx := (h'.fetching x hx).elim (h.fetching x) fun hx => .inr (h.core ▸ hx)

theorem Asked.ok (h : s.Ok S) (ha : Asked S s s') : s'.Ok S where
  ok := ha.watched ▸ h.ok
  conts c hc := by
    rw [ha.core]
    exact (ha.conts c hc).elim (h.conts c) And.left
  todo blk hb := ha.core ▸ h.todo blk (ha.todo ▸ hb)
  verified := by
    rw [ha.core, ha.built]
    exact h.verified
  parents := by
    rw [ha.core]
    exact h.parents

/-- Promises were asked for, up to where an exception left the handler. -/
def AskedUpTo (S : Setup Hash Sig) (s t : Base Hash Sig Peer) : Prop :=
  ∃ s', Asked S s s' ∧ (t = s' ∨ ∃ e, t = s'.escape e)

theorem AskedUpTo.watched (h : AskedUpTo S s s') : s'.watched = s.watched := by
  obtain ⟨t, ha, rfl | ⟨e, rfl⟩⟩ := h <;> exact ha.watched

theorem AskedUpTo.ok (h : s.Ok S) (ha : AskedUpTo S s s') : s'.Ok S := by
  obtain ⟨t, ha, rfl | ⟨e, rfl⟩⟩ := ha
  · exact ha.ok h
  · have ht := ha.ok h
    exact ⟨ht.ok, ht.conts, nofun, ht.verified, ht.parents⟩

theorem asked_wait (hc : Cont.Sound S s.core ⟨needs, found, act⟩) (hr : s.Registers needs) :
    Asked S s (s.wait needs found act) := by
  refine ⟨rfl, rfl, rfl, rfl, fun c hc' => ?_, fun _ => id, fun _ => .inl⟩
  rcases List.mem_append.mp hc' with hc' | hc'
  · exact .inl hc'
  · rw [List.mem_singleton.mp hc']
    exact .inr ⟨hc, hr⟩

/-- A promise asked for is resolved, or given to wait for. -/
def Gives (s : Base Hash Sig Peer) (n : Need Hash) (needs : List (Need Hash)) : Prop :=
  n ∈ needs ∨ n.Holds s.core

theorem registers_deliver (blk : Hash) : s.Registers [.deliver blk] :=
  fun _ hx => by cases List.mem_singleton.mp hx

theorem asyncFetchBlk_spec (s : Base Hash Sig Peer) (blk : Hash) : Asked S s (s.asyncFetchBlk blk).2 ∧
    s.Gives (.fetch blk) (s.asyncFetchBlk blk).1 ∧
    (s.asyncFetchBlk blk).2.Registers (s.asyncFetchBlk blk).1 := by
  unfold asyncFetchBlk
  split
  · exact ⟨.refl, .inr ‹_›, .nil⟩
  · rename_i hf
    rw [Bool.not_eq_true] at hf
    refine ⟨⟨rfl, rfl, rfl, rfl, fun _ hc => .inl hc, fun x hx => ?_, fun x hx => ?_⟩,
      .inl (List.mem_singleton_self _), fun x hx => ?_⟩
    · dsimp only
      split
      · exact hx
      · exact List.mem_cons_of_mem _ hx
    · dsimp only at hx
      split at hx
      · exact .inl hx
      · rcases List.mem_cons.mp hx with rfl | hx
        · exact .inr hf
        · exact .inl hx
    · cases List.mem_singleton.mp hx
      refine ⟨?_, hf⟩
      dsimp only
      split
      · assumption
      · exact List.mem_cons_self

theorem asyncDeliverBlk_spec (hg : s.core.delivered S.genesis = true) (blk : Hash) :
    Asked S s (s.asyncDeliverBlk blk).2 ∧ s.Gives (.deliver blk) (s.asyncDeliverBlk blk).1 ∧
    (s.asyncDeliverBlk blk).2.Registers (s.asyncDeliverBlk blk).1 := by
  unfold asyncDeliverBlk
  split
  · exact ⟨.refl, .inr ‹_›, .nil⟩
  have hne : blk ≠ S.genesis := by
    rintro rfl
    contradiction
  split
  · exact ⟨.refl, .inl (List.mem_singleton_self _), registers_deliver blk⟩
  refine ⟨?_, .inl (List.mem_singleton_self _), registers_deliver blk⟩
  have hs : Asked S s { s with deliveryWaiting := blk :: s.deliveryWaiting } :=
    ⟨rfl, rfl, rfl, rfl, fun _ hc => .inl hc, fun _ => id, fun _ => .inl⟩
  obtain ⟨hf, hgives, hreg⟩ := asyncFetchBlk_spec (S := S)
    { s with deliveryWaiting := blk :: s.deliveryWaiting } blk
  refine (hs.trans hf).trans (asked_wait ⟨fun n hn => ?_, fun _ => trivial, fun x hx => ?_⟩ hreg)
  · cases hn
    rw [hf.core]
    exact hgives
  · rcases hx with hx | hx <;> cases hx
    exact hne

/-- Asking for one block after the other. -/
theorem forEach_spec {f : Base Hash Sig Peer → Hash → List (Need Hash) × Base Hash Sig Peer}
    {need : Hash → Need Hash} (hf : ∀ t, t.core = s.core → ∀ blk, Asked S t (f t blk).2 ∧
      t.Gives (need blk) (f t blk).1 ∧ (f t blk).2.Registers (f t blk).1) (blks : List Hash) :
    Asked S s (s.forEach f blks).2 ∧ (∀ blk ∈ blks, s.Gives (need blk) (s.forEach f blks).1) ∧
    (s.forEach f blks).2.Registers (s.forEach f blks).1 := by
  induction blks generalizing s with
  | nil => exact ⟨.refl, nofun, .nil⟩
  | cons blk blks ih =>
    obtain ⟨ha, hg, hr⟩ := hf s rfl blk
    obtain ⟨ha', hg', hr'⟩ := ih (s := (f s blk).2) fun t ht => hf t (ht.trans ha.core)
    refine ⟨ha.trans ha', fun x hx => ?_, (hr.asked ha').append hr'⟩
    rcases List.mem_cons.mp hx with rfl | hx
    · exact hg.imp_left (List.mem_append_left _)
    · refine (hg' x hx).imp (List.mem_append_right _) fun hold => ?_
      rwa [ha.core] at hold

-- ---------------------------------------------------------------------------
-- Calls into the core
-- ---------------------------------------------------------------------------

variable {e : Event Hash Sig}

@[simp] theorem watched_escape {x : Escape} : (s.escape x).watched = s.watched := rfl

@[simp] theorem conts_escape {x : Escape} : (s.escape x).conts = s.conts := rfl

@[simp] theorem built_escape {x : Escape} : (s.escape x).built = s.built := rfl

/-- A call that throws leaves the handler. -/
theorem enter_cases : s.enter S O e = { s with watched := s.watched.step S O e } ∧
      (s.watched.step S O e).replica.thrown.drop s.watched.replica.thrown.length = [] ∨
    ∃ x xs, (s.watched.step S O e).replica.thrown.drop s.watched.replica.thrown.length = x :: xs ∧
      s.enter S O e = { s with watched := s.watched.step S O e }.escape (.core x) := by
  dsimp only [enter]
  split
  · exact .inl ⟨rfl, ‹_›⟩
  · exact .inr ⟨_, _, ‹_›, rfl⟩

@[simp] theorem watched_enter : (s.enter S O e).watched = s.watched.step S O e := by
  rcases enter_cases (s := s) (S := S) (O := O) (e := e) with ⟨h, -⟩ | ⟨x, xs, -, h⟩ <;> simp [h]

@[simp] theorem conts_enter : (s.enter S O e).conts = s.conts := by
  rcases enter_cases (s := s) (S := S) (O := O) (e := e) with ⟨h, -⟩ | ⟨x, xs, -, h⟩ <;> simp [h]

@[simp] theorem built_enter : (s.enter S O e).built = s.built := by
  rcases enter_cases (s := s) (S := S) (O := O) (e := e) with ⟨h, -⟩ | ⟨x, xs, -, h⟩ <;> simp [h]

theorem todo_enter : (s.enter S O e).todo = s.todo ∨ (s.enter S O e).todo = [] := by
  rcases enter_cases (s := s) (S := S) (O := O) (e := e) with ⟨h, -⟩ | ⟨x, xs, -, h⟩
  · exact .inl (by rw [h])
  · exact .inr (by rw [h]; rfl)

theorem core_enter : (s.enter S O e).core = (s.watched.replica.step S O e).core := by
  rw [core, watched_enter]
  rfl

/-- What a newly delivered block is. -/
theorem delivered_step {w : Watched Hash Sig} (h : w.Ok S) (he : w.Disciplined S e)
    (hx : (w.step S O e).replica.core.delivered x = true) : w.replica.core.delivered x = true ∨
      e = .call (.deliver x) ∨
      ∃ cmds extra s₁, e = .call (.propose cmds w.replica.core.getParents extra) ∧
        Proposed S w.replica.core cmds w.replica.core.getParents extra x s₁ := by
  have heff := (Replica.stepped (O := O) h.core (h.sound he)).effect h.core
  change (w.replica.step S O e).core.delivered x = true at hx
  generalize (w.replica.step S O e).core = s' at hx heff
  cases heff with
  | quiet hq => exact .inl ((eq_of_storage hq.storage).2.2.2.2 ▸ hx)
  | store hst hn =>
    rcases hn with rfl | hn
    · rcases hst.delivered hx with hx | ⟨rfl, -⟩
      · exact .inl hx
      · exact .inr (.inl rfl)
    · exact .inl (hn ▸ hx)
  | update hm hu hq =>
    have hd := ran_delivered_eq (hm.spec h.core).1 hu hq
    rcases hm with ⟨rfl, -⟩ | ⟨cmds, parents, extra, rfl, hp⟩
    · exact .inl (hd ▸ hx)
    · obtain rfl : parents = _ := he.1
      rcases hp.delivered (hd ▸ hx) with hx | rfl
      · exact .inl hx
      · exact .inr (.inr ⟨cmds, extra, _, rfl, hp⟩)
  | count hq _ hc =>
    rw [hc.delivered_eq, (eq_of_storage hq.storage).2.2.2.2] at hx
    exact .inl hx
  | miscount hq _ hc =>
    cases hc with
    | intro hb =>
      rw [delivered_votes hb, (eq_of_storage hq.storage).2.2.2.2] at hx
      exact .inl hx

/-- A call keeps the invariant where it delivers what has been verified. -/
theorem Ok.enter (h : s.Ok S) (he : s.watched.Disciplined S e)
    (hdel : ∀ blk, e = .call (.deliver blk) → S.Verified blk ∧ ∀ w, S.wireOf blk = some w →
      ∀ p ∈ w.parentHashes, s.core.delivered p = true)
    (built : List Hash) (hbuilt : ∀ x ∈ s.built, x ∈ built) (hbuilds : ∀ x ∈ s.builds S e, x ∈ built) :
    Ok S { s.enter S O e with built := built } := by
  have hstep := h.ok.step (O := O) he
  have hs := Replica.stepped (O := O) h.ok.core (h.ok.sound he)
  have hgrow : Grow s.core (s.enter S O e).core := by
    rw [core, core, watched_enter]
    exact (hs.coreOk h.ok.core).2.grow
  have hnew {x} (hx : (s.enter S O e).core.delivered x = true) := by
    rw [core, watched_enter] at hx
    exact delivered_step h.ok he hx
  refine ⟨?_, fun c hc => ?_, fun blk hb => ?_, fun x hx => ?_, fun x w hx hw p hp => ?_⟩
  · show (s.enter S O e).watched.Ok S
    rw [watched_enter]
    exact hstep.1
  · rw [conts_enter] at hc
    exact (h.conts c hc).mono hgrow
  · have hb : .onFetchBlk blk ∈ (s.enter S O e).todo := hb
    rcases todo_enter (S := S) (O := O) (s := s) (e := e) with heq | heq
    · exact hgrow.fetched (h.todo blk (heq ▸ hb))
    · rw [heq] at hb
      cases hb
  · rcases hnew hx with hx | rfl | ⟨cmds, extra, s₁, rfl, hp⟩
    · exact (h.verified x hx).imp_right (Or.imp_left (hbuilt x))
    · exact .inr (.inr (hdel x rfl).1)
    · exact .inr (.inl (hbuilds x (List.mem_singleton.mpr hp.bnew_eq)))
  · refine hgrow.delivered ?_
    rcases hnew hx with hx | rfl | ⟨cmds, extra, s₁, rfl, hprop⟩
    · exact h.parents x w hx hw p hp
    · exact (hdel x rfl).2 w hw p hp
    · obtain ⟨q, -, hw'⟩ := hprop.wire_eq
      cases hw.symm.trans hw'
      rw [List.mem_singleton.mp hp]
      exact h.ok.tail.tail

-- ---------------------------------------------------------------------------
-- Callbacks
-- ---------------------------------------------------------------------------

/-- With its parents delivered and the block of its certificate stored, a block
fails to be delivered only where it has no parent. -/
theorem onDeliverBlk_ready {t : Core Hash Sig} {blk : Hash} {b : Block Hash Sig}
    (hb : t.storage blk = some b) (hp : ∀ p ∈ b.parentHashes, t.delivered p = true)
    (hq : t.isBlkFetched b.qc.objHash = true) : Triple (Core.onDeliverBlk blk) t
      (fun _ t' => t'.delivered blk = true ∧ (t.delivered blk = true ∨ b.parentHashes ≠ []))
      (fun e _ => e = .outOfRange ∧ t.delivered blk = false ∧ b.parentHashes = []) := by
  unfold Core.onDeliverBlk
  refine .get_bind ?_
  simp only [hb]
  refine .ite (fun hd => .pure' ?_) fun hd => ?_
  · rw [delivered_of hb]
    exact ⟨hd, .inl hd⟩
  have hd' : t.delivered blk = false := by rw [delivered_of hb]; simpa using hd
  refine .modify_bind (.ite (fun _ => ?_) fun hall => absurd (by simpa using hp) hall)
  cases hhead : b.parentHashes.head? with
  | none => exact .throw' ⟨rfl, hd', List.head?_eq_none_iff.mp hhead⟩
  | some p =>
    rw [modifyBlk_eq hb]
    refine .modify_bind (.ite (fun _ => ?_) fun hf => absurd hq hf)
    · refine .modify_bind (.modify_bind (.modify_bind (.pure' ⟨?_, .inr ?_⟩)))
      · simp [modifyBlk, setBlk, delivered]
      · rintro hnil
        rw [hnil] at hhead
        cases hhead

/-- A block whose delivery waits for nothing more. -/
structure Deliverable (S : Setup Hash Sig) (t : Core Hash Sig) (blk : Hash) : Prop where
  fetched : t.isBlkFetched blk = true
  qc : ∀ w, S.wireOf blk = some w → t.isBlkFetched w.qc.objHash = true
  parents : ∀ w, S.wireOf blk = some w → ∀ p ∈ w.parentHashes, t.delivered p = true
  verified : S.Verified blk
  ne_genesis : blk ≠ S.genesis

theorem Deliverable.of_cont {t : Core Hash Sig} (hc : c.Sound S t) (hdone : c.needs = [])
    (hfound : c.found = true) (hact : c.act = .deliver blk) : Deliverable S t blk := by
  have hwants {n} (hn : Act.Wants S (.deliver blk : Act Hash Sig Peer) n) : n.Holds t :=
    hc.holds hdone (hact ▸ hn)
  have hvalid := hc.valid hfound
  rw [hact] at hvalid
  exact ⟨hwants .deliver, fun w hw => hwants (.qc hw), fun w hw p hp => hwants (.parent hw hp), hvalid,
    hc.ne_genesis blk (.inr hact)⟩

/-- The block goes through but for a missing parent. -/
theorem Deliverable.spec {t : Core Hash Sig} (hd : Deliverable S t blk) (hs : StoreOk S t) :
    Triple (Core.onDeliverBlk blk) t
      (fun _ t' => t'.delivered blk = true ∧
        ∀ b, t.storage blk = some b → t.delivered blk = true ∨ b.parentHashes ≠ [])
      (fun e _ => e = .outOfRange ∧ t.delivered blk = false ∧
        ∃ b, t.storage blk = some b ∧ b.parentHashes = []) := by
  obtain ⟨b, hb⟩ := isBlkFetched_iff.mp hd.fetched
  have hw := hs.wire hb hd.ne_genesis
  refine (onDeliverBlk_ready hb (hd.parents _ hw) (hd.qc _ hw)).mono ?_ ?_
  · rintro _ t' ⟨hdel, hne⟩
    refine ⟨hdel, fun b' hb' => ?_⟩
    cases hb.symm.trans hb'
    exact hne
  · rintro e _ ⟨rfl, hdel, hnil⟩
    exact ⟨rfl, hdel, b, hb, hnil⟩

theorem core_enter_deliver (hrun : Core.onDeliverBlk blk s.core = .ok valid t) :
    (s.enter S O (.call (.deliver blk))).core = t := by
  have hcall : (Call.deliver blk : Call Hash Sig).run S O s.watched.replica.core = .ok [] t := by
    have : Core.onDeliverBlk blk s.watched.replica.core = .ok valid t := hrun
    simp [Call.run, bind, EStateM.bind, this, pure, EStateM.pure]
  rw [core_enter]
  simp only [Replica.step, Replica.runOn, hcall]

namespace Ok

variable (h : s.Ok S)
include h

theorem escape (e : Escape) : (s.escape e).Ok S := ⟨h.ok, h.conts, nofun, h.verified, h.parents⟩

theorem resolve {n : Need Hash} (hn : n.Holds s.core) : (s.resolve n).Ok S := by
  refine ⟨h.ok, fun c hc => ?_, h.todo, h.verified, h.parents⟩
  obtain ⟨c', hc', rfl⟩ := List.mem_map.mp hc
  exact (h.conts c' hc').filter hn

theorem reject (n : Need Hash) : (s.reject n).Ok S :=
  ⟨h.ok, fun c hc => h.conts c (List.mem_of_mem_filter hc), h.todo, h.verified, h.parents⟩

/-- What is left to do after is what was left to do, or needs nothing. -/
theorem setTodo {todo : List (Todo Hash)}
    (htodo : ∀ blk, .onFetchBlk blk ∈ todo → s.core.isBlkFetched blk = true) :
    Ok S { s with todo := todo } := ⟨h.ok, h.conts, htodo, h.verified, h.parents⟩

/-- A call that delivers nothing. -/
theorem enter_call {c : Call Hash Sig} (he : s.watched.Disciplined S (.call c))
    (hdel : ∀ blk, c ≠ .deliver blk) (hprop : ∀ cmds parents extra, c ≠ .propose cmds parents extra) :
    (s.enter S O (.call c)).Ok S := by
  refine h.enter he (fun blk heq => absurd (Event.call.inj heq) (hdel blk)) (s.enter S O (.call c)).built
    (by simp) fun x hx => ?_
  cases c with
  | propose cmds parents extra => exact absurd rfl (hprop _ _ _)
  | _ => cases hx

theorem onDeliverBlk (hst : s.stack = []) (hd : Deliverable S s.core blk) :
    (s.onDeliverBlk S O blk).Ok S := by
  have he : s.watched.Disciplined S (.call (.deliver blk)) := by
    exact ⟨hst, fun b hb => hd.qc _ (h.ok.core.store.wire hb hd.ne_genesis)⟩
  have h' : (s.enter S O (.call (.deliver blk))).Ok S := by
    refine h.enter he (fun blk' heq => ?_) (s.enter S O (.call (.deliver blk))).built (by simp) nofun
    cases heq
    exact ⟨hd.verified, hd.parents⟩
  unfold Base.onDeliverBlk
  cases hrun : Core.onDeliverBlk blk s.core with
  | error => exact h'
  | ok valid t =>
    have hheld : Need.Holds (s.enter S O (.call (.deliver blk))).core (.deliver blk) := by
      rw [core_enter_deliver hrun]
      exact ((hd.spec h.ok.core.store).ok hrun).1
    have htodo : ∀ x, .onFetchBlk x ∈ .eraseDelivery blk :: (s.enter S O (.call (.deliver blk))).todo →
        (s.enter S O (.call (.deliver blk))).core.isBlkFetched x = true := by
      intro x hx
      rcases List.mem_cons.mp hx with hx | hx
      · cases hx
      · exact h'.todo x hx
    dsimp only
    split
    · cases valid
      · exact (h'.reject _).setTodo htodo
      · exact (h'.resolve hheld).setTodo htodo
    · exact h'

omit h in
theorem startDelivery_error {b : Block Hash Sig} (hb : s.core.storage blk = some b)
    (hne : blk ≠ S.genesis) {x : CoreError} (hpm : b.verifyPooled S = .error x) :
    s.startDelivery S blk = s.escape (.core x) := by
  unfold Base.startDelivery
  simp only [hb, if_neg hne, hpm]

theorem startDelivery_asked {b : Block Hash Sig} (hb : s.core.storage blk = some b)
    (hne : blk ≠ S.genesis) (hpm : b.verifyPooled S = .ok pm) :
    Asked S s (s.startDelivery S blk) := by
  have hw := h.ok.core.store.wire hb hne
  unfold Base.startDelivery
  simp only [hb, if_neg hne, hpm]
  obtain ⟨ha, hqc, hr⟩ := asyncFetchBlk_spec (S := S) s b.qc.objHash
  obtain ⟨ha', hparents, hr'⟩ := forEach_spec (s := (s.asyncFetchBlk b.qc.objHash).2) (f := asyncDeliverBlk)
    (fun t ht blk => asyncDeliverBlk_spec (S := S) (by
      rw [ht, ha.core]
      exact h.ok.core.store.delivered_genesis) blk) b.parentHashes
  refine (ha.trans ha').trans (asked_wait ?_ (.append (.append ?_ (hr.asked ha')) hr'))
  case refine_2 =>
    cases pm with
    | done => exact .nil
    | tasks => exact fun x hx => by cases List.mem_singleton.mp hx
  rw [(ha.trans ha').core]
  refine ⟨fun n hn => ?_, fun hfound => ?_, fun x hx => ?_⟩
  · cases hn with
    | deliver => exact .inr (isBlkFetched_of hb)
    | qc hw' =>
      cases hw.symm.trans hw'
      exact hqc.imp_left fun hn => List.mem_append_left _ (List.mem_append_right _ hn)
    | parent hw' hp =>
      cases hw.symm.trans hw'
      refine (hparents _ hp).imp (List.mem_append_right _) fun hold => ?_
      rwa [ha.core] at hold
  · refine .of_block hw (Block.verify_of_pooled hpm ?_)
    cases pm with
    | done | tasks => exact hfound
  · rcases hx with hx | hx <;> cases hx
    exact hne

theorem startDelivery (hf : s.core.isBlkFetched blk = true) (hne : blk ≠ S.genesis) :
    AskedUpTo S s (s.startDelivery S blk) := by
  obtain ⟨b, hb⟩ := isBlkFetched_iff.mp hf
  cases hpm : b.verifyPooled S with
  | error e => exact ⟨s, .refl, .inr ⟨_, startDelivery_error hb hne hpm⟩⟩
  | ok pm => exact ⟨_, h.startDelivery_asked hb hne hpm, .inl rfl⟩

theorem perform (hst : s.stack = []) (hc : c.Sound S s.core) (hdone : c.needs = []) :
    (s.perform S O c).Ok S := by
  unfold Base.perform
  cases hact : c.act with
  | start blk =>
    have hf : Need.Holds s.core (.fetch blk) := hc.holds hdone (hact ▸ .start)
    exact (h.startDelivery hf (hc.ne_genesis blk (.inl hact))).ok h
  | deliver blk =>
    dsimp only
    split
    · exact h.onDeliverBlk hst (.of_cont hc hdone ‹_› hact)
    · exact h
  | propose prop => exact h.enter_call hst nofun nofun
  | vote v =>
    dsimp only
    split
    · exact h.enter_call hst nofun nofun
    · exact h
  | respond replica blkHashes => exact ⟨h.ok, h.conts, h.todo, h.verified, h.parents⟩

theorem run (hst : s.stack = []) (i : Nat) : (s.run S O i).Ok S := by
  unfold Base.run
  cases hc : s.conts[i]? with
  | none => exact h
  | some c =>
    dsimp only
    have hmem := List.mem_of_getElem? hc
    have h' : Ok S { s with conts := s.conts.eraseIdx i } :=
      ⟨h.ok, fun c hc => h.conts c (List.mem_of_mem_eraseIdx hc), h.todo, h.verified, h.parents⟩
    split
    · exact h'.perform hst (h.conts c hmem) ‹_›
    · exact h

theorem verified' (i : Nat) : (s.verified i).Ok S := by
  refine ⟨h.ok, fun c hc => ?_, h.todo, h.verified, h.parents⟩
  obtain ⟨j, hj⟩ := List.mem_iff_getElem?.mp hc
  rw [Base.verified, List.getElem?_modify] at hj
  obtain ⟨c', hc', rfl⟩ := Option.map_eq_some_iff.mp hj
  have hs := h.conts c' (List.mem_of_getElem? hc')
  split
  · exact hs.filter (n := .verify) trivial
  · exact hs

theorem next : s.next.Ok S := by
  have htail {t ts} (ht : s.todo = t :: ts) : ∀ blk, .onFetchBlk blk ∈ ts →
      s.core.isBlkFetched blk = true := fun blk hb => h.todo blk (ht ▸ List.mem_cons_of_mem _ hb)
  unfold Base.next
  split
  · exact h
  · rename_i blk todo ht
    have hf : Need.Holds s.core (.fetch blk) := h.todo blk (ht ▸ List.mem_cons_self)
    split
    · refine (h.resolve hf).setTodo fun x hx => ?_
      rcases List.mem_cons.mp hx with hx | hx
      · cases hx
      · exact htail ht x hx
    · exact h.setTodo (htail ht)
  · exact ⟨h.ok, h.conts, htail ‹_›, h.verified, h.parents⟩
  · exact ⟨h.ok, h.conts, htail ‹_›, h.verified, h.parents⟩

-- ---------------------------------------------------------------------------
-- Handlers
-- ---------------------------------------------------------------------------

theorem addBlk (hst : s.stack = []) (w : WireBlock Hash Sig) :
    (s.enter S O (.call (.addBlk w))).Ok S := h.enter_call hst nofun nofun

end Ok

/-- A call of `add_blk` returns, with the block stored. -/
theorem enter_addBlk (hw : Block.unserialize w = some b) : ∃ t,
    s.enter S O (.call (.addBlk w)) = { s with watched.replica.core := t } ∧
    (s.core.isBlkFetched (S.hash b.wire) = true ∧ t = s.core ∨
      s.core.storage (S.hash b.wire) = none ∧ t = s.core.setBlk (S.hash b.wire) b) := by
  have hspec := addBlk_spec (S := S) (b := b) (s := s.core)
  cases hrun : Core.addBlk S b s.core with
  | error e t => exact (hspec.error hrun).elim
  | ok blk t =>
    have hpost := hspec.ok hrun
    refine ⟨t, ?_, hpost.1 ▸ hpost.2⟩
    have hcall : (Call.addBlk w : Call Hash Sig).run S O s.watched.replica.core = .ok [] t := by
      have : Core.addBlk S b s.watched.replica.core = .ok blk t := hrun
      simp [Call.run, hw, bind, EStateM.bind, this, pure, EStateM.pure]
    have hstep : s.watched.step S O (.call (.addBlk w)) =
        { s.watched with replica.core := t } := by
      simp only [Watched.step, Watched.announce, Replica.step, Replica.runOn, hcall, List.nil_append]
    simp only [Base.enter, hstep, List.drop_length]

namespace Ok

variable (h : s.Ok S)
include h

theorem proposeHandler (hst : s.stack = []) (peer : Option Peer) (proposer : ReplicaID)
    (w : WireBlock Hash Sig) : AskedUpTo S s (s.proposeHandler S O N peer proposer w) ∨
    AskedUpTo S (s.enter S O (.call (.addBlk w))) (s.proposeHandler S O N peer proposer w) := by
  unfold Base.proposeHandler
  cases peer with
  | none => exact .inl ⟨s, .refl, .inl rfl⟩
  | some peer =>
    dsimp only
    cases hw : Block.unserialize w with
    | none => exact .inl ⟨s, .refl, .inr ⟨_, rfl⟩⟩
    | some b =>
      refine .inr ?_
      dsimp only
      split
      · split
        · obtain ⟨ha, hgives, hr⟩ := asyncDeliverBlk_spec
            (h.addBlk (O := O) hst w).ok.core.store.delivered_genesis (S.hash b.wire)
          refine ⟨_, ha.trans (asked_wait ⟨fun n hn => ?_, fun _ => ?_, fun x hx => ?_⟩ hr), .inl rfl⟩
          · cases hn
            rw [ha.core]
            exact hgives
          · exact trivial
          · rcases hx with hx | hx <;> cases hx
        · exact ⟨_, .refl, .inl rfl⟩
      · exact ⟨_, .refl, .inr ⟨_, rfl⟩⟩

theorem voteHandler {v : Vote Hash Sig} : AskedUpTo S s (s.voteHandler S peer v) := by
  unfold Base.voteHandler
  cases peer with
  | none => exact ⟨s, .refl, .inl rfl⟩
  | some peer =>
    obtain ⟨ha, hgives, hr⟩ := asyncDeliverBlk_spec h.ok.core.store.delivered_genesis v.blkHash
    dsimp only
    cases hv : v.verify S with
    | error e => exact ⟨_, ha, .inr ⟨_, rfl⟩⟩
    | ok result =>
      have hverify : (s.asyncDeliverBlk v.blkHash).2.Registers [.verify] :=
        fun x hx => by cases List.mem_singleton.mp hx
      refine ⟨_, ha.trans (asked_wait ⟨fun n hn => ?_, fun hfound => ?_, fun x hx => ?_⟩
        (hr.append hverify)), .inl rfl⟩
      · cases hn
        rw [ha.core]
        exact hgives.imp_left (List.mem_append_left _)
      · cases (hfound : result = true)
        exact hv
      · rcases hx with hx | hx <;> cases hx

omit h in
theorem reqBlkHandler : AskedUpTo S s (s.reqBlkHandler N peer blkHashes) := by
  unfold Base.reqBlkHandler
  cases peer with
  | none => exact ⟨s, .refl, .inl rfl⟩
  | some replica =>
    obtain ⟨ha, hgives, hr⟩ := forEach_spec (s := s) (f := asyncFetchBlk)
      (fun t _ blk => asyncFetchBlk_spec (S := S) t blk) blkHashes
    dsimp only
    split
    · exact ⟨_, ha, .inr ⟨_, rfl⟩⟩
    · refine ⟨_, ha.trans (asked_wait ⟨fun n hn => ?_, fun _ => ?_, fun x hx => ?_⟩ hr), .inl rfl⟩
      · cases hn with
        | respond hb =>
          rw [ha.core]
          exact hgives _ hb
      · exact trivial
      · rcases hx with hx | hx <;> cases hx

theorem parseBlks (hst : s.stack = []) (hblks : ∀ blk ∈ blks, s.core.isBlkFetched blk = true)
    (ws : List (WireBlock Hash Sig)) : (s.parseBlks S O blks ws).Ok S := by
  induction ws generalizing s blks with
  | nil =>
    refine h.setTodo fun blk hb => ?_
    obtain ⟨x, hx, heq⟩ := List.mem_map.mp hb
    cases heq
    exact hblks _ hx
  | cons w ws ih =>
    rw [Base.parseBlks]
    cases hw : Block.unserialize w with
    | none => exact h.escape _
    | some b =>
      obtain ⟨t, heq, ht⟩ := enter_addBlk (s := s) (O := O) hw
      refine ih (h.addBlk hst w) (by rw [heq]; exact hst) fun blk hb => ?_
      rw [heq]
      show t.isBlkFetched blk = true
      rcases ht with ⟨hf, rfl⟩ | ⟨-, rfl⟩
      · rcases List.mem_append.mp hb with hb | hb
        · exact hblks blk hb
        · rwa [List.mem_singleton.mp hb]
      · rw [isBlkFetched_setBlk]
        rcases List.mem_append.mp hb with hb | hb
        · simp [hblks blk hb]
        · simp [List.mem_singleton.mp hb]

theorem step {e : BaseEvent Hash Sig Peer} (he : s.Admits S e) : (s.step S O N e).Ok S := by
  cases e with
  | propose peer proposer w =>
    exact (h.proposeHandler he.1 peer proposer w).elim (·.ok h) (·.ok (h.addBlk he.1 w))
  | vote peer v => exact h.voteHandler.ok h
  | reqBlk peer blkHashes => exact reqBlkHandler.ok h
  | respBlk blks => exact h.parseBlks he.1 (fun _ hb => by cases hb) blks
  | next => exact h.next
  | verified i => exact h.verified' i
  | run i => exact h.run he i
  | core e =>
    have hd : s.watched.Disciplined S e ∧ ∀ blk, e ≠ .call (.deliver blk) := by
      cases e with
      | resume => exact ⟨he, fun _ heq => by cases heq⟩
      | call c =>
        cases c with
        | addBlk | deliver | receiveProposal | receiveVote => exact he.elim
        | propose | asyncQcFinish | rejectPm => exact ⟨he, fun _ heq => by cases heq⟩
    exact h.enter hd.1 (fun blk heq => absurd heq (hd.2 blk)) _ (fun _ => List.mem_append_right _)
      fun _ => List.mem_append_left _

end Ok

end Base

end

end HotStuffTx
