import HotStuffTx.PacedSystem

/-!
# Only what a client has submitted is decided

Where the blocks that arrive are blocks of the replicas, a block holds what its
proposer has taken from its clients: a batch, what it waits for at a re-proposal,
or nothing. A replica stores no other block, and decides what is in stored ones.
-/

set_option linter.unusedSectionVars false

namespace HotStuffTx

open Core Paced

variable {Hash Sig : Type} [DecidableEq Hash]

/-- Every stored block is one of `A`. -/
def Core.Clean (A : Hash → Prop) (s : Core Hash Sig) : Prop := ∀ x, s.isBlkFetched x = true → A x

/-- The blocks with commands of `sub` only. -/
def Setup.Holds (S : Setup Hash Sig) (sub : Hash → Prop) (x : Hash) : Prop := ∀ c ∈ S.cmdsOf x, sub c

/-- A block that arrives is stored at some replica. -/
def PacedSystem.Relays (S : Setup Hash Sig) (sys : PacedSystem Hash Sig) :
    ReplicaID × Occurrence Hash Sig → Prop
  | (_, .call (.addBlk w)) => ∀ b, Block.unserialize w = some b →
      ∃ i < S.nreplicas, (sys (.ofNat i)).core.isBlkFetched (S.hash b.wire) = true
  | _ => True

instance (S : Setup Hash Sig) (sys : PacedSystem Hash Sig) (e : ReplicaID × Occurrence Hash Sig) :
    Decidable (sys.Relays S e) := by
  unfold PacedSystem.Relays
  split <;> infer_instance

section
variable {S : Setup Hash Sig} {P : Running Hash} {A sub : Hash → Prop} {m m' : Paced Hash Sig}
  {sys : PacedSystem Hash Sig} {cmds : List Hash}

theorem clean_of_storage {s s' : Core Hash Sig} (hst : s'.storage = s.storage) (hs : s.Clean A) :
    s'.Clean A := fun x hx => hs x (by rwa [isBlkFetched, hst] at hx)

/-- The calls keep a storage within `A` that store blocks of `A` only. -/
theorem clean_allows : Allows A fun s s' : Core Hash Sig => s.Clean A → s'.Clean A where
  trans h h' hs := h' (h hs)
  beside hst _ := clean_of_storage hst
  edit := by
    intro s n f _ hs x hx
    refine hs x ?_
    by_cases hxn : x = n
    · subst hxn
      cases hb : s.storage x with
      | none => simp [isBlkFetched, modifyBlk, hb] at hx
      | some b => exact isBlkFetched_of hb
    · rwa [isBlkFetched, OnlyAt.modifyBlk x hxn] at hx
  store := by
    intro s n b _ ha hs x hx
    rw [isBlkFetched_setBlk, Bool.or_eq_true, decide_eq_true_eq] at hx
    rcases hx with rfl | hx
    · exact ha
    · exact hs x hx
  deliver := by
    intro s s' n _ hf ho _ hs x hx
    by_cases hxn : x = n
    · subst hxn
      exact hs x hf
    · refine hs x ?_
      unfold isBlkFetched at hx ⊢
      rwa [ho x hxn] at hx

/-- The commands of a proposal are commands its replica has taken. -/
theorem Books.proposes (h : Books S m) {e : Occurrence Hash Sig} (hp : m.proposes P e = some cmds) :
    ∀ c ∈ cmds, c ∈ m.taken := by
  have hbatch {rest} (hst : m.stack = .callback (.beat cmds) :: rest) : ∀ c ∈ cmds, c ∈ m.taken := by
    intro c hc
    refine h.slices.subset (List.mem_append_left _ (List.mem_flatten.mpr ⟨cmds, ?_, hc⟩))
    have hpos : 0 < m.queued.count cmds := by
      rw [queued, hst, Task.batches_cons]
      simp [Task.batch, Callback.batch]
    have htally : 0 < m.handed.count cmds := by
      rw [← h.ledger]
      unfold Paced.tally
      omega
    exact List.count_pos_iff.mp htally
  cases e with
  | expire =>
    simp only [Paced.proposes] at hp
    split at hp
    · cases hp
      exact fun c hc => (List.not_mem_nil hc).elim
    · cases hp
  | repropose =>
    simp only [Paced.proposes] at hp
    split at hp
    · cases hp
    · cases hp
      exact h.waiting
  | resume =>
    simp only [Paced.proposes] at hp
    split at hp
    · rename_i hst
      split at hp
      · cases hp
        exact hbatch hst
      · cases hp
    · split at hp
      · cases hp
      · cases hp
        exact fun c hc => (List.not_mem_nil hc).elim
    · cases hp
  | _ => cases hp

/-- The commands at a replica that wait to be taken, and those it has taken. -/
def Paced.Given (sub : Hash → Prop) (m : Paced Hash Sig) : Prop :=
  (∀ c ∈ m.cmdPending, sub c) ∧ ∀ c ∈ m.taken, sub c

theorem Paced.Given.dequeue (h : m.Given sub) : (m.dequeue P).Given sub := by
  unfold Paced.dequeue
  split
  · exact h
  · rename_i c rest hq
    have hc : sub c := h.1 c (hq ▸ List.mem_cons_self)
    have htaken : ∀ d ∈ m.taken ++ [c], sub d := fun d hd =>
      (List.mem_append.mp hd).elim (h.2 d) fun hd => List.mem_singleton.mp hd ▸ hc
    have hrest : ∀ d ∈ rest, sub d := fun d hd => h.1 d (hq ▸ List.mem_cons_of_mem _ hd)
    unfold Paced.take Paced.beat
    dsimp only
    split
    · split
      · split <;> exact ⟨hrest, htaken⟩
      · exact ⟨hrest, htaken⟩
    · exact ⟨hrest, htaken⟩

theorem Paced.Given.step {e : Occurrence Hash Sig} (h : m.Given sub) (hs : m.Sound) (ha : m.Admits e)
    (he : ∀ c, e = .submit c → sub c) : (m.step S P e).Given sub := by
  rcases flow_step (S := S) (P := P) hs ha with hf | ⟨c, rfl⟩ | ⟨rest, rfl, hst⟩
  · have hq := hf.queue
    simp only [Paced.queue, Prod.mk.injEq] at hq
    unfold Paced.Given
    rw [hq.2.1, hq.2.2.2]
    exact h
  · refine ⟨fun d hd => ?_, h.2⟩
    rcases List.mem_append.mp hd with hd | hd
    · exact h.1 d hd
    · exact List.mem_singleton.mp hd ▸ he c rfl
  · simp only [Paced.step, hst]
    exact Paced.Given.dequeue (m := m.popped rest) h

/-- What every replica keeps. -/
structure Paced.Sourced (S : Setup Hash Sig) (sub : Hash → Prop) (m : Paced Hash Sig) : Prop where
  view : m.view.Ok S
  poised : m.Poised S
  books : Books S m
  given : m.Given sub
  clean : m.core.Clean (S.Holds sub)

theorem Paced.Sourced.step {e : Occurrence Hash Sig} (h : m.Sourced S sub) (ha : m.Admits e)
    (hf : m.Fetched e) (hsub : ∀ c, e = .submit c → sub c)
    (hadd : ∀ w b, e = .call (.addBlk w) → Block.unserialize w = some b → S.Holds sub (S.hash b.wire)) :
    (m.step S P e).Sourced S sub := by
  have hd := Paced.driven (P := P) h.view h.poised ha hf
  have hbelow : (m.step S P e).view.Ok S ∧ (m.step S P e).view.replica.core.Clean (S.Holds sub) := by
    refine hd.run.inv (I := fun w => w.Ok S ∧ w.replica.core.Clean (S.Holds sub)) ⟨h.view, h.clean⟩ ?_
    rintro w ev ⟨hw, hc⟩ ⟨hdis, hdr⟩
    refine ⟨(hw.step hdis).1, (clean_allows (A := S.Holds sub)).replica clean_of_storage (fun c hev => ?_) hc⟩
    subst hev
    cases c with
    | addBlk w' =>
      obtain ⟨-, rfl⟩ := hdr
      exact fun b hb => hadd w' b rfl hb
    | propose cmds parents extra =>
      obtain ⟨-, hp⟩ := hdr
      intro p _ c hc
      have hcmds : S.cmdsOf (S.hash (w.replica.core.newBlock cmds parents extra p).wire) = cmds := by
        rw [Setup.cmdsOf, S.wireOf_hash]
        rfl
      rw [hcmds] at hc
      exact h.given.2 c (h.books.proposes hp c hc)
    | _ => trivial
  exact ⟨hbelow.1, hd.poised h.poised, h.books.step ha, h.given.step h.books.sound ha hsub, hbelow.2⟩

theorem Paced.sourced_init {rid : ReplicaID} : (Paced.init S P rid).Sourced S sub := by
  refine ⟨Watched.ok_init, Paced.poised_init, .init, ⟨fun _ hc => (List.not_mem_nil hc).elim,
    fun _ hc => (List.not_mem_nil hc).elim⟩, fun x hx c hc => ?_⟩
  have hg : x = S.genesis := by
    by_contra hne
    simp [Paced.init, Core.init, isBlkFetched, Function.update_of_ne hne] at hx
  rw [hg, Setup.cmdsOf_genesis] at hc
  exact (List.not_mem_nil hc).elim

theorem Paced.Sourced.decided (h : m.Sourced S sub) : ∀ c ∈ decidedCmds m.core.out, sub c := by
  intro c hc
  have hok : CoreOk S m.core := h.view.core
  rw [hok.decidedCmds_eq] at hc
  obtain ⟨x, hx, hc⟩ := List.mem_flatMap.mp hc
  have hf : m.core.isBlkFetched x = true :=
    hok.store.isBlkFetched_of_placed (hok.store.placed_of_delivered (hok.delivered_of_mem hx))
  exact h.clean x hf c hc

end

/-- Where replicas get blocks from each other only, each command a replica decides was
submitted to some replica by a client, whatever the pacemakers propose and propose again. -/
theorem paced_validity (S : Setup Hash Sig) (P : Running Hash)
    (es : List (ReplicaID × Occurrence Hash Sig))
    (h : Run.Allowed (PacedSystem.step S P) (fun sys e =>
      ((sys e.1).Admits e.2 ∧ (sys e.1).Fetched e.2) ∧ sys.Relays S e) (PacedSystem.init S P) es) :
    let sys := Run.exec (PacedSystem.step S P) (PacedSystem.init S P) es
    ∀ r, ∀ c ∈ decidedCmds (sys r).core.out, ∃ r', (r', .submit c) ∈ es := by
  intro sys r
  have hsys : ∀ r, (sys r).Sourced S fun c => ∃ r', (r', .submit c) ∈ es := by
    refine h.mem.inv (I := fun sys => ∀ r, (sys r).Sourced S fun c => ∃ r', (r', .submit c) ∈ es)
      (fun _ => Paced.sourced_init) ?_
    rintro sys ⟨r, e⟩ hs ⟨⟨⟨ha, hf⟩, hrel⟩, hmem⟩ x
    unfold PacedSystem.step
    by_cases hx : x = r
    · subst hx
      rw [Function.update_self]
      refine (hs x).step ha hf (fun c hc => ⟨x, hc ▸ hmem⟩) fun w b hw hb => ?_
      subst hw
      obtain ⟨i, -, hi⟩ := hrel b hb
      exact (hs _).clean _ hi
    · rw [Function.update_of_ne hx]
      exact hs x
  exact (hsys r).decided

/-- A block with one command, and the three empty ones that commit it. -/
def rounds4 : List (WireBlock Nat TableSig) :=
  tableBlk 4 0 0 [11] [] :: [1, 2, 3].map fun h => tableBlk 4 h h [] [0, 1, 3]

/-- Replica 0 takes a command and proposes what it waits for; replicas 1 and 3 vote. -/
def leaderFeed : List (Occurrence Nat TableSig) :=
  [.submit 11, .pending, .resume, .resume, .repropose] ++ List.replicate 20 .resume ++
    [1, 2, 3].flatMap fun h => [1, 3].flatMap fun r =>
      .call (.receiveVote ⟨r, h, h, r, h⟩) :: List.replicate 20 .resume

/-- The blocks of replica 0 reach replica 1. -/
def relayFeed : List (ReplicaID × Occurrence Nat TableSig) :=
  leaderFeed.map (0, ·) ++ [1, 2, 3, 4].flatMap fun h => (pacedFeed rounds4 h 0).map (1, ·)

theorem paced_validity_rounds4 :
    let S := tableSetup 4 rounds4
    let P : Running Nat := ⟨.threeStep, .roundRobin, 2, 0⟩
    let sys := Run.exec (PacedSystem.step S P) (PacedSystem.init S P) relayFeed
    decidedCmds (sys 0).core.out = [11] ∧ decidedCmds (sys 1).core.out = [11] ∧
      ∃ r, (r, Occurrence.submit 11) ∈ relayFeed := by
  intro S P
  have h : Run.Allowed (PacedSystem.step S P) (fun sys e =>
      ((sys e.1).Admits e.2 ∧ (sys e.1).Fetched e.2) ∧ sys.Relays S e) (PacedSystem.init S P) relayFeed := by
    decide +kernel
  have hall := paced_validity S P relayFeed h 1 11
  dsimp only
  have hone : decidedCmds (Run.exec (PacedSystem.step S P) (PacedSystem.init S P) relayFeed 1).core.out =
      [11] := by decide +kernel
  rw [hone] at hall ⊢
  exact ⟨by decide +kernel, rfl, hall (List.mem_singleton_self 11)⟩

end HotStuffTx
