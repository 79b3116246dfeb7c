import HotStuffTx.App
import HotStuffTx.System

/-!
# The client

Embeds `try_send` and `client_resp_cmd_handler` of `hotstuff_client.cpp`. The
loop `while (try_send())` is run one round a step: `sending` is set while it
runs, at start-up and after each commit. `MsgRespCmd` comes with the replica
at the other end of its connection, which the handler does not look at.
-/

set_option linter.unusedSectionVars false

namespace HotStuffTx

/-- `Request`, less its stopwatch. -/
structure Request where
  cmd : CommandDummy
  confirmed : Nat
  deriving DecidableEq

/-- The globals of the client, the commands it has sent, and the responses it
recorded a commit for (`elapsed`). A negative `maxIterNum` is no limit. -/
structure Client (Hash : Type) where
  maxAsyncNum : Nat
  maxIterNum : Int
  cid : UInt32
  cnt : UInt32
  waiting : List (Hash × Request)
  sent : List CommandDummy
  recorded : List (Finality Hash)
  sending : Bool

/-- A `MsgRespCmd` of replica `src`, or one round of `while (try_send())` with
what `get_next_transaction_serialized` would return in it. -/
inductive ClientEvent (Hash : Type)
  | resp (src : ReplicaID) (fin : Finality Hash)
  | trySend (nextTx : List UInt64)

namespace Client

variable {Hash : Type} [DecidableEq Hash]

/-- `main` up to its `while (try_send())`. -/
def init (maxAsyncNum : Nat) (maxIterNum : Int) (cid : UInt32) : Client Hash where
  maxAsyncNum := maxAsyncNum
  maxIterNum := maxIterNum
  cid := cid
  cnt := 0
  waiting := []
  sent := []
  recorded := []
  sending := true

/-- `waiting.insert` keeps a request already there. -/
def insertRequest (waiting : List (Hash × Request)) (h : Hash) (r : Request) :
    List (Hash × Request) :=
  if (waiting.lookup h).isSome then waiting else (h, r) :: waiting

def trySend (C : CommandHash Hash) (c : Client Hash) (check : Bool) (nextTx : List UInt64) :
    Client Hash × Bool :=
  if (!check || c.waiting.length < c.maxAsyncNum) && c.maxIterNum != 0 then
    let cmd : CommandDummy := ⟨c.cid, c.cnt, nextTx⟩
    ({ c with
      cnt := c.cnt + 1
      sent := c.sent ++ [cmd]
      waiting := insertRequest c.waiting (C.getHash cmd) ⟨cmd, 0⟩
      maxIterNum := if c.maxIterNum > 0 then c.maxIterNum - 1 else c.maxIterNum }, true)
  else (c, false)

/-- `client_resp_cmd_handler` up to its `while (try_send())`. -/
def clientRespCmdHandler (nfaulty : Nat) (c : Client Hash) (fin : Finality Hash) : Client Hash :=
  match c.waiting.lookup fin.cmdHash with
  | none => c
  | some r =>
    if fin.decision ≠ 1 then c
    else
      let others := c.waiting.filter (·.1 ≠ fin.cmdHash)
      if r.confirmed + 1 ≤ nfaulty then
        { c with waiting := (fin.cmdHash, { r with confirmed := r.confirmed + 1 }) :: others }
      else { c with recorded := c.recorded ++ [fin], waiting := others, sending := true }

/-- Messages are handled once the loop is over. -/
def step (nfaulty : Nat) (C : CommandHash Hash) (c : Client Hash) : ClientEvent Hash → Client Hash
  | .resp _ fin => if c.sending then c else c.clientRespCmdHandler nfaulty fin
  | .trySend nextTx =>
    if c.sending then
      let (c, again) := c.trySend C true nextTx
      { c with sending := again }
    else c

/-- The response is counted. -/
def Counts (c : Client Hash) (fin : Finality Hash) : Prop :=
  c.sending = false ∧ (c.waiting.lookup fin.cmdHash).isSome ∧ fin.decision = 1

instance (c : Client Hash) (fin : Finality Hash) : Decidable (c.Counts fin) := by
  unfold Counts
  infer_instance

end Client

/-- The replicas that have sent a `decision = 1` response for the hash. -/
def ClientEvent.responders [DecidableEq Hash] (es : List (ClientEvent Hash)) (h : Hash) :
    Finset ReplicaID :=
  (es.filterMap fun
    | .resp src fin => if fin.decision = 1 ∧ fin.cmdHash = h then some src else none
    | .trySend _ => none).toFinset

/-- The client, and for each waiting command whose responses `confirmed` has
counted. -/
structure Watch (Hash : Type) where
  client : Client Hash
  acks : Hash → List ReplicaID

namespace Watch

variable {Hash : Type} [DecidableEq Hash]

def init (c : Client Hash) : Watch Hash := ⟨c, fun _ => []⟩

def step (nfaulty : Nat) (C : CommandHash Hash) (w : Watch Hash) (e : ClientEvent Hash) :
    Watch Hash where
  client := w.client.step nfaulty C e
  acks :=
    match e with
    | .resp src fin =>
      if w.client.Counts fin then
        Function.update w.acks fin.cmdHash
          (if ((w.client.step nfaulty C e).waiting.lookup fin.cmdHash).isSome then
            src :: w.acks fin.cmdHash else [])
      else w.acks
    | .trySend _ => w.acks

/-- No response is counted of a replica counted before for the same request. -/
def NoRepeat (w : Watch Hash) : ClientEvent Hash → Prop
  | .resp src fin => w.client.Counts fin → src ∉ w.acks fin.cmdHash
  | .trySend _ => True

instance (w : Watch Hash) (e : ClientEvent Hash) : Decidable (w.NoRepeat e) := by
  unfold NoRepeat
  split <;> infer_instance

/-- `confirmed` is the number of replicas behind it, each one of which has
responded, and a recorded commit has had more than `nfaulty`. -/
structure Ok (nfaulty : Nat) (w : Watch Hash) (es : List (ClientEvent Hash)) : Prop where
  confirmed : ∀ h r, w.client.waiting.lookup h = some r →
    (w.acks h).length = r.confirmed ∧ r.confirmed ≤ nfaulty
  idle : ∀ h, w.client.waiting.lookup h = none → w.acks h = []
  nodup : ∀ h, (w.acks h).Nodup
  responded : ∀ h, ∀ r ∈ w.acks h, r ∈ ClientEvent.responders es h
  recorded : ∀ fin ∈ w.client.recorded,
    nfaulty + 1 ≤ (ClientEvent.responders es fin.cmdHash).card

variable {nfaulty : Nat} {C : CommandHash Hash} {w : Watch Hash} {es : List (ClientEvent Hash)}

theorem lookup_filter_ne (l : List (Hash × Request)) (k h : Hash) :
    (l.filter (·.1 ≠ k)).lookup h = if h = k then none else l.lookup h := by
  induction l with
  | nil => simp
  | cons p l ih =>
    obtain ⟨k', r⟩ := p
    by_cases hk : k' = k
    · subst hk
      by_cases hh : h = k'
      · simpa [hh] using ih
      · have hne : (h == k') = false := beq_false_of_ne hh
        simpa [List.lookup_cons, hh, hne] using ih
    · by_cases hh : h = k'
      · simp [hk, hh]
      · have hne : (h == k') = false := beq_false_of_ne hh
        simpa [List.lookup_cons, hk, hh, hne] using ih

theorem lookup_insertRequest (l : List (Hash × Request)) (k h : Hash) (r : Request) :
    (Client.insertRequest l k r).lookup h =
      if h = k ∧ l.lookup k = none then some r else l.lookup h := by
  unfold Client.insertRequest
  cases hl : l.lookup k with
  | some _ => simp
  | none =>
    by_cases hh : h = k
    · simp [hh]
    · have hne : (h == k) = false := beq_false_of_ne hh
      simp [List.lookup_cons, hh, hne]

theorem responders_mono (es es' : List (ClientEvent Hash)) (h : Hash) :
    ClientEvent.responders es h ⊆ ClientEvent.responders (es ++ es') h := by
  intro r hr
  simp only [ClientEvent.responders, List.filterMap_append, List.mem_toFinset, List.mem_append] at hr ⊢
  exact .inl hr

theorem mem_responders {fin : Finality Hash} (hd : fin.decision = 1) :
    src ∈ ClientEvent.responders (es ++ [.resp src fin]) fin.cmdHash := by
  simp [ClientEvent.responders, hd]

namespace Ok

theorem append (h : w.Ok nfaulty es) (es' : List (ClientEvent Hash)) : w.Ok nfaulty (es ++ es') where
  confirmed := h.confirmed
  idle := h.idle
  nodup := h.nodup
  responded k r hr := responders_mono es es' k (h.responded k r hr)
  recorded fin hf := Nat.le_trans (h.recorded fin hf) (Finset.card_le_card (responders_mono es es' _))

theorem trySend (h : w.Ok nfaulty es) (nextTx : List UInt64) :
    (w.step nfaulty C (.trySend nextTx)).Ok nfaulty es := by
  simp only [Watch.step, Client.step, Client.trySend]
  split
  · split
    · refine ⟨fun k r hk => ?_, fun k hk => ?_, h.nodup, h.responded, h.recorded⟩
      · rw [lookup_insertRequest] at hk
        split at hk
        · rename_i hnew
          cases hk
          rw [hnew.1, h.idle _ hnew.2]
          exact ⟨rfl, Nat.zero_le _⟩
        · exact h.confirmed k r hk
      · rw [lookup_insertRequest] at hk
        split at hk
        · cases hk
        · exact h.idle k hk
    · exact ⟨h.confirmed, h.idle, h.nodup, h.responded, h.recorded⟩
  · exact ⟨h.confirmed, h.idle, h.nodup, h.responded, h.recorded⟩

/-- A response that is not counted changes nothing. -/
theorem ignored {fin : Finality Hash} (hc : ¬ w.client.Counts fin) :
    w.step nfaulty C (.resp src fin) = w := by
  have hclient : w.client.step nfaulty C (.resp src fin) = w.client := by
    simp only [Client.step, Client.clientRespCmdHandler]
    split
    · rfl
    · rename_i hs
      cases hl : w.client.waiting.lookup fin.cmdHash with
      | none => rfl
      | some r =>
        by_cases hd : fin.decision = 1
        · exact absurd ⟨by simpa using hs, by rw [hl]; rfl, hd⟩ hc
        · simp only [hd, ne_eq, not_false_eq_true, ↓reduceIte]
  simp only [Watch.step, hc, ↓reduceIte, hclient]

/-- A step that touches the request of one hash only. -/
theorem update {w' : Watch Hash} {l : List ReplicaID} (h : w.Ok nfaulty es)
    (hacks : w'.acks = Function.update w.acks k l)
    (hother : ∀ x, x ≠ k → w'.client.waiting.lookup x = w.client.waiting.lookup x)
    (hsome : ∀ r, w'.client.waiting.lookup k = some r → l.length = r.confirmed ∧ r.confirmed ≤ nfaulty)
    (hnone : w'.client.waiting.lookup k = none → l = []) (hnodup : l.Nodup)
    (hl : ∀ r ∈ l, r ∈ ClientEvent.responders es k)
    (hrec : ∀ fin ∈ w'.client.recorded, nfaulty + 1 ≤ (ClientEvent.responders es fin.cmdHash).card) :
    w'.Ok nfaulty es := by
  have hself : w'.acks k = l := by simp [hacks]
  have hne {x : Hash} (hx : x ≠ k) : w'.acks x = w.acks x := by simp [hacks, hx]
  refine ⟨fun x r hx => ?_, fun x hx => ?_, fun x => ?_, fun x => ?_, hrec⟩ <;>
    by_cases hxk : x = k
  · subst hxk
    exact hself ▸ hsome r hx
  · exact hne hxk ▸ h.confirmed x r (hother x hxk ▸ hx)
  · subst hxk
    exact hself ▸ hnone hx
  · exact hne hxk ▸ h.idle x (hother x hxk ▸ hx)
  · subst hxk
    exact hself ▸ hnodup
  · exact hne hxk ▸ h.nodup x
  · subst hxk
    exact hself ▸ hl
  · exact hne hxk ▸ h.responded x

theorem counted {fin : Finality Hash} (h : w.Ok nfaulty es) (hc : w.client.Counts fin)
    (hn : src ∉ w.acks fin.cmdHash) :
    (w.step nfaulty C (.resp src fin)).Ok nfaulty (es ++ [.resp src fin]) := by
  obtain ⟨hs, hl, hd⟩ := id hc
  obtain ⟨r, hr⟩ := Option.isSome_iff_exists.mp hl
  obtain ⟨hlen, -⟩ := h.confirmed _ r hr
  have hmem : ∀ x ∈ src :: w.acks fin.cmdHash,
      x ∈ ClientEvent.responders (es ++ [.resp src fin]) fin.cmdHash := by
    intro x hx
    rcases List.mem_cons.mp hx with rfl | hx
    · exact mem_responders hd
    · exact responders_mono es _ _ (h.responded _ x hx)
  have hnodup : (src :: w.acks fin.cmdHash).Nodup := List.nodup_cons.mpr ⟨hn, h.nodup _⟩
  have happ := h.append [.resp src fin]
  have hrest (k : Hash) := lookup_filter_ne w.client.waiting fin.cmdHash k
  simp only [Watch.step, hc, ↓reduceIte, Client.step, hs, Bool.false_eq_true,
    Client.clientRespCmdHandler, hr, hd, ne_eq, not_true_eq_false]
  by_cases hlast : r.confirmed + 1 ≤ nfaulty
  · simp only [hlast, ↓reduceIte, List.lookup_cons_self, Option.isSome_some]
    refine happ.update rfl (fun x hx => ?_) (fun r' hr' => ?_) (fun hx => ?_) hnodup hmem happ.recorded
    · have hne : (x == fin.cmdHash) = false := beq_false_of_ne hx
      simpa [List.lookup_cons, hne, hx] using hrest x
    · simp only [List.lookup_cons_self, Option.some.injEq] at hr'
      subst hr'
      exact ⟨by rw [List.length_cons, hlen], hlast⟩
    · simp at hx
  · -- the threshold: `confirmed` is `nfaulty` and every one of those behind it is another replica
    simp only [hlast, ↓reduceIte, ← ne_eq, hrest, Option.isSome_none, Bool.false_eq_true]
    refine happ.update rfl (fun x hx => ?_) (fun r' hr' => ?_) (fun _ => rfl) List.nodup_nil
      (by simp) (fun f hf => ?_)
    · simpa [hx] using hrest x
    · have hnone := hr'.symm.trans (hrest fin.cmdHash)
      simp at hnone
    · rcases List.mem_append.mp hf with hf | hf
      · exact happ.recorded f hf
      · obtain rfl := List.mem_singleton.mp hf
        have hsub : (src :: w.acks f.cmdHash).toFinset ⊆
            ClientEvent.responders (es ++ [.resp src f]) f.cmdHash :=
          fun x hx => hmem x (List.mem_toFinset.mp hx)
        have hcard := Finset.card_le_card hsub
        rw [List.toFinset_card_of_nodup hnodup, List.length_cons, hlen] at hcard
        omega

theorem step (h : w.Ok nfaulty es) {e : ClientEvent Hash} (he : w.NoRepeat e) :
    (w.step nfaulty C e).Ok nfaulty (es ++ [e]) := by
  cases e with
  | trySend nextTx => exact (h.trySend nextTx).append _
  | resp src fin =>
    by_cases hc : w.client.Counts fin
    · exact h.counted hc (he hc)
    · rw [ignored hc]
      exact h.append _

theorem run (h : w.Ok nfaulty es) {fs : List (ClientEvent Hash)}
    (hfs : Run.Allowed (Watch.step nfaulty C) NoRepeat w fs) :
    (Run.exec (Watch.step nfaulty C) w fs).Ok nfaulty (es ++ fs) := by
  induction fs generalizing w es with
  | nil => simpa using h
  | cons e fs ih => simpa using ih (h.step hfs.1) hfs.2

end Ok

theorem ok_init (maxAsyncNum : Nat) (maxIterNum : Int) (cid : UInt32) :
    (Watch.init (Client.init maxAsyncNum maxIterNum cid : Client Hash)).Ok nfaulty [] where
  confirmed := by simp [Watch.init, Client.init]
  idle _ _ := rfl
  nodup _ := List.nodup_nil
  responded := by simp [Watch.init]
  recorded := by simp [Watch.init, Client.init]

end Watch

-- ---------------------------------------------------------------------------
-- Finality
-- ---------------------------------------------------------------------------

section
variable {Hash Sig : Type} [DecidableEq Hash] {n : Nat}

/-- Where no response is counted twice of one replica, a commit is recorded only
after more than `nfaulty` replicas have sent a `decision = 1` response for it,
and so after an honest replica has decided it. -/
theorem client_finality (S : Setup Hash Sig) (F : Faults S) (C : CommandHash Hash)
    (maxAsyncNum : Nat) (maxIterNum : Int) (cid : UInt32) (es : List (ClientEvent Hash))
    (apps : ReplicaID → List (AppEvent Hash Sig)) (bank : ReplicaID → SmallBank n)
    (hconn : ∀ src fin, .resp src fin ∈ es → S.hasReplica src = true)
    (happ : ∀ src fin, .resp src fin ∈ es → F.Honest src → ∃ addr, (fin, addr) ∈
      (Run.exec (App.step C) (App.init src (bank src)) (apps src)).respQueue)
    (h : Run.Allowed (Watch.step S.nfaulty C) Watch.NoRepeat
      (.init (.init maxAsyncNum maxIterNum cid)) es) :
    ∀ fin ∈ (Run.exec (Watch.step S.nfaulty C) (.init (.init maxAsyncNum maxIterNum cid)) es).client.recorded,
      S.nfaulty + 1 ≤ (ClientEvent.responders es fin.cmdHash).card ∧
      ∃ r ∈ ClientEvent.responders es fin.cmdHash, F.Honest r ∧
        fin.cmdHash ∈ decidedCmds (AppEvent.outputs (apps r)) := by
  intro fin hfin
  have hok := (Watch.ok_init maxAsyncNum maxIterNum cid).run h
  have hcard := hok.recorded fin hfin
  rw [List.nil_append] at hcard
  refine ⟨hcard, ?_⟩
  obtain ⟨r, hr, hbyz⟩ := Finset.exists_mem_notMem_of_card_lt_card
    (Nat.lt_of_le_of_lt F.card_le hcard)
  obtain ⟨f, hf, hd, hh⟩ : ∃ f, .resp r f ∈ es ∧ f.decision = 1 ∧ f.cmdHash = fin.cmdHash := by
    obtain ⟨e, he, hsrc⟩ := List.mem_filterMap.mp (List.mem_toFinset.mp hr)
    cases e with
    | trySend => cases hsrc
    | resp src f =>
      simp only [Option.ite_none_right_eq_some, Option.some.injEq] at hsrc
      obtain ⟨hd, rfl⟩ := hsrc
      exact ⟨f, he, hd⟩
  have hhon : F.Honest r := ⟨hconn r f hf, hbyz⟩
  obtain ⟨addr, ha⟩ := happ r f hf hhon
  have hout := (App.ok_init.run (apps r)).answered f addr ha hd
  refine ⟨r, hr, hhon, List.mem_filterMap.mpr ⟨.decide f, by simpa using hout, ?_⟩⟩
  simp [hh]

/-- The response of replica `rid` to `depositCmd`, decided in the first block of `chain4`. -/
def depositFin (rid : ReplicaID) : Finality Nat :=
  { rid := rid, decision := 1, cmdIdx := 0, cmdHeight := 1, cmdHash := 11, blkHash := 1 }

/-- The client sends `depositCmd` and hears of the replicas in turn. -/
def depositResponses (srcs : List ReplicaID) : List (ClientEvent Nat) :=
  [.trySend [1, 0, 50], .trySend []] ++ srcs.map fun r => .resp r (depositFin r)

/-- Replica 3 is Byzantine. -/
def byzantine3 : Faults (tableSetup 4 chain4) := ⟨{3}, by decide⟩

theorem client_finality_deposit :
    let es := depositResponses [3, 1]
    let w := Run.exec (Watch.step 1 depositHash) (.init (.init 1 1 0)) es
    w.client.recorded = [depositFin 1] ∧ ∃ r ∈ ClientEvent.responders es 11, byzantine3.Honest r ∧
      11 ∈ decidedCmds (AppEvent.outputs ([.request depositCmd 7, .pending] ++ chain4Outputs r)) := by
  have hfin := client_finality (tableSetup 4 chain4) byzantine3 depositHash 1 1 0
    (depositResponses [3, 1]) (fun r => [.request depositCmd 7, .pending] ++ chain4Outputs r)
    (fun _ => twoAccounts) ?_ ?_ (by decide +kernel) (depositFin 1) (by decide +kernel)
  · exact ⟨by decide +kernel, hfin.2⟩
  · intro src fin hm
    obtain ⟨rfl, -⟩ | ⟨rfl, -⟩ : src = 3 ∧ fin = depositFin 3 ∨ src = 1 ∧ fin = depositFin 1 := by
      simpa [depositResponses] using hm
    · decide
    · decide
  · intro src fin hm hh
    obtain ⟨rfl, -⟩ | ⟨rfl, rfl⟩ : src = 3 ∧ fin = depositFin 3 ∨ src = 1 ∧ fin = depositFin 1 := by
      simpa [depositResponses] using hm
    · exact absurd hh (by decide)
    · exact ⟨7, by decide +kernel⟩

/-- The Byzantine replica alone makes the client record a commit. -/
theorem client_finality_sameReplica :
    let es := depositResponses [3, 3]
    (Run.exec (Watch.step (tableSetup 4 chain4).nfaulty depositHash) (.init (.init 1 1 0))
      es).client.recorded = [depositFin 3] ∧
      ClientEvent.responders es 11 = {3} ∧ (tableSetup 4 chain4).nfaulty = 1 ∧
      ¬ byzantine3.Honest 3 := by
  decide +kernel

end

end HotStuffTx
