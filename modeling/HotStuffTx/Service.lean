import HotStuffTx.Client
import HotStuffTx.NetSystem

/-!
# The replicated service

The replicas on the network, each with its application, and the clients. What a
replica decides runs the callbacks of its application before anything else happens; a
client hears of an honest replica what that replica has queued for it, in any order
and as often as the network likes, and of any other replica anything.
-/

set_option linter.unusedSectionVars false

namespace HotStuffTx

open Core

variable {Hash Sig Peer : Type} [DecidableEq Hash] [DecidableEq Peer] {n : Nat}

/-- `heard` is what each client has handled. -/
structure Service (Hash Sig Peer : Type) (n : Nat) where
  net : NetSystem Hash Sig Peer
  apps : ReplicaID → App Hash n
  clients : NetAddr → Watch Hash
  heard : NetAddr → List (ClientEvent Hash)

/-- A step of a replica; a request that comes to one; a round of its handler of
`cmd_pending`; and what a client does. -/
inductive Serve (Hash Sig Peer : Type)
  | replica (r : ReplicaID) (e : BaseEvent Hash Sig Peer)
  | request (r : ReplicaID) (cmd : CommandDummy) (addr : NetAddr)
  | pending (r : ReplicaID)
  | client (addr : NetAddr) (e : ClientEvent Hash)

namespace Service

variable (S : Setup Hash Sig) (O : Options) (N : Peering Peer) (C : CommandHash Hash)

/-- All replicas start with the same balances. -/
def init (bank : SmallBank n) (clients : NetAddr → Client Hash) : Service Hash Sig Peer n where
  net := .init S
  apps r := .init r bank
  clients addr := .init (clients addr)
  heard _ := []

/-- The virtual calls of the step go to the application. -/
def called (s : Service Hash Sig Peer n) (r : ReplicaID) (net : NetSystem Hash Sig Peer) : App Hash n :=
  (((net r).core.out.drop (s.net r).core.out.length).map AppEvent.output).foldl (App.step C) (s.apps r)

def step (s : Service Hash Sig Peer n) : Serve Hash Sig Peer → Service Hash Sig Peer n
  | .replica r e =>
    let net := s.net.step S O N (r, e)
    { s with net, apps := Function.update s.apps r (s.called C r net) }
  | .request r cmd addr =>
    { s with apps := Function.update s.apps r ((s.apps r).clientRequestCmdHandler cmd addr) }
  | .pending r => { s with apps := Function.update s.apps r ((s.apps r).handlePending C) }
  | .client addr e =>
    { s with
      clients := Function.update s.clients addr ((s.clients addr).step S.nfaulty C e)
      heard := Function.update s.heard addr (s.heard addr ++ [e]) }

/-- Of an honest replica a client hears what was queued for it. -/
def Heard (F : Faults S) (s : Service Hash Sig Peer n) (addr : NetAddr) : ClientEvent Hash → Prop
  | .resp src fin => S.hasReplica src = true ∧ (F.Honest src → (fin, addr) ∈ (s.apps src).respQueue)
  | .trySend _ => True

instance (F : Faults S) (s : Service Hash Sig Peer n) (addr : NetAddr) :
    (e : ClientEvent Hash) → Decidable (s.Heard S F addr e)
  | .resp src fin => inferInstanceAs (Decidable
      (S.hasReplica src = true ∧ (F.Honest src → (fin, addr) ∈ (s.apps src).respQueue)))
  | .trySend _ => instDecidableTrue

/-- The network is that of `network_agreement`, and no client counts a replica twice for
one request. -/
def Admits (F : Faults S) (s : Service Hash Sig Peer n) : Serve Hash Sig Peer → Prop
  | .replica r e => F.AdmitsNet N s.net (r, e) ∧ (O.build = .twoStep ∨ (s.net r).Follows e)
  | .request .. | .pending _ => True
  | .client addr e => s.Heard S F addr e ∧ (s.clients addr).NoRepeat e

instance (F : Faults S) (s : Service Hash Sig Peer n) :
    (e : Serve Hash Sig Peer) → Decidable (s.Admits S O N F e)
  | .replica r e => inferInstanceAs (Decidable
      (F.AdmitsNet N s.net (r, e) ∧ (O.build = .twoStep ∨ (s.net r).Follows e)))
  | .request .. | .pending _ => instDecidableTrue
  | .client addr e => inferInstanceAs (Decidable (s.Heard S F addr e ∧ (s.clients addr).NoRepeat e))

/-- What replica `r` has decided. -/
def decided (s : Service Hash Sig Peer n) (r : ReplicaID) : List Hash := decidedCmds (s.net r).core.out

/-- `log` is what some honest replica has decided; what any other has decided is a prefix
of it, and every command a client has recorded is in it. -/
structure Log (F : Faults S) (s : Service Hash Sig Peer n) (log : List Hash) : Prop where
  held : log = [] ∨ ∃ r, F.Honest r ∧ log = s.decided r
  agreed : ∀ r, F.Honest r → s.decided r <+: log
  recorded : ∀ addr, ∀ fin ∈ (s.clients addr).client.recorded, fin.cmdHash ∈ log

end Service

namespace Service

section
variable {S : Setup Hash Sig} {O : Options} {N : Peering Peer} {C : CommandHash Hash} {F : Faults S}
  {bank : SmallBank n} {s : Service Hash Sig Peer n}

/-- The network agrees, the applications have answered what was decided, and the clients
have heard of it. -/
structure Ok (S : Setup Hash Sig) (O : Options) (C : CommandHash Hash) (F : Faults S)
    (bank : SmallBank n) (s : Service Hash Sig Peer n) : Prop where
  net : s.net.Ok S O F
  apps : ∀ r, (s.apps r).Ok C bank (s.net r).core.out
  clients : ∀ addr, (s.clients addr).Ok S.nfaulty (s.heard addr)
  told : ∀ addr src fin, .resp src fin ∈ s.heard addr → S.hasReplica src = true ∧
    (F.Honest src → fin.decision = 1 → .decide fin ∈ (s.net src).core.out)

/-- What has been called stays called. -/
theorem out_prefix (h : s.net.Ok S O F) {e : BaseEvent Hash Sig Peer}
    (he : F.AdmitsNet N s.net (r, e)) (x : ReplicaID) :
    (s.net x).core.out <+: (s.net.step S O N (r, e) x).core.out := by
  unfold NetSystem.step
  by_cases hx : x = r
  · subst hx
    rw [Function.update_self]
    obtain ⟨evs, hevs, hexec⟩ := (h.base x).runs (O := O) (N := N) he.2.1
    unfold Base.core
    rw [hexec]
    refine hevs.rel (I := fun w => w.Ok S) (R := fun w w' => w.replica.core.out <+: w'.replica.core.out)
      (h.base x).ok (fun w ev hw hev => (hw.step hev.1).1) (fun _ => List.prefix_rfl)
      (fun _ _ _ => List.IsPrefix.trans) fun w ev hw hev => ?_
    have hst := Replica.stepped (O := O) hw.core (hw.sound hev.1)
    exact (hst.coreOk hw.core).2.out
  · rw [Function.update_of_ne hx]

/-- Running the calls of a step keeps the account of them. -/
theorem called_ok (h : (s.apps r).Ok C bank (s.net r).core.out) {net : NetSystem Hash Sig Peer}
    (hout : (s.net r).core.out <+: (net r).core.out) : (s.called C r net).Ok C bank (net r).core.out := by
  obtain ⟨new, hnew⟩ := hout
  have hrun := h.run (new.map AppEvent.output)
  have houts : AppEvent.outputs (new.map fun o : Output Hash Sig => AppEvent.output o) = new := by
    simp [AppEvent.outputs, List.filterMap_map]
  rw [houts] at hrun
  unfold called
  rw [← hnew, List.drop_left]
  exact hrun

theorem Ok.init {clients : NetAddr → Client Hash} (hc : ∀ addr, ∃ k i c, clients addr = .init k i c) :
    (Service.init S bank clients : Service Hash Sig Peer n).Ok S O C F bank where
  net := NetSystem.ok_init
  apps r := App.ok_init
  clients addr := by
    obtain ⟨k, i, c, hc⟩ := hc addr
    show (Watch.init (clients addr)).Ok S.nfaulty []
    rw [hc]
    exact Watch.ok_init k i c
  told _ _ _ := nofun

theorem Ok.step (h : s.Ok S O C F bank) {e : Serve Hash Sig Peer} (he : s.Admits S O N F e) :
    (s.step S O N C e).Ok S O C F bank := by
  cases e with
  | replica r e =>
    have hout := out_prefix h.net he.1
    refine ⟨h.net.step he.1 he.2, fun x => ?_, h.clients, fun addr src fin hm => ?_⟩
    · unfold Service.step
      dsimp only
      by_cases hx : x = r
      · subst hx
        rw [Function.update_self]
        exact called_ok (h.apps x) (hout x)
      · rw [Function.update_of_ne hx]
        obtain ⟨new, hnew⟩ := hout x
        rw [← hnew]
        exact (h.apps x).append
    · obtain ⟨hrep, hdec⟩ := h.told addr src fin hm
      exact ⟨hrep, fun hh hd => (hout src).subset (hdec hh hd)⟩
  | request r cmd addr =>
    refine ⟨h.net, fun x => ?_, h.clients, h.told⟩
    unfold Service.step
    dsimp only
    by_cases hx : x = r
    · subst hx
      rw [Function.update_self]
      exact ⟨(h.apps x).waiting, (h.apps x).bank, (h.apps x).answered⟩
    · rw [Function.update_of_ne hx]
      exact h.apps x
  | pending r =>
    refine ⟨h.net, fun x => ?_, h.clients, h.told⟩
    unfold Service.step
    dsimp only
    by_cases hx : x = r
    · subst hx
      rw [Function.update_self]
      exact (h.apps x).handlePending
    · rw [Function.update_of_ne hx]
      exact h.apps x
  | client addr e =>
    refine ⟨h.net, h.apps, fun x => ?_, fun x src fin hm => ?_⟩
    · unfold Service.step
      dsimp only
      by_cases hx : x = addr
      · subst hx
        rw [Function.update_self, Function.update_self]
        exact (h.clients x).step he.2
      · rw [Function.update_of_ne hx, Function.update_of_ne hx]
        exact h.clients x
    · unfold Service.step at hm
      dsimp only at hm
      by_cases hx : x = addr
      · subst hx
        rw [Function.update_self] at hm
        rcases List.mem_append.mp hm with hm | hm
        · exact h.told x src fin hm
        · obtain rfl := List.mem_singleton.mp hm
          exact ⟨he.1.1, fun hh hd => (h.apps src).answered fin x (he.1.2 hh) hd⟩
      · rw [Function.update_of_ne hx] at hm
        exact h.told x src fin hm

theorem decided_prefix (h : s.Ok S O C F bank) {e : Serve Hash Sig Peer} (he : s.Admits S O N F e)
    (r : ReplicaID) : s.decided r <+: (s.step S O N C e).decided r := by
  cases e with
  | replica r' e =>
    obtain ⟨new, hnew⟩ := out_prefix h.net he.1 r
    unfold decided Service.step
    dsimp only
    rw [← hnew, decidedCmds_append]
    exact List.prefix_append _ _
  | request | pending | client => exact List.prefix_rfl

theorem exists_resp {es : List (ClientEvent Hash)} {h : Hash} (hr : r ∈ ClientEvent.responders es h) :
    ∃ f, .resp r f ∈ es ∧ f.decision = 1 ∧ f.cmdHash = h := by
  obtain ⟨e, he, hsrc⟩ := List.mem_filterMap.mp (List.mem_toFinset.mp hr)
  cases e with
  | trySend => cases hsrc
  | resp src f =>
    simp only [Option.ite_none_right_eq_some, Option.some.injEq] at hsrc
    obtain ⟨hd, rfl⟩ := hsrc
    exact ⟨f, he, hd⟩

/-- What a client has recorded, an honest replica has decided. -/
theorem Ok.recorded (h : s.Ok S O C F bank) {addr : NetAddr} {fin : Finality Hash}
    (hfin : fin ∈ (s.clients addr).client.recorded) :
    ∃ r, F.Honest r ∧ fin.cmdHash ∈ s.decided r := by
  have hcard := (h.clients addr).recorded fin hfin
  obtain ⟨r, hr, hbyz⟩ := Finset.exists_mem_notMem_of_card_lt_card (Nat.lt_of_le_of_lt F.card_le hcard)
  obtain ⟨f, hf, hd, hh⟩ := exists_resp hr
  obtain ⟨hrep, hdec⟩ := h.told addr r f hf
  have hhon : F.Honest r := ⟨hrep, hbyz⟩
  refine ⟨r, hhon, List.mem_filterMap.mpr ⟨_, hdec hhon hd, ?_⟩⟩
  simp [hh]

/-- Of the honest replicas one has decided the most. -/
theorem Ok.log (h : s.Ok S O C F bank) : ∃ log, s.Log S F log := by
  by_cases hnone : ∃ r, F.Honest r
  · have hfin : Finite ReplicaID :=
      Finite.of_injective UInt16.toFin fun _ _ => UInt16.toFin_inj.mp
    obtain ⟨r, hr, hmax⟩ := Set.exists_max_image {r | F.Honest r} (fun r => (s.decided r).length)
      (Set.toFinite _) hnone
    have hpre (r' : ReplicaID) (hr' : F.Honest r') : s.decided r' <+: s.decided r := by
      rcases (h.net.safe.agree hr' hr).commands with hp | hp
      · exact hp
      · have heq : s.decided r = s.decided r' := hp.eq_of_length_le (hmax r' hr')
        rw [heq]
    refine ⟨s.decided r, .inr ⟨r, hr, rfl⟩, hpre, fun addr fin hf => ?_⟩
    obtain ⟨r', hr', hm⟩ := h.recorded hf
    exact (hpre r' hr').subset hm
  · refine ⟨[], .inl rfl, fun r hr => absurd ⟨r, hr⟩ hnone, fun addr fin hf => ?_⟩
    obtain ⟨r, hr, -⟩ := h.recorded hf
    exact absurd ⟨r, hr⟩ hnone

end

end Service

/-- There is always one log that holds every command any client has recorded, of which
what each honest replica has decided is a prefix; and it is never taken back: the log
of every later state begins with it. -/
theorem acknowledged_commands (S : Setup Hash Sig) (O : Options) (N : Peering Peer) (C : CommandHash Hash)
    (F : Faults S) (bank : SmallBank n) (maxAsyncNum : NetAddr → Nat) (maxIterNum : NetAddr → Int)
    (cid : NetAddr → UInt32) (es es' : List (Serve Hash Sig Peer))
    (h : Run.Allowed (Service.step S O N C) (Service.Admits S O N F)
      (.init S bank fun addr => .init (maxAsyncNum addr) (maxIterNum addr) (cid addr)) (es ++ es')) :
    let init : Service Hash Sig Peer n :=
      .init S bank fun addr => .init (maxAsyncNum addr) (maxIterNum addr) (cid addr)
    ∃ log log', (Run.exec (Service.step S O N C) init es).Log S F log ∧
      (Run.exec (Service.step S O N C) init (es ++ es')).Log S F log' ∧ log <+: log' := by
  intro init
  obtain ⟨hes, hes'⟩ := Run.allowed_append.mp h
  have hok : (Run.exec (Service.step S O N C) init es).Ok S O C F bank :=
    hes.inv (.init fun addr => ⟨_, _, _, rfl⟩) fun _ _ hs he => hs.step he
  have hok' : (Run.exec (Service.step S O N C) init (es ++ es')).Ok S O C F bank :=
    h.inv (.init fun addr => ⟨_, _, _, rfl⟩) fun _ _ hs he => hs.step he
  obtain ⟨log, hlog⟩ := hok.log
  obtain ⟨log', hlog'⟩ := hok'.log
  refine ⟨log, log', hlog, hlog', ?_⟩
  rcases hlog.held with rfl | ⟨r, hr, rfl⟩
  · exact List.nil_prefix
  · refine List.IsPrefix.trans ?_ (hlog'.agreed r hr)
    rw [Run.exec_append]
    exact hes'.rel (I := fun s => s.Ok S O C F bank) (R := fun s s' => s.decided r <+: s'.decided r) hok
      (fun _ _ hs he => hs.step he) (fun _ => List.prefix_rfl) (fun _ _ _ => List.IsPrefix.trans)
      fun _ _ hs he => Service.decided_prefix hs he r

/-- Client 7 sends `depositCmd` to replicas 0 and 1, which get the blocks of the chain, and
hears of replica 0. -/
def depositServed : List (Serve Nat TableSig Nat) :=
  [.client 7 (.trySend [1, 0, 50]), .client 7 (.trySend []), .request 0 depositCmd 7, .pending 0,
    .request 1 depositCmd 7, .pending 1] ++
  (netBoth.map fun e => .replica e.1 e.2) ++ [.client 7 (.resp 0 (depositFin 0))]

theorem acknowledged_commands_depositServed :
    let S := tableSetup 4 chain4
    let s := Run.exec (Service.step S ⟨.threeStep, id⟩ tablePeers depositHash)
      (.init S twoAccounts fun _ => .init 1 1 0) (depositServed ++ [.client 7 (.resp 1 (depositFin 1))])
    (s.clients 7).client.recorded = [depositFin 1] ∧ ∃ log, s.Log S byzantine3 log ∧ 11 ∈ log := by
  intro S s
  obtain ⟨-, log, -, hlog, -⟩ := acknowledged_commands S ⟨.threeStep, id⟩ tablePeers depositHash
    byzantine3 twoAccounts (fun _ => 1) (fun _ => 1) (fun _ => 0) depositServed
    [.client 7 (.resp 1 (depositFin 1))] (by decide +kernel)
  have hrec : (s.clients 7).client.recorded = [depositFin 1] := by decide +kernel
  refine ⟨hrec, log, hlog, hlog.recorded 7 (depositFin 1) ?_⟩
  rw [hrec]
  exact List.mem_singleton_self _

end HotStuffTx
