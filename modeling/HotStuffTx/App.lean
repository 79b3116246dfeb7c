import HotStuffTx.Agreement
import HotStuffTx.SmallBank

/-!
# The demo application

Embeds `HotStuffApp::client_request_cmd_handler` with the two ends of its
callback: the handler of `cmd_pending`, which stores it in `decision_waiting`
or runs it at once, and `do_decide`, which runs what is stored. The pacemaker
half of that handler does not touch the bank and is left out.
-/

set_option linter.unusedSectionVars false

namespace HotStuffTx

open Core

/-- `CommandDummy`; its hash is taken of the other members. -/
structure CommandDummy where
  cid : UInt32
  n : UInt32
  payload : List UInt64
  deriving DecidableEq

/-- The hash function on commands, free of collisions, and `uint256_t()`. -/
structure CommandHash (Hash : Type) where
  getHash : CommandDummy → Hash
  getHash_inj : ∀ {a b}, getHash a = getHash b → a = b
  zero : Hash

/-- `NetAddr`: a client. -/
abbrev NetAddr := Nat

/-- `commit_cb_t`: what the lambda of `client_request_cmd_handler` captured. -/
structure CommitCb where
  cmd : CommandDummy
  addr : NetAddr
  deriving DecidableEq

/-- `cmd_pending`, `decision_waiting`, the bank and the responses queued to be
sent, with the log of the calls of `execute_transaction`. `bank` is `none` once
one of them has read outside its data. -/
structure App (Hash : Type) (n : Nat) where
  id : ReplicaID
  cmdPending : List CommitCb
  decisionWaiting : List (Hash × CommitCb)
  bank : Option (SmallBank n)
  respQueue : List (Finality Hash × NetAddr)
  executed : List CommandDummy

/-- A client's message, a round of the handler of `cmd_pending`, or a virtual
call of the core. -/
inductive AppEvent (Hash Sig : Type)
  | request (cmd : CommandDummy) (addr : NetAddr)
  | pending
  | output (o : Output Hash Sig)

namespace App

variable {Hash Sig : Type} [DecidableEq Hash] {n : Nat}

def init (id : ReplicaID) (bank : SmallBank n) : App Hash n where
  id := id
  cmdPending := []
  decisionWaiting := []
  bank := bank
  respQueue := []
  executed := []

/-- The lambda of `client_request_cmd_handler`. -/
def commitCb (a : App Hash n) (cb : CommitCb) (fin : Finality Hash) : App Hash n :=
  { a with
    bank := a.bank.bind fun b => (b.executeTransaction cb.cmd.payload).map Prod.fst
    respQueue := a.respQueue ++ [(fin, cb.addr)]
    executed := a.executed ++ [cb.cmd] }

/-- `exec_command` enqueues the hash with the callback. -/
def clientRequestCmdHandler (a : App Hash n) (cmd : CommandDummy) (addr : NetAddr) : App Hash n :=
  { a with cmdPending := a.cmdPending ++ [⟨cmd, addr⟩] }

/-- One round of the loop of the handler of `cmd_pending`, up to the pacemaker. -/
def handlePending (C : CommandHash Hash) (a : App Hash n) : App Hash n :=
  match a.cmdPending with
  | [] => a
  | cb :: rest =>
    let a := { a with cmdPending := rest }
    let cmdHash := C.getHash cb.cmd
    match a.decisionWaiting.lookup cmdHash with
    | none => { a with decisionWaiting := (cmdHash, cb) :: a.decisionWaiting }
    | some _ => a.commitCb cb
      { rid := a.id, decision := 0, cmdIdx := 0, cmdHeight := 0, cmdHash := cmdHash, blkHash := C.zero }

def doDecide (a : App Hash n) (fin : Finality Hash) : App Hash n :=
  match a.decisionWaiting.lookup fin.cmdHash with
  | none => a
  | some cb =>
    let a := a.commitCb cb fin
    { a with decisionWaiting := a.decisionWaiting.filter (·.1 ≠ fin.cmdHash) }

def step (C : CommandHash Hash) (a : App Hash n) : AppEvent Hash Sig → App Hash n
  | .request cmd addr => a.clientRequestCmdHandler cmd addr
  | .pending => a.handlePending C
  | .output (.decide fin) => a.doDecide fin
  | .output _ => a

end App

-- ---------------------------------------------------------------------------
-- What was executed
-- ---------------------------------------------------------------------------

theorem decidedCmds_append (o o' : List (Output Hash Sig)) :
    decidedCmds (o ++ o') = decidedCmds o ++ decidedCmds o' :=
  List.filterMap_append

/-- The virtual calls of the core in a run of the application. -/
def AppEvent.outputs (es : List (AppEvent Hash Sig)) : List (Output Hash Sig) :=
  es.filterMap fun
    | .output o => some o
    | _ => none

namespace App

variable {Hash Sig : Type} [DecidableEq Hash] {n : Nat} {C : CommandHash Hash}

/-- A decided command was submitted here before, and none is submitted again
while it waits. -/
def Submitted (C : CommandHash Hash) (a : App Hash n) : AppEvent Hash Sig → Prop
  | .request .. => True
  | .pending => ∀ cb ∈ a.cmdPending.head?, (a.decisionWaiting.lookup (C.getHash cb.cmd)).isNone
  | .output (.decide fin) => (a.decisionWaiting.lookup fin.cmdHash).isSome
  | .output _ => True

instance (a : App Hash n) (e : AppEvent Hash Sig) : Decidable (a.Submitted C e) := by
  unfold Submitted
  split <;> infer_instance

/-- Execution is the decisions, each once and in their order. -/
def ExecutesDecided (C : CommandHash Hash) (a : App Hash n) (out : List (Output Hash Sig)) : Prop :=
  a.executed.map C.getHash = decidedCmds out

/-- The bank is what the executed commands make of the initial one. -/
def applyAll (b : Option (SmallBank n)) (cmds : List CommandDummy) : Option (SmallBank n) :=
  cmds.foldl (fun b cmd => b.bind fun b => (b.executeTransaction cmd.payload).map Prod.fst) b

structure Ok (C : CommandHash Hash) (b₀ : SmallBank n) (a : App Hash n)
    (out : List (Output Hash Sig)) : Prop where
  waiting : ∀ h cb, (h, cb) ∈ a.decisionWaiting → C.getHash cb.cmd = h
  bank : a.bank = applyAll (some b₀) a.executed
  answered : ∀ fin addr, (fin, addr) ∈ a.respQueue → fin.decision = 1 → .decide fin ∈ out

theorem ok_init {b₀ : SmallBank n} : Ok C b₀ (App.init rid b₀) ([] : List (Output Hash Sig)) where
  waiting := by simp [init]
  bank := rfl
  answered := by simp [init]

theorem mem_of_lookup {l : List (Hash × CommitCb)} (h : l.lookup k = some cb) : (k, cb) ∈ l := by
  obtain ⟨l₁, l₂, rfl, -⟩ := List.lookup_eq_some_iff.mp h
  simp

section
variable {b₀ : SmallBank n} {a : App Hash n} {out : List (Output Hash Sig)}

/-- Running a callback applies its command and queues the answer. -/
theorem Ok.commitCb (h : Ok C b₀ a out) (hfin : fin.decision = 1 → .decide fin ∈ out) :
    Ok C b₀ (a.commitCb cb fin) out where
  waiting := h.waiting
  bank := by simp [App.commitCb, applyAll, h.bank]
  answered f addr hf hd := by
    rcases List.mem_append.mp hf with hf | hf
    · exact h.answered f addr hf hd
    · obtain ⟨rfl, rfl⟩ : f = fin ∧ addr = cb.addr := by simpa using hf
      exact hfin hd

theorem Ok.append (h : Ok C b₀ a out) : Ok C b₀ a (out ++ out') :=
  ⟨h.waiting, h.bank, fun fin addr hf hd => List.mem_append_left _ (h.answered fin addr hf hd)⟩

theorem Ok.handlePending (h : Ok C b₀ a out) : Ok C b₀ (a.handlePending C) out := by
  unfold App.handlePending
  split
  · exact h
  · rename_i cb rest _
    have hrest : Ok C b₀ { a with cmdPending := rest } out := ⟨h.waiting, h.bank, h.answered⟩
    cases hl : a.decisionWaiting.lookup (C.getHash cb.cmd) with
    | none =>
      simp only [hl]
      refine ⟨fun k cb' hm => ?_, h.bank, h.answered⟩
      rcases List.mem_cons.mp hm with hm | hm
      · cases hm
        rfl
      · exact h.waiting k cb' hm
    | some _ =>
      simp only [hl]
      exact hrest.commitCb nofun

theorem Ok.doDecide (h : Ok C b₀ a out) (hfin : .decide fin ∈ out) : Ok C b₀ (a.doDecide fin) out := by
  unfold App.doDecide
  cases a.decisionWaiting.lookup fin.cmdHash with
  | none => exact h
  | some cb =>
    have hcb : Ok C b₀ (a.commitCb cb fin) out := h.commitCb fun _ => hfin
    exact ⟨fun k cb' hm => h.waiting k cb' (List.mem_filter.mp hm).1, hcb.bank, hcb.answered⟩

theorem Ok.step (h : Ok C b₀ a out) (e : AppEvent Hash Sig) :
    Ok C b₀ (a.step C e) (out ++ AppEvent.outputs [e]) := by
  have happ : Ok C b₀ a (out ++ AppEvent.outputs [e]) := h.append
  cases e with
  | request cmd addr => exact ⟨happ.waiting, happ.bank, happ.answered⟩
  | pending => exact happ.handlePending
  | output o =>
    cases o with
    | decide fin => exact happ.doDecide (by simp [AppEvent.outputs])
    | _ => exact happ

/-- A step executes what it decides exactly where its commands were submitted. -/
theorem Ok.submitted_iff (h : Ok C b₀ a out) (e : AppEvent Hash Sig) : a.Submitted C e ↔
    (a.step C e).executed.map C.getHash =
      a.executed.map C.getHash ++ decidedCmds (AppEvent.outputs [e]) := by
  cases e with
  | request cmd addr => simp [Submitted, App.step, clientRequestCmdHandler, AppEvent.outputs, decidedCmds]
  | pending =>
    simp only [Submitted, App.step, App.handlePending, AppEvent.outputs, decidedCmds,
      List.filterMap_cons, List.filterMap_nil, List.append_nil]
    cases hp : a.cmdPending with
    | nil => simp
    | cons cb rest =>
      cases hl : a.decisionWaiting.lookup (C.getHash cb.cmd) with
      | none => simp only [List.head?_cons, Option.mem_some_iff, forall_eq', hl, Option.isNone_none]
      | some _ =>
        simp [hl, App.commitCb, -List.lookup_eq_none_iff, -Option.isNone_iff_eq_none]
  | output o =>
    cases o with
    | decide fin =>
      simp only [Submitted, App.step, App.doDecide, AppEvent.outputs, decidedCmds,
        List.filterMap_cons, List.filterMap_nil]
      cases hl : a.decisionWaiting.lookup fin.cmdHash with
      | none => simp
      | some cb => simp [App.commitCb, h.waiting _ _ (mem_of_lookup hl)]
    | _ => simp [Submitted, App.step, AppEvent.outputs, decidedCmds]

/-- The whole run executes what it decides, at every point of it, exactly where
every step of it meets the condition. -/
theorem Ok.allowed_iff (h : Ok C b₀ a out) (hx : a.ExecutesDecided C out)
    (es : List (AppEvent Hash Sig)) : Run.Allowed (App.step C) (App.Submitted C) a es ↔
      ∀ pre, pre <+: es →
        (Run.exec (App.step C) a pre).ExecutesDecided C (out ++ AppEvent.outputs pre) := by
  induction es generalizing a out with
  | nil => simp [Run.Allowed, AppEvent.outputs, hx]
  | cons e es ih =>
    have hout (l : List (AppEvent Hash Sig)) :
        out ++ AppEvent.outputs (e :: l) = out ++ AppEvent.outputs [e] ++ AppEvent.outputs l := by
      simp only [AppEvent.outputs, List.append_assoc, ← List.filterMap_append,
        List.singleton_append]
    have hstep : a.Submitted C e ↔ (a.step C e).ExecutesDecided C (out ++ AppEvent.outputs [e]) := by
      rw [h.submitted_iff, ExecutesDecided, decidedCmds_append, ← hx]
    simp only [Run.Allowed, hstep]
    constructor
    · rintro ⟨he, hes⟩ pre hpre
      rcases List.prefix_cons_iff.mp hpre with rfl | ⟨l, rfl, hl⟩
      · simpa [AppEvent.outputs] using hx
      · rw [hout]
        exact (ih (h.step e) he).mp hes l hl
    · intro hall
      have he := hall [e] (by simp)
      exact ⟨he, (ih (h.step e) he).mpr fun l hl => hout l ▸ hall (e :: l) (by simpa using hl)⟩

theorem Ok.run (h : Ok C b₀ a out) (es : List (AppEvent Hash Sig)) :
    Ok C b₀ (Run.exec (App.step C) a es) (out ++ AppEvent.outputs es) := by
  induction es generalizing a out with
  | nil => simpa [AppEvent.outputs] using h
  | cons e es ih =>
    have := ih (h.step e)
    rwa [List.append_assoc, AppEvent.outputs, AppEvent.outputs, ← List.filterMap_append] at this

end

end App

-- ---------------------------------------------------------------------------
-- Two replicas
-- ---------------------------------------------------------------------------

section
variable {Hash Sig : Type} [DecidableEq Hash] {n : Nat}

theorem App.bank_eq {C : CommandHash Hash} {b₀ : SmallBank n} {a a' : App Hash n}
    {out out' : List (Output Hash Sig)} (h : a.Ok C b₀ out) (h' : a'.Ok C b₀ out')
    (hx : a.executed.map C.getHash = a'.executed.map C.getHash) : a.bank = a'.bank := by
  have hinj : Function.Injective C.getHash := fun _ _ => C.getHash_inj
  rw [h.bank, h'.bank, List.map_injective_iff.mpr hinj hx]

/-- A replica executes what it decides exactly where every decided command was
submitted to it before and none was submitted twice while it waited. Two such
replicas that have committed the same blocks have the same balances. -/
theorem bank_replication (S : Setup Hash Sig) (O : Options) (C : CommandHash Hash)
    (b₀ : SmallBank n) (rid rid' : ReplicaID) (calls calls' : List (Event Hash Sig))
    (es es' : List (AppEvent Hash Sig))
    (h : Run.Allowed (Replica.step S O) Replica.Sound (Replica.init S rid) calls)
    (h' : Run.Allowed (Replica.step S O) Replica.Sound (Replica.init S rid') calls')
    (ho : AppEvent.outputs es = (Run.exec (Replica.step S O) (Replica.init S rid) calls).core.out)
    (ho' : AppEvent.outputs es' = (Run.exec (Replica.step S O) (Replica.init S rid') calls').core.out) :
    let a := App.init rid b₀
    let a' := App.init rid' b₀
    (Run.Allowed (App.step C) (App.Submitted C) a es ↔ ∀ pre, pre <+: es →
      (Run.exec (App.step C) a pre).ExecutesDecided C (AppEvent.outputs pre)) ∧
    (Run.Allowed (App.step C) (App.Submitted C) a es →
      Run.Allowed (App.step C) (App.Submitted C) a' es' →
      committed (AppEvent.outputs es) = committed (AppEvent.outputs es') →
      (Run.exec (App.step C) a es).bank = (Run.exec (App.step C) a' es').bank ∧
      (Run.exec (App.step C) a es).executed.map C.getHash =
        (committed (AppEvent.outputs es)).flatMap S.cmdsOf) := by
  intro a a'
  have hinit (rid : ReplicaID) : App.Ok C b₀ (App.init rid b₀) ([] : List (Output Hash Sig)) :=
    App.ok_init
  have hiff (rid : ReplicaID) (es : List (AppEvent Hash Sig)) := (hinit rid).allowed_iff rfl es
  refine ⟨hiff rid es, fun hes hes' hcom => ?_⟩
  have hx := (hiff rid es).mp hes es List.prefix_rfl
  have hx' := (hiff rid' es').mp hes' es' List.prefix_rfl
  have hcore : CoreOk S (Run.exec (Replica.step S O) (Replica.init S rid) calls).core :=
    h.inv coreOk_init fun r e hr he => (Replica.stepped (O := O) hr he).coreOk hr |>.1
  have hcore' : CoreOk S (Run.exec (Replica.step S O) (Replica.init S rid') calls').core :=
    h'.inv coreOk_init fun r e hr he => (Replica.stepped (O := O) hr he).coreOk hr |>.1
  have hd : decidedCmds (AppEvent.outputs es) = (committed (AppEvent.outputs es)).flatMap S.cmdsOf := by
    rw [ho, hcore.decidedCmds_eq]
  have hd' : decidedCmds (AppEvent.outputs es') = (committed (AppEvent.outputs es)).flatMap S.cmdsOf := by
    rw [hcom, ho', hcore'.decidedCmds_eq]
  have hmap := hx.trans hd
  exact ⟨App.bank_eq ((hinit rid).run es) ((hinit rid').run es') (hmap.trans (hx'.trans hd').symm), hmap⟩

/-- A deposit of 50 to account 0. -/
def depositCmd : CommandDummy := ⟨0, 0, [1, 0, 50]⟩

/-- Gives `depositCmd` the hash of the command in the first block of `chain4`. -/
def depositHash : CommandHash Nat where
  getHash c :=
    if c = depositCmd then 11
    else 12 + Encodable.encode (c.cid.toNat, c.n.toNat, c.payload.map UInt64.toNat)
  getHash_inj := by
    intro a b h
    split at h <;> split at h
    · rename_i ha hb
      rw [ha, hb]
    · omega
    · omega
    · obtain ⟨ca, na, pa⟩ := a
      obtain ⟨cb, nb, pb⟩ := b
      have h := Encodable.encode_injective (Nat.add_left_cancel h)
      simp only [Prod.mk.injEq] at h
      obtain ⟨hc, hn, hp⟩ := h
      have hinj : Function.Injective UInt64.toNat := fun _ _ => UInt64.toNat_inj.mp
      rw [UInt32.toNat_inj.mp hc, UInt32.toNat_inj.mp hn, List.map_injective_iff.mpr hinj hp]
  zero := 0

/-- Replica `rid` commits the first block of `chain4`. -/
def chain4Calls : List (Event Nat TableSig) := (List.range' 1 4).flatMap fun h => tableFeed chain4 h 3

def chain4Outputs (rid : ReplicaID) : List (AppEvent Nat TableSig) :=
  (Run.exec (Replica.step (tableSetup 4 chain4) ⟨.threeStep, id⟩)
    (Replica.init (tableSetup 4 chain4) rid) chain4Calls).core.out.map .output

def twoAccounts : SmallBank 2 := ⟨#v[100, 100], #v[0, 0]⟩

theorem bank_replication_chain4 :
    let es : List (AppEvent Nat TableSig) := [.request depositCmd 7, .pending]
    let a := Run.exec (App.step depositHash) (App.init 0 twoAccounts) (es ++ chain4Outputs 0)
    let a' := Run.exec (App.step depositHash) (App.init 1 twoAccounts) (es ++ chain4Outputs 1)
    a.bank = some ⟨#v[150, 100], #v[0, 0]⟩ ∧ a.bank = a'.bank := by
  refine ⟨by decide +kernel, ?_⟩
  exact ((bank_replication (tableSetup 4 chain4) ⟨.threeStep, id⟩ depositHash twoAccounts 0 1
    chain4Calls chain4Calls _ _ (by decide +kernel) (by decide +kernel) (by decide +kernel)
    (by decide +kernel)).2 (by decide +kernel) (by decide +kernel) (by decide +kernel)).1

/-- Replica 1 is sent the command after its block has committed: it never
executes it. Sent a second time while it waits, replica 0 executes it twice. -/
theorem bank_replication_lateRequest :
    let es : List (AppEvent Nat TableSig) := [.request depositCmd 7, .pending]
    let bank (rid : ReplicaID) (es : List (AppEvent Nat TableSig)) :=
      (Run.exec (App.step depositHash) (App.init rid twoAccounts) es).bank
    committed (AppEvent.outputs (es ++ chain4Outputs 0)) = [1] ∧
      committed (AppEvent.outputs (chain4Outputs 1 ++ es)) = [1] ∧
      bank 0 (es ++ chain4Outputs 0) = some ⟨#v[150, 100], #v[0, 0]⟩ ∧
      bank 0 (es ++ es ++ chain4Outputs 0) = some ⟨#v[200, 100], #v[0, 0]⟩ ∧
      bank 1 (chain4Outputs 1 ++ es) = some twoAccounts := by
  decide +kernel

end

end HotStuffTx
