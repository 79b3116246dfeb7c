import HotStuffTx.Refinement
import HotStuffTx.Batches
import HotStuffTx.Rotation

/-!
# The replicas with their pacemakers

A run interleaves the steps of the honest replicas, each with its pacemaker:
impeachments, timers, re-proposals and the commands of the clients come at any
time. Below the pacemakers it is a run of the system of the replicas.
-/

set_option linter.unusedSectionVars false

namespace HotStuffTx

open Core

variable {Hash Sig : Type} [DecidableEq Hash]

abbrev PacedSystem (Hash Sig : Type) := ReplicaID → Paced Hash Sig

namespace PacedSystem

variable (S : Setup Hash Sig) (P : Running Hash)

def init : PacedSystem Hash Sig := Paced.init S P

/-- Replica `e.1` takes the step `e.2`. -/
def step (sys : PacedSystem Hash Sig) (e : ReplicaID × Occurrence Hash Sig) : PacedSystem Hash Sig :=
  Function.update sys e.1 ((sys e.1).step S P e.2)

/-- The replicas under the pacemakers. -/
def below (sys : PacedSystem Hash Sig) : System Hash Sig := fun r => (sys r).view.replica

end PacedSystem

/-- What the network layer lets through to an honest replica, and when the event loop
calls its handlers. -/
def Faults.AdmitsPaced {S : Setup Hash Sig} (F : Faults S) (sys : PacedSystem Hash Sig)
    (e : ReplicaID × Occurrence Hash Sig) : Prop :=
  (F.Honest e.1 ∧ (sys e.1).Admits e.2 ∧ (sys e.1).Fetched e.2) ∧
    match e.2 with
    | .call c => F.Admits sys.below (e.1, .call c)
    | _ => True

instance {S : Setup Hash Sig} (F : Faults S) (sys : PacedSystem Hash Sig)
    (e : ReplicaID × Occurrence Hash Sig) : Decidable (F.AdmitsPaced sys e) := by
  unfold Faults.AdmitsPaced
  have h : Decidable (match e.2 with
      | .call c => F.Admits sys.below (e.1, .call c)
      | _ => True) := by
    split <;> infer_instance
  infer_instance

/-- The proposal handled or made in the step follows the chain of the replica. -/
def Paced.Follows (P : Running Hash) (m : Paced Hash Sig) (e : Occurrence Hash Sig) : Prop :=
  match e, m.proposes P e with
  | .call c, _ => m.core.Follows (.call c)
  | _, some cmds => m.core.Follows (.call (.propose cmds m.core.getParents []))
  | _, none => True

instance (P : Running Hash) (m : Paced Hash Sig) (e : Occurrence Hash Sig) :
    Decidable (m.Follows P e) :=
  show Decidable (match e, m.proposes P e with
    | .call c, _ => m.core.Follows (.call c)
    | _, some cmds => m.core.Follows (.call (.propose cmds m.core.getParents []))
    | _, none => True) from
  match e, m.proposes P e with
  | .call c, _ => inferInstanceAs (Decidable (m.core.Follows (.call c)))
  | .impeach, some cmds | .expire, some cmds | .repropose, some cmds | .submit _, some cmds
  | .pending, some cmds | .resume, some cmds =>
    inferInstanceAs (Decidable (m.core.Follows (.call (.propose cmds m.core.getParents []))))
  | .impeach, none | .expire, none | .repropose, none | .submit _, none | .pending, none
  | .resume, none => instDecidableTrue

section
variable {S : Setup Hash Sig} {P : Running Hash} {F : Faults S} {sys : PacedSystem Hash Sig}
  {m : Paced Hash Sig}

/-- Every event that a step makes below is one the system admits there. -/
theorem Paced.Drives.admits {r : ReplicaID} {e : Occurrence Hash Sig} {w : Watched Hash Sig}
    {ev : Event Hash Sig} (he : F.AdmitsPaced sys (r, e)) (hf : P.build = .twoStep ∨ (sys r).Follows P e)
    (hw : w.Ok S) (hd : w.Disciplined S ev) (hdr : (sys r).Drives P e w ev) :
    F.Admits (Function.update sys.below r w.replica) (r, ev) ∧
      (P.build = .twoStep ∨ w.replica.core.Follows ev) := by
  have hhonest : F.Honest r := he.1.1
  have hsame : Function.update sys.below r (sys r).view.replica = sys.below :=
    Function.update_eq_self r sys.below
  cases ev with
  | resume => exact ⟨hhonest, .inr trivial⟩
  | call c =>
    cases c with
    | asyncQcFinish => exact ⟨hhonest, .inr trivial⟩
    | rejectPm => exact ⟨hhonest, .inr trivial⟩
    | propose cmds parents extra =>
      obtain ⟨rfl, hp⟩ := hdr
      obtain ⟨rfl, -⟩ := hd
      refine ⟨⟨hhonest, fun p hp => ?_⟩, hf.imp_right fun hf => ?_⟩
      · rw [List.mem_singleton.mp hp, Function.update_self]
        exact hw.tail.tail
      · unfold Paced.Follows at hf
        cases e with
        | call => cases hp
        | _ =>
          simp only [hp] at hf
          exact hf
    | addBlk =>
      obtain ⟨rfl, rfl⟩ := hdr
      exact ⟨by rw [hsame]; exact he.2, .inr trivial⟩
    | deliver =>
      obtain ⟨rfl, rfl⟩ := hdr
      exact ⟨by rw [hsame]; exact he.2, .inr trivial⟩
    | receiveProposal =>
      obtain ⟨rfl, rfl⟩ := hdr
      exact ⟨by rw [hsame]; exact he.2, hf⟩
    | receiveVote =>
      obtain ⟨rfl, rfl⟩ := hdr
      exact ⟨by rw [hsame]; exact he.2, .inr trivial⟩

/-- What holds at every moment of a run. -/
structure PacedSystem.Ok (S : Setup Hash Sig) (P : Running Hash) (F : Faults S)
    (sys : PacedSystem Hash Sig) : Prop where
  safe : Safe S P.options F sys.below
  view : ∀ r, (sys r).view.Ok S
  poised : ∀ r, (sys r).Poised S

theorem PacedSystem.Ok.step {e : ReplicaID × Occurrence Hash Sig} (h : sys.Ok S P F)
    (he : F.AdmitsPaced sys e) (hf : P.build = .twoStep ∨ (sys e.1).Follows P e.2) :
    (sys.step S P e).Ok S P F := by
  obtain ⟨r, e⟩ := e
  have hd := Paced.driven (P := P) (h.view r) (h.poised r) he.1.2.1 he.1.2.2
  have hsafe : Safe S P.options F (Function.update sys.below r ((sys r).step S P e).view.replica) ∧
      ((sys r).step S P e).view.Ok S := by
    refine hd.run.inv (I := fun w => Safe S P.options F (Function.update sys.below r w.replica) ∧ w.Ok S)
      ⟨?_, h.view r⟩ ?_
    · have hsame : Function.update sys.below r (sys r).view.replica = sys.below :=
        Function.update_eq_self r sys.below
      rw [hsame]
      exact h.safe
    · rintro w ev ⟨hs, hw⟩ ⟨hdis, hdr⟩
      obtain ⟨hadm, hfol⟩ := hdr.admits he hf hw hdis
      refine ⟨?_, (hw.step hdis).1⟩
      have hcore : Function.update sys.below r w.replica r = w.replica := Function.update_self ..
      have hnext := hs.step (O := P.options) (e := (r, ev)) hadm (hfol.imp id fun hf => hcore.symm ▸ hf)
      simp only [System.step, hcore, Function.update_idem] at hnext
      exact hnext
  have hother {I : Paced Hash Sig → Prop} (hr : I ((sys r).step S P e)) (ho : ∀ x, I (sys x)) x :
      I (sys.step S P (r, e) x) := by
    unfold PacedSystem.step
    by_cases hx : x = r
    · subst hx
      rwa [Function.update_self]
    · rw [Function.update_of_ne hx]
      exact ho x
  refine ⟨?_, hother (I := fun m => m.view.Ok S) hsafe.2 h.view,
    hother (I := fun m => m.Poised S) (hd.poised (h.poised r)) h.poised⟩
  have hbelow : (sys.step S P (r, e)).below =
      Function.update sys.below r ((sys r).step S P e).view.replica := by
    funext x
    unfold PacedSystem.below PacedSystem.step
    by_cases hx : x = r
    · subst hx
      simp only [Function.update_self]
    · simp only [Function.update_of_ne hx]
  rw [hbelow]
  exact hsafe.1

theorem PacedSystem.ok_init : (PacedSystem.init S P).Ok S P F :=
  ⟨safe_init, fun _ => Watched.ok_init, fun _ => Paced.poised_init⟩

end

/-- With their pacemakers, whatever they do, honest replicas agree: in the two-step
build, and in the default one where each proposal handled or made follows the chain of
its replica. -/
theorem paced_agreement (S : Setup Hash Sig) (P : Running Hash) (F : Faults S)
    (es : List (ReplicaID × Occurrence Hash Sig))
    (h : Run.Allowed (PacedSystem.step S P) (fun sys e => F.AdmitsPaced sys e ∧
      (P.build = .twoStep ∨ (sys e.1).Follows P e.2)) (PacedSystem.init S P) es) :
    let sys := Run.exec (PacedSystem.step S P) (PacedSystem.init S P) es
    (∀ r r', F.Honest r → F.Honest r' → Agree (sys r).view.replica (sys r').view.replica) ∧
      ∀ r, F.Honest r → ∀ x ∈ (sys r).thrown, x.1 ≠ .safetyBreached := by
  intro sys
  have hok : sys.Ok S P F :=
    h.inv PacedSystem.ok_init fun sys e hs he => hs.step he.1 he.2
  refine ⟨fun _ _ => hok.safe.agree, fun r hr x hx hbad => hok.safe.breached r hr ?_⟩
  exact List.mem_map.mpr ⟨x, hx, hbad⟩

/-- Replicas 0 and 1 of 4 receive the blocks of the chain from replica 3; replica 2
takes a command, and replica 1 has impeached. -/
def pacedBoth : List (ReplicaID × Occurrence Nat TableSig) :=
  [(2, .submit 7), (2, .pending), (2, .resume), (2, .resume), (1, .impeach)] ++
    [1, 2, 3, 4].flatMap fun h => (pacedFeed chain4 h 3).map (0, ·) ++ (pacedFeed chain4 h 3).map (1, ·)

theorem paced_agreement_pacedBoth :
    let S := tableSetup 4 chain4
    let P : Running Nat := ⟨.threeStep, .roundRobin, 1, 0⟩
    let sys := Run.exec (PacedSystem.step S P) (PacedSystem.init S P) pacedBoth
    decidedCmds (sys 0).core.out = [11] ∧ decidedCmds (sys 1).core.out = [11] ∧
      (sys 1).rotating = true ∧ Agree (sys 0).view.replica (sys 1).view.replica := by
  intro S P sys
  have h : Run.Allowed (PacedSystem.step S P) (fun sys e =>
      Faults.AdmitsPaced (S := S) ⟨{3}, by decide +kernel⟩ sys e ∧
        (P.build = .twoStep ∨ (sys e.1).Follows P e.2)) (PacedSystem.init S P) pacedBoth := by
    decide +kernel
  exact ⟨by decide +kernel, by decide +kernel, by decide +kernel,
    (paced_agreement S P _ pacedBoth h).1 0 1 (by decide +kernel) (by decide +kernel)⟩

end HotStuffTx
