import HotStuffTx.Provenance
import HotStuffTx.Sample

/-!
# Commit-chain integrity

One replica against any sequence of calls, nested in any way: what it commits
is one chain from the genesis block, decided in order, and nothing it has moved
up moves down again.
-/

set_option linter.unusedSectionVars false

namespace HotStuffTx

open Core Forest

variable {Hash Sig : Type} [DecidableEq Hash]

/-- `parents[0]` of the stored block. -/
def Core.parent (s : Core Hash Sig) (h : Hash) : Option Hash := (s.parents h).head?

/-- The committed blocks form one chain, and the decisions are those of this chain. -/
structure CommitChain (genesis : Hash) (s : Core Hash Sig) : Prop where
  path : Path s.parent genesis (committed s.out) s.bExec
  nodup : (committed s.out).Nodup
  heights : (committed s.out).map s.height = List.range' 1 (committed s.out).length
  decides : s.out.filter Output.isCommit =
    (committed s.out).flatMap fun h => .consensus h :: s.decides h
  decision : ∀ h, s.decision h = true ↔ Ext s.parent h s.bExec
  lag : committed s.out ≠ [] → s.height s.bExec < s.height s.bLock

/-- The members that only move up. -/
structure NoLower (s s' : Core Hash Sig) : Prop where
  hqc : s.height s.hqc.1 ≤ s'.height s'.hqc.1
  bLock : s.height s.bLock ≤ s'.height s'.bLock
  bExec : s.height s.bExec ≤ s'.height s'.bExec
  vheight : s.vheight ≤ s'.vheight

/-- Nothing was decided. -/
structure NothingDecided (s s' : Core Hash Sig) : Prop where
  decision : s'.decision = s.decision
  bExec : s'.bExec = s.bExec
  out : s'.out = s.out

section
variable {S : Setup Hash Sig} {O : Options} {s s' : Core Hash Sig}

theorem Core.StoreOk.ext_iff (hs : StoreOk S s) (hd : s.delivered c = true) :
    Ext s.parent a c ↔ S.Ext a c := by
  constructor
  · intro h
    induction h with
    | refl => exact .refl
    | @step c b hp _ ih =>
      have hp' : S.par c = some b := (hs.parents_head hd).symm.trans hp
      obtain ⟨p, hpar, -, hpd, -⟩ := hs.link (S.ne_genesis_of_par hp') (.inr hd)
      cases hp'.symm.trans hpar
      exact .step hp' (ih hpd)
  · intro h
    induction h with
    | refl => exact .refl
    | @step c b hp _ ih =>
      obtain ⟨p, hpar, -, hpd, -⟩ := hs.link (S.ne_genesis_of_par hp) (.inr hd)
      cases hp.symm.trans hpar
      exact .step ((hs.parents_head hd).trans hp) (ih hpd)

theorem Core.CoreOk.commitChain (h : CoreOk S s) : CommitChain S.genesis s where
  path := h.chain.congr fun x hx => h.store.parents_head (h.delivered_of_mem hx)
  nodup := h.chain.nodup S.par_genesis
  heights := h.chain.map_height S.par_genesis fun x hx =>
    h.store.height (h.store.placed_of_delivered (h.delivered_of_mem hx))
  decides := h.log
  decision x := by
    rw [h.decision, h.store.ext_iff h.delivered_bExec]
  lag hne := by
    refine h.lag.resolve_left fun hg => hne ?_
    have hchain := h.chain
    rw [hg] at hchain
    exact hchain.unique S.par_genesis .nil

theorem Core.Advances.noLower (h : Advances s s') : NoLower s s' :=
  ⟨h.hqc, h.bLock, h.bExec, h.vheight⟩

theorem nothingDecided_refused (h : CoreOk S s) (hr : Refused build s n e s') :
    NothingDecided s s' := by
  obtain ⟨-, -, -, hst, hexec, hout, -⟩ := h.refused hr
  exact ⟨(eq_of_storage hst).2.2.2.1, hexec, hout⟩

/-- A step that throws 'safety breached' has thrown it in `update`. -/
theorem Replica.Stepped.nothingDecided {r r' : Replica Hash Sig} (h : CoreOk S r.core)
    (hs : Stepped S O r e r') (ht : r'.thrown = r.thrown ++ [.safetyBreached]) :
    NothingDecided r.core r'.core := by
  obtain ⟨s₁, n, hm, hr⟩ := hs.breached ht
  obtain ⟨hok, hst, -⟩ := hm.spec h
  have hnd := nothingDecided_refused hok hr
  exact ⟨hnd.decision.trans hst.decision, hnd.bExec.trans hst.bExec, hnd.out.trans hst.out⟩

/-- Whatever calls are made, a replica commits one chain, its heights never
fall, and a 'safety breached' decides nothing. -/
theorem commit_chain_integrity (S : Setup Hash Sig) (O : Options) (rid : ReplicaID)
    (es fs : List (Event Hash Sig))
    (h : Run.Allowed (Replica.step S O) Replica.Sound (Replica.init S rid) (es ++ fs)) :
    let r := Run.exec (Replica.step S O) (Replica.init S rid) es
    let r' := Run.exec (Replica.step S O) r fs
    CommitChain S.genesis r.core ∧ NoLower r.core r'.core ∧
      ∀ e, r.Sound e → (r.step S O e).thrown = r.thrown ++ [.safetyBreached] →
        NothingDecided r.core (r.step S O e).core := by
  intro r r'
  obtain ⟨hes, hfs⟩ := Run.allowed_append.mp h
  have hstep (r : Replica Hash Sig) (e : Event Hash Sig) (hr : CoreOk S r.core) (he : r.Sound e) :=
    (Replica.stepped (O := O) hr he).coreOk hr
  have hr : CoreOk S r.core :=
    hes.inv coreOk_init fun r e hr he => (hstep r e hr he).1
  refine ⟨hr.commitChain, ?_, fun e he ht => (Replica.stepped hr he).nothingDecided hr ht⟩
  exact (hfs.rel (R := fun r r' => Advances r.core r'.core) hr
    (fun r e hr he => (hstep r e hr he).1) (fun _ => .refl) (fun _ _ _ => .trans)
    fun r e hr he => (hstep r e hr he).2).noLower

theorem commit_chain_integrity_chain4 :
    let step := Replica.step (tableSetup 4 chain4) ⟨.threeStep, id⟩
    let r := Run.exec step (Replica.init (tableSetup 4 chain4) 0)
      ((List.range' 1 4).flatMap fun h => tableFeed chain4 h 3)
    committed r.core.out = [1] ∧ CommitChain 0 r.core := by
  refine ⟨by decide +kernel, ?_⟩
  exact (commit_chain_integrity (tableSetup 4 chain4) ⟨.threeStep, id⟩ 0 _ [] (by decide +kernel)).1

end

end HotStuffTx
