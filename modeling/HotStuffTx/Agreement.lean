import HotStuffTx.Integrity
import HotStuffTx.Safe

/-!
# Agreement

Two honest replicas decide along one chain. The two-step build agrees in every
run, since its `update` has raised the lock to the certificate of a block before
the vote rule looks at the block. In the three-step build the certificate of a
block off its own parent chain can pass the vote rule in place of the lock;
where no proposal does that (`Follows`) the honest replicas agree.
-/

set_option linter.unusedSectionVars false

namespace HotStuffTx

open Core Forest

variable {Hash Sig : Type} [DecidableEq Hash]

/-- The commands of the `do_decide` calls. -/
def decidedCmds (out : List (Output Hash Sig)) : List Hash :=
  out.filterMap fun
    | .decide fin => some fin.cmdHash
    | _ => none

/-- What two honest replicas have committed is on one chain. -/
structure Agree (r r' : Replica Hash Sig) : Prop where
  chain : ∀ a b, r.core.decision a = true → r'.core.decision b = true →
    Ext r'.core.parent a b ∨ Ext r.core.parent b a
  commands : decidedCmds r.core.out <+: decidedCmds r'.core.out ∨
    decidedCmds r'.core.out <+: decidedCmds r.core.out

section
variable {S : Setup Hash Sig} {O : Options} {F : Faults S} {sys : System Hash Sig}

theorem decidedCmds_filter (out : List (Output Hash Sig)) :
    decidedCmds (out.filter Output.isCommit) = decidedCmds out := by
  induction out with
  | nil => rfl
  | cons o out ih =>
    simp only [decidedCmds] at ih
    cases o <;> simp [decidedCmds, Output.isCommit, List.filter_cons, ih]

theorem decidedCmds_decides (s : Core Hash Sig) (h : Hash) :
    decidedCmds (.consensus h :: s.decides h) = s.cmds h := by
  simp only [decidedCmds, decides, List.filterMap_cons, List.mapIdx_eq_zipIdx_map,
    List.filterMap_map, Function.comp_def]
  rw [List.filterMap_eq_map']
  exact List.zipIdx_map_fst 0 _

theorem Core.CoreOk.decidedCmds_eq {s : Core Hash Sig} (h : CoreOk S s) :
    decidedCmds s.out = (committed s.out).flatMap S.cmdsOf := by
  rw [← decidedCmds_filter, h.log, decidedCmds, List.filterMap_flatMap]
  refine List.flatMap_congr fun x hx => ?_
  rw [← h.store.cmds (h.store.isBlkFetched_of_placed
    (h.store.placed_of_delivered (h.delivered_of_mem hx)))]
  exact decidedCmds_decides s x

theorem Safe.agree (h : Safe S O F sys) (hr : F.Honest r) (hr' : F.Honest r') :
    Agree (sys r) (sys r') := by
  have hok x := (h.votes x).core
  have htotal := h.exec_total hr hr'
  refine ⟨fun a b ha hb => ?_, ?_⟩
  · have hda := (hok r).store.delivered_of_decision ha
    have hdb := (hok r').store.delivered_of_decision hb
    rw [(hok r').store.ext_iff hdb, (hok r).store.ext_iff hda]
    have hae := (hok r).decision.mp ha
    have hbe := (hok r').decision.mp hb
    rcases htotal with hext | hext
    · exact (hae.trans hext).total hbe
    · exact hae.total (hbe.trans hext)
  · rw [(hok r).decidedCmds_eq, (hok r').decidedCmds_eq]
    have hmap {l l' : List Hash} (hl : l <+: l') :
        l.flatMap S.cmdsOf <+: l'.flatMap S.cmdsOf := by
      obtain ⟨t, rfl⟩ := hl
      rw [List.flatMap_append]
      exact List.prefix_append _ _
    rcases htotal with hext | hext
    · exact .inl (hmap ((hok r).chain.prefix_of_ext S.par_genesis (hok r').chain hext))
    · exact .inr (hmap ((hok r').chain.prefix_of_ext S.par_genesis (hok r).chain hext))

end

/-- Where each proposal an honest replica handles follows its own chain, the
default build agrees. -/
theorem agreement_threeStep (S : Setup Hash Sig) (beatResp : ReplicaID → ReplicaID) (F : Faults S)
    (es : List (ReplicaID × Event Hash Sig))
    (h : Run.Allowed (System.step S ⟨.threeStep, beatResp⟩)
      (fun sys e => F.Admits sys e ∧ (sys e.1).core.Follows e.2) (System.init S) es) :
    let sys := Run.exec (System.step S ⟨.threeStep, beatResp⟩) (System.init S) es
    (∀ r r', F.Honest r → F.Honest r' → Agree (sys r) (sys r')) ∧
      ∀ r, F.Honest r → .safetyBreached ∉ (sys r).thrown := by
  intro sys
  have hsafe : Safe S ⟨.threeStep, beatResp⟩ F sys :=
    h.inv safe_init fun _ _ hs he => hs.step he.1 (.inr he.2)
  exact ⟨fun _ _ => hsafe.agree, hsafe.breached⟩

/-- Replicas 0 and 1 of 4 receive the blocks of the chain, each from replica 3. -/
def feedBoth : List (ReplicaID × Event Nat TableSig) :=
  [1, 2, 3, 4].flatMap fun h => (tableFeed chain4 h 3).map (0, ·) ++ (tableFeed chain4 h 3).map (1, ·)

theorem agreement_threeStep_feedBoth :
    let sys := Run.exec (System.step (tableSetup 4 chain4) ⟨.threeStep, id⟩)
      (System.init (tableSetup 4 chain4)) feedBoth
    decidedCmds (sys 0).core.out = [11] ∧ decidedCmds (sys 1).core.out = [11] ∧
      Agree (sys 0) (sys 1) := by
  refine ⟨by decide +kernel, by decide +kernel, ?_⟩
  exact (agreement_threeStep (tableSetup 4 chain4) id ⟨{3}, by decide +kernel⟩ feedBoth
    (by decide +kernel)).1 0 1 (by decide +kernel) (by decide +kernel)

/-- Blocks 1 to 4 are a chain, 5 to 11 another; block 8 has the certificate of block 2. -/
def fork11 : List (WireBlock Nat TableSig) :=
  let all := [0, 1, 3]
  [tableBlk 4 0 0 [11] [], tableBlk 4 1 1 [12] all, tableBlk 4 2 2 [13] all,
    tableBlk 4 3 3 [14] all, tableBlk 4 0 0 [15] [], tableBlk 4 5 0 [16] [],
    tableBlk 4 6 0 [17] [], tableBlk 4 7 2 [18] all, tableBlk 4 8 8 [] all,
    tableBlk 4 9 9 [] all, tableBlk 4 10 10 [] all]

/-- Blocks 5, 6 and 7 are fetched with block 8 and never voted for. -/
def fork11Run : List (ReplicaID × Event Nat TableSig) :=
  let feed h := (tableFeed fork11 h 3).take (if h ∈ [5, 6, 7] then 2 else 6)
  ([1, 2, 3, 5, 6, 7, 8, 9, 10].flatMap fun h => (feed h).map (0, ·) ++ (feed h).map (1, ·)) ++
    (feed 4).map (0, ·) ++ (feed 11).map (1, ·) ++ (feed 11).map (0, ·)

/-- Both replicas lock block 1 and then vote for block 8, whose certificate is
of the higher block 2 and whose chain leaves both out. Replica 0 commits the
first chain and replica 1 the second. -/
theorem agreement_threeStep_fork11 :
    let S := tableSetup 4 fork11
    let sys := Run.exec (System.step S ⟨.threeStep, id⟩) (System.init S) fork11Run
    ∃ F : Faults S, Run.Allowed (System.step S ⟨.threeStep, id⟩) F.Admits (System.init S) fork11Run ∧
      F.Honest 0 ∧ F.Honest 1 ∧ (sys 0).core.decision 1 = true ∧ (sys 1).core.decision 5 = true ∧
      decidedCmds (sys 0).core.out = [11] ∧ decidedCmds (sys 1).core.out = [15, 16, 17, 18] ∧
      ¬ Agree (sys 0) (sys 1) ∧ .safetyBreached ∈ (sys 0).thrown := by
  refine ⟨⟨{3}, by decide +kernel⟩, by decide +kernel, by decide +kernel, by decide +kernel,
    by decide +kernel, by decide +kernel, by decide +kernel, by decide +kernel,
    mt Agree.commands ?_, by decide +kernel⟩
  decide +kernel

/-- The two-step build agrees. -/
theorem agreement_twoStep (S : Setup Hash Sig) (beatResp : ReplicaID → ReplicaID) (F : Faults S)
    (es : List (ReplicaID × Event Hash Sig))
    (h : Run.Allowed (System.step S ⟨.twoStep, beatResp⟩) F.Admits (System.init S) es) :
    let sys := Run.exec (System.step S ⟨.twoStep, beatResp⟩) (System.init S) es
    (∀ r r', F.Honest r → F.Honest r' → Agree (sys r) (sys r')) ∧
      ∀ r, F.Honest r → .safetyBreached ∉ (sys r).thrown := by
  intro sys
  have hsafe : Safe S ⟨.twoStep, beatResp⟩ F sys :=
    h.inv safe_init fun _ _ hs he => hs.step he (.inl rfl)
  exact ⟨fun _ _ => hsafe.agree, hsafe.breached⟩

theorem agreement_twoStep_feedBoth :
    let sys := Run.exec (System.step (tableSetup 4 chain4) ⟨.twoStep, id⟩)
      (System.init (tableSetup 4 chain4)) feedBoth
    decidedCmds (sys 0).core.out = [11, 12] ∧ decidedCmds (sys 1).core.out = [11, 12] ∧
      Agree (sys 0) (sys 1) := by
  refine ⟨by decide +kernel, by decide +kernel, ?_⟩
  exact (agreement_twoStep (tableSetup 4 chain4) id ⟨{3}, by decide +kernel⟩ feedBoth
    (by decide +kernel)).1 0 1 (by decide +kernel) (by decide +kernel)

end HotStuffTx
