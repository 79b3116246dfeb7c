import HotStuffTx.Proposals

/-!
# The tails and hqc_tail

`TailOk` is what holds of `tails` and `hqc_tail` between any two callbacks:
`hqc_tail` extends the block of `hqc`, and where blocks have one parent every
delivered block has a descendant among the tails.
-/

set_option linter.unusedSectionVars false

namespace HotStuffTx

open Core Forest

variable {Hash Sig : Type} [DecidableEq Hash]

-- ---------------------------------------------------------------------------
-- The best tail
-- ---------------------------------------------------------------------------

namespace Core

theorem foldl_betterTail (s : Core Hash Sig) (l : List Hash) (best : Hash) :
    let r := l.foldl s.betterTail best
    (r = best ∨ r ∈ l ∧ s.checkAncestry s.hqc.1 r = true) ∧ s.height best ≤ s.height r ∧
      ∀ t ∈ l, s.checkAncestry s.hqc.1 t = true → s.height t ≤ s.height r := by
  induction l generalizing best with
  | nil => simp
  | cons a l ih =>
    obtain ⟨hmem, hle, hmax⟩ := ih (s.betterTail best a)
    simp only [List.foldl_cons]
    by_cases ha : s.checkAncestry s.hqc.1 a ∧ s.height a > s.height best
    · simp only [betterTail, if_pos ha] at hmem hle hmax ⊢
      refine ⟨?_, by omega, ?_⟩
      · rcases hmem with hmem | hmem
        · exact .inr ⟨by simp [hmem], by rw [hmem]; exact ha.1⟩
        · exact .inr ⟨List.mem_cons_of_mem _ hmem.1, hmem.2⟩
      · intro t ht hc
        rcases List.mem_cons.mp ht with rfl | ht
        · exact hle
        · exact hmax t ht hc
    · simp only [betterTail, if_neg ha] at hmem hle hmax ⊢
      refine ⟨hmem.imp_right fun h => ⟨List.mem_cons_of_mem _ h.1, h.2⟩, hle, ?_⟩
      intro t ht hc
      rcases List.mem_cons.mp ht with rfl | ht
      · have := not_and.mp ha hc
        omega
      · exact hmax t ht hc

/-- `hqc_tail` is the block of `hqc` or a tail above it, and no tail above it is higher. -/
structure Best (S : Setup Hash Sig) (s : Core Hash Sig) : Prop where
  mem : s.hqcTail = s.hqc.1 ∨ s.hqcTail ∈ s.tails
  ext : S.Ext s.hqc.1 s.hqcTail
  max : ∀ t ∈ s.tails, S.Ext s.hqc.1 t → s.height t ≤ s.height s.hqcTail

/-- `hqc` may have moved up, and then `hqc_tail` was chosen anew. -/
structure Chooses (S : Setup Hash Sig) (s s' : Core Hash Sig) : Prop where
  tails : s'.tails = s.tails
  waiting : s'.qcWaiting = s.qcWaiting
  delivered : s'.delivered = s.delivered
  height : s'.height = s.height
  hqc : s'.hqc.1 = s.hqc.1 ∧ s'.hqcTail = s.hqcTail ∨
    s.height s.hqc.1 < s.height s'.hqc.1 ∧ Best S s'

end Core

section
variable {S : Setup Hash Sig} {O : Options} {s s' s'' : Core Hash Sig}

theorem Core.Best.congr (h : Best S s) (hq : s'.hqc.1 = s.hqc.1) (ht : s'.hqcTail = s.hqcTail)
    (htails : s'.tails = s.tails) (hheight : s'.height = s.height) : Best S s' := by
  refine ⟨?_, ?_, ?_⟩
  · rw [hq, ht, htails]
    exact h.mem
  · rw [hq, ht]
    exact h.ext
  · rw [hq, ht, htails, hheight]
    exact h.max

namespace Core.Chooses

theorem of_eq (hst : s'.storage = s.storage) (htails : s'.tails = s.tails)
    (hw : s'.qcWaiting = s.qcWaiting) (hq : s'.hqc.1 = s.hqc.1) (ht : s'.hqcTail = s.hqcTail) :
    Chooses S s s' :=
  ⟨htails, hw, (eq_of_storage hst).2.2.2.2, (eq_of_storage hst).1, .inl ⟨hq, ht⟩⟩

theorem refl : Chooses S s s := .of_eq rfl rfl rfl rfl rfl

theorem trans (h : Chooses S s s') (h' : Chooses S s' s'') : Chooses S s s'' := by
  refine ⟨h'.tails.trans h.tails, h'.waiting.trans h.waiting, h'.delivered.trans h.delivered,
    h'.height.trans h.height, ?_⟩
  rcases h'.hqc with ⟨hq', ht'⟩ | ⟨hlt', hbest⟩
  · rcases h.hqc with ⟨hq, ht⟩ | ⟨hlt, hbest⟩
    · exact .inl ⟨hq'.trans hq, ht'.trans ht⟩
    · exact .inr ⟨hq' ▸ hlt, hbest.congr hq' ht' h'.tails h'.height⟩
  · rw [h.height] at hlt'
    rcases h.hqc with ⟨hq, -⟩ | ⟨hlt, -⟩
    · exact .inr ⟨hq ▸ hlt', hbest⟩
    · exact .inr ⟨Nat.lt_trans hlt hlt', hbest⟩

theorem updateHqc (hs : StoreOk S s) (htails : ∀ t ∈ s.tails, s.delivered t = true) :
    Chooses S s (s.updateHqc h qc) := by
  unfold Core.updateHqc
  split
  · rename_i hlt
    generalize hs' : { s with hqc := (h, qc) } = s'
    have hst : s'.storage = s.storage := by rw [← hs']
    have hok := hs.of_storage hst
    obtain ⟨hheight, -, -, -, hdel⟩ := eq_of_storage hst
    have hq : s'.hqc.1 = h := by rw [← hs']
    have hp : Placed S s' s'.hqc.1 := by
      rw [hq]
      exact .inr (hheight ▸ Nat.zero_lt_of_lt hlt)
    have htp {t} (ht : t ∈ s'.tails) : Placed S s' t := by
      refine hok.placed_of_delivered (hdel ▸ htails t ?_)
      rwa [← hs'] at ht
    obtain ⟨hmem, -, hmax⟩ := foldl_betterTail s' s'.tails s'.hqc.1
    refine ⟨by rw [← hs'], by rw [← hs'], hdel, hheight, .inr ⟨hq ▸ hlt, hmem.imp_right And.left, ?_, ?_⟩⟩
    · rcases hmem with hmem | ⟨hmem, hext⟩
      · exact hmem ▸ .refl
      · exact (hok.checkAncestry_iff hp (htp hmem)).mp hext
    · intro t ht hext
      exact hmax t ht ((hok.checkAncestry_iff hp (htp ht)).mpr hext)
  · exact .refl

theorem advance (hs : StoreOk S s) (htails : ∀ t ∈ s.tails, s.delivered t = true) :
    Chooses S s (s.advance build t qc) := by
  unfold Core.advance
  split
  · exact .updateHqc hs htails
  · have hq : Chooses S s (s.updateHqc t qc) := .updateHqc hs htails
    refine hq.trans ?_
    unfold raiseLock
    split
    · exact .of_eq rfl rfl rfl rfl rfl
    · exact .refl

theorem updated (h : CoreOk S s) (htails : ∀ t ∈ s.tails, s.delivered t = true)
    (hu : Updated build s n s') : Chooses S s s' := by
  cases hu with
  | idle => exact .refl
  | advanced => exact .advance h.store htails
  | @committed b t c _ hb ht hd hc hrun =>
    obtain ⟨l, s₁, -, hdec, rfl⟩ := h.commit_ok hb ht hd hc hrun
    obtain ⟨hheight, -, -, hdel, -⟩ := hdec.same
    exact (Chooses.advance h.store htails).trans ⟨hdec.tails, hdec.qcWaiting, hdel, hheight,
      .inl ⟨congrArg Prod.fst hdec.hqc, hdec.hqcTail⟩⟩

theorem refused (h : CoreOk S s) (htails : ∀ t ∈ s.tails, s.delivered t = true)
    (hr : Refused build s n e s') : Chooses S s s' := by
  cases hr with
  | @intro b t c _ hb ht hd hc hrun =>
    obtain ⟨-, rfl, -⟩ := h.commit_error hb ht hd hc hrun
    exact .advance h.store htails

theorem judged (hj : Judged S s n op s') : Chooses S s s' := by
  cases hj <;> exact .of_eq rfl rfl rfl rfl rfl

theorem sent : Chooses S s (s.sent S dst blk) := .of_eq rfl rfl rfl rfl rfl

theorem settlePm : Chooses S s (s.settlePm p st) := by
  unfold Core.settlePm
  split <;> exact .of_eq rfl rfl rfl rfl rfl

theorem votes {b : Block Hash Sig} (hb : s.storage h = some b) :
    Chooses S s (s.setBlk h { b with voted := vs, selfQc := q }) := by
  refine ⟨rfl, rfl, delivered_votes hb, ?_, .inl ⟨rfl, rfl⟩⟩
  funext x
  rw [height_setBlk]
  split
  · subst x
    rw [height_of hb]
  · rfl

theorem counted (h : CoreOk S s) (htails : ∀ t ∈ s.tails, s.delivered t = true)
    (hc : Counted S s v fs s') : Chooses S s s' := by
  cases hc with
  | part hb => exact .votes hb
  | @full b q hb _ _ _ hq =>
    have hst : Stores S s (s.setBlk v.blkHash { b with voted := v.voter :: b.voted, selfQc := some q }) :=
      .of_votes h.store hb ((QuorumCert.addPart_ok hq).1.trans (objHash_self h hb))
    refine (Chooses.votes hb).trans (.updateHqc hst.ok fun t ht => ?_)
    exact hst.grow.delivered (htails t ht)

theorem miscounted (hc : Miscounted S s v e s') : Chooses S s s' := by
  cases hc with
  | intro hb => exact .votes hb

end Core.Chooses

-- ---------------------------------------------------------------------------
-- What holds between callbacks
-- ---------------------------------------------------------------------------

/-- The block has one parent. -/
def Setup.Single (S : Setup Hash Sig) (h : Hash) : Prop :=
  ∀ w, S.wireOf h = some w → w.parentHashes.length = 1

structure Core.TailOk (S : Setup Hash Sig) (s : Core Hash Sig) : Prop where
  placed : 0 < s.height h → s.delivered h = true
  tail : s.delivered s.hqcTail = true
  ext : S.Ext s.hqc.1 s.hqcTail
  tails : ∀ t ∈ s.tails, s.delivered t = true
  covers : (∀ x, x ≠ S.genesis → s.delivered x = true → S.Single x) →
    ∀ x, s.delivered x = true → ∃ t ∈ s.tails, S.Ext x t

/-- What a step may do to `hqc`, `hqc_tail` and the blocks. -/
structure Core.Moves (S : Setup Hash Sig) (s s' : Core Hash Sig) : Prop where
  tail : TailOk S s'
  grow : ∀ y, s.delivered y = true → s'.delivered y = true ∧ s'.height y = s.height y
  hqc : s'.hqc.1 = s.hqc.1 ∧ s.height s.hqcTail ≤ s'.height s'.hqcTail ∨
    s.height s.hqc.1 < s'.height s'.hqc.1
  best : s'.hqc.1 = s.hqc.1 ∨ Best S s'
  waiting : ∀ x ∈ s'.qcWaiting, x ∈ s.qcWaiting

theorem Block.parents_single {b : Block Hash Sig} (hw : S.wireOf n = some b.wire)
    (hp : S.par n = some p) (hn : S.Single n) : b.parentHashes = [p] := by
  rw [par_of_wire hw] at hp
  obtain ⟨a, ha⟩ := List.length_eq_one_iff.mp (hn _ hw)
  have ha : b.parentHashes = [a] := ha
  rw [ha] at hp ⊢
  cases hp
  rfl

namespace Core.TailOk

variable (h : TailOk S s)
include h

theorem delivered_hqc (hok : CoreOk S s) : s.delivered s.hqc.1 = true := by
  rcases hok.hqc with hg | hp
  · rw [hg]
    exact hok.store.delivered_genesis
  · exact h.placed hp

theorem chooses (hc : Chooses S s s') : Moves S s s' where
  tail := {
    placed := by
      rw [hc.height, hc.delivered]
      exact h.placed
    tail := by
      rw [hc.delivered]
      rcases hc.hqc with ⟨-, ht⟩ | ⟨hlt, hbest⟩
      · rw [ht]
        exact h.tail
      · rcases hbest.mem with hm | hm
        · rw [hm]
          exact h.placed (Nat.zero_lt_of_lt hlt)
        · exact h.tails _ (hc.tails ▸ hm)
    ext := by
      rcases hc.hqc with ⟨hq, ht⟩ | ⟨-, hbest⟩
      · rw [hq, ht]
        exact h.ext
      · exact hbest.ext
    tails := by
      rw [hc.tails, hc.delivered]
      exact h.tails
    covers := by
      rw [hc.tails, hc.delivered]
      exact h.covers }
  grow y hy := ⟨hc.delivered ▸ hy, by rw [hc.height]⟩
  hqc := by
    rw [hc.height]
    rcases hc.hqc with ⟨hq, ht⟩ | ⟨hlt, -⟩
    · exact .inl ⟨hq, Nat.le_of_eq (by rw [ht])⟩
    · exact .inr hlt
  best := hc.hqc.imp And.left And.right
  waiting x hx := hc.waiting ▸ hx

theorem tailReceived (hok : CoreOk S s) : Moves S s (s.tailReceived blk) := by
  unfold Core.tailReceived
  split
  · rename_i hc
    have hp : Placed S s blk := .inr (Nat.zero_lt_of_lt hc.2)
    refine ⟨⟨h.placed, h.placed (Nat.zero_lt_of_lt hc.2), ?_, h.tails, h.covers⟩, fun y hy => ⟨hy, rfl⟩,
      .inl ⟨rfl, Nat.le_of_lt hc.2⟩, .inl rfl, fun x hx => hx⟩
    exact (hok.store.checkAncestry_iff hok.hqc hp).mp hc.1
  · exact h.chooses .refl

omit h in
/-- A delivered block takes the place of its parent among the tails. -/
theorem covers_insert (hpar : S.par n = some p) (hps : ps = [p]) (x : Hash)
    (hx : x = n ∨ ∃ t ∈ s.tails, S.Ext x t) :
    ∃ t ∈ s.tails.filter (· ∉ ps) ++ [n], S.Ext x t := by
  subst hps
  rcases hx with rfl | ⟨t, ht, hext⟩
  · exact ⟨x, by simp, .refl⟩
  · by_cases htp : t = p
    · subst htp
      exact ⟨n, by simp, .step hpar hext⟩
    · exact ⟨t, by simp [ht, htp], hext⟩

/-- Blocks may have been stored, `n` may have been delivered. -/
theorem stores (hok : CoreOk S s) (hst : Stores S s s') (ht : s'.hqcTail = s.hqcTail)
    (hw : s'.qcWaiting = s.qcWaiting) (hp : ∀ x, 0 < s'.height x → s'.delivered x = true)
    (htails : ∀ t ∈ s'.tails, s'.delivered t = true)
    (hcovers : (∀ x, x ≠ S.genesis → s'.delivered x = true → S.Single x) →
      ∀ x, s'.delivered x = true → ∃ t ∈ s'.tails, S.Ext x t) : Moves S s s' := by
  have hgrow {y} (hy : s.delivered y = true) : s'.delivered y = true ∧ s'.height y = s.height y :=
    ⟨hst.grow.delivered hy, hst.grow.height_eq hok.store hst.ok (hok.store.placed_of_delivered hy)⟩
  refine ⟨⟨fun {x} => hp x, ?_, ?_, htails, hcovers⟩, fun y => hgrow, .inl ⟨by rw [hst.hqc], ?_⟩,
    .inl (by rw [hst.hqc]), ?_⟩
  · rw [ht]
    exact (hgrow h.tail).1
  · rw [hst.hqc, ht]
    exact h.ext
  · exact Nat.le_of_eq (by rw [ht, (hgrow h.tail).2])
  · rw [hw]
    exact fun x hx => hx

theorem storeStep (hok : CoreOk S s) (hst : StoreStep S s n s')
    (hp : s'.height = s.height ∧ s'.delivered = s.delivered ∨
      ∀ b, s.storage n = some b → s.isBlkFetched b.qc.objHash = true) : Moves S s s' := by
  have hstores := hst.stores hok.store
  cases hst with
  | skip => exact h.chooses .refl
  | @write b' hw hd hk =>
    have hdel : (s.setBlk n b').delivered = s.delivered := by
      funext x
      rw [delivered_setBlk]
      split
      · subst x
        exact hd
      · rfl
    have hheight : (s.setBlk n b').height = s.height := by
      rcases hp with ⟨hh, -⟩ | hf
      · exact hh
      · funext x
        rw [height_setBlk]
        split
        · subst x
          exact hk hf
        · rfl
    refine h.stores hok hstores rfl rfl ?_ ?_ ?_
    · rw [hheight, hdel]
      exact fun x => h.placed
    · rw [hdel]
      exact h.tails
    · rw [hdel]
      exact h.covers
  | @deliver b' hw hf hd hd' =>
    obtain ⟨p, hpar, -⟩ := hw.link (.inr hd')
    have hdel {x} : Core.delivered { s.setBlk n b' with
        tails := s.tails.filter (· ∉ b'.parentHashes) ++ [n] } x =
        if x = n then true else s.delivered x := by
      refine delivered_setBlk.trans ?_
      rw [hd']
    have hold {x} (hx : s.delivered x = true) : Core.delivered { s.setBlk n b' with
        tails := s.tails.filter (· ∉ b'.parentHashes) ++ [n] } x = true := hstores.grow.delivered hx
    refine h.stores hok hstores rfl rfl (fun x hx => ?_) (fun t ht => ?_) fun hsingle x hx => ?_
    · rw [hdel]
      split
      · rfl
      · rename_i hne
        refine h.placed ?_
        have hk : Core.height { s.setBlk n b' with
            tails := s.tails.filter (· ∉ b'.parentHashes) ++ [n] } x = s.height x :=
          height_setBlk.trans (if_neg hne)
        rwa [hk] at hx
    · rcases List.mem_append.mp ht with ht | ht
      · exact hold (h.tails t (List.mem_of_mem_filter ht))
      · rw [List.mem_singleton.mp ht, hdel, if_pos rfl]
    · have hnd := hdel.trans (if_pos rfl)
      refine covers_insert hpar (b'.parents_single hw.wire hpar (hsingle n hw.ne_genesis hnd)) x ?_
      rw [hdel] at hx
      split at hx
      · exact .inl ‹_›
      · exact .inr (h.covers (fun y hy hyd => hsingle y hy (hold hyd)) x hx)

/-- `on_propose` takes its parents off the tails also where its block was
delivered before; then a descendant of that block is among the tails. -/
theorem proposed {cmds parents : List Hash} {extra : List UInt8} (hok : CoreOk S s)
    (hp : Proposed S s cmds parents extra n s') : Moves S s s' := by
  have hstores := hp.stores hok.store
  have hself := hp.delivered_self
  obtain ⟨p, hhead, hpar⟩ := hp.par_eq
  have hne := hp.ne_genesis
  obtain ⟨p', hhead', hwire⟩ := hp.wire_eq
  have hps (hn : S.Single n) : parents = [p] := by
    have hlen : parents.length = 1 := hn _ hwire
    obtain ⟨a, rfl⟩ := List.length_eq_one_iff.mp hlen
    cases hhead
    rfl
  cases hp with
  | @intro _ b ts _ _ hw hd _ _ ht =>
    generalize hs' : { s.setBlk n b with tails := ts } = s' at hstores hself ⊢
    have hdel {x} : s'.delivered x = if x = n then true else s.delivered x := by
      rw [← hs', ← hd]
      exact delivered_setBlk
    have hold {x} (hx : s.delivered x = true) : s'.delivered x = true := hstores.grow.delivered hx
    have hts : s'.tails = ts := by rw [← hs']
    refine h.stores hok hstores (by rw [← hs']; rfl) (by rw [← hs']; rfl) (fun x hx => ?_) (fun t ht' => ?_)
      fun hsingle x hx => ?_
    · rw [hdel]
      split
      · rfl
      · rename_i hxn
        refine h.placed ?_
        have hk : s'.height x = s.height x := by
          rw [← hs']
          exact height_setBlk.trans (if_neg hxn)
        rwa [hk] at hx
    · rw [hts] at ht'
      rcases ht with ⟨-, rfl⟩ | ⟨-, rfl⟩
      · exact hold (h.tails t (List.mem_of_mem_filter ht'))
      · rcases List.mem_append.mp ht' with ht' | ht'
        · exact hold (h.tails t (List.mem_of_mem_filter ht'))
        · rw [List.mem_singleton.mp ht']
          exact hself
    · have hps := hps (hsingle n hne hself)
      have hcov := h.covers fun y hy hyd => hsingle y hy (hold hyd)
      rw [hdel] at hx
      rcases ht with ⟨hnd, rfl⟩ | ⟨hnd, rfl⟩
      · -- the parent of `n` is off the tails, and a tail above `n` is there
        have hxs : s.delivered x = true := by
          split at hx
          · rename_i hxn
            rwa [hxn]
          · exact hx
        obtain ⟨t, ht, hext⟩ := hcov x hxs
        obtain ⟨u, hu, hnu⟩ := hcov n hnd
        have hup : u ≠ p := by
          rintro rfl
          have hu := hok.store.height (hok.store.placed_of_delivered (h.tails u hu))
          have hn := hok.store.height (hok.store.placed_of_delivered hnd)
          have := hnu.height_le S.par_genesis hn hu
          have := (Forest.Height.succ hpar hu).unique S.par_genesis hn
          omega
        rw [hts, hps]
        by_cases htp : t = p
        · subst htp
          exact ⟨u, by simp [hu, hup], (Ext.step hpar hext).trans hnu⟩
        · exact ⟨t, by simp [ht, htp], hext⟩
      · rw [hts]
        refine covers_insert hpar hps x ?_
        split at hx
        · exact .inl ‹_›
        · exact .inr (hcov x hx)

end Core.TailOk

theorem Core.Moves.trans (h : Moves S s s') (h' : Moves S s' s'') (hd : s.delivered s.hqc.1 = true)
    (hq : s'.hqc.1 = s.hqc.1) : Moves S s s'' where
  tail := h'.tail
  grow y hy := ⟨(h'.grow y (h.grow y hy).1).1, (h'.grow y (h.grow y hy).1).2.trans (h.grow y hy).2⟩
  hqc := by
    have hk := (h.grow _ hd).2
    rcases h'.hqc with ⟨hq', hle'⟩ | hlt
    · rcases h.hqc with ⟨-, hle⟩ | hlt
      · exact .inl ⟨hq'.trans hq, Nat.le_trans hle hle'⟩
      · rw [hq, hk] at hlt
        exact absurd hlt (Nat.lt_irrefl _)
    · rw [hq, hk] at hlt
      exact .inr hlt
  best := h'.best.imp_left (·.trans hq)
  waiting x hx := h.waiting x (h'.waiting x hx)

end

end HotStuffTx
