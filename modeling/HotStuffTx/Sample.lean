import HotStuffTx.Replica

/-!
# A computable configuration

A hash function that gives the blocks of a table their places in it, and every
other block an injective code past the table. Signatures are pairs. Runs over a
`tableSetup` can be computed.
-/

namespace HotStuffTx

abbrev TableSig := ReplicaID × Nat

def WireBlock.code (w : WireBlock Nat TableSig) : Nat :=
  Encodable.encode (w.parentHashes, w.cmds, w.qc.objHash, w.qc.rids,
    w.qc.sigs.map fun s => (s.1.toNat, s.2), w.extra.map UInt8.toNat)

theorem WireBlock.code_inj {a b : WireBlock Nat TableSig} (h : a.code = b.code) : a = b := by
  obtain ⟨pa, ca, ⟨oa, ra, sa⟩, ea⟩ := a
  obtain ⟨pb, cb, ⟨ob, rb, sb⟩, eb⟩ := b
  have h := Encodable.encode_injective h
  simp only [Prod.mk.injEq] at h
  obtain ⟨rfl, rfl, rfl, rfl, hs, he⟩ := h
  have hsig : Function.Injective fun s : TableSig => (s.1.toNat, s.2) := by
    rintro ⟨r, x⟩ ⟨r', x'⟩ h
    simp only [Prod.mk.injEq] at h
    obtain ⟨hr, rfl⟩ := h
    rw [UInt16.toNat_inj.mp hr]
  have hbyte : Function.Injective UInt8.toNat := fun _ _ => UInt8.toNat_inj.mp
  rw [List.map_injective_iff.mpr hsig hs, List.map_injective_iff.mpr hbyte he]

def tableHash (tbl : List (WireBlock Nat TableSig)) (w : WireBlock Nat TableSig) : Nat :=
  if w ∈ tbl then tbl.idxOf w + 1 else tbl.length + 1 + w.code

theorem tableHash_inj {tbl : List (WireBlock Nat TableSig)} (h : tableHash tbl a = tableHash tbl b) :
    a = b := by
  have hlt {w} (hw : w ∈ tbl) := List.idxOf_lt_length_iff.mpr hw
  unfold tableHash at h
  split at h <;> split at h
  · rename_i ha hb
    have := hlt ha
    exact (List.idxOf_inj ha).mp (by omega)
  · rename_i ha hb
    have := hlt ha
    omega
  · rename_i ha hb
    have := hlt hb
    omega
  · exact WireBlock.code_inj (by omega)

/-- `n` replicas and the blocks of the table, numbered from 1; 0 is the genesis block. -/
def tableSetup (n : Nat) (tbl : List (WireBlock Nat TableSig)) : Setup Nat TableSig where
  nreplicas := n
  genesis := 0
  hash := tableHash tbl
  hash_inj := tableHash_inj
  hash_ne_genesis w := by
    unfold tableHash
    split <;> omega
  sign r h := (r, h)
  verifySig r h s := s == (r, h)
  verify_sign r h := by simp

/-- The certificate of the block numbered `h` signed by the replicas of `rids`,
the one of the genesis block unsigned. -/
def tableQc (n h : Nat) (rids : List Nat) : WireQC Nat TableSig where
  objHash := h
  rids := (List.range n).map (· ∈ rids)
  sigs := ((List.range n).filter (· ∈ rids)).map fun r => (.ofNat r, h)

/-- The block with direct parent `parent` that carries the certificate of `h`. -/
def tableBlk (n parent h : Nat) (cmds rids : List Nat) : WireBlock Nat TableSig where
  parentHashes := [parent]
  cmds := cmds
  qc := tableQc n h rids
  extra := []

/-- Four blocks, each with the certificate of the one before. -/
def chain4 : List (WireBlock Nat TableSig) :=
  [tableBlk 4 0 0 [11] [], tableBlk 4 1 1 [12] [0, 1, 3], tableBlk 4 2 2 [] [0, 1, 3],
    tableBlk 4 3 3 [] [0, 1, 3]]

/-- Block `h` arrives, is delivered, and is proposed by `p`. -/
def tableFeed (tbl : List (WireBlock Nat TableSig)) (h : Nat) (p : ReplicaID) :
    List (Event Nat TableSig) :=
  (tbl[h - 1]?.map fun w => Event.call (.addBlk w)).toList ++
    [.call (.deliver h), .call (.receiveProposal ⟨p, h⟩), .resume, .resume, .resume]

end HotStuffTx
