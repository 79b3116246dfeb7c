import HotStuffTx.Client
import HotStuffTx.Generator
import HotStuffTx.Wire

/-!
# The bytes of commands and their responses

`CommandDummy` and `Finality` as they travel between a client and a replica,
and the whole way of a transaction: drawn, written, sent, read and executed.
-/

set_option linter.unusedSectionVars false

namespace HotStuffTx

-- ---------------------------------------------------------------------------
-- The bytes
-- ---------------------------------------------------------------------------

namespace Format

open Codec

variable {Hash Sig : Type} (F : Format Hash Sig)

def putU64 (x : UInt64) : List UInt8 := putLE 8 x.toNat

def getU64 (s : List UInt8) : Option (UInt64 × List UInt8) :=
  (getLE 8 s).map fun r => (UInt64.ofNat r.1, r.2)

/-- `CommandDummy::serialize`, on a little-endian host; `payload_size` is a `size_t`. -/
def putCmd (cmd : CommandDummy) : List UInt8 :=
  putLE 4 cmd.cid.toNat ++ (putLE 4 cmd.n.toNat ++
    (putLE 8 cmd.payload.length ++ cmd.payload.flatMap putU64))

/-- `salticidae::get_hash`. -/
def cmdHash (cmd : CommandDummy) : Hash := F.sha256 (putCmd cmd)

/-- `CommandDummy::unserialize`: the members, and the hash taken again. -/
def getCmd (s : List UInt8) : Option ((CommandDummy × Hash) × List UInt8) := do
  let (cid, s) ← getLE 4 s
  let (n, s) ← getLE 4 s
  let (payloadSize, s) ← getLE 8 s
  let (payload, s) ← getN getU64 payloadSize s
  let cmd : CommandDummy := ⟨UInt32.ofNat cid, UInt32.ofNat n, payload⟩
  return ((cmd, F.cmdHash cmd), s)

/-- `Finality::serialize`. -/
def putFinality (fin : Finality Hash) : List UInt8 :=
  F.putRid fin.rid ++ (fin.decision.toUInt8 :: (putLE 4 fin.cmdIdx ++ (putLE 4 fin.cmdHeight ++
    (F.putHash fin.cmdHash ++ if fin.decision = 1 then F.putHash fin.blkHash else []))))

/-- `Finality::unserialize` into an object whose `blk_hash` is `blkHash`. -/
def getFinality (blkHash : Hash) : List UInt8 → Option (Finality Hash × List UInt8) := fun s => do
  let (rid, s) ← F.getRid s
  match s with
  | [] => none
  | decision :: s =>
    let (cmdIdx, s) ← getLE 4 s
    let (cmdHeight, s) ← getLE 4 s
    let (cmdHash, s) ← F.getHash s
    let (blkHash, s) ← if decision.toInt8 = 1 then F.getHash s else some (blkHash, s)
    return (⟨rid, decision.toInt8, cmdIdx, cmdHeight, cmdHash, blkHash⟩, s)

end Format

-- ---------------------------------------------------------------------------
-- Round trips
-- ---------------------------------------------------------------------------

namespace Format

open Codec

variable {Hash Sig : Type} (F : Format Hash Sig)

theorem roundTrip_u64 : RoundTrip putU64 getU64 (fun _ => True) Eq := by
  rintro x - t
  refine ⟨x, ?_, rfl⟩
  have hx := (roundTrip_le 8).get_put x.toNat_lt t
  simp only [putU64, getU64, hx, Option.map_some, UInt64.ofNat_toNat]

/-- The hash read back is that of the command written. -/
theorem getCmd_putCmd (cmd : CommandDummy) (h : cmd.payload.length < 2 ^ 64) (rest : List UInt8) :
    F.getCmd (putCmd cmd ++ rest) = some ((cmd, F.cmdHash cmd), rest) := by
  obtain ⟨cid, n, payload⟩ := cmd
  obtain ⟨bs, hbs, heq⟩ := roundTrip_u64.getN payload (fun _ _ => trivial) rest
  obtain rfl := List.forall₂_eq_eq_eq ▸ heq
  simp only [getCmd, putCmd, List.append_assoc, (roundTrip_le 4).get_put cid.toNat_lt,
    (roundTrip_le 4).get_put n.toNat_lt, (roundTrip_le 8).get_put h, hbs, Option.bind_eq_bind,
    Option.bind_some, UInt32.ofNat_toNat]
  rfl

theorem getFinality_putFinality {fin : Finality Hash} (hd : fin.decision = 1)
    (hidx : fin.cmdIdx < 2 ^ 32) (hheight : fin.cmdHeight < 2 ^ 32) (blkHash : Hash)
    (rest : List UInt8) :
    F.getFinality blkHash (F.putFinality fin ++ rest) = some (fin, rest) := by
  obtain ⟨rid, decision, cmdIdx, cmdHeight, cmdHash, blk⟩ := fin
  simp only at hd hidx hheight
  subst hd
  have h1 : (1 : Int8).toUInt8.toInt8 = 1 := rfl
  simp only [getFinality, putFinality, List.append_assoc, List.cons_append,
    F.roundTrip_rid.get_put trivial, (roundTrip_le 4).get_put hidx,
    (roundTrip_le 4).get_put hheight, F.roundTrip_hash.get_put trivial, Option.bind_eq_bind,
    Option.bind_some, h1, if_true]
  rfl

theorem length_putLE (k n : Nat) : (putLE k n).length = k := by
  induction k generalizing n with
  | zero => rfl
  | succ k ih => exact congrArg (· + 1) (ih _)

theorem length_putCmd (cmd : CommandDummy) : (putCmd cmd).length = 16 + 8 * cmd.payload.length := by
  have hlen (l : List UInt64) : (l.flatMap putU64).length = 8 * l.length := by
    induction l with
    | nil => rfl
    | cons x l ih =>
      rw [List.flatMap_cons, List.length_append, ih, putU64, length_putLE, List.length_cons]
      omega
  simp only [putCmd, List.length_append, length_putLE, hlen]
  omega

/-- Whatever the number of elements, which the bytes give away by theirs. -/
theorem putCmd_injective {a b : CommandDummy} (h : putCmd a = putCmd b) : a = b := by
  have hlen : a.payload.length = b.payload.length := by
    have := congrArg List.length h
    rw [length_putCmd, length_putCmd] at this
    omega
  obtain ⟨cid, n, payload⟩ := a
  obtain ⟨cid', n', payload'⟩ := b
  obtain ⟨hcid, h⟩ := (roundTrip_le 4).cancel eq_equivalence cid.toNat_lt cid'.toNat_lt h
  obtain ⟨hn, h⟩ := (roundTrip_le 4).cancel eq_equivalence n.toNat_lt n'.toNat_lt h
  simp only at hlen h
  rw [hlen] at h
  have h := List.append_cancel_left h
  obtain ⟨l, hl, heq⟩ := roundTrip_u64.getN payload (fun _ _ => trivial) []
  obtain ⟨l', hl', heq'⟩ := roundTrip_u64.getN payload' (fun _ _ => trivial) []
  rw [h, hlen, hl'] at hl
  rw [List.forall₂_eq_eq_eq] at heq heq'
  cases hl
  rw [UInt32.toNat_inj.mp hcid, UInt32.toNat_inj.mp hn, heq, heq']

/-- SHA-256 as a hash function on commands, where it is free of collisions. -/
def commandHash (hinj : Function.Injective F.sha256) (zero : Hash) : CommandHash Hash where
  getHash := F.cmdHash
  getHash_inj h := putCmd_injective (hinj h)
  zero := zero

end Format

-- ---------------------------------------------------------------------------
-- From the draws to the operation
-- ---------------------------------------------------------------------------

namespace SmallBankManager

variable {n : Nat} {m : SmallBankManager n} {ds ds' : Draws n}

theorem txType_of_drawnCall (h : m.drawnCall txType ds = some (c, ds')) :
    c.map BankCall.txType = if txType.toNat < 7 then some txType.toNat else none := by
  simp only [drawnCall] at h
  generalize txType.toNat = ty at h ⊢
  rcases ty with _ | _ | _ | _ | _ | _ | _ | ty
  case succ.succ.succ.succ.succ.succ.succ =>
    cases h
    rw [if_neg (by omega)]
    rfl
  all_goals
    repeat obtain ⟨_, _, -, h⟩ := StateT.bind_eq_some.mp h
    cases h
    rfl

/-- What is written spells out what was drawn, with nothing behind it. -/
theorem getNext_spells (h : m.getNextTransactionByType txType ds = some (txPayload, ds')) :
    ∃ c, m.drawnCall txType ds = some (c, ds') ∧ Spells txPayload c ∧
      txPayload.length = wordsRead c ∧ txPayload.length < 2 ^ 64 := by
  by_cases h4 : txType.toNat = 4
  · obtain ⟨payors, party, hc, hpayors, hparty, rfl⟩ := getNext_split h4 h
    have hlen : (spell txType (some (.transactionSplit payors party))).length =
        wordsRead (some (.transactionSplit payors party)) := by
      simp only [spell, wordsRead, List.length_cons, List.length_append, length_flatPayors]
      omega
    refine ⟨_, hc, ?_, hlen, ?_⟩
    · have hn : (UInt64.ofNat payors.length).toNat = payors.length := by
        rw [UInt64.toNat_ofNat']
        omega
      have hp : (UInt64.ofNat party.length).toNat = party.length := by
        rw [UInt64.toNat_ofNat']
        omega
      have hspell : Spells (txType :: UInt64.ofNat payors.length ::
          (flatPayors payors ++ UInt64.ofNat party.length :: (party ++ [])))
          (some (.transactionSplit payors party)) :=
        .transactionSplit h4 hn (by omega) hp (by omega)
      rwa [List.append_nil] at hspell
    · rw [hlen, wordsRead]
      omega
  · rw [getNext_eq txType h4] at h
    obtain ⟨c, hc, rfl⟩ := StateT_map_eq_some h
    refine ⟨c, hc, ?_⟩
    have ht := txType_of_drawnCall hc
    cases c with
    | none =>
      have ht : 7 ≤ txType.toNat := by
        by_contra hlt
        rw [if_pos (by omega)] at ht
        cases ht
      exact ⟨.unknown ht, rfl, by simp [spell]⟩
    | some op =>
      have ht : txType.toNat = op.txType := by
        split at ht
        · exact (Option.some.inj ht).symm
        · cases ht
      cases op with
      | transactionSplit => exact absurd ht h4
      | _ => exact ⟨by constructor; exact ht, rfl, by simp [spell]⟩

end SmallBankManager

/-- What is sent is waited for under its hash. -/
theorem Client.lookup_of_trySend {Hash : Type} [DecidableEq Hash] {C : CommandHash Hash}
    (cl : Client Hash) (h : (cl.trySend C true nextTx).2) :
    ((cl.trySend C true nextTx).1.waiting.lookup (C.getHash ⟨cl.cid, cl.cnt, nextTx⟩)).isSome := by
  unfold trySend at h ⊢
  split
  · simp only [insertRequest]
    split
    · assumption
    · rw [List.lookup_cons_self]
      rfl
  · rename_i hc
    rw [if_neg hc] at h
    cases h

theorem App.lookup_of_handlePending {Hash : Type} [DecidableEq Hash] {C : CommandHash Hash}
    (a : App Hash n) {cmd : CommandDummy} (h : a.cmdPending = []) :
    (((a.clientRequestCmdHandler cmd addr).handlePending C).decisionWaiting.lookup
      (C.getHash cmd)).isSome := by
  simp only [clientRequestCmdHandler, h, List.nil_append, handlePending]
  split
  · rw [List.lookup_cons_self]
    rfl
  · rename_i hsome
    exact Option.isSome_of_eq_some hsome

/-- Whatever is drawn, the payload makes `execute_transaction` call that operation
on it, reading it from end to end; the command decodes to itself under the hash
the client waits on, and so does a response with `decision = 1`. -/
theorem payload_codec {Hash Sig : Type} [DecidableEq Hash] (F : Format Hash Sig)
    (hinj : Function.Injective F.sha256) (zero : Hash) {n k : Nat} (m : SmallBankManager n)
    (txType : UInt64) (ds ds' : Draws n) (txPayload : List UInt64)
    (h : m.getNextTransactionByType txType ds = some (txPayload, ds')) :
    (∃ c, m.drawnCall txType ds = some (c, ds') ∧
      c.map BankCall.txType = (if txType.toNat < 7 then some txType.toNat else none) ∧
      (∀ b : SmallBank k, b.executeTransaction txPayload = c.elim (some (b, (0, 0))) b.call) ∧
      fetchTransaction txPayload ⟨0, []⟩ =
        some (c, ⟨txPayload.length, List.range txPayload.length⟩)) ∧
    (∀ (cid n : UInt32) (rest : List UInt8),
      F.getCmd (Format.putCmd ⟨cid, n, txPayload⟩ ++ rest) =
        some ((⟨cid, n, txPayload⟩, F.cmdHash ⟨cid, n, txPayload⟩), rest)) ∧
    (∀ (cl : Client Hash) (a : App Hash k) (addr : NetAddr) (cmd : CommandDummy) (cmdHash : Hash),
      (cl.trySend (F.commandHash hinj zero) true txPayload).2 →
      F.getCmd (Format.putCmd ⟨cl.cid, cl.cnt, txPayload⟩) = some ((cmd, cmdHash), []) →
      a.cmdPending = [] →
      ((cl.trySend (F.commandHash hinj zero) true txPayload).1.waiting.lookup cmdHash).isSome ∧
      (((a.clientRequestCmdHandler cmd addr).handlePending
        (F.commandHash hinj zero)).decisionWaiting.lookup cmdHash).isSome) ∧
    ∀ fin : Finality Hash, fin.decision = 1 → fin.cmdIdx < 2 ^ 32 → fin.cmdHeight < 2 ^ 32 →
      ∀ blkHash rest, F.getFinality blkHash (F.putFinality fin ++ rest) = some (fin, rest) := by
  obtain ⟨c, hc, hspells, hlen, hlt⟩ := SmallBankManager.getNext_spells h
  refine ⟨⟨c, hc, SmallBankManager.txType_of_drawnCall hc,
      fun b => b.executeTransaction_of_spells hspells, ?_⟩,
    fun cid n rest => F.getCmd_putCmd _ hlt rest, ?_,
    fun fin hd hidx hheight blkHash rest => F.getFinality_putFinality hd hidx hheight blkHash rest⟩
  · have hfetch := fetchTransaction_eq txPayload
    rw [hspells.read, Option.map_some, ← hlen] at hfetch
    exact hfetch
  · intro cl a addr cmd cmdHash hsend hget hpend
    have hdec := F.getCmd_putCmd ⟨cl.cid, cl.cnt, txPayload⟩ hlt []
    rw [List.append_nil, hget] at hdec
    cases hdec
    exact ⟨cl.lookup_of_trySend (C := F.commandHash hinj zero) hsend,
      a.lookup_of_handlePending (C := F.commandHash hinj zero) hpend⟩

/-- `n` zeros and a one. -/
def putUnary (n : Nat) : List UInt8 := List.replicate n 0 ++ [1]

def getUnary : List UInt8 → Option (Nat × List UInt8)
  | [] => none
  | x :: s => if x = 0 then (getUnary s).map fun r => (r.1 + 1, r.2) else some (0, s)

theorem roundTrip_unary : Codec.RoundTrip putUnary getUnary (fun _ => True) Eq := by
  rintro n - t
  refine ⟨n, ?_, rfl⟩
  induction n with
  | zero => rfl
  | succ n ih =>
    change ((getUnary (putUnary n ++ t)).map fun r => (r.1 + 1, r.2)) = _
    rw [ih]
    rfl

/-- Numbers of any size for hashes, so that no two streams of bytes share one. -/
def unaryFormat : Format Nat Nat where
  putHash := putUnary
  getHash := getUnary
  roundTrip_hash := roundTrip_unary
  putRid := wordFormat.putRid
  getRid := wordFormat.getRid
  roundTrip_rid := wordFormat.roundTrip_rid
  putBits := wordFormat.putBits
  getBits := wordFormat.getBits
  roundTrip_bits := wordFormat.roundTrip_bits
  getBits_lt := wordFormat.getBits_lt
  putSig := putUnary
  getSig := getUnary
  roundTrip_sig := roundTrip_unary
  sha256 bytes := Encodable.encode (bytes.map UInt8.toNat)

theorem unaryFormat_injective : Function.Injective unaryFormat.sha256 := by
  intro a b h
  exact List.map_injective_iff.mpr (fun _ _ => UInt8.toNat_inj.mp) (Encodable.encode_injective h)

def threeUsers : SmallBankManager 3 := ⟨⟨#v[100, 100, 100], #v[0, 0, 0]⟩, by decide⟩

/-- Of three users the first pays 40 for all; the first start drawn is redrawn. -/
theorem payload_codec_split :
    threeUsers.getNextTransactionByType 4 ⟨[0, 0, 40], [⟨2, by decide⟩, ⟨0, by decide⟩]⟩ =
      some ([4, 1, 0, 40, 3, 0, 1, 2], ⟨[], []⟩) ∧
    fetchTransaction [4, 1, 0, 40, 3, 0, 1, 2] ⟨0, []⟩ =
      some (some (.transactionSplit [(0, 40)] [0, 1, 2]), ⟨8, List.range 8⟩) := by
  have hgen : threeUsers.getNextTransactionByType 4
      ⟨[0, 0, 40], [⟨2, by decide⟩, ⟨0, by decide⟩]⟩ =
      some ([4, 1, 0, 40, 3, 0, 1, 2], ⟨[], []⟩) := by decide +kernel
  obtain ⟨c, hc, -, -, hfetch⟩ := (payload_codec (k := 3) unaryFormat unaryFormat_injective 0
    threeUsers 4 _ _ _ hgen).1
  have hdrawn : threeUsers.drawnCall 4 ⟨[0, 0, 40], [⟨2, by decide⟩, ⟨0, by decide⟩]⟩ =
      some (some (.transactionSplit [(0, 40)] [0, 1, 2]), ⟨[], []⟩) := by decide +kernel
  rw [hdrawn] at hc
  cases hc
  exact ⟨hgen, hfetch⟩

end HotStuffTx
