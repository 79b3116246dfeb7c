import HotStuffTx.Payload

/-!
# From a drawn transaction to the executed one

Embeds `SmallBankManager::get_next_transaction_by_type`, which writes the
payloads, and `execute_transaction` once more, with the positions it reads.
What `rand()` and `user_distribution` return is an input; `none` is a draw that
is not there, a division by zero or a read outside the accounts.
-/

set_option linter.unusedSectionVars false

namespace HotStuffTx

-- ---------------------------------------------------------------------------
-- The generator
-- ---------------------------------------------------------------------------

/-- `bank` and `n_users`; an account takes eight bytes of memory. -/
structure SmallBankManager (n : Nat) where
  bank : SmallBank n
  fits : 8 * n < 2 ^ 64

def SmallBankManager.nUsers (_ : SmallBankManager n) : UInt64 := UInt64.ofNat n

/-- A value of `zipfian_int_distribution(0, n_users - 1)`. -/
abbrev UserDraw (n : Nat) := { u : UInt64 // u ≤ UInt64.ofNat n - 1 }

/-- What `rand()` and `user_distribution` are going to return. -/
structure Draws (n : Nat) where
  rands : List UInt64
  users : List (UserDraw n)
  deriving DecidableEq

abbrev Draw (n : Nat) := StateT (Draws n) Option

namespace Draw

def rand : Draw n UInt64 := fun ds =>
  match ds.rands with
  | [] => none
  | r :: rands => some (r, { ds with rands := rands })

def user : Draw n UInt64 := fun ds =>
  match ds.users with
  | [] => none
  | u :: users => some (u.val, { ds with users := users })

def randomNumberGenerator (min max : UInt64) : Draw n UInt64 := do
  let r ← rand
  if max - min + 1 = 0 then failure
  return r % (max - min + 1) + min

/-- `user_id_start` is drawn until the party lies among the users. -/
def start (nUsers partySize : UInt64) : Draw n UInt64 := fun ds =>
  go ds.rands ds.users
where
  go (rands : List UInt64) : List (UserDraw n) → Option (UInt64 × Draws n)
    | [] => none
    | u :: users => if nUsers < u.val + partySize then go rands users else some (u.val, ⟨rands, users⟩)

end Draw

/-- The values of `user_id` in `for (user_id = first; user_id < last; user_id++)`. -/
def usersFrom (first last : UInt64) : List UInt64 :=
  (List.range (last.toNat - first.toNat)).map fun i => first + UInt64.ofNat i

namespace SmallBankManager

open Draw

variable {n : Nat} (m : SmallBankManager n)

def query (userId : UInt64) : Draw n (UInt64 × UInt64) := StateT.lift (m.bank.query userId)

/-- `party_size`, `n_payors`, `user_id_start` and `max_amount`. -/
def drawSplit : Draw n (UInt64 × UInt64 × UInt64 × UInt64) := do
  let partySize ← randomNumberGenerator 3 10
  let nPayors ← randomNumberGenerator 1 (partySize / 2)
  let userIdStart ← start m.nUsers partySize
  let maxAmount ← (usersFrom userIdStart (userIdStart + nPayors)).foldlM
    (fun acc userId => return min acc (← m.query userId).1) uint64Max
  let maxAmount ← (usersFrom (userIdStart + nPayors) (userIdStart + partySize)).foldlM
    (fun acc userId => return min acc (uint64Max - (← m.query userId).1)) maxAmount
  return (partySize, nPayors, userIdStart, maxAmount)

/-- `get_next_transaction_by_type`; `n_payors` is never zero. -/
def getNextTransactionByType (txType : UInt64) : Draw n (List UInt64) := do
  match txType.toNat with
  | 0 =>
    let userId ← user
    let savingAmount := (← m.query userId).2
    let amount ← randomNumberGenerator 0 ((uint64Max - savingAmount) / 2)
    return [txType, userId, amount]
  | 1 =>
    let userId ← user
    let checkingAmount := (← m.query userId).1
    let amount ← randomNumberGenerator 0 ((uint64Max - checkingAmount) / 2)
    return [txType, userId, amount]
  | 2 =>
    let userId ← user
    let checkingAmount := (← m.query userId).1
    let amount ← randomNumberGenerator 0 checkingAmount
    return [txType, userId, amount]
  | 3 =>
    let fromUserId ← user
    let toUserId ← user
    let fromCheckingAmount := (← m.query fromUserId).1
    let toCheckingAmount := (← m.query toUserId).1
    let amount ← randomNumberGenerator 0 (min fromCheckingAmount (uint64Max - toCheckingAmount))
    return [txType, fromUserId, toUserId, amount]
  | 4 =>
    let (partySize, nPayors, userIdStart, maxAmount) ← m.drawSplit
    let txPayload ← (usersFrom userIdStart (userIdStart + nPayors)).foldlM
      (fun txPayload userId => do
        let amount ← randomNumberGenerator 0 (maxAmount / nPayors)
        return txPayload ++ [userId, amount]) [txType, nPayors]
    return txPayload ++ [partySize] ++ usersFrom userIdStart (userIdStart + partySize)
  | 5 => return [txType, ← user]
  | 6 => return [txType, ← user]
  | _ => return [txType]

/-- The operation that the comments of the cases announce, on what is drawn in
them. -/
def drawnCall (txType : UInt64) : Draw n (Option BankCall) := do
  match txType.toNat with
  | 0 =>
    let userId ← user
    let (_, saving) ← m.query userId
    return some (.transactionSavings userId
      (← randomNumberGenerator 0 ((uint64Max - saving) / 2)))
  | 1 =>
    let userId ← user
    let (checking, _) ← m.query userId
    return some (.depositChecking userId
      (← randomNumberGenerator 0 ((uint64Max - checking) / 2)))
  | 2 =>
    let userId ← user
    let (checking, _) ← m.query userId
    return some (.writeCheck userId (← randomNumberGenerator 0 checking))
  | 3 =>
    let fromUserId ← user
    let toUserId ← user
    let (fromChecking, _) ← m.query fromUserId
    let (toChecking, _) ← m.query toUserId
    return some (.sendPayment fromUserId toUserId
      (← randomNumberGenerator 0 (min fromChecking (uint64Max - toChecking))))
  | 4 =>
    let (partySize, nPayors, userIdStart, maxAmount) ← m.drawSplit
    let payors ← (usersFrom userIdStart (userIdStart + nPayors)).mapM fun userId =>
      return (userId, ← randomNumberGenerator 0 (maxAmount / nPayors))
    return some (.transactionSplit payors (usersFrom userIdStart (userIdStart + partySize)))
  | 5 => return some (.amalgamate (← user))
  | 6 => return some (.query (← user))
  | _ => return none

end SmallBankManager

/-- The type of an operation. -/
def BankCall.txType : BankCall → Nat
  | .transactionSavings .. => 0
  | .depositChecking .. => 1
  | .writeCheck .. => 2
  | .sendPayment .. => 3
  | .transactionSplit .. => 4
  | .amalgamate .. => 5
  | .query .. => 6

-- ---------------------------------------------------------------------------
-- The positions read
-- ---------------------------------------------------------------------------

/-- `idx`, and the positions of the payload read so far. -/
structure Cursor where
  idx : Nat
  reads : List Nat
  deriving DecidableEq

abbrev Fetch := StateT Cursor Option

/-- `tx_payload[idx++]`. -/
def fetch (txPayload : List UInt64) : Fetch UInt64 := fun cur =>
  txPayload[cur.idx]?.map fun x => (x, ⟨cur.idx + 1, cur.reads ++ [cur.idx]⟩)

def fetchPayors (txPayload : List UInt64) : Nat → Fetch (List (UInt64 × UInt64))
  | 0 => return []
  | k + 1 => do
    let payorId ← fetch txPayload
    let payorAmount ← fetch txPayload
    return (payorId, payorAmount) :: (← fetchPayors txPayload k)

def fetchParty (txPayload : List UInt64) : Nat → Fetch (List UInt64)
  | 0 => return []
  | k + 1 => do
    let userId ← fetch txPayload
    return userId :: (← fetchParty txPayload k)

/-- The operands of a split; a count of `2 ^ 31` or more is as in `readSplit`. -/
def fetchSplit (txPayload : List UInt64) : Fetch BankCall := do
  let nPayors ← fetch txPayload
  if 2 ^ 31 ≤ nPayors.toNat then failure
  else
    let payors ← fetchPayors txPayload nPayors.toNat
    let partySize ← fetch txPayload
    if 2 ^ 31 ≤ partySize.toNat then failure
    else return .transactionSplit payors (← fetchParty txPayload partySize.toNat)

/-- The reads of `execute_transaction`. -/
def fetchTransaction (txPayload : List UInt64) : Fetch (Option BankCall) := do
  let txType ← fetch txPayload
  match txType.toNat with
  | 0 => return some (.transactionSavings (← fetch txPayload) (← fetch txPayload))
  | 1 => return some (.depositChecking (← fetch txPayload) (← fetch txPayload))
  | 2 => return some (.writeCheck (← fetch txPayload) (← fetch txPayload))
  | 3 =>
    return some (.sendPayment (← fetch txPayload) (← fetch txPayload) (← fetch txPayload))
  | 4 => return some (← fetchSplit txPayload)
  | 5 => return some (.amalgamate (← fetch txPayload))
  | 6 => return some (.query (← fetch txPayload))
  | _ => return none

-- ---------------------------------------------------------------------------
-- Reading in order
-- ---------------------------------------------------------------------------

/-- How many elements of the payload an operation takes, its type included. -/
def wordsRead : Option BankCall → Nat
  | none => 1
  | some (.transactionSavings ..) | some (.depositChecking ..) | some (.writeCheck ..) => 3
  | some (.sendPayment ..) => 4
  | some (.transactionSplit payors party) => 3 + 2 * payors.length + party.length
  | some (.amalgamate _) | some (.query _) => 2

/-- The first `k` positions are read, in order and once each. -/
def Cursor.after (k : Nat) : Cursor := ⟨k, List.range k⟩

theorem fetch_after (p : List UInt64) (k : Nat) :
    fetch p (.after k) = p[k]?.map fun x => (x, .after (k + 1)) := by
  simp only [fetch, Cursor.after, List.range_succ]

theorem fetch_bind {p : List UInt64} (h : p.drop k = l) (f : UInt64 → Fetch α) :
    (fetch p >>= f) (.after k) = l.head?.bind fun x => f x (.after (k + 1)) := by
  have hget : p[k]? = l.head? := by rw [← h, List.head?_drop]
  change (fetch p (.after k)).bind _ = _
  rw [fetch_after, hget]
  cases l <;> rfl

theorem length_flatPayors (payors : List (UInt64 × UInt64)) :
    (flatPayors payors).length = 2 * payors.length := by
  induction payors with
  | nil => rfl
  | cons payor payors ih =>
    simp only [flatPayors, List.flatMap_cons, List.length_append, List.length_cons] at ih ⊢
    rw [ih]
    simp only [List.length_nil]
    omega

theorem rest_of_readPayors (h : readPayors k l = some (payors, rest)) : rest = l.drop (2 * k) := by
  obtain ⟨rfl, rfl⟩ := readPayors_eq_some.mp h
  rw [List.drop_append_of_le_length (length_flatPayors payors).ge,
    List.drop_eq_nil_of_le (length_flatPayors payors).le, List.nil_append]

theorem drop_succ_of_drop {l : List α} (h : l.drop k = a :: rest) : l.drop (k + 1) = rest := by
  rw [← List.tail_drop, h, List.tail_cons]

theorem fetchPayors_after {p : List UInt64} (h : p.drop k = l) (j : Nat) :
    fetchPayors p j (.after k) = (readPayors j l).map fun r => (r.1, .after (k + 2 * j)) := by
  induction j generalizing k l with
  | zero => rfl
  | succ j ih =>
    match l with
    | [] => exact fetch_bind h _
    | [payorId] => exact (fetch_bind h _).trans (fetch_bind (drop_succ_of_drop h) _)
    | payorId :: payorAmount :: l =>
      have h' := drop_succ_of_drop h
      rw [fetchPayors, fetch_bind h, List.head?_cons, Option.bind_some, fetch_bind h',
        List.head?_cons, Option.bind_some, show k + 2 * (j + 1) = k + 1 + 1 + 2 * j by omega]
      have hrec := ih (drop_succ_of_drop h')
      simp only [bind, StateT.bind, hrec, readPayors]
      cases readPayors j l <;> rfl

theorem fetchParty_after {p : List UInt64} (h : p.drop k = l) (j : Nat) :
    fetchParty p j (.after k) = (readParty j l).map fun party => (party, .after (k + j)) := by
  induction j generalizing k l with
  | zero => rfl
  | succ j ih =>
    match l with
    | [] => exact fetch_bind h _
    | userId :: l =>
      rw [fetchParty, fetch_bind h, List.head?_cons, Option.bind_some,
        show k + (j + 1) = k + 1 + j by omega]
      have hrec := ih (drop_succ_of_drop h)
      simp only [bind, StateT.bind, hrec, readParty]
      cases readParty j l <;> rfl

theorem fetchSplit_after {p : List UInt64} (h : p.drop 1 = args) :
    fetchSplit p (.after 1) =
      (readSplit args).map fun c => (c, .after (wordsRead (some c))) := by
  rw [fetchSplit, fetch_bind h]
  cases args with
  | nil => rfl
  | cons nPayors args =>
    have h2 := drop_succ_of_drop h
    rw [List.head?_cons, Option.bind_some]
    by_cases hn : 2 ^ 31 ≤ nPayors.toNat
    · rw [if_pos hn, readSplit, if_pos hn]
      rfl
    rw [if_neg hn, readSplit, if_neg hn]
    change (fetchPayors p nPayors.toNat (.after 2)).bind _ = _
    rw [fetchPayors_after h2]
    cases hr : readPayors nPayors.toNat args with
    | none => rfl
    | some result =>
      obtain ⟨payors, rest⟩ := result
      obtain ⟨hlen, hargs⟩ := readPayors_eq_some.mp hr
      have h3 : p.drop (2 + 2 * nPayors.toNat) = rest := by
        rw [← List.drop_drop, h2]
        exact (rest_of_readPayors hr).symm
      refine (fetch_bind h3 _).trans ?_
      cases rest with
      | nil => rfl
      | cons partySize rest =>
        simp only [List.head?_cons, Option.bind_some]
        by_cases hp : 2 ^ 31 ≤ partySize.toNat
        · rw [if_pos hp, if_pos hp]
          rfl
        rw [if_neg hp, if_neg hp]
        change (fetchParty p partySize.toNat (.after (2 + 2 * nPayors.toNat + 1))).bind _ = _
        rw [fetchParty_after (drop_succ_of_drop h3)]
        cases hq : readParty partySize.toNat rest with
        | none => rfl
        | some party =>
          obtain ⟨hparty, -⟩ := readParty_eq_some.mp hq
          have hwords : wordsRead (some (.transactionSplit payors party)) =
              2 + 2 * nPayors.toNat + 1 + partySize.toNat := by
            rw [wordsRead, hlen, hparty]
            omega
          simp only [Option.map_some, hwords]
          rfl

section

variable {p : List UInt64} (h : p.drop 1 = args)

include h

theorem fetch_one (f : UInt64 → BankCall) :
    (do return some (f (← fetch p)) : Fetch (Option BankCall)) (.after 1) =
      (match args with
        | x :: _ => some (some (f x))
        | _ => none).map fun c => (c, .after 2) := by
  refine (fetch_bind h _).trans ?_
  cases args <;> rfl

theorem fetch_two (f : UInt64 → UInt64 → BankCall) :
    (do return some (f (← fetch p) (← fetch p)) : Fetch (Option BankCall)) (.after 1) =
      (match args with
        | x :: y :: _ => some (some (f x y))
        | _ => none).map fun c => (c, .after 3) := by
  refine (fetch_bind h _).trans ?_
  match args with
  | [] => rfl
  | x :: args =>
    refine (fetch_bind (drop_succ_of_drop h) _).trans ?_
    cases args <;> rfl

theorem fetch_three (f : UInt64 → UInt64 → UInt64 → BankCall) :
    (do return some (f (← fetch p) (← fetch p) (← fetch p)) : Fetch (Option BankCall)) (.after 1) =
      (match args with
        | x :: y :: z :: _ => some (some (f x y z))
        | _ => none).map fun c => (c, .after 4) := by
  refine (fetch_bind h _).trans ?_
  match args with
  | [] => rfl
  | [x] => exact fetch_bind (drop_succ_of_drop h) _
  | x :: y :: args =>
    have h' := drop_succ_of_drop h
    refine (fetch_bind h' _).trans ?_
    refine (fetch_bind (drop_succ_of_drop h') _).trans ?_
    cases args <;> rfl

end

/-- `execute_transaction` reads the operation off the front of the payload. -/
theorem fetchTransaction_eq (p : List UInt64) :
    fetchTransaction p (.after 0) = (readTransaction p).map fun c => (c, .after (wordsRead c)) := by
  rw [fetchTransaction, fetch_bind (List.drop_zero (l := p))]
  cases p with
  | nil => rfl
  | cons t args =>
    have h : (t :: args).drop 1 = args := rfl
    simp only [List.head?_cons, Option.bind_some, readTransaction]
    generalize t.toNat = ty
    rcases ty with _ | _ | _ | _ | _ | _ | _ | ty
    case zero | succ.zero | succ.succ.zero =>
      refine (fetch_two h _).trans ?_
      rcases args with _ | ⟨x, _ | ⟨y, args⟩⟩ <;> rfl
    case succ.succ.succ.zero =>
      refine (fetch_three h _).trans ?_
      rcases args with _ | ⟨x, _ | ⟨y, _ | ⟨z, args⟩⟩⟩ <;> rfl
    case succ.succ.succ.succ.zero =>
      change (fetchSplit (t :: args) (.after 1)).bind _ = _
      rw [fetchSplit_after h]
      cases readSplit args <;> rfl
    case succ.succ.succ.succ.succ.zero | succ.succ.succ.succ.succ.succ.zero =>
      refine (fetch_one h _).trans ?_
      cases args <;> rfl
    case succ.succ.succ.succ.succ.succ.succ => rfl

-- ---------------------------------------------------------------------------
-- Writing what is drawn
-- ---------------------------------------------------------------------------

/-- The payload formats that the comments of the cases give. -/
def spell (txType : UInt64) : Option BankCall → List UInt64
  | none => [txType]
  | some (.transactionSavings userId amount) | some (.depositChecking userId amount)
  | some (.writeCheck userId amount) => [txType, userId, amount]
  | some (.sendPayment fromUserId toUserId amount) => [txType, fromUserId, toUserId, amount]
  | some (.transactionSplit payors party) =>
    txType :: UInt64.ofNat payors.length ::
      (flatPayors payors ++ UInt64.ofNat party.length :: party)
  | some (.amalgamate userId) | some (.query userId) => [txType, userId]

theorem StateT.bind_eq_some {x : StateT σ Option α} {f : α → StateT σ Option β} :
    (x >>= f) s = some r ↔ ∃ a s', x s = some (a, s') ∧ f a s' = some r := by
  change (x s).bind _ = some r ↔ _
  rw [Option.bind_eq_some_iff, Prod.exists]

namespace Draw

variable {n : Nat} {ds ds' : Draws n}

theorem randomNumberGenerator_bounds {lo hi : UInt64} (hle : lo ≤ hi)
    (h : randomNumberGenerator lo hi ds = some (x, ds')) : lo ≤ x ∧ x ≤ hi := by
  obtain ⟨r, ds₁, -, h⟩ := StateT.bind_eq_some.mp h
  by_cases h0 : hi - lo + 1 = 0
  · rw [if_pos h0] at h
    cases h
  rw [if_neg h0] at h
  cases h
  rw [UInt64.le_iff_toNat_le] at hle
  have h0' : (hi - lo + 1).toNat ≠ 0 := fun h => h0 (UInt64.toNat_inj.mp h)
  have hhi := hi.toNat_lt
  have hsub : (hi - lo).toNat = hi.toNat - lo.toNat :=
    UInt64.toNat_sub_of_le _ _ (UInt64.le_iff_toNat_le.mpr hle)
  have hk : (hi - lo + 1).toNat = hi.toNat - lo.toNat + 1 := by
    rw [UInt64.toNat_add, hsub] at h0' ⊢
    have : (1 : UInt64).toNat = 1 := rfl
    omega
  have hmod : (r % (hi - lo + 1)).toNat < hi.toNat - lo.toNat + 1 := by
    rw [UInt64.toNat_mod, hk]
    exact Nat.mod_lt _ (by omega)
  have hx : (r % (hi - lo + 1) + lo).toNat = (r % (hi - lo + 1)).toNat + lo.toNat := by
    rw [UInt64.toNat_add]
    omega
  rw [UInt64.le_iff_toNat_le, UInt64.le_iff_toNat_le, hx]
  omega

theorem start_spec {nUsers partySize : UInt64} (h : start nUsers partySize ds = some (u, ds')) :
    u ≤ UInt64.ofNat n - 1 ∧ u + partySize ≤ nUsers := by
  simp only [start] at h
  generalize ds.users = users at h
  induction users with
  | nil => cases h
  | cons v users ih =>
    rw [start.go] at h
    by_cases hv : nUsers < v.val + partySize
    · rw [if_pos hv] at h
      exact ih h
    · rw [if_neg hv] at h
      cases h
      exact ⟨v.property, UInt64.not_lt.mp hv⟩

theorem length_of_mapM {f : α → Draw n β} {l : List α} (h : l.mapM f ds = some (bs, ds')) :
    bs.length = l.length := by
  induction l generalizing ds bs with
  | nil => cases h; rfl
  | cons a l ih =>
    rw [List.mapM_cons] at h
    obtain ⟨b, ds₁, -, h⟩ := StateT.bind_eq_some.mp h
    obtain ⟨bs', ds₂, hbs, h⟩ := StateT.bind_eq_some.mp h
    cases h
    exact congrArg (· + 1) (ih hbs)

/-- Pushing each payor's words onto the payload is collecting the payors. -/
theorem foldlM_payors (f : UInt64 → Draw n UInt64) (l : List UInt64) (txPayload : List UInt64) :
    l.foldlM (fun txPayload userId => do
      let amount ← f userId
      return txPayload ++ [userId, amount]) txPayload =
    (do
      let payors ← l.mapM fun userId => return (userId, ← f userId)
      return txPayload ++ flatPayors payors) := by
  induction l generalizing txPayload with
  | nil => simp [flatPayors]
  | cons userId l ih =>
    simp only [List.foldlM_cons, List.mapM_cons, bind_assoc, pure_bind, ih, flatPayors,
      List.flatMap_cons, List.append_assoc, List.cons_append, List.nil_append]

end Draw

theorem length_usersFrom (first : UInt64) {k : UInt64} (h : first.toNat + k.toNat < 2 ^ 64) :
    (usersFrom first (first + k)).length = k.toNat := by
  rw [usersFrom, List.length_map, List.length_range, UInt64.toNat_add, Nat.mod_eq_of_lt h]
  omega

namespace SmallBankManager

open Draw

variable {n : Nat} {m : SmallBankManager n} {ds ds' : Draws n}

/-- Only users of the bank are looked up. -/
theorem lt_of_query (h : m.query u ds = some (r, ds')) : u.toNat < n := by
  simp only [query, StateT.lift, SmallBank.query] at h
  by_contra hu
  rw [Vector.getElem?_eq_none (by omega)] at h
  cases h

/-- The first payor's balance is looked up. -/
theorem lt_of_foldlM {first k acc : UInt64} (hwrap : first.toNat + k.toNat < 2 ^ 64)
    (hk : 0 < k.toNat)
    (h : (usersFrom first (first + k)).foldlM (m := Draw n)
      (fun acc userId => return min acc (← m.query userId).1) acc ds = some (r, ds')) :
    first.toNat < n := by
  have hlen := length_usersFrom first hwrap
  rw [usersFrom, List.length_map, List.length_range] at hlen
  obtain ⟨j, hj⟩ := Nat.exists_eq_succ_of_ne_zero hk.ne'
  rw [usersFrom, hlen, hj, List.range_succ_eq_map, List.map_cons, List.foldlM_cons] at h
  obtain ⟨acc', ds₁, h, -⟩ := StateT.bind_eq_some.mp h
  obtain ⟨r', ds₂, hq, -⟩ := StateT.bind_eq_some.mp h
  have hlt := lt_of_query hq
  rwa [show first + UInt64.ofNat 0 = first from UInt64.add_zero first] at hlt

/-- The party is as large as drawn, and lies among the users. -/
theorem drawSplit_spec (h : m.drawSplit ds = some ((partySize, nPayors, userIdStart, maxAmount), ds')) :
    3 ≤ partySize.toNat ∧ partySize.toNat ≤ 10 ∧ 1 ≤ nPayors.toNat ∧
      nPayors.toNat ≤ partySize.toNat / 2 ∧ userIdStart.toNat + partySize.toNat ≤ n := by
  obtain ⟨partySize, ds₁, hparty, h⟩ := StateT.bind_eq_some.mp h
  obtain ⟨nPayors, ds₂, hpayors, h⟩ := StateT.bind_eq_some.mp h
  obtain ⟨userIdStart, ds₃, hstart, h⟩ := StateT.bind_eq_some.mp h
  obtain ⟨max₁, ds₄, hmax₁, h⟩ := StateT.bind_eq_some.mp h
  obtain ⟨max₂, ds₅, hmax₂, h⟩ := StateT.bind_eq_some.mp h
  cases h
  obtain ⟨h3, h10⟩ := randomNumberGenerator_bounds (by decide) hparty
  rw [UInt64.le_iff_toNat_le] at h3 h10
  have h3' : (3 : UInt64).toNat = 3 := rfl
  have h10' : (10 : UInt64).toNat = 10 := rfl
  have hhalf : (partySize / 2).toNat = partySize.toNat / 2 := UInt64.toNat_div _ _
  have hone : (1 : UInt64) ≤ partySize / 2 := by
    rw [UInt64.le_iff_toNat_le, hhalf]
    have : (1 : UInt64).toNat = 1 := rfl
    omega
  obtain ⟨h1, h5⟩ := randomNumberGenerator_bounds hone hpayors
  rw [UInt64.le_iff_toNat_le] at h1 h5
  have h1' : (1 : UInt64).toNat = 1 := rfl
  obtain ⟨hu, hle⟩ := start_spec hstart
  rw [UInt64.le_iff_toNat_le] at hu hle
  have hfits := m.fits
  have hn : m.nUsers.toNat = n := by
    rw [nUsers, UInt64.toNat_ofNat']
    omega
  rw [hn, UInt64.toNat_add] at hle
  have hlt := userIdStart.toNat_lt
  -- `n_users - 1` wraps for a bank without users, whose accounts cannot be read
  have hstart_lt : userIdStart.toNat < n := by
    rcases Nat.eq_zero_or_pos n with h0 | hpos
    · exact lt_of_foldlM (by omega) (by omega) hmax₁
    · have hsub : (UInt64.ofNat n - 1).toNat = n - 1 := by
        rw [UInt64.toNat_sub_of_le _ _ (by rw [UInt64.le_iff_toNat_le, UInt64.toNat_ofNat']; omega),
          UInt64.toNat_ofNat']
        omega
      omega
  omega

theorem StateT_map_eq_some {x : StateT σ Option α} {f : α → β} (h : (f <$> x) s = some (b, s')) :
    ∃ a, x s = some (a, s') ∧ f a = b := by
  rw [← bind_pure_comp] at h
  obtain ⟨a, s₁, hx, h⟩ := StateT.bind_eq_some.mp h
  cases h
  exact ⟨a, hx, rfl⟩

/-- Of the types other than the split's, the payload is written as it is drawn. -/
theorem getNext_eq (txType : UInt64) (h4 : txType.toNat ≠ 4) :
    m.getNextTransactionByType txType = spell txType <$> m.drawnCall txType := by
  simp only [getNextTransactionByType, drawnCall]
  generalize txType.toNat = ty at h4
  match ty with
  | 4 => exact absurd rfl h4
  | 0 | 1 | 2 | 3 | 5 | 6 => simp [spell]
  | _ + 7 => simp [spell]

theorem getNext_split (h4 : txType.toNat = 4)
    (h : m.getNextTransactionByType txType ds = some (txPayload, ds')) :
    ∃ payors party, m.drawnCall txType ds = some (some (.transactionSplit payors party), ds') ∧
      payors.length ≤ 5 ∧ party.length ≤ 10 ∧
      txPayload = spell txType (some (.transactionSplit payors party)) := by
  simp only [getNextTransactionByType, h4] at h
  obtain ⟨⟨partySize, nPayors, userIdStart, maxAmount⟩, ds₁, hsplit, h⟩ := StateT.bind_eq_some.mp h
  obtain ⟨h3, h10, h1, h5, hn⟩ := drawSplit_spec hsplit
  have hfits := m.fits
  simp only [foldlM_payors, bind_assoc, pure_bind] at h
  obtain ⟨payors, ds₂, hpayors, h⟩ := StateT.bind_eq_some.mp h
  cases h
  have hlen := length_of_mapM hpayors
  rw [length_usersFrom _ (by omega)] at hlen
  have hparty := length_usersFrom userIdStart (k := partySize) (by omega)
  refine ⟨payors, usersFrom userIdStart (userIdStart + partySize), ?_, by omega, by omega, ?_⟩
  · simp only [drawnCall, h4]
    exact StateT.bind_eq_some.mpr ⟨_, _, hsplit, StateT.bind_eq_some.mpr ⟨_, _, hpayors, rfl⟩⟩
  · rw [spell, hlen, hparty, UInt64.ofNat_toNat, UInt64.ofNat_toNat]
    simp

end SmallBankManager

end HotStuffTx
