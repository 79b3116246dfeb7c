import Mathlib

/-!
# The demo bank

Embeds `small_bank.cpp` as the commit callback reaches it: the operations of
`SmallBank` and `SmallBankManager::execute_transaction`. Balances are 64-bit
and wrap; `none` is a read outside the accounts or the payload, or a division
by zero. The accounts are vectors of the `n_users` they were built with.
-/

namespace HotStuffTx

structure SmallBank (nUsers : Nat) where
  checkingAccounts : Vector UInt64 nUsers
  savingAccounts : Vector UInt64 nUsers
  deriving DecidableEq

/-- `UINT64_MAX`. -/
def uint64Max : UInt64 := 0xFFFFFFFFFFFFFFFF

/-- `accounts[user_id] = f(accounts[user_id])`. -/
def modifyAccount (accounts : Vector UInt64 n) (userId : UInt64) (f : UInt64 → UInt64) :
    Option (Vector UInt64 n) := do
  let balance ← accounts[userId.toNat]?
  return accounts.setIfInBounds userId.toNat (f balance)

namespace SmallBank

variable {n : Nat}

def transactionSavings (b : SmallBank n) (userId amount : UInt64) : Option (SmallBank n) := do
  if uint64Max - (← b.savingAccounts[userId.toNat]?) < amount then return b
  return { b with savingAccounts := ← modifyAccount b.savingAccounts userId (· + amount) }

def depositChecking (b : SmallBank n) (userId amount : UInt64) : Option (SmallBank n) := do
  if uint64Max - (← b.checkingAccounts[userId.toNat]?) < amount then return b
  return { b with checkingAccounts := ← modifyAccount b.checkingAccounts userId (· + amount) }

def writeCheck (b : SmallBank n) (userId amount : UInt64) : Option (SmallBank n) := do
  if (← b.checkingAccounts[userId.toNat]?) < amount then return b
  return { b with checkingAccounts := ← modifyAccount b.checkingAccounts userId (· - amount) }

def amalgamate (b : SmallBank n) (userId : UInt64) : Option (SmallBank n) := do
  let saving ← b.savingAccounts[userId.toNat]?
  if uint64Max - (← b.checkingAccounts[userId.toNat]?) < saving then return b
  return {
    checkingAccounts := ← modifyAccount b.checkingAccounts userId (· + saving)
    savingAccounts := ← modifyAccount b.savingAccounts userId fun _ => 0 }

/-- The second account is read only where the first has the amount. -/
def sendPayment (b : SmallBank n) (fromUserId toUserId amount : UInt64) :
    Option (SmallBank n) := do
  if (← b.checkingAccounts[fromUserId.toNat]?) < amount then return b
  if uint64Max - (← b.checkingAccounts[toUserId.toNat]?) < amount then return b
  let accounts ← modifyAccount b.checkingAccounts fromUserId (· - amount)
  return { b with checkingAccounts := ← modifyAccount accounts toUserId (· + amount) }

/-- `amount_payed` is an `int`: each sum is taken in 64 bits and cut to 32. -/
def amountPayed (payors : List (UInt64 × UInt64)) : Int32 :=
  payors.foldl (fun acc payor => (acc.toInt64.toUInt64 + payor.2).toUInt32.toInt32) 0

/-- `per_head_amount_to_pay`: the `int` is widened to divide it by a `size_t`. -/
def perHead (payors : List (UInt64 × UInt64)) (party : List UInt64) : UInt64 :=
  (amountPayed payors).toInt64.toUInt64 / UInt64.ofNat party.length

/-- The check of one payor: the account has not the amount. -/
def isShort (b : SmallBank n) (payor : UInt64 × UInt64) : Option Bool := do
  return (← b.checkingAccounts[payor.1.toNat]?) < payor.2

/-- The check of one member of the party: the share does not fit. -/
def isFull (b : SmallBank n) (perHead userId : UInt64) : Option Bool := do
  return uint64Max - (← b.checkingAccounts[userId.toNat]?) < perHead

/-- The payors are credited and the party debited, as in the source. -/
def transactionSplit (b : SmallBank n) (payors : List (UInt64 × UInt64)) (party : List UInt64) :
    Option (SmallBank n) := do
  if party = [] then none
  if ← payors.anyM b.isShort then return b
  if ← party.anyM (b.isFull (perHead payors party)) then return b
  let accounts ← payors.foldlM (fun acc payor => modifyAccount acc payor.1 (· + payor.2))
    b.checkingAccounts
  let accounts ← party.foldlM (fun acc userId =>
    modifyAccount acc userId (· - perHead payors party)) accounts
  return { b with checkingAccounts := accounts }

def query (b : SmallBank n) (userId : UInt64) : Option (UInt64 × UInt64) := do
  return (← b.checkingAccounts[userId.toNat]?, ← b.savingAccounts[userId.toNat]?)

end SmallBank

/-- A call of one of the operations, numbered by `tx_type`. -/
inductive BankCall
  | transactionSavings (userId amount : UInt64)
  | depositChecking (userId amount : UInt64)
  | writeCheck (userId amount : UInt64)
  | sendPayment (fromUserId toUserId amount : UInt64)
  | transactionSplit (payors : List (UInt64 × UInt64)) (party : List UInt64)
  | amalgamate (userId : UInt64)
  | query (userId : UInt64)
  deriving DecidableEq

/-- The loop over the payors, and what of the payload is left. -/
def readPayors : Nat → List UInt64 → Option (List (UInt64 × UInt64) × List UInt64)
  | 0, payload => some ([], payload)
  | k + 1, payorId :: payorAmount :: payload => do
    let (payors, rest) ← readPayors k payload
    return ((payorId, payorAmount) :: payors, rest)
  | _ + 1, _ => none

/-- The loop over the party. -/
def readParty : Nat → List UInt64 → Option (List UInt64)
  | 0, _ => some []
  | k + 1, userId :: payload => return userId :: (← readParty k payload)
  | _ + 1, [] => none

/-- The operands of a split. The loops count with an `int`, which a count of
`2 ^ 31` or more would overflow. -/
def readSplit : List UInt64 → Option BankCall
  | [] => none
  | nPayors :: args =>
    if 2 ^ 31 ≤ nPayors.toNat then none
    else
      match readPayors nPayors.toNat args with
      | some (payors, partySize :: rest) =>
        if 2 ^ 31 ≤ partySize.toNat then none
        else (readParty partySize.toNat rest).map (.transactionSplit payors)
      | _ => none

/-- What the switch of `execute_transaction` reads off the payload. The inner
`none` is the default branch. -/
def readTransaction : List UInt64 → Option (Option BankCall)
  | [] => none
  | txType :: args =>
    match txType.toNat with
    | 0 =>
      match args with
      | userId :: amount :: _ => some (some (.transactionSavings userId amount))
      | _ => none
    | 1 =>
      match args with
      | userId :: amount :: _ => some (some (.depositChecking userId amount))
      | _ => none
    | 2 =>
      match args with
      | userId :: amount :: _ => some (some (.writeCheck userId amount))
      | _ => none
    | 3 =>
      match args with
      | fromUserId :: toUserId :: amount :: _ =>
        some (some (.sendPayment fromUserId toUserId amount))
      | _ => none
    | 4 => (readSplit args).map some
    | 5 =>
      match args with
      | userId :: _ => some (some (.amalgamate userId))
      | _ => none
    | 6 =>
      match args with
      | userId :: _ => some (some (.query userId))
      | _ => none
    | _ => some none

namespace SmallBank

def call (b : SmallBank n) : BankCall → Option (SmallBank n × (UInt64 × UInt64))
  | .transactionSavings userId amount => return (← b.transactionSavings userId amount, (0, 0))
  | .depositChecking userId amount => return (← b.depositChecking userId amount, (0, 0))
  | .writeCheck userId amount => return (← b.writeCheck userId amount, (0, 0))
  | .sendPayment fromUserId toUserId amount =>
    return (← b.sendPayment fromUserId toUserId amount, (0, 0))
  | .transactionSplit payors party => return (← b.transactionSplit payors party, (0, 0))
  | .amalgamate userId => return (← b.amalgamate userId, (0, 0))
  | .query userId => return (b, ← b.query userId)

/-- `SmallBankManager::execute_transaction`. -/
def executeTransaction (b : SmallBank n) (txPayload : List UInt64) :
    Option (SmallBank n × (UInt64 × UInt64)) := do
  match ← readTransaction txPayload with
  | none => return (b, (0, 0))
  | some c => b.call c

end SmallBank

end HotStuffTx
