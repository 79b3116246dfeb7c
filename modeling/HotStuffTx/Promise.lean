import Mathlib
import HotStuffTx.Lib.Run

/-!
# Promises

Embeds `promise.hpp`. A promise is known by its number; what is left to run of the
loops over callbacks, of the lambdas of the library and of the functions given by the
program is one stack. What such a function does comes as events while it is on top:
it may use any promise, return, or throw an exception that the function below it may
catch. `links`, `fired` and `returned` record which callbacks were added, which have
run and what the functions gave back, and `dropped` what exceptions have left undone.
Reference counts are left out, and so is the stack-free build.
-/

namespace HotStuffTx

/-- `pm_any_t`: empty, a value of the program, or the `values_t` of `all`. -/
inductive PmAny (α : Type)
  | empty
  | val (a : α)
  | values (vs : List (PmAny α))

inductive Outcome
  | fulfilled
  | rejected
  deriving DecidableEq

/-- A function given to `then` or `fail`: one of the program, or a lambda of the
library, which resolves or rejects another promise or is that of a member of `all`. -/
inductive Func
  | user
  | settle (npm : Nat) (o : Outcome)
  | collect (gather idx : Nat)
  deriving DecidableEq

/-- `callback_t`, for the promise `npm` that `then` or `fail` returned. Without a
function it passes the result or the reason on. -/
structure Closure where
  f : Option Func
  o : Outcome
  npm : Nat
  deriving DecidableEq

/-- `Promise`. The state is `none` while it is pending; `value` is `result` and
`reason`, `callbacks` are `fulfilled_callbacks` and `rejected_callbacks`. -/
structure Promise (α : Type) where
  state : Option Outcome
  value : Outcome → PmAny α
  callbacks : Outcome → List Closure

def Promise.new : Promise α where
  state := none
  value _ := .empty
  callbacks _ := []

/-- `result` and `reason` keep what they are where no value is given. -/
def Promise.settle (p : Promise α) (o : Outcome) (v : Option (PmAny α)) : Promise α where
  state := some o
  value :=
    match v with
    | none => p.value
    | some v => Function.update p.value o v
  callbacks := p.callbacks

/-- The locals of `all` or `race`; a result not yet assigned is `none`. -/
structure Gather (α : Type) where
  race : Bool
  npm : Nat
  members : List Nat
  idx : Nat
  size : Nat
  results : List (Option (PmAny α))

/-- What is left to run: the rest of a loop over callbacks, a function of the program,
what follows a lambda that returns nothing, and the loop of `all` or `race`. -/
inductive PmTask
  | trigger (pm : Nat) (o : Outcome) (rest : List Closure)
  | user (o : Outcome) (npm : Nat)
  | finish (o : Outcome) (npm : Nat)
  | each (gather : Nat)
  deriving DecidableEq

/-- A call of `then` or `fail` on `pm`. -/
structure Link where
  pm : Nat
  npm : Nat
  f : Outcome → Option Func

def Link.closure (l : Link) (o : Outcome) : Closure := ⟨l.f o, o, l.npm⟩

/-- A callback of `pm` that has run, with the result or the reason it was given. -/
structure Firing (α : Type) where
  pm : Nat
  closure : Closure
  value : PmAny α

/-- What a function of the program returns. -/
inductive Returned (α : Type)
  | void
  | value (v : PmAny α)
  | promise (pm : Nat)

structure Promises (α : Type) where
  pms : List (Promise α)
  gathers : List (Gather α)
  stack : List PmTask
  links : List Link
  fired : List (Firing α)
  returned : List (Nat × Returned α)
  dropped : List PmTask

/-- What the program does with promises: `promise_t()`, `resolve` and `reject` with or
without a value, `then` and `fail`, `all` and `race`; a function returns or throws; and
`run` is the next step of what the library has left to do. -/
inductive Use (α : Type)
  | new
  | settle (pm : Nat) (o : Outcome) (v : Option (PmAny α))
  | thenBoth (pm : Nat)
  | thenOne (pm : Nat)
  | fail (pm : Nat)
  | all (pms : List Nat)
  | race (pms : List Nat)
  | ret (r : Returned α)
  | throw
  | run

namespace Promises

variable {α : Type}

def init : Promises α where
  pms := []
  gathers := []
  stack := []
  links := []
  fired := []
  returned := []
  dropped := []

def push (s : Promises α) (t : PmTask) : Promises α := { s with stack := t :: s.stack }

/-- `resolve` or `reject`, with a value or without: the callbacks are run next. -/
def settle (s : Promises α) (pm : Nat) (o : Outcome) (v : Option (PmAny α)) : Promises α :=
  match s.pms[pm]? with
  | none => s
  | some p =>
    if p.state = none then
      { s with
        pms := s.pms.set pm (p.settle o v)
        stack := .trigger pm o (p.callbacks o) :: s.stack }
    else s

/-- The lambda of `all` for member `idx`, without what follows it. -/
def collect (s : Promises α) (gather idx : Nat) (v : PmAny α) : Promises α :=
  match s.gathers[gather]? with
  | none => s
  | some g =>
    let g := { g with results := g.results.set idx (some v), size := g.size - 1 }
    let s := { s with gathers := s.gathers.set gather g }
    if g.size = 0 then
      s.settle g.npm .fulfilled (some (.values (g.results.map fun r => r.getD .empty)))
    else s

/-- A callback runs. A lambda of the library returns nothing, so its promise is
settled next. -/
def fire (s : Promises α) (pm : Nat) (c : Closure) (v : PmAny α) : Promises α :=
  let s : Promises α := { s with fired := s.fired ++ [⟨pm, c, v⟩] }
  match c.f with
  | none => s.settle c.npm c.o (some v)
  | some .user => s.push (.user c.o c.npm)
  | some (.settle npm o) => (s.push (.finish c.o c.npm)).settle npm o (some v)
  | some (.collect gather idx) => (s.push (.finish c.o c.npm)).collect gather idx v

/-- `then` and `fail`: a new promise, and a callback each for the result and the
reason, of which one runs at once if `pm` is settled. -/
def attach (s : Promises α) (pm : Nat) (f : Outcome → Option Func) : Promises α :=
  match s.pms[pm]? with
  | none => s
  | some p =>
    let l : Link := ⟨pm, s.pms.length, f⟩
    match p.state with
    | none => { s with
        pms := s.pms.set pm { p with callbacks := fun o => p.callbacks o ++ [l.closure o] } ++ [.new]
        links := s.links ++ [l] }
    | some o =>
      let s : Promises α := { s with pms := s.pms ++ [.new], links := s.links ++ [l] }
      s.fire pm (l.closure o) (p.value o)

/-- The two lambdas of `cps_transform`. -/
def chain (npm : Nat) (o : Outcome) : Option Func := some (.settle npm o)

def thenBoth (s : Promises α) (pm : Nat) : Promises α := s.attach pm fun _ => some .user

def thenOne (s : Promises α) (pm : Nat) : Promises α :=
  s.attach pm fun
    | .fulfilled => some .user
    | .rejected => none

def fail (s : Promises α) (pm : Nat) : Promises α :=
  s.attach pm fun
    | .fulfilled => none
    | .rejected => some .user

def new (s : Promises α) : Promises α := { s with pms := s.pms ++ [.new] }

/-- `all` and `race` make their promise and loop over the members. -/
def gather (s : Promises α) (race : Bool) (members : List Nat) : Promises α :=
  { s with
    pms := s.pms ++ [.new]
    gathers := s.gathers ++ [{
      race, npm := s.pms.length, members, idx := 0, size := members.length
      results := List.replicate members.length none }]
    stack := .each s.gathers.length :: s.stack }

/-- `all` of nothing throws before it returns, so the program has no promise. -/
def all (s : Promises α) (members : List Nat) : Promises α :=
  if members = [] then s else s.gather false members

def race (s : Promises α) (members : List Nat) : Promises α := s.gather true members

end Promises

/-- The lambdas that `all` and `race` give to `then` on member `idx`. -/
def Gather.funcs (g : Gather α) (gather idx : Nat) : Outcome → Option Func
  | .fulfilled => if g.race then some (.settle g.npm .fulfilled) else some (.collect gather idx)
  | .rejected => some (.settle g.npm .rejected)

def PmTask.isUser : PmTask → Bool
  | .user .. => true
  | _ => false

namespace Promises

variable {α : Type}

/-- A function of the program returns: its promise is settled, now or with the
promise it returned. -/
def ret (s : Promises α) (r : Returned α) : Promises α :=
  match s.stack with
  | .user o npm :: stack =>
    let s := { s with stack, returned := s.returned ++ [(npm, r)] }
    match r with
    | .void => s.settle npm o none
    | .value v => s.settle npm o (some v)
    | .promise pm => s.attach pm (chain npm)
  | _ => s

/-- An exception leaves a function of the program, up to the next one below. -/
def throw (s : Promises α) : Promises α :=
  match s.stack with
  | .user o npm :: stack => { s with
      stack := stack.dropWhile (!·.isUser)
      dropped := s.dropped ++ .user o npm :: stack.takeWhile (!·.isUser) }
  | _ => s

/-- The next step of what the library has left to do. -/
def run (s : Promises α) : Promises α :=
  match s.stack with
  | .trigger pm o [] :: stack =>
    { s with stack, pms := s.pms.modify pm fun p =>
        { p with callbacks := Function.update p.callbacks o [] } }
  | .trigger pm o (c :: rest) :: stack =>
    let s' : Promises α := { s with stack := .trigger pm o rest :: stack }
    s'.fire pm c ((s.pms[pm]?.map fun p => p.value o).getD .empty)
  | .finish o npm :: stack =>
    let s : Promises α := { s with stack }
    s.settle npm o none
  | .each i :: stack =>
    match s.gathers[i]? with
    | none => { s with stack }
    | some g =>
      match g.members[g.idx]? with
      | none => { s with stack }
      | some pm =>
        let s : Promises α := { s with gathers := s.gathers.set i { g with idx := g.idx + 1 } }
        s.attach pm (g.funcs i g.idx)
  | _ => s

def step (s : Promises α) : Use α → Promises α
  | .new => s.new
  | .settle pm o v => s.settle pm o v
  | .thenBoth pm => s.thenBoth pm
  | .thenOne pm => s.thenOne pm
  | .fail pm => s.fail pm
  | .all pms => s.all pms
  | .race pms => s.race pms
  | .ret r => s.ret r
  | .throw => s.throw
  | .run => s.run

/-- The program runs from its event loop, and while a function it gave is on top; it
can only use promises there are. -/
def Admits (s : Promises α) : Use α → Prop
  | .run => s.stack.head?.any (!·.isUser) = true
  | .ret (.promise pm) => s.stack.head?.any PmTask.isUser = true ∧ pm < s.pms.length
  | .ret _ | .throw => s.stack.head?.any PmTask.isUser = true
  | .new => s.stack.head?.all PmTask.isUser = true
  | .settle pm _ _ | .thenBoth pm | .thenOne pm | .fail pm =>
    s.stack.head?.all PmTask.isUser = true ∧ pm < s.pms.length
  | .all pms | .race pms => s.stack.head?.all PmTask.isUser = true ∧ ∀ pm ∈ pms, pm < s.pms.length

instance (s : Promises α) : (e : Use α) → Decidable (s.Admits e)
  | .run => inferInstanceAs (Decidable (s.stack.head?.any (!·.isUser) = true))
  | .ret (.promise pm) =>
    inferInstanceAs (Decidable (s.stack.head?.any PmTask.isUser = true ∧ pm < s.pms.length))
  | .ret .void | .ret (.value _) | .throw =>
    inferInstanceAs (Decidable (s.stack.head?.any PmTask.isUser = true))
  | .new => inferInstanceAs (Decidable (s.stack.head?.all PmTask.isUser = true))
  | .settle pm _ _ | .thenBoth pm | .thenOne pm | .fail pm =>
    inferInstanceAs (Decidable (s.stack.head?.all PmTask.isUser = true ∧ pm < s.pms.length))
  | .all pms | .race pms => inferInstanceAs (Decidable
      (s.stack.head?.all PmTask.isUser = true ∧ ∀ pm ∈ pms, pm < s.pms.length))

/-- The promise was made by `then`, `fail`, `all` or `race`. -/
def Derived (s : Promises α) (pm : Nat) : Prop :=
  pm ∈ s.links.map Link.npm ∨ pm ∈ s.gathers.map Gather.npm

/-- The program resolves and rejects only promises it has made itself. -/
def Owns (s : Promises α) : Use α → Prop
  | .settle pm _ _ => ¬ s.Derived pm
  | _ => True

instance (s : Promises α) (pm : Nat) : Decidable (s.Derived pm) :=
  inferInstanceAs (Decidable (_ ∨ _))

instance (s : Promises α) : (e : Use α) → Decidable (s.Owns e)
  | .settle pm _ _ => inferInstanceAs (Decidable (¬ s.Derived pm))
  | .new | .thenBoth _ | .thenOne _ | .fail _ | .all _ | .race _ | .ret _ | .throw | .run =>
    instDecidableTrue

/-- Nothing is running, and no exception has left anything undone. -/
def Quiet (s : Promises α) : Prop := s.stack = [] ∧ s.dropped = []

instance (s : Promises α) : Decidable s.Quiet := inferInstanceAs (Decidable (_ ∧ _))

end Promises

end HotStuffTx
