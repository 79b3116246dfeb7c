import Mathlib.Data.List.Basic
import Mathlib.Tactic.Common

/-!
# Joining tasks

Tasks that finish in any order, each writing its result in its own place, and a
promise that resolves with all the results once none is missing. The order is
not in the result.
-/

namespace Join

variable {α : Type _}

/-- Task `k` finishes. -/
def finish (results : List α) (values : List (Option α)) (k : Nat) : List (Option α) :=
  values.set k results[k]?

/-- What has been written once the tasks of `order` have finished. -/
def values (results : List α) (order : List Nat) : List (Option α) :=
  order.foldl (finish results) (List.replicate results.length none)

/-- The value of the promise, if it has resolved. -/
def resolved (results : List α) (order : List Nat) : Option (List α) := (values results order).mapM id

end Join
