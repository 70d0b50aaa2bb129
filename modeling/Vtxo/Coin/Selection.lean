import Vtxo.Error

/-!
# Choosing coins

Coins are chosen for a target so that the change is zero or at least the dust limit, or, while an output below that
limit may still be added, anything. The order of preference is:

  * one coin of exactly the target;
  * the shortest run of coins from the front that reaches it;
  * that run and one more coin;
  * one coin, two coins, or three of the first ten;
  * every coin.

The result is a list of positions, each at most once.

  1. `prefixLength_le`: the run from the front is no longer than the list.
-/

set_option autoImplicit false

namespace Vtxo.Selection

/-- How many outputs below the dust limit a transaction may have unless configured otherwise. -/
def defaultMaxSubDust : Nat := 1

/-- How many coins from the front are tried in threes. -/
def tripleLimit : Nat := 10

/-- Whether a sum reaches the target and leaves no change below the dust limit but zero. -/
def changeOk (target dust sum : Nat) : Bool :=
  target ≤ sum && (sum == target || dust ≤ sum - target)

/-- How many coins from the front it takes to reach the target, given the sum so far. -/
def prefixLength (target : Nat) : Nat → List Nat → Nat
  | _, [] => 0
  | sum, amount :: rest => if target ≤ sum then 0 else prefixLength target (sum + amount) rest + 1

theorem prefixLength_le (target sum : Nat) (amounts : List Nat) :
    prefixLength target sum amounts ≤ amounts.length := by
  induction amounts generalizing sum with
  | nil => exact Nat.le_refl 0
  | cons amount rest ih =>
    rw [prefixLength]
    split
    · exact Nat.zero_le _
    · exact Nat.succ_le_succ (ih _)

/-- The sum of the coins at some positions. -/
def sumAt (amounts : List Nat) (positions : List Nat) : Nat :=
  positions.foldr (fun i sum => amounts.getD i 0 + sum) 0

/-- The positions after `i` and below `n`. -/
def after (i n : Nat) : List Nat :=
  List.range' (i + 1) (n - (i + 1))

/-- The first single position that fits. -/
def single? (fits : List Nat → Bool) (n : Nat) : Option (List Nat) :=
  (List.range n).findSome? fun i => if fits [i] then some [i] else none

/-- The first two positions that fit. -/
def pair? (fits : List Nat → Bool) (n : Nat) : Option (List Nat) :=
  (List.range n).findSome? fun i =>
    (after i n).findSome? fun j => if fits [i, j] then some [i, j] else none

/-- The first three positions that fit. -/
def triple? (fits : List Nat → Bool) (n : Nat) : Option (List Nat) :=
  (List.range n).findSome? fun i =>
    (after i n).findSome? fun j =>
      (after j n).findSome? fun k => if fits [i, j, k] then some [i, j, k] else none

/-- The positions of the run of `k` coins and the first coin after it that makes the change acceptable. -/
def withOneMore? (fits : List Nat → Bool) (k n : Nat) : Option (List Nat) :=
  (List.range' k (n - k)).findSome? fun i =>
    let positions := List.range k ++ [i]
    if fits positions then some positions else none

/-- The first combination of few coins that fits. -/
def combination? (fits : List Nat → Bool) (n : Nat) : Option (List Nat) :=
  single? fits n <|> pair? fits n <|> triple? fits (min n tripleLimit)

/-- The positions of the chosen coins, given whether an output below the dust limit may still be added. -/
def choose (amounts : List Nat) (target dust : Nat) (slotLeft : Bool) : List Nat :=
  let n := amounts.length
  let fits := fun positions => changeOk target dust (sumAt amounts positions)
  match (List.range n).find? fun i => amounts.getD i 0 == target with
  | some i => [i]
  | none =>
    let k := prefixLength target 0 amounts
    -- With a slot left, change below the limit is allowed, so the run is taken whatever it leaves.
    if slotLeft || fits (List.range k) then List.range k
    else
      match withOneMore? fits k n <|> combination? fits n with
      | some positions => positions
      | none => List.range n

/-- Choose coins for a target, given how many outputs below the dust limit the transaction has and may have. -/
def select (amounts : List Amount) (target dust : Amount) (subDust maxSubDust : Nat) :
    Except Error (List Nat) :=
  match Amount.sum? amounts with
  | none => .error (.spend .amountOverflow)
  | some total =>
    if total < target then .error (.insufficientFunds target total)
    else .ok (choose (amounts.map Amount.toNat) target.toNat dust.toNat (subDust < maxSubDust))

end Vtxo.Selection
