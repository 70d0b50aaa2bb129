import Vtxo.Error
import Vtxo.Transaction.Basic

/-!
# Outputs below the dust limit

An output that is worth less than the dust limit cannot be spent on the chain. A few may be had nonetheless: such an
output then only commits to its key, in a script that carries data. Outputs that carry data from the start
count against the same budget.

  1. `applyDustPolicy`: the outputs as they are built, or why there are too many.
-/

set_option autoImplicit false

namespace Vtxo.Spend

/-- Whether an output pays to a key less than the dust limit. -/
def isSubDust (dust : Amount) (output : TxOut) : Bool :=
  isTaprootScript output.script && output.value < dust

/-- The output that commits to the key without paying to it. -/
def committing (output : TxOut) : TxOut :=
  { output with script := dataScript (output.script.drop 2) }

/-- Replace the outputs below the limit, given how many are taken from the budget already. -/
def replaceSubDust (dust : Amount) (budget : Nat) : Nat → List TxOut → Except Error (List TxOut)
  | _, [] => .ok []
  | taken, output :: rest =>
    if isSubDust dust output then
      -- This output would be one more, so the budget must have room for it.
      if taken + 1 > budget then .error (.spend (.subDustBudget output.value dust budget))
      else (replaceSubDust dust budget (taken + 1) rest).map (committing output :: ·)
    else (replaceSubDust dust budget taken rest).map (output :: ·)

/-- The outputs with those below the limit replaced, if the budget allows it. -/
def applyDustPolicy (outputs : List TxOut) (dust : Amount) (budget : Nat) : Except Error (List TxOut) :=
  let taken := outputs.countP fun output => isDataScript output.script
  if taken > budget then .error (.spend (.tooManySubDust taken budget))
  else replaceSubDust dust budget taken outputs

end Vtxo.Spend
