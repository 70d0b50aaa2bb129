import Vtxo.Address
import Vtxo.Proofs.Success
import Vtxo.Spend.Dust
import Vtxo.Taproot.Commitment

/-!
# What the dust policy does to outputs

Outputs that carry data and outputs that have to carry it take from one budget, in whatever order they come. The
outputs that carry data are counted before any output is replaced, and a replaced output carries data from then on, so
the budget that a list takes is the same before and after: a list that was let through once is let through again, and
nothing is left in it to replace.

  1. `underPolicy`, `budgetTaken`: an output as the policy leaves it, and what a list of outputs takes from the budget.
  2. `replaceSubDust_eq_ok`, `applyDustPolicy_eq_ok`: the policy is a `map`, under a bound on what is taken.
  3. `applyDustPolicy_outcome`: when the policy refuses, and what it lets through.
-/

set_option autoImplicit false

namespace Vtxo

/-- A taproot script is its two opening bytes and the 32 bytes of an output key. -/
theorem isTaprootScript_iff {script : Bytes} :
    isTaprootScript script = true ↔ ∃ key : Bytes, key.length = 32 ∧ script = 0x51 :: 0x20 :: key := by
  rw [isTaprootScript, Bool.and_eq_true, beq_iff_eq, beq_iff_eq]
  constructor
  · rintro ⟨hlength, hopening⟩
    refine ⟨script.drop 2, by rw [List.length_drop, hlength], ?_⟩
    calc script = script.take 2 ++ script.drop 2 := (List.take_append_drop 2 script).symm
      _ = 0x51 :: 0x20 :: script.drop 2 := by rw [hopening]; rfl
  · rintro ⟨key, hlength, rfl⟩
    exact ⟨by simp [hlength], rfl⟩

namespace Spend

variable {dust : Amount} {budget taken : Nat} {outputs : List TxOut}

/-- The output as the policy leaves it. -/
def underPolicy (dust : Amount) (output : TxOut) : TxOut :=
  if isSubDust dust output then committing output else output

/-- What outputs take from the budget: those that carry data, and those that are below the limit. -/
def budgetTaken (dust : Amount) (outputs : List TxOut) : Nat :=
  (outputs.countP fun output => isDataScript output.script) + outputs.countP (isSubDust dust)

/-! ## One output -/

theorem isSubDust_iff {output : TxOut} :
    isSubDust dust output = true ↔ isTaprootScript output.script = true ∧ output.value < dust := by
  rw [isSubDust, Bool.and_eq_true, decide_eq_true_iff]

theorem value_underPolicy (dust : Amount) (output : TxOut) : (underPolicy dust output).value = output.value := by
  unfold underPolicy
  split
  · rfl
  · rfl

/-- What commits to a key carries data, and pays to none. -/
theorem isDataScript_committing (output : TxOut) : isDataScript (committing output).script = true := rfl

theorem isSubDust_committing (dust : Amount) (output : TxOut) : isSubDust dust (committing output) = false := by
  have hscript : isTaprootScript (committing output).script = false := by
    simp [isTaprootScript, committing, dataScript, Opcode.returnData]
  rw [isSubDust, hscript, Bool.false_and]

theorem isSubDust_underPolicy (dust : Amount) (output : TxOut) : isSubDust dust (underPolicy dust output) = false := by
  unfold underPolicy
  split
  · exact isSubDust_committing dust output
  · next hlarge => exact Bool.eq_false_iff.mpr hlarge

/-- A taproot script carries no data. -/
theorem isDataScript_of_isSubDust {output : TxOut} (h : isSubDust dust output = true) :
    isDataScript output.script = false := by
  obtain ⟨key, _, hscript⟩ := isTaprootScript_iff.mp (isSubDust_iff.mp h).1
  rw [hscript]
  rfl

/-- An output carries data under the policy if it did before or is replaced. -/
theorem isDataScript_underPolicy (dust : Amount) (output : TxOut) :
    isDataScript (underPolicy dust output).script = (isDataScript output.script || isSubDust dust output) := by
  unfold underPolicy
  split
  · next hsmall => rw [isDataScript_committing, hsmall, Bool.or_true]
  · next hlarge => rw [Bool.eq_false_iff.mpr hlarge, Bool.or_false]

/-! ## All outputs -/

/-- The outputs that carry data afterwards are those that took from the budget. -/
theorem countP_isDataScript_map (dust : Amount) (outputs : List TxOut) :
    ((outputs.map (underPolicy dust)).countP fun output => isDataScript output.script) = budgetTaken dust outputs := by
  induction outputs with
  | nil => rfl
  | cons output rest ih =>
    rw [budgetTaken] at ih ⊢
    rw [List.map_cons, List.countP_cons, List.countP_cons, List.countP_cons, ih, isDataScript_underPolicy]
    cases hsmall : isSubDust dust output with
    | false =>
      rw [Bool.or_false, if_neg Bool.false_ne_true]
      omega
    | true =>
      rw [isDataScript_of_isSubDust hsmall, Bool.or_true, if_pos rfl, if_neg Bool.false_ne_true]
      omega

theorem countP_isSubDust_map (dust : Amount) (outputs : List TxOut) :
    (outputs.map (underPolicy dust)).countP (isSubDust dust) = 0 := by
  rw [List.countP_eq_zero]
  intro output hmem
  obtain ⟨before, _, rfl⟩ := List.mem_map.mp hmem
  exact Bool.eq_false_iff.mp (isSubDust_underPolicy dust before)

/-- The policy takes nothing more from the budget when it is applied again. -/
theorem budgetTaken_map (dust : Amount) (outputs : List TxOut) :
    budgetTaken dust (outputs.map (underPolicy dust)) = budgetTaken dust outputs := by
  rw [budgetTaken, countP_isDataScript_map, countP_isSubDust_map, Nat.add_zero]

theorem map_underPolicy_map (dust : Amount) (outputs : List TxOut) :
    (outputs.map (underPolicy dust)).map (underPolicy dust) = outputs.map (underPolicy dust) := by
  rw [List.map_map]
  refine List.map_congr_left fun output _ => ?_
  rw [Function.comp_apply, underPolicy, isSubDust_underPolicy]
  rfl

/-- What is below the limit is replaced if the budget has room for all of it, on top of what is taken already. -/
theorem replaceSubDust_eq_ok (htaken : taken ≤ budget) {replaced : List TxOut} :
    replaceSubDust dust budget taken outputs = .ok replaced ↔
      taken + outputs.countP (isSubDust dust) ≤ budget ∧ replaced = outputs.map (underPolicy dust) := by
  induction outputs generalizing taken replaced with
  | nil =>
    rw [replaceSubDust, Except.ok.injEq]
    exact ⟨fun h => ⟨htaken, h.symm⟩, fun h => h.2.symm⟩
  | cons output rest ih =>
    rw [replaceSubDust, List.countP_cons, List.map_cons]
    cases hsmall : isSubDust dust output with
    | false =>
      have hkept : underPolicy dust output = output := by rw [underPolicy, hsmall]; rfl
      rw [if_neg Bool.false_ne_true, if_neg Bool.false_ne_true, map_eq_ok, hkept, Nat.add_zero]
      constructor
      · rintro ⟨others, hothers, rfl⟩
        obtain ⟨hroom, rfl⟩ := (ih htaken).mp hothers
        exact ⟨hroom, rfl⟩
      · rintro ⟨hroom, rfl⟩
        exact ⟨_, (ih htaken).mpr ⟨hroom, rfl⟩, rfl⟩
    | true =>
      have hreplaced : underPolicy dust output = committing output := by rw [underPolicy, hsmall]; rfl
      rw [if_pos rfl, if_pos rfl, hreplaced]
      by_cases hfull : taken + 1 > budget
      · rw [if_pos hfull]
        refine ⟨fun h => absurd h (by rintro ⟨⟩), fun h => ?_⟩
        omega
      · rw [if_neg hfull, map_eq_ok]
        have hroom : taken + 1 ≤ budget := Nat.not_lt.mp hfull
        constructor
        · rintro ⟨others, hothers, rfl⟩
          obtain ⟨hrest, rfl⟩ := (ih hroom).mp hothers
          exact ⟨by omega, rfl⟩
        · rintro ⟨hrest, rfl⟩
          exact ⟨_, (ih hroom).mpr ⟨by omega, rfl⟩, rfl⟩

/-- The policy lets through what fits the budget, with each output as the policy leaves it. -/
theorem applyDustPolicy_eq_ok {allowed : List TxOut} :
    applyDustPolicy outputs dust budget = .ok allowed ↔
      budgetTaken dust outputs ≤ budget ∧ allowed = outputs.map (underPolicy dust) := by
  rw [applyDustPolicy, budgetTaken]
  by_cases hfull : (outputs.countP fun output => isDataScript output.script) > budget
  · rw [if_pos hfull]
    refine ⟨fun h => absurd h (by rintro ⟨⟩), fun h => ?_⟩
    omega
  · rw [if_neg hfull]
    exact replaceSubDust_eq_ok (Nat.not_lt.mp hfull)

theorem applyDustPolicy_eq_error :
    (∃ error, applyDustPolicy outputs dust budget = .error error) ↔ budget < budgetTaken dust outputs := by
  cases hpolicy : applyDustPolicy outputs dust budget with
  | error error =>
    refine ⟨fun _ => Nat.not_le.mp fun hroom => ?_, fun _ => ⟨error, rfl⟩⟩
    rw [applyDustPolicy_eq_ok.mpr ⟨hroom, rfl⟩] at hpolicy
    cases hpolicy
  | ok allowed =>
    have hroom := (applyDustPolicy_eq_ok.mp hpolicy).1
    refine ⟨fun ⟨_, herror⟩ => absurd herror (by rintro ⟨⟩), fun hfull => ?_⟩
    omega

/-! ## What the policy promises -/

/-- What an output becomes: it keeps its value, and is replaced by the data of its key if and only if it pays to this
key less than the limit. -/
structure Becomes (dust : Amount) (output next : TxOut) : Prop where
  value : next.value = output.value
  replaced : isTaprootScript output.script = true → output.value < dust →
    (∃ key : Bytes, key.length = 32 ∧ output.script = 0x51 :: 0x20 :: key ∧ next.script = 0x6a :: 0x20 :: key) ∧
      ∀ address : Address, output.script = address.outputScript → next.script = address.subDustScript
  kept : ¬ (isTaprootScript output.script = true ∧ output.value < dust) → next = output

/-- What outputs become: the same number of outputs, one for one, none of which pays to a key less than the limit, of
which no more carry data than the budget allows, and which the policy leaves as they are. -/
structure AllBecome (dust : Amount) (budget : Nat) (outputs allowed : List TxOut) : Prop where
  length : allowed.length = outputs.length
  each : ∀ (i : Nat) (output : TxOut), outputs[i]? = some output →
    ∃ next, allowed[i]? = some next ∧ Becomes dust output next
  noneBelow : ∀ output ∈ allowed, isTaprootScript output.script = true → dust ≤ output.value
  withinBudget : (allowed.countP fun output => isDataScript output.script) ≤ budget
  again : applyDustPolicy allowed dust budget = .ok allowed

theorem becomes_underPolicy (dust : Amount) (output : TxOut) : Becomes dust output (underPolicy dust output) := by
  refine ⟨value_underPolicy dust output, fun hscript hvalue => ?_, fun hlarge => ?_⟩
  · have hreplaced : underPolicy dust output = committing output := by
      rw [underPolicy, if_pos (isSubDust_iff.mpr ⟨hscript, hvalue⟩)]
    rw [hreplaced]
    obtain ⟨key, hkey, hsame⟩ := isTaprootScript_iff.mp hscript
    refine ⟨⟨key, hkey, hsame, ?_⟩, fun address haddress => ?_⟩
    · have hheader : ScriptOp.pushHeader 32 = [0x20] := rfl
      rw [committing, hsame]
      simp only [dataScript, Opcode.returnData, ScriptOp.pushBytes, List.drop_succ_cons, List.drop_zero, hkey, hheader,
        List.singleton_append]
    · rw [committing, haddress]
      rfl
  · rw [underPolicy, if_neg (mt isSubDust_iff.mp hlarge)]

/-- The policy refuses outputs if and only if those that carry data and those that pay to a key less than the limit are
together more than the budget allows. What it lets through are the outputs, of which exactly the latter are replaced by
the data of their keys. -/
theorem applyDustPolicy_outcome (outputs : List TxOut) (dust : Amount) (budget : Nat) :
    ((∃ error, applyDustPolicy outputs dust budget = .error error) ↔
      budget < (outputs.countP fun output => isDataScript output.script) +
        outputs.countP fun output => isTaprootScript output.script && output.value < dust) ∧
    ∀ allowed, applyDustPolicy outputs dust budget = .ok allowed → AllBecome dust budget outputs allowed := by
  refine ⟨applyDustPolicy_eq_error, fun allowed h => ?_⟩
  obtain ⟨hroom, rfl⟩ := applyDustPolicy_eq_ok.mp h
  refine ⟨List.length_map _, fun i output houtput => ?_, fun output hmem hscript => ?_, ?_, ?_⟩
  · exact ⟨_, by rw [List.getElem?_map, houtput]; rfl, becomes_underPolicy dust output⟩
  · obtain ⟨before, _, rfl⟩ := List.mem_map.mp hmem
    have hlarge := isSubDust_underPolicy dust before
    rw [isSubDust, hscript, Bool.true_and, decide_eq_false_iff_not] at hlarge
    exact Nat.not_lt.mp hlarge
  · rw [countP_isDataScript_map]
    exact hroom
  · exact applyDustPolicy_eq_ok.mpr ⟨by rw [budgetTaken_map]; exact hroom, (map_underPolicy_map dust outputs).symm⟩

/-- Outputs of 200 and of 5000 satoshi to a key, and one that carries data. -/
def mixedOutputs : List TxOut :=
  [⟨⟨200⟩, taprootScript unspendableKey⟩, ⟨.zero, dataScript [1, 2]⟩, ⟨⟨5000⟩, taprootScript unspendableKey⟩]

theorem applyDustPolicy_outcome_mixedOutputs :
    (∃ error, applyDustPolicy mixedOutputs ⟨330⟩ 1 = .error error) ∧
      ∃ allowed, applyDustPolicy mixedOutputs ⟨330⟩ 2 = .ok allowed ∧ AllBecome ⟨330⟩ 2 mixedOutputs allowed :=
  ⟨(applyDustPolicy_outcome mixedOutputs ⟨330⟩ 1).1.mpr (by decide),
    _, rfl, (applyDustPolicy_outcome mixedOutputs ⟨330⟩ 2).2 _ rfl⟩

end Spend

end Vtxo
