import Vtxo.Proofs.Spend.LockHistory
import Vtxo.Proofs.Spend.Runs

/-!
# Locks of a conversation

A lock table may answer the questions of a conversation that are about locks. Where each lock that was granted is
released again, the table is in the end as if nothing had been locked: who looks at it from then on finds the locks
that were there before, less those that ran out.

  1. `sameFrom_release_lock`, `sameFrom_lock_of_not_granted`: a lock that is granted and released again leaves no
     trace, nor does one that is not granted, whether there was an answer or not.
  2. `sameFrom_of_bracketed`: nor does a whole conversation in which locks and releases match.
-/

set_option autoImplicit false

namespace Vtxo.Spend

/-! ## Tables that look the same -/

namespace LockTable

variable {table other third : LockTable} {now later : Nat}

/-- From a time on, the two tables have the same locks that are not over. -/
def SameFrom (now : Nat) (table other : LockTable) : Prop :=
  ∀ later, now ≤ later → ∀ outpoint, (table.prune later).ends? outpoint = (other.prune later).ends? outpoint

theorem SameFrom.refl (now : Nat) (table : LockTable) : SameFrom now table table :=
  fun _ _ _ => rfl

theorem SameFrom.trans (h : SameFrom now table other) (h' : SameFrom now other third) : SameFrom now table third :=
  fun later hlater outpoint => (h later hlater outpoint).trans (h' later hlater outpoint)

theorem SameFrom.mono (h : SameFrom now table other) (hlater : now ≤ later) : SameFrom later table other :=
  fun latest hlatest => h latest (Nat.le_trans hlater hlatest)

theorem sameFrom_prune (table : LockTable) (now : Nat) : SameFrom now (table.prune now) table := by
  intro later hlater outpoint
  ext ends
  simp only [prune, ends?_keep_eq_some_iff, decide_eq_true_eq]
  constructor
  · rintro ⟨⟨hheld, _⟩, hends⟩
    exact ⟨hheld, hends⟩
  · rintro ⟨hheld, hends⟩
    exact ⟨⟨hheld, Nat.lt_of_le_of_lt hlater hends⟩, hends⟩

theorem SameFrom.release (h : SameFrom now table other) (outpoints : List OutPoint) :
    SameFrom now (table.release outpoints) (other.release outpoints) := by
  intro later hlater outpoint
  have hsame := h later hlater outpoint
  rw [ends?_prune, ends?_prune] at hsame
  rw [ends?_prune, ends?_prune, ends?_release, ends?_release]
  by_cases hreleased : outpoint ∈ outpoints
  · rw [if_pos hreleased, if_pos hreleased]
  · rw [if_neg hreleased, if_neg hreleased, hsame]

/-- None of the outpoints was locked before, so a release takes back exactly what the lock gave. -/
theorem sameFrom_release_lock {clock : Clock} {outpoints : List OutPoint} {duration : Nat}
    (h : (table.lock clock now outpoints duration).2 = .answered (.ok ())) :
    SameFrom now ((table.lock clock now outpoints duration).1.release outpoints) table := by
  have hpruned : ∀ outpoint, ((table.lock clock now outpoints duration).1.release outpoints).ends? outpoint =
      (table.prune now).ends? outpoint := by
    intro outpoint
    rw [ends?_release]
    by_cases hmem : outpoint ∈ outpoints
    · have hfree : ((table.prune now).ends? outpoint).isSome = false :=
        (lock_eq_granted_iff.mp h).1 outpoint hmem
      rw [if_pos hmem, Option.isNone_iff_eq_none.mp (Option.isSome_eq_false_iff.mp hfree)]
    · rw [if_neg hmem, ends?_lock_of_granted h, if_neg hmem]
  intro later hlater outpoint
  rw [← sameFrom_prune table now later hlater outpoint, ends?_prune, ends?_prune, hpruned]

/-- Locks that are not granted leave no trace. -/
theorem sameFrom_lock_of_not_granted {clock : Clock} {outpoints : List OutPoint} {duration : Nat}
    (h : (table.lock clock now outpoints duration).2 ≠ .answered (.ok ())) :
    SameFrom now (table.lock clock now outpoints duration).1 table := by
  rw [lock_of_not_granted h]
  exact sameFrom_prune table now

/-- A table that looks the same later on has the same locks that are not over, if none of them ran out meanwhile. -/
theorem SameFrom.mem_holds_iff (h : SameFrom later table other) (hnow : now ≤ later)
    (hlasting : ∀ hold ∈ (other.prune now).holds, later < hold.ends) (hold : Hold) :
    hold ∈ (table.prune later).holds ↔ hold ∈ (other.prune now).holds := by
  obtain ⟨outpoint, ends⟩ := hold
  rw [← ends?_eq_some_iff, h later (Nat.le_refl later) outpoint, ends?_eq_some_iff]
  constructor
  · intro hmem
    obtain ⟨hheld, hends⟩ := List.mem_filter.mp hmem
    exact List.mem_filter.mpr ⟨hheld, decide_eq_true (Nat.lt_of_le_of_lt hnow (of_decide_eq_true hends))⟩
  · intro hmem
    exact List.mem_filter.mpr ⟨(List.mem_filter.mp hmem).1, decide_eq_true (hlasting _ hmem)⟩

end LockTable

/-! ## A table that answers -/

/-- Whether the question is about locks. -/
def Request.isLocking : Request → Bool
  | .lock _ _ | .release _ => true
  | _ => false

/-- From one time and table to another, the table answers what is asked about locks. The clock does not go back. -/
inductive Serves (clock : Clock) : Nat → LockTable → List Exchange → Nat → LockTable → Prop where
  | done {now finish : Nat} {table : LockTable} (hfinish : now ≤ finish) : Serves clock now table [] finish table
  | lock {now later finish seconds : Nat} {table final : LockTable} {outpoints : List OutPoint}
      {answer : Except Error Unit} {rest : List Exchange} (hlater : now ≤ later)
      (hanswer : (table.lock clock later outpoints (seconds * clock.perSecond)).2 = .answered answer)
      (hrest : Serves clock later (table.lock clock later outpoints (seconds * clock.perSecond)).1 rest finish final) :
      Serves clock now table (⟨.lock outpoints seconds, answer⟩ :: rest) finish final
  | release {now later finish : Nat} {table final : LockTable} {outpoints : List OutPoint} {rest : List Exchange}
      (hlater : now ≤ later) (hrest : Serves clock later (table.release outpoints) rest finish final) :
      Serves clock now table (⟨.release outpoints, ()⟩ :: rest) finish final
  | other {now finish : Nat} {table final : LockTable} {exchange : Exchange} {rest : List Exchange}
      (hother : exchange.1.isLocking = false) (hrest : Serves clock now table rest finish final) :
      Serves clock now table (exchange :: rest) finish final

section

variable {clock : Clock} {now finish : Nat} {table final : LockTable}

theorem Serves.le {exchanges : List Exchange} (h : Serves clock now table exchanges finish final) :
    now ≤ finish := by
  induction h with
  | done hfinish => exact hfinish
  | lock hlater _ _ ih => exact Nat.le_trans hlater ih
  | release hlater _ ih => exact Nat.le_trans hlater ih
  | other _ _ ih => exact ih

theorem Serves.append_left {first rest : List Exchange} (h : Serves clock now table rest finish final)
    (hfirst : ∀ exchange ∈ first, exchange.1.isLocking = false) :
    Serves clock now table (first ++ rest) finish final := by
  induction first with
  | nil => exact h
  | cons exchange others ih =>
    obtain ⟨hother, hothers⟩ := List.forall_mem_cons.mp hfirst
    exact .other hother (ih hothers)

theorem Serves.split {first rest : List Exchange}
    (h : Serves clock now table (first ++ rest) finish final) :
    ∃ middle reached, Serves clock now table first middle reached ∧
      Serves clock middle reached rest finish final := by
  induction first generalizing now table with
  | nil => exact ⟨now, table, .done (Nat.le_refl now), h⟩
  | cons exchange others ih =>
    cases h with
    | lock hlater hanswer hrest =>
      obtain ⟨middle, reached, hfirst, hafter⟩ := ih hrest
      exact ⟨middle, reached, .lock hlater hanswer hfirst, hafter⟩
    | release hlater hrest =>
      obtain ⟨middle, reached, hfirst, hafter⟩ := ih hrest
      exact ⟨middle, reached, .release hlater hfirst, hafter⟩
    | other hother hrest =>
      obtain ⟨middle, reached, hfirst, hafter⟩ := ih hrest
      exact ⟨middle, reached, .other hother hfirst, hafter⟩

end

/-! ## Locks that are released -/

/-- Each lock that was granted is released, and nothing else is. -/
inductive Bracketed : List Exchange → Prop where
  | nil : Bracketed []
  | other {exchange : Exchange} {rest : List Exchange} (hother : exchange.1.isLocking = false)
      (hrest : Bracketed rest) : Bracketed (exchange :: rest)
  | refused {outpoints : List OutPoint} {seconds : Nat} {error : Error} {rest : List Exchange}
      (hrest : Bracketed rest) : Bracketed (⟨.lock outpoints seconds, .error error⟩ :: rest)
  | granted {outpoints : List OutPoint} {seconds : Nat} {during rest : List Exchange} (hduring : Bracketed during)
      (hrest : Bracketed rest) :
      Bracketed (⟨.lock outpoints seconds, .ok ()⟩ :: (during ++ ⟨.release outpoints, ()⟩ :: rest))

theorem Bracketed.append_left {first rest : List Exchange} (h : Bracketed rest)
    (hfirst : ∀ exchange ∈ first, exchange.1.isLocking = false) : Bracketed (first ++ rest) := by
  induction first with
  | nil => exact h
  | cons exchange others ih =>
    obtain ⟨hother, hothers⟩ := List.forall_mem_cons.mp hfirst
    exact .other hother (ih hothers)

theorem bracketed_of_other {exchanges : List Exchange}
    (h : ∀ exchange ∈ exchanges, exchange.1.isLocking = false) : Bracketed exchanges :=
  List.append_nil exchanges ▸ Bracketed.nil.append_left h

/-- A table that answered a conversation in which locks and releases match looks as it did before. -/
theorem sameFrom_of_bracketed {clock : Clock} {now finish : Nat} {table final : LockTable} {exchanges : List Exchange}
    (h : Bracketed exchanges) (hserves : Serves clock now table exchanges finish final) :
    LockTable.SameFrom finish final table := by
  induction h generalizing now table finish final with
  | nil =>
    cases hserves
    exact .refl _ _
  | other hother _ ih =>
    cases hserves with
    | lock => cases hother
    | release => cases hother
    | other _ hrest => exact ih hrest
  | refused _ ih =>
    cases hserves with
    | lock hlater hanswer hrest =>
      have hrefused := LockTable.sameFrom_lock_of_not_granted (by rw [hanswer]; rintro ⟨⟩)
      exact (ih hrest).trans (hrefused.mono hrest.le)
    | other hother => cases hother
  | @granted outpoints _ _ _ _ _ ihDuring ihRest =>
    cases hserves with
    | lock hlater hanswer hrest =>
      obtain ⟨_, held, hduring, hafter⟩ := hrest.split
      cases hafter with
      | release hreleased hlast =>
        -- The locks taken meanwhile are gone, and with the release those of the bracket itself.
        have hreleasing := ((ihDuring hduring).release outpoints).mono hreleased
        have hundone := (LockTable.sameFrom_release_lock hanswer).mono (Nat.le_trans hduring.le hreleased)
        exact (ihRest hlast).trans ((hreleasing.trans hundone).mono hlast.le)
      | other hother => cases hother
    | other hother => cases hother

end Vtxo.Spend
