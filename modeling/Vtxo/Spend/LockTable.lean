import Vtxo.Error

/-!
# Locks against concurrent spends

A lock keeps others from spending an outpoint for a while. It ends when it is released or when its time is over,
whichever comes first. Several outpoints are locked together or not at all. Times are numbers of some clock that
never goes back and has a last time: locks that would end after it are not taken, and who asks for them gets no answer.
An outpoint has at most one lock, so the table is known by `LockTable.ends?`.

  1. `ends?_prune`, `ends?_release`, `ends?_hold`: what each change of the table does to the lock of an outpoint.
  2. `lock_cases`: the three ways in which asking for locks ends.
  3. `lock_eq_granted_iff`, `lock_eq_unanswered_iff`: where no outpoint is locked, locks are granted exactly if the
     clock can show when they end.
-/

set_option autoImplicit false

namespace Vtxo.Spend

/-- A clock that counts so many units for a second, up to a last time that it can show. -/
structure Clock where
  perSecond : Nat
  last : Nat

/-- Seconds in a signed word of 64 bits, and nanoseconds beside them. -/
def Clock.monotonic : Clock := ⟨1000000000, 9223372036854775807 * 1000000000 + 999999999⟩

/-- What comes of asking for locks. -/
inductive LockOutcome where
  | answered (answer : Except Error Unit)
  /-- Computing when the locks end stops whoever asked for them. -/
  | unanswered

/-- A locked outpoint and the time at which its lock is over. -/
structure Hold where
  outpoint : OutPoint
  ends : Nat
deriving DecidableEq

/-- The locks that were taken and not released, at most one for an outpoint. -/
structure LockTable where
  holds : List Hold
  distinct : (holds.map Hold.outpoint).Nodup
deriving DecidableEq

namespace LockTable

/-! ## Changes of the table -/

def empty : LockTable := ⟨[], List.nodup_nil⟩

/-- The table with those of its locks that satisfy a condition. -/
def keep (table : LockTable) (wanted : Hold → Bool) : LockTable where
  holds := table.holds.filter wanted
  distinct := table.distinct.sublist (List.filter_sublist.map _)

/-- The table without the locks that are over. -/
def prune (table : LockTable) (now : Nat) : LockTable :=
  table.keep fun hold => now < hold.ends

/-- The table without any lock on some outpoints. -/
def release (table : LockTable) (outpoints : List OutPoint) : LockTable :=
  table.keep fun hold => !outpoints.contains hold.outpoint

/-- The table with a lock on an outpoint, in place of an earlier one. -/
def set (table : LockTable) (outpoint : OutPoint) (ends : Nat) : LockTable where
  holds := ⟨outpoint, ends⟩ :: (table.release [outpoint]).holds
  distinct := by
    refine List.nodup_cons.mpr ⟨?_, (table.release [outpoint]).distinct⟩
    intro hmem
    obtain ⟨hold, hmem, heq⟩ := List.mem_map.mp hmem
    simp [release, keep, heq] at hmem

/-- The table with locks on some outpoints, which all end at the same time. -/
def hold (table : LockTable) (outpoints : List OutPoint) (ends : Nat) : LockTable :=
  outpoints.foldl (fun table outpoint => table.set outpoint ends) table

/-! ## Lookup -/

/-- When the lock of an outpoint is over, if it has one. -/
def ends? (table : LockTable) (outpoint : OutPoint) : Option Nat :=
  (table.holds.find? fun hold => hold.outpoint == outpoint).map Hold.ends

/-- Whether the table has a lock on an outpoint. -/
def holdsOutpoint (table : LockTable) (outpoint : OutPoint) : Bool :=
  (table.ends? outpoint).isSome

theorem ends?_eq_some_iff {table : LockTable} {outpoint : OutPoint} {ends : Nat} :
    table.ends? outpoint = some ends ↔ Hold.mk outpoint ends ∈ table.holds := by
  obtain ⟨holds, distinct⟩ := table
  unfold ends?
  induction holds with
  | nil => simp
  | cons first rest ih =>
    obtain ⟨hfirst, hrest⟩ := List.nodup_cons.mp distinct
    by_cases h : first.outpoint = outpoint
    · subst h
      -- No later lock is on the same outpoint, so the first one is the only candidate.
      have hnot : Hold.mk first.outpoint ends ∉ rest := fun hmem =>
        hfirst (List.mem_map.mpr ⟨_, hmem, rfl⟩)
      obtain ⟨outpoint, stops⟩ := first
      simp only [List.find?_cons, beq_self_eq_true, Option.map_some, Option.some.injEq, List.mem_cons,
        Hold.mk.injEq, true_and, hnot, or_false]
      exact eq_comm
    · have hne : Hold.mk outpoint ends ≠ first := fun heq => h (heq ▸ rfl)
      rw [List.find?_cons_of_neg (by simpa using h), ih hrest, List.mem_cons]
      simp [hne]

theorem ends?_keep_eq_some_iff {table : LockTable} {wanted : Hold → Bool} {outpoint : OutPoint} {ends : Nat} :
    (table.keep wanted).ends? outpoint = some ends ↔
      table.ends? outpoint = some ends ∧ wanted ⟨outpoint, ends⟩ = true := by
  rw [ends?_eq_some_iff, ends?_eq_some_iff]
  exact List.mem_filter

theorem ends?_prune (table : LockTable) (now : Nat) (outpoint : OutPoint) :
    (table.prune now).ends? outpoint = (table.ends? outpoint).filter fun ends => now < ends := by
  ext ends
  simp [prune, ends?_keep_eq_some_iff]

theorem ends?_release (table : LockTable) (outpoints : List OutPoint) (outpoint : OutPoint) :
    (table.release outpoints).ends? outpoint =
      if outpoint ∈ outpoints then none else table.ends? outpoint := by
  ext ends
  by_cases h : outpoint ∈ outpoints <;> simp [release, ends?_keep_eq_some_iff, h]

theorem ends?_set (table : LockTable) (locked : OutPoint) (ends : Nat) (outpoint : OutPoint) :
    (table.set locked ends).ends? outpoint =
      if locked = outpoint then some ends else table.ends? outpoint := by
  by_cases h : locked = outpoint
  · simp [ends?, set, h]
  · have hkept := ends?_release table [locked] outpoint
    rw [if_neg (by simpa using Ne.symm h)] at hkept
    rw [if_neg h, ← hkept]
    simp [ends?, set, h]

theorem ends?_hold (table : LockTable) (outpoints : List OutPoint) (ends : Nat) (outpoint : OutPoint) :
    (table.hold outpoints ends).ends? outpoint =
      if outpoint ∈ outpoints then some ends else table.ends? outpoint := by
  unfold hold
  induction outpoints generalizing table with
  | nil => simp
  | cons first rest ih =>
    rw [List.foldl_cons, ih, ends?_set]
    by_cases hrest : outpoint ∈ rest
    · simp [hrest]
    · by_cases hfirst : first = outpoint
      · simp [hfirst]
      · simp [hrest, hfirst, Ne.symm hfirst]

/-! ## Locking -/

/-- Lock all outpoints for some time, or say which one is locked already. -/
def lock (table : LockTable) (clock : Clock) (now : Nat) (outpoints : List OutPoint) (duration : Nat) :
    LockTable × LockOutcome :=
  let current := table.prune now
  match outpoints.find? current.holdsOutpoint with
  | some outpoint => (current, .answered (.error (.alreadyLocked outpoint)))
  | none =>
    if now + duration ≤ clock.last then (current.hold outpoints (now + duration), .answered (.ok ()))
    else (current, .unanswered)

/-- How many locks are not over. -/
def active (table : LockTable) (now : Nat) : Nat :=
  (table.prune now).holds.length

section

variable {table : LockTable} {clock : Clock} {now duration : Nat} {outpoints : List OutPoint}

/-- Locks are granted, or there is no answer, where no outpoint is locked. Otherwise the first one that is locked is
named. Only locks that are granted change more than pruning does. -/
theorem lock_cases (table : LockTable) (clock : Clock) (now : Nat) (outpoints : List OutPoint) (duration : Nat) :
    ((∀ outpoint ∈ outpoints, (table.prune now).holdsOutpoint outpoint = false) ∧ now + duration ≤ clock.last ∧
      table.lock clock now outpoints duration =
        ((table.prune now).hold outpoints (now + duration), .answered (.ok ()))) ∨
    ((∀ outpoint ∈ outpoints, (table.prune now).holdsOutpoint outpoint = false) ∧ clock.last < now + duration ∧
      table.lock clock now outpoints duration = (table.prune now, .unanswered)) ∨
    ∃ before outpoint after, outpoints = before ++ outpoint :: after ∧
      (∀ earlier ∈ before, (table.prune now).holdsOutpoint earlier = false) ∧
      (table.prune now).holdsOutpoint outpoint = true ∧
      table.lock clock now outpoints duration = (table.prune now, .answered (.error (.alreadyLocked outpoint))) := by
  unfold lock
  simp only
  split
  · next outpoint hfound =>
    obtain ⟨hlocked, before, after, hsplit, hfree⟩ := List.find?_eq_some_iff_append.mp hfound
    exact .inr (.inr ⟨before, outpoint, after, hsplit, by simpa using hfree, hlocked, rfl⟩)
  · next hnone =>
    have hfree : ∀ outpoint ∈ outpoints, (table.prune now).holdsOutpoint outpoint = false := by simpa using hnone
    by_cases hfits : now + duration ≤ clock.last
    · exact .inl ⟨hfree, hfits, if_pos hfits⟩
    · exact .inr (.inl ⟨hfree, Nat.not_le.mp hfits, if_neg hfits⟩)

theorem lock_eq_granted_iff :
    (table.lock clock now outpoints duration).2 = .answered (.ok ()) ↔
      (∀ outpoint ∈ outpoints, (table.prune now).holdsOutpoint outpoint = false) ∧ now + duration ≤ clock.last := by
  obtain ⟨hfree, hfits, h⟩ | ⟨_, hlate, h⟩ | ⟨before, outpoint, after, rfl, _, hlocked, h⟩ :=
    table.lock_cases clock now outpoints duration
  · rw [h]
    exact iff_of_true rfl ⟨hfree, hfits⟩
  · rw [h]
    exact iff_of_false (by rintro ⟨⟩) fun hgranted => Nat.not_le.mpr hlate hgranted.2
  · rw [h]
    refine iff_of_false (by rintro ⟨⟩) fun hgranted => ?_
    rw [hgranted.1 outpoint (by simp)] at hlocked
    cases hlocked

theorem lock_eq_unanswered_iff :
    (table.lock clock now outpoints duration).2 = .unanswered ↔
      (∀ outpoint ∈ outpoints, (table.prune now).holdsOutpoint outpoint = false) ∧ clock.last < now + duration := by
  obtain ⟨_, hfits, h⟩ | ⟨hfree, hlate, h⟩ | ⟨before, outpoint, after, rfl, _, hlocked, h⟩ :=
    table.lock_cases clock now outpoints duration
  · rw [h]
    exact iff_of_false (by rintro ⟨⟩) fun hlate => Nat.not_lt.mpr hfits hlate.2
  · rw [h]
    exact iff_of_true rfl ⟨hfree, hlate⟩
  · rw [h]
    refine iff_of_false (by rintro ⟨⟩) fun hlate => ?_
    rw [hlate.1 outpoint (by simp)] at hlocked
    cases hlocked

theorem ends?_lock_of_granted (h : (table.lock clock now outpoints duration).2 = .answered (.ok ()))
    (outpoint : OutPoint) :
    (table.lock clock now outpoints duration).1.ends? outpoint =
      if outpoint ∈ outpoints then some (now + duration) else (table.prune now).ends? outpoint := by
  obtain ⟨_, _, hlock⟩ | ⟨_, _, hlock⟩ | ⟨_, _, _, _, _, _, hlock⟩ := table.lock_cases clock now outpoints duration
  · rw [hlock]
    exact ends?_hold _ _ _ _
  · rw [hlock] at h
    cases h
  · rw [hlock] at h
    cases h

/-- Without locks that are granted, only locks that are over are gone. -/
theorem lock_of_not_granted (h : (table.lock clock now outpoints duration).2 ≠ .answered (.ok ())) :
    (table.lock clock now outpoints duration).1 = table.prune now := by
  obtain ⟨_, _, hlock⟩ | ⟨_, _, hlock⟩ | ⟨_, _, _, _, _, _, hlock⟩ := table.lock_cases clock now outpoints duration
  · rw [hlock] at h
    exact absurd rfl h
  · rw [hlock]
  · rw [hlock]

end

end LockTable

end Vtxo.Spend
