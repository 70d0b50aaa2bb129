import Vtxo.Spend.LockTable

/-!
# Histories of a lock table

Several clients share a lock table. A lock that was granted is a promise: until its time is over, or its client
releases it, no other client is granted a lock on the same outpoint. The table knows outpoints and times, but not
clients, so a release ends whatever lock there is. A client that releases an outpoint after its own lock was over ends
the lock that another one was granted in the meantime.

  1. `ends?_of_promised`: without such releases, the table holds what was promised.
  2. `exclusive_iff`: promises are kept, whatever is tried next, exactly without such releases.
  3. `not_forall_exclusive`: a client that releases only what it locked may still break a promise.

Histories are lists, the last call first.
-/

set_option autoImplicit false

namespace Vtxo.Spend

/-- What a client asks of the table. -/
inductive LockAction where
  | lock (duration : Nat)
  | release
deriving DecidableEq

/-- A call of a client, which is known by a number, at some time. -/
structure LockCall where
  client : Nat
  now : Nat
  outpoints : List OutPoint
  action : LockAction
deriving DecidableEq

namespace LockTable

/-- The table after a call. -/
def carryOut (table : LockTable) (clock : Clock) (call : LockCall) : LockTable :=
  match call.action with
  | .lock duration => (table.lock clock call.now call.outpoints duration).1
  | .release => table.release call.outpoints

/-- The table after a history. -/
def afterAll (clock : Clock) : List LockCall → LockTable
  | [] => .empty
  | call :: past => (afterAll clock past).carryOut clock call

end LockTable

/-! ## Promises -/

/-- After a history, a call is a lock that is granted, to end at a certain time. -/
def GrantedUntil (clock : Clock) (call : LockCall) (past : List LockCall) (ends : Nat) : Prop :=
  ∃ duration, call.action = .lock duration ∧ ends = call.now + duration ∧
    ((LockTable.afterAll clock past).lock clock call.now call.outpoints duration).2 = .answered (.ok ())

/-- A client was granted a lock on an outpoint and has not released it. -/
def Promised (clock : Clock) : List LockCall → Nat → OutPoint → Nat → Prop
  | [], _, _, _ => False
  | call :: past, client, outpoint, ends =>
    (GrantedUntil clock call past ends ∧ call.client = client ∧ outpoint ∈ call.outpoints) ∨
      (Promised clock past client outpoint ends ∧
        ¬ (call.action = .release ∧ call.client = client ∧ outpoint ∈ call.outpoints))

/-- No outpoint of a call is promised to another client at its time. -/
def Respects (clock : Clock) (call : LockCall) (past : List LockCall) : Prop :=
  ∀ outpoint ∈ call.outpoints, ∀ client ends,
    Promised clock past client outpoint ends → client ≠ call.client → ends ≤ call.now

/-- Every lock that was granted respects the promises before it. -/
def Exclusive (clock : Clock) : List LockCall → Prop
  | [] => True
  | call :: past => (∀ ends, GrantedUntil clock call past ends → Respects clock call past) ∧ Exclusive clock past

/-- Every release respects the promises before it. -/
def NoLateRelease (clock : Clock) : List LockCall → Prop
  | [] => True
  | call :: past => (call.action = .release → Respects clock call past) ∧ NoLateRelease clock past

/-- A client releases what it was granted a lock on and has not released since, perhaps after the lock was over. -/
def ReleasesOwn (clock : Clock) : List LockCall → Prop
  | [] => True
  | call :: past => (call.action = .release → ∀ outpoint ∈ call.outpoints, ∃ ends,
      Promised clock past call.client outpoint ends) ∧ ReleasesOwn clock past

/-- The clock does not go back. -/
def Ordered (history : List LockCall) : Prop :=
  history.Pairwise fun later earlier => earlier.now ≤ later.now

/-! ## What the table knows of promises -/

variable {clock : Clock}

theorem GrantedUntil.le_last {call : LockCall} {past : List LockCall} {ends : Nat}
    (h : GrantedUntil clock call past ends) : ends ≤ clock.last := by
  obtain ⟨duration, _, rfl, hgranted⟩ := h
  exact (LockTable.lock_eq_granted_iff.mp hgranted).2

/-- What is promised ends while the clock can show it. -/
theorem Promised.le_last {history : List LockCall} {client : Nat} {outpoint : OutPoint} {ends : Nat}
    (h : Promised clock history client outpoint ends) : ends ≤ clock.last := by
  induction history with
  | nil => exact h.elim
  | cons call past ih =>
    rcases h with ⟨hgranted, _⟩ | ⟨hold, _⟩
    · exact hgranted.le_last
    · exact ih hold

/-- Without late releases, the table holds every promise that is not over. -/
theorem ends?_of_promised {history : List LockCall} (h : NoLateRelease clock history) {client : Nat}
    {outpoint : OutPoint} {ends now : Nat} (hpromised : Promised clock history client outpoint ends)
    (hpast : ∀ call ∈ history, call.now ≤ now) (hnow : now < ends) :
    (LockTable.afterAll clock history).ends? outpoint = some ends := by
  induction history with
  | nil => exact hpromised.elim
  | cons call past ih =>
    obtain ⟨hrelease, hrest⟩ := h
    have hcall : call.now < ends := by
      have := hpast call List.mem_cons_self
      omega
    rw [LockTable.afterAll, LockTable.carryOut]
    rcases hpromised with ⟨⟨duration, haction, rfl, hgranted⟩, _, hmem⟩ | ⟨hold, hkept⟩
    · rw [haction]
      simp only
      rw [LockTable.ends?_lock_of_granted hgranted, if_pos hmem]
    · have hheld := ih hrest hold fun call hmem => hpast call (List.mem_cons_of_mem _ hmem)
      have hpruned : ((LockTable.afterAll clock past).prune call.now).ends? outpoint = some ends := by
        rw [LockTable.ends?_prune, hheld]
        simp [hcall]
      cases haction : call.action with
      | lock duration =>
        simp only
        by_cases hgranted :
            ((LockTable.afterAll clock past).lock clock call.now call.outpoints duration).2 = .answered (.ok ())
        · -- A lock on the same outpoint would not have been granted.
          have hnot : outpoint ∉ call.outpoints := fun hmem => by
            have := (LockTable.lock_eq_granted_iff.mp hgranted).1 outpoint hmem
            simp [LockTable.holdsOutpoint, hpruned] at this
          rw [LockTable.ends?_lock_of_granted hgranted, if_neg hnot, hpruned]
        · rw [LockTable.lock_of_not_granted hgranted, hpruned]
      | release =>
        simp only
        have hnot : outpoint ∉ call.outpoints := fun hmem => by
          have hother : client ≠ call.client := fun heq => hkept ⟨haction, heq.symm, hmem⟩
          have := hrelease haction outpoint hmem client ends hold hother
          omega
        rw [LockTable.ends?_release, if_neg hnot, hheld]

/-! ## Promises kept and broken -/

/-- A lock is not granted on what the table holds. -/
theorem respects_of_grantedUntil {call : LockCall} {past : List LockCall} {stop : Nat}
    (h : NoLateRelease clock past) (hpast : ∀ earlier ∈ past, earlier.now ≤ call.now)
    (hgranted : GrantedUntil clock call past stop) : Respects clock call past := by
  obtain ⟨duration, _, _, hok⟩ := hgranted
  intro outpoint hmem client ends hpromised _
  refine Nat.not_lt.mp fun hnow => ?_
  have hheld := ends?_of_promised h hpromised hpast hnow
  have hfree := (LockTable.lock_eq_granted_iff.mp hok).1 outpoint hmem
  rw [LockTable.holdsOutpoint, LockTable.ends?_prune, hheld] at hfree
  simp at hfree
  omega

theorem exclusive_of_noLateRelease {history : List LockCall} (hordered : Ordered history)
    (h : NoLateRelease clock history) : Exclusive clock history := by
  induction history with
  | nil => trivial
  | cons call past ih =>
    obtain ⟨hpast, hrest⟩ := List.pairwise_cons.mp hordered
    exact ⟨fun _ => respects_of_grantedUntil h.2 hpast, ih hrest h.2⟩

theorem NoLateRelease.suffix {past history : List LockCall} (h : NoLateRelease clock history)
    (hsuffix : past <:+ history) : NoLateRelease clock past := by
  induction history with
  | nil => rwa [List.suffix_nil.mp hsuffix]
  | cons call rest ih =>
    rcases List.suffix_cons_iff.mp hsuffix with rfl | hrest
    · exact h
    · exact ih h.2 hrest

/-- What a release takes from another client, the releasing client is granted at once. -/
theorem not_exclusive_of_late_release {call : LockCall} {past : List LockCall}
    (haction : call.action = .release) {outpoint : OutPoint} (hmem : outpoint ∈ call.outpoints)
    {client ends : Nat} (hpromised : Promised clock past client outpoint ends) (hother : client ≠ call.client)
    (hlate : call.now < ends) :
    ¬ Exclusive clock (⟨call.client, call.now, [outpoint], .lock 0⟩ :: call :: past) := by
  intro h
  have hgranted : ((LockTable.afterAll clock (call :: past)).lock clock call.now [outpoint] 0).2 =
      .answered (.ok ()) := by
    refine LockTable.lock_eq_granted_iff.mpr ⟨?_, Nat.le_trans (Nat.le_of_lt hlate) hpromised.le_last⟩
    simp [LockTable.afterAll, LockTable.carryOut, haction, LockTable.holdsOutpoint, LockTable.ends?_prune,
      LockTable.ends?_release, hmem]
  have hstill : Promised clock (call :: past) client outpoint ends :=
    .inr ⟨hpromised, fun hown => hother hown.2.1.symm⟩
  have hrespects := h.1 call.now ⟨0, rfl, rfl, hgranted⟩
  have := hrespects outpoint (List.mem_singleton.mpr rfl) client ends hstill hother
  exact Nat.not_le.mpr hlate this

/-- Where the clock does not go back, the locks of a history and every lock that is tried after some part of it keep
all promises exactly if no release in it took an outpoint from another client. -/
theorem exclusive_iff (clock : Clock) {history : List LockCall} (h : Ordered history) :
    (∀ past call, past <:+ history → Ordered (call :: past) → Exclusive clock (call :: past)) ↔
      NoLateRelease clock history := by
  constructor
  · intro hexclusive
    induction history with
    | nil => trivial
    | cons call past ih =>
      refine ⟨fun haction outpoint hmem client ends hpromised hother => ?_, ?_⟩
      · refine Nat.not_lt.mp fun hlate => ?_
        refine not_exclusive_of_late_release haction hmem hpromised hother hlate ?_
        refine hexclusive _ _ List.suffix_rfl (List.pairwise_cons.mpr ⟨fun earlier hearlier => ?_, h⟩)
        rcases List.mem_cons.mp hearlier with rfl | hearlier
        · exact Nat.le_refl _
        · exact List.rel_of_pairwise_cons h hearlier
      · exact ih (List.pairwise_cons.mp h).2 fun past' call' hsuffix =>
          hexclusive past' call' (hsuffix.trans (List.suffix_cons _ _))
  · intro hlate past call hsuffix hordered
    obtain ⟨hpast, hrest⟩ := List.pairwise_cons.mp hordered
    have hpastLate := hlate.suffix hsuffix
    exact ⟨fun _ => respects_of_grantedUntil hpastLate hpast, exclusive_of_noLateRelease hrest hpastLate⟩

/-- Client 0 locks an outpoint for no time, client 1 locks it after that, client 0 releases its lock, and client 2 gets
a lock on what client 1 was promised. -/
def lateReleaseHistory : List LockCall :=
  [⟨2, 0, [⟨.zero, 0⟩], .lock 30⟩, ⟨0, 0, [⟨.zero, 0⟩], .release⟩, ⟨1, 0, [⟨.zero, 0⟩], .lock 30⟩,
    ⟨0, 0, [⟨.zero, 0⟩], .lock 0⟩]

theorem ordered_lateReleaseHistory : Ordered lateReleaseHistory := by
  unfold Ordered
  decide

theorem exclusive_iff_lateReleaseHistory :
    Ordered lateReleaseHistory ∧
      ((∀ past call, past <:+ lateReleaseHistory → Ordered (call :: past) →
          Exclusive .monotonic (call :: past)) ↔
        NoLateRelease .monotonic lateReleaseHistory) :=
  ⟨ordered_lateReleaseHistory, exclusive_iff .monotonic ordered_lateReleaseHistory⟩

/-- That every client releases only what it locked does not keep the promises. -/
theorem not_forall_exclusive :
    ¬ ∀ history : List LockCall,
      Ordered history → ReleasesOwn .monotonic history → Exclusive .monotonic history := by
  intro h
  have hfirst : GrantedUntil .monotonic ⟨0, 0, [⟨.zero, 0⟩], .lock 0⟩ [] 0 := ⟨0, rfl, rfl, rfl⟩
  have hsecond : GrantedUntil .monotonic ⟨1, 0, [⟨.zero, 0⟩], .lock 30⟩ (lateReleaseHistory.drop 3) 30 :=
    ⟨30, rfl, rfl, rfl⟩
  have hthird : GrantedUntil .monotonic ⟨2, 0, [⟨.zero, 0⟩], .lock 30⟩ (lateReleaseHistory.drop 1) 30 :=
    ⟨30, rfl, rfl, rfl⟩
  have hown : ReleasesOwn .monotonic lateReleaseHistory := by
    refine ⟨?_, fun _ outpoint hmem => ?_, ?_, ?_, trivial⟩
    · intro hrelease
      cases hrelease
    · exact ⟨0, .inr ⟨.inl ⟨hfirst, rfl, hmem⟩, by simp⟩⟩
    · intro hrelease
      cases hrelease
    · intro hrelease
      cases hrelease
  have hpromised : Promised .monotonic (lateReleaseHistory.drop 1) 1 ⟨.zero, 0⟩ 30 :=
    .inr ⟨.inl ⟨hsecond, rfl, by simp⟩, by simp⟩
  have hexclusive := h lateReleaseHistory ordered_lateReleaseHistory hown
  have := hexclusive.1 30 hthird ⟨.zero, 0⟩ (by simp) 1 30 hpromised (by decide)
  exact absurd this (by decide)

end Vtxo.Spend
