import Mathlib.Data.Set.Card
import Mathlib.Data.Set.Finite.Lattice
import Vtxo.Proofs.Spend.LockHistory

/-!
# Pruning of lock tables

A lock table drops the locks that are over when it is asked for new ones, and passes them over when it counts. A ledger
drops nothing: for each outpoint it holds when the last lock that was granted on it and not released ends. Where the
clock does not go back, nobody can tell a table from a ledger that can write the same times by what they answer. A
ledger that can write every time answers more: the table does not answer who asks for locks on free outpoints that end
after the last time of its clock.

  1. `Reflects.locked_iff`, `Reflects.encard_eq`: what a table shows of a ledger.
  2. `Reflects.exists_step`, `Reflects.exists_run`: the table answers as the ledger does, once and over a whole run.
  3. `Ledger.Run.unlimited`, `Ledger.Run.grantsEndBy`: when a ledger answers as one that can write every time.
  4. `Reflects.allOrNothing`: outpoints are locked together or not at all.
  5. `pruning_unobservable_iff`: all of this for the runs of an empty table.
-/

set_option autoImplicit false

namespace Vtxo.Spend

/-- What is asked of a lock table. -/
inductive LockRequest where
  | lock (outpoints : List OutPoint) (duration : Nat)
  | release (outpoints : List OutPoint)
  | active

/-- What is answered. -/
inductive LockAnswer where
  | lock (outcome : LockOutcome)
  | release
  | active (count : Nat)

/-- A request and its time. -/
structure TimedRequest where
  now : Nat
  request : LockRequest

/-- The clock does not go back. -/
def InOrder (requests : List TimedRequest) : Prop :=
  requests.Pairwise fun earlier later => earlier.now ≤ later.now

/-! ## Tables -/

namespace LockTable

/-- The answer to a request, and the table after it. -/
def answer (table : LockTable) (clock : Clock) (now : Nat) : LockRequest → LockAnswer × LockTable
  | .lock outpoints duration =>
    (.lock (table.lock clock now outpoints duration).2, (table.lock clock now outpoints duration).1)
  | .release outpoints => (.release, table.release outpoints)
  | .active => (.active (table.active now), table)

/-- The answers to a run of requests. -/
def answers (table : LockTable) (clock : Clock) : List TimedRequest → List LockAnswer
  | [] => []
  | asked :: rest =>
    (table.answer clock asked.now asked.request).1 ::
      (table.answer clock asked.now asked.request).2.answers clock rest

/-- The table after a run of requests. -/
def after (table : LockTable) (clock : Clock) : List TimedRequest → LockTable
  | [] => table
  | asked :: rest => (table.answer clock asked.now asked.request).2.after clock rest

/-- When the lock of an outpoint ends, if it is not over at some time. -/
def lockedUntil? (table : LockTable) (now : Nat) (outpoint : OutPoint) : Option Nat :=
  (table.ends? outpoint).filter fun ends => now < ends

end LockTable

/-! ## Ledgers -/

/-- When the last lock that was granted on an outpoint and not released ends. -/
structure Ledger where
  ends? : OutPoint → Option Nat

namespace Ledger

def empty : Ledger := ⟨fun _ => none⟩

/-- An outpoint is locked until its lock ends. -/
def Locked (ledger : Ledger) (now : Nat) (outpoint : OutPoint) : Prop :=
  ∃ ends, ledger.ends? outpoint = some ends ∧ now < ends

/-- An outpoint is locked, and those before it in a list are not. -/
def FirstLocked (ledger : Ledger) (now : Nat) (outpoints : List OutPoint) (outpoint : OutPoint) : Prop :=
  ∃ before after, outpoints = before ++ outpoint :: after ∧ (∀ earlier ∈ before, ¬ ledger.Locked now earlier) ∧
    ledger.Locked now outpoint

def hold (ledger : Ledger) (outpoints : List OutPoint) (ends : Nat) : Ledger :=
  ⟨fun outpoint => if outpoint ∈ outpoints then some ends else ledger.ends? outpoint⟩

def release (ledger : Ledger) (outpoints : List OutPoint) : Ledger :=
  ⟨fun outpoint => if outpoint ∈ outpoints then none else ledger.ends? outpoint⟩

theorem ends?_hold (ledger : Ledger) (outpoints : List OutPoint) (ends : Nat) (outpoint : OutPoint) :
    (ledger.hold outpoints ends).ends? outpoint =
      if outpoint ∈ outpoints then some ends else ledger.ends? outpoint := rfl

theorem ends?_release (ledger : Ledger) (outpoints : List OutPoint) (outpoint : OutPoint) :
    (ledger.release outpoints).ends? outpoint = if outpoint ∈ outpoints then none else ledger.ends? outpoint := rfl

/-- What a ledger that can write times up to a limit answers at some time, and what it is then. -/
inductive Step (limit : ℕ∞) (now : Nat) : Ledger → LockRequest → LockAnswer → Ledger → Prop where
  | granted {ledger : Ledger} {outpoints : List OutPoint} {duration : Nat}
      (hfree : ∀ outpoint ∈ outpoints, ¬ ledger.Locked now outpoint) (hfits : (now + duration : ℕ) ≤ limit) :
      Step limit now ledger (.lock outpoints duration) (.lock (.answered (.ok ())))
        (ledger.hold outpoints (now + duration))
  | unanswered {ledger : Ledger} {outpoints : List OutPoint} {duration : Nat}
      (hfree : ∀ outpoint ∈ outpoints, ¬ ledger.Locked now outpoint) (hlate : limit < (now + duration : ℕ)) :
      Step limit now ledger (.lock outpoints duration) (.lock .unanswered) ledger
  | refused {ledger : Ledger} {outpoints : List OutPoint} {duration : Nat} {outpoint : OutPoint}
      (hfirst : ledger.FirstLocked now outpoints outpoint) :
      Step limit now ledger (.lock outpoints duration) (.lock (.answered (.error (.alreadyLocked outpoint)))) ledger
  | released {ledger : Ledger} {outpoints : List OutPoint} :
      Step limit now ledger (.release outpoints) .release (ledger.release outpoints)
  | counted {ledger : Ledger} {count : Nat} (hcount : {outpoint | ledger.Locked now outpoint}.encard = count) :
      Step limit now ledger .active (.active count) ledger

/-- What a ledger answers to a run of requests, and what it is after them. -/
inductive Run (limit : ℕ∞) : Ledger → List TimedRequest → List LockAnswer → Ledger → Prop where
  | nil {ledger : Ledger} : Run limit ledger [] [] ledger
  | cons {ledger next final : Ledger} {asked : TimedRequest} {answer : LockAnswer} {rest : List TimedRequest}
      {answers : List LockAnswer} (hstep : Step limit asked.now ledger asked.request answer next)
      (hrest : Run limit next rest answers final) : Run limit ledger (asked :: rest) (answer :: answers) final

/-- Every lock that a ledger without limit grants over a run of requests ends by some time. -/
def GrantsEndBy (last : Nat) : Ledger → List TimedRequest → Prop
  | _, [] => True
  | ledger, asked :: rest =>
    (∀ outpoints duration, asked.request = .lock outpoints duration →
      (∀ outpoint ∈ outpoints, ¬ ledger.Locked asked.now outpoint) → asked.now + duration ≤ last) ∧
    ∀ answer next, Step ⊤ asked.now ledger asked.request answer next → GrantsEndBy last next rest

variable {limit : ℕ∞}

theorem FirstLocked.mem {ledger : Ledger} {now : Nat} {outpoints : List OutPoint} {outpoint : OutPoint}
    (h : ledger.FirstLocked now outpoints outpoint) : outpoint ∈ outpoints := by
  obtain ⟨before, after, rfl, _⟩ := h
  simp

theorem FirstLocked.unique {ledger : Ledger} {now : Nat} {outpoints : List OutPoint} {outpoint other : OutPoint}
    (h : ledger.FirstLocked now outpoints outpoint) (hother : ledger.FirstLocked now outpoints other) :
    outpoint = other := by
  classical
  have hfind {found : OutPoint} (hfound : ledger.FirstLocked now outpoints found) :
      outpoints.find? (fun o => decide (ledger.Locked now o)) = some found := by
    obtain ⟨before, after, hsplit, hfree, hlocked⟩ := hfound
    exact List.find?_eq_some_iff_append.mpr ⟨decide_eq_true hlocked, before, after, hsplit, by simpa using hfree⟩
  exact Option.some.inj ((hfind h).symm.trans (hfind hother))

theorem FirstLocked.not_free {ledger : Ledger} {now : Nat} {outpoints : List OutPoint} {outpoint : OutPoint}
    (h : ledger.FirstLocked now outpoints outpoint) : ¬ ∀ outpoint ∈ outpoints, ¬ ledger.Locked now outpoint := by
  obtain ⟨_, _, _, _, hlocked⟩ := id h
  exact fun hfree => hfree outpoint h.mem hlocked

/-- A ledger has one answer only. -/
theorem Step.unique {now : Nat} {ledger next next' : Ledger} {request : LockRequest} {answer answer' : LockAnswer}
    (h : Step limit now ledger request answer next) (h' : Step limit now ledger request answer' next') :
    answer = answer' ∧ next = next' := by
  cases h with
  | granted hfree hfits =>
    cases h' with
    | granted => exact ⟨rfl, rfl⟩
    | unanswered _ hlate => exact absurd hfits (not_le.mpr hlate)
    | refused hfirst => exact absurd hfree hfirst.not_free
  | unanswered hfree hlate =>
    cases h' with
    | granted _ hfits => exact absurd hfits (not_le.mpr hlate)
    | unanswered => exact ⟨rfl, rfl⟩
    | refused hfirst => exact absurd hfree hfirst.not_free
  | refused hfirst =>
    cases h' with
    | granted hfree => exact absurd hfree hfirst.not_free
    | unanswered hfree => exact absurd hfree hfirst.not_free
    | refused hfirst' => exact ⟨by rw [hfirst.unique hfirst'], rfl⟩
  | released =>
    cases h'
    exact ⟨rfl, rfl⟩
  | counted hcount =>
    cases h' with
    | counted hcount' => exact ⟨by rw [ENat.natCast_inj.mp (hcount.symm.trans hcount')], rfl⟩

theorem Run.unique {ledger final final' : Ledger} {requests : List TimedRequest} {answers answers' : List LockAnswer}
    (h : Run limit ledger requests answers final) (h' : Run limit ledger requests answers' final') :
    answers = answers' ∧ final = final' := by
  induction h generalizing answers' final' with
  | nil =>
    cases h'
    exact ⟨rfl, rfl⟩
  | cons hstep _ ih =>
    cases h' with
    | cons hstep' hrest' =>
      obtain ⟨rfl, rfl⟩ := hstep.unique hstep'
      obtain ⟨rfl, rfl⟩ := ih hrest'
      exact ⟨rfl, rfl⟩

/-- A run is answered in one way. -/
def OnlyRun (limit : ℕ∞) (ledger : Ledger) (requests : List TimedRequest) (answers : List LockAnswer)
    (final : Ledger) : Prop :=
  ∀ answers' final', Run limit ledger requests answers' final' ↔ answers' = answers ∧ final' = final

theorem Run.onlyRun {ledger final : Ledger} {requests : List TimedRequest} {answers : List LockAnswer}
    (h : Run limit ledger requests answers final) : OnlyRun limit ledger requests answers final := by
  refine fun answers' final' => ⟨fun hother => hother.unique h, ?_⟩
  rintro ⟨rfl, rfl⟩
  exact h

/-! ## Ledgers without limit -/

section

variable {now last : Nat} {ledger next final final' : Ledger} {request : LockRequest} {answer : LockAnswer}
  {requests : List TimedRequest} {answers : List LockAnswer}

/-- Where there is an answer, the limit plays no part in it. -/
theorem Step.unlimited (h : Step limit now ledger request answer next) (hanswer : answer ≠ .lock .unanswered) :
    Step ⊤ now ledger request answer next := by
  cases h with
  | granted hfree => exact .granted hfree le_top
  | unanswered => exact absurd rfl hanswer
  | refused hfirst => exact .refused hfirst
  | released => exact .released
  | counted hcount => exact .counted hcount

theorem Step.answered (h : Step ⊤ now ledger request answer next) : answer ≠ .lock .unanswered := by
  rintro rfl
  cases h with
  | unanswered _ hlate => exact not_top_lt hlate

theorem Step.answered_iff (h : Step last now ledger request answer next) :
    answer ≠ .lock .unanswered ↔ ∀ outpoints duration, request = .lock outpoints duration →
      (∀ outpoint ∈ outpoints, ¬ ledger.Locked now outpoint) → now + duration ≤ last := by
  cases h with
  | granted _ hfits =>
    refine iff_of_true (by rintro ⟨⟩) ?_
    rintro _ _ ⟨⟩ _
    exact Nat.cast_le.mp hfits
  | unanswered hfree hlate =>
    refine iff_of_false (fun hanswer => hanswer rfl) fun hends => ?_
    exact not_lt.mpr (hends _ _ rfl hfree) (Nat.cast_lt.mp hlate)
  | refused hfirst =>
    refine iff_of_true (by rintro ⟨⟩) ?_
    rintro _ _ ⟨⟩ hfree
    exact absurd hfree hfirst.not_free
  | released => exact iff_of_true (by rintro ⟨⟩) (by rintro _ _ ⟨⟩)
  | counted => exact iff_of_true (by rintro ⟨⟩) (by rintro _ _ ⟨⟩)

/-- A ledger with a limit answers as one without a limit, if no lock that the latter grants ends after the limit. -/
theorem Run.unlimited (h : Run last ledger requests answers final) (hends : GrantsEndBy last ledger requests) :
    Run ⊤ ledger requests answers final := by
  induction h with
  | nil => exact .nil
  | cons hstep _ ih =>
    have hunlimited := hstep.unlimited (hstep.answered_iff.mpr hends.1)
    exact .cons hunlimited (ih (hends.2 _ _ hunlimited))

/-- And only then. -/
theorem Run.grantsEndBy (h : Run last ledger requests answers final) (h' : Run ⊤ ledger requests answers final') :
    GrantsEndBy last ledger requests := by
  induction h with
  | nil => trivial
  | cons hstep _ ih =>
    cases h' with
    | cons hstep' hrest' =>
      have hunlimited := hstep.unlimited hstep'.answered
      refine ⟨hstep.answered_iff.mp hstep'.answered, fun answer next hother => ?_⟩
      rw [(hother.unique hunlimited).2]
      exact ih ((hstep'.unique hunlimited).2 ▸ hrest')

/-- No lock that is granted ends later than the last one that is asked for. -/
theorem grantsEndBy_of_forall (h : ∀ asked ∈ requests, ∀ outpoints duration,
      asked.request = .lock outpoints duration → asked.now + duration ≤ last) (ledger : Ledger) :
    GrantsEndBy last ledger requests := by
  induction requests generalizing ledger with
  | nil => trivial
  | cons asked rest ih =>
    obtain ⟨hfirst, hrest⟩ := List.forall_mem_cons.mp h
    exact ⟨fun outpoints duration hrequest _ => hfirst outpoints duration hrequest, fun _ next _ => ih hrest next⟩

end

end Ledger

/-! ## What a table shows of a ledger -/

/-- The table and the ledger know the same locks that are not over at some time. -/
def Reflects (now : Nat) (table : LockTable) (ledger : Ledger) : Prop :=
  ∀ outpoint ends, now < ends → (table.ends? outpoint = some ends ↔ ledger.ends? outpoint = some ends)

section

variable {clock : Clock} {now later duration : Nat} {table : LockTable} {ledger : Ledger} {outpoints : List OutPoint}

theorem reflects_empty (now : Nat) : Reflects now .empty .empty := by
  intro outpoint ends _
  exact ⟨fun h => absurd h (by rintro ⟨⟩), fun h => absurd h (by rintro ⟨⟩)⟩

theorem Reflects.mono (h : Reflects now table ledger) (hlater : now ≤ later) : Reflects later table ledger :=
  fun outpoint ends hends => h outpoint ends (Nat.lt_of_le_of_lt hlater hends)

/-- The locks that pruning leaves are those of the ledger that are not over. -/
theorem Reflects.ends?_prune_eq_some_iff (h : Reflects now table ledger) {outpoint : OutPoint} {ends : Nat} :
    (table.prune now).ends? outpoint = some ends ↔ ledger.ends? outpoint = some ends ∧ now < ends := by
  rw [LockTable.prune, LockTable.ends?_keep_eq_some_iff, decide_eq_true_iff]
  constructor
  · rintro ⟨hheld, hends⟩
    exact ⟨(h outpoint ends hends).mp hheld, hends⟩
  · rintro ⟨hheld, hends⟩
    exact ⟨(h outpoint ends hends).mpr hheld, hends⟩

theorem Reflects.prune (h : Reflects now table ledger) : Reflects now (table.prune now) ledger :=
  fun _ _ hends => h.ends?_prune_eq_some_iff.trans (and_iff_left hends)

theorem Reflects.locked_iff (h : Reflects now table ledger) {outpoint : OutPoint} :
    (table.prune now).holdsOutpoint outpoint = true ↔ ledger.Locked now outpoint := by
  rw [LockTable.holdsOutpoint, Option.isSome_iff_exists]
  exact exists_congr fun ends => h.ends?_prune_eq_some_iff

/-- Each lock of a table is on an outpoint of its own, so counting locks is counting outpoints. -/
theorem Reflects.encard_eq (h : Reflects now table ledger) :
    {outpoint | ledger.Locked now outpoint}.encard = (table.active now : ℕ∞) := by
  have hset : {outpoint | ledger.Locked now outpoint} =
      (((table.prune now).holds.map Hold.outpoint).toFinset : Set OutPoint) := by
    ext outpoint
    rw [Set.mem_ofPred_eq, ← h.locked_iff, LockTable.holdsOutpoint, Option.isSome_iff_exists, List.coe_toFinset,
      Set.mem_ofPred_eq, List.mem_map]
    constructor
    · rintro ⟨ends, hends⟩
      exact ⟨_, LockTable.ends?_eq_some_iff.mp hends, rfl⟩
    · rintro ⟨hold, hmem, rfl⟩
      exact ⟨hold.ends, LockTable.ends?_eq_some_iff.mpr hmem⟩
  rw [hset, Set.encard_coe_eq_coe_finsetCard, List.toFinset_card_of_nodup (table.prune now).distinct, List.length_map]
  rfl

/-! ## One request -/

theorem Reflects.free_iff (h : Reflects now table ledger) :
    (∀ outpoint ∈ outpoints, (table.prune now).holdsOutpoint outpoint = false) ↔
      ∀ outpoint ∈ outpoints, ¬ ledger.Locked now outpoint :=
  forall₂_congr fun outpoint _ => by rw [← h.locked_iff, Bool.not_eq_true]

/-- What a table does when it is asked for locks, as the ledger has it. -/
theorem Reflects.lock_cases (h : Reflects now table ledger) (clock : Clock) (outpoints : List OutPoint)
    (duration : Nat) :
    ((∀ outpoint ∈ outpoints, ¬ ledger.Locked now outpoint) ∧ now + duration ≤ clock.last ∧
      (table.lock clock now outpoints duration).2 = .answered (.ok ())) ∨
    ((∀ outpoint ∈ outpoints, ¬ ledger.Locked now outpoint) ∧ clock.last < now + duration ∧
      (table.lock clock now outpoints duration).2 = .unanswered) ∨
    ∃ outpoint, ledger.FirstLocked now outpoints outpoint ∧
      (table.lock clock now outpoints duration).2 = .answered (.error (.alreadyLocked outpoint)) := by
  obtain ⟨hfree, hfits, hlock⟩ | ⟨hfree, hlate, hlock⟩ | ⟨before, outpoint, after, hsplit, hfree, hlocked, hlock⟩ :=
    table.lock_cases clock now outpoints duration
  · exact .inl ⟨h.free_iff.mp hfree, hfits, by rw [hlock]⟩
  · exact .inr (.inl ⟨h.free_iff.mp hfree, hlate, by rw [hlock]⟩)
  · refine .inr (.inr ⟨outpoint, ⟨before, after, hsplit, h.free_iff.mp hfree, h.locked_iff.mp hlocked⟩, ?_⟩)
    rw [hlock]

theorem Reflects.hold (h : Reflects now table ledger)
    (hgranted : (table.lock clock now outpoints duration).2 = .answered (.ok ())) :
    Reflects now (table.lock clock now outpoints duration).1 (ledger.hold outpoints (now + duration)) := by
  intro outpoint ends hends
  rw [LockTable.ends?_lock_of_granted hgranted, Ledger.ends?_hold]
  by_cases hmem : outpoint ∈ outpoints
  · rw [if_pos hmem, if_pos hmem]
  · rw [if_neg hmem, if_neg hmem]
    exact h.prune outpoint ends hends

theorem Reflects.lock_of_not_granted (h : Reflects now table ledger)
    (hnot : (table.lock clock now outpoints duration).2 ≠ .answered (.ok ())) :
    Reflects now (table.lock clock now outpoints duration).1 ledger := by
  rw [LockTable.lock_of_not_granted hnot]
  exact h.prune

theorem Reflects.release (h : Reflects now table ledger) (outpoints : List OutPoint) :
    Reflects now (table.release outpoints) (ledger.release outpoints) := by
  intro outpoint ends hends
  rw [LockTable.ends?_release, Ledger.ends?_release]
  by_cases hmem : outpoint ∈ outpoints
  · rw [if_pos hmem, if_pos hmem]
  · rw [if_neg hmem, if_neg hmem]
    exact h outpoint ends hends

/-- The table answers as the ledger does that can write the times of the clock, and goes on to reflect it. -/
theorem Reflects.exists_step (h : Reflects now table ledger) (clock : Clock) (request : LockRequest) :
    ∃ next, Ledger.Step clock.last now ledger request (table.answer clock now request).1 next ∧
      Reflects now (table.answer clock now request).2 next := by
  cases request with
  | lock outpoints duration =>
    rw [LockTable.answer]
    obtain ⟨hfree, hfits, hanswer⟩ | ⟨hfree, hlate, hanswer⟩ | ⟨outpoint, hfirst, hanswer⟩ :=
      h.lock_cases clock outpoints duration
    · refine ⟨_, ?_, h.hold hanswer⟩
      rw [hanswer]
      exact .granted hfree (Nat.cast_le.mpr hfits)
    · refine ⟨_, ?_, h.lock_of_not_granted (by rw [hanswer]; rintro ⟨⟩)⟩
      rw [hanswer]
      exact .unanswered hfree (Nat.cast_lt.mpr hlate)
    · refine ⟨_, ?_, h.lock_of_not_granted (by rw [hanswer]; rintro ⟨⟩)⟩
      rw [hanswer]
      exact .refused hfirst
  | release outpoints => exact ⟨_, .released, h.release outpoints⟩
  | active => exact ⟨_, .counted h.encard_eq, h⟩

/-! ## Runs -/

/-- Over a run the table answers as the ledger does, and reflects it from then on. -/
theorem Reflects.exists_run (h : Reflects now table ledger) (clock : Clock) {requests : List TimedRequest}
    (horder : InOrder requests) (hnow : ∀ asked ∈ requests, now ≤ asked.now) :
    ∃ final, Ledger.Run clock.last ledger requests (table.answers clock requests) final ∧
      ∀ later, now ≤ later → (∀ asked ∈ requests, asked.now ≤ later) →
        Reflects later (table.after clock requests) final := by
  induction requests generalizing now table ledger with
  | nil => exact ⟨ledger, .nil, fun later hlater _ => h.mono hlater⟩
  | cons asked rest ih =>
    obtain ⟨hfirst, hrest⟩ := List.pairwise_cons.mp horder
    obtain ⟨next, hstep, hnext⟩ := (h.mono (hnow asked List.mem_cons_self)).exists_step clock asked.request
    obtain ⟨final, hrun, hfinal⟩ := ih hnext hrest hfirst
    refine ⟨final, .cons hstep hrun, fun later _ hlast => ?_⟩
    exact hfinal later (hlast asked List.mem_cons_self) fun asked' hmem => hlast asked' (List.mem_cons_of_mem _ hmem)

end

/-- The time at which a request is made, or the lock that it asks for ends. -/
def TimedRequest.ends (asked : TimedRequest) : Nat :=
  match asked.request with
  | .lock _ duration => asked.now + duration
  | _ => asked.now

/-- A ledger without limit has an answer to every run: it is the one of a table whose clock shows all times in it. -/
theorem Ledger.exists_run_unlimited {requests : List TimedRequest} (h : InOrder requests) :
    ∃ answers final, Run ⊤ .empty requests answers final := by
  obtain ⟨last, hlast⟩ := (requests.map TimedRequest.ends).finite_toSet.bddAbove
  obtain ⟨final, hrun, _⟩ := (reflects_empty 0).exists_run ⟨1, last⟩ h fun asked _ => Nat.zero_le asked.now
  refine ⟨_, final, hrun.unlimited (grantsEndBy_of_forall (fun asked hmem outpoints duration hrequest => ?_) _)⟩
  have hends : asked.ends = asked.now + duration := by rw [TimedRequest.ends, hrequest]
  exact hends ▸ hlast (List.mem_map_of_mem hmem)

/-! ## All or nothing -/

/-- All outpoints of a list are locked, or nothing changes. The first outpoint that is locked is named, and there is no
answer only if none is locked and the clock cannot show when the locks would end. -/
structure AllOrNothing (clock : Clock) (table : LockTable) (ledger : Ledger) (now : Nat) (outpoints : List OutPoint)
    (duration : Nat) : Prop where
  granted_iff : (table.lock clock now outpoints duration).2 = .answered (.ok ()) ↔
    (∀ outpoint ∈ outpoints, ¬ ledger.Locked now outpoint) ∧ now + duration ≤ clock.last
  unanswered_iff : (table.lock clock now outpoints duration).2 = .unanswered ↔
    (∀ outpoint ∈ outpoints, ¬ ledger.Locked now outpoint) ∧ clock.last < now + duration
  refused_iff : ∀ error, (table.lock clock now outpoints duration).2 = .answered (.error error) ↔
    ∃ outpoint, ledger.FirstLocked now outpoints outpoint ∧ error = .alreadyLocked outpoint
  granted : (table.lock clock now outpoints duration).2 = .answered (.ok ()) →
    (∀ outpoint ∈ outpoints, (table.lock clock now outpoints duration).1.ends? outpoint = some (now + duration)) ∧
    ∀ outpoint ∉ outpoints, ∀ later, now ≤ later →
      (table.lock clock now outpoints duration).1.lockedUntil? later outpoint = table.lockedUntil? later outpoint
  otherwise : (table.lock clock now outpoints duration).2 ≠ .answered (.ok ()) → ∀ outpoint later, now ≤ later →
    (table.lock clock now outpoints duration).1.lockedUntil? later outpoint = table.lockedUntil? later outpoint

/-- Pruning is not seen from then on. -/
theorem LockTable.lockedUntil?_prune (table : LockTable) {now later : Nat} (h : now ≤ later) (outpoint : OutPoint) :
    (table.prune now).lockedUntil? later outpoint = table.lockedUntil? later outpoint := by
  rw [lockedUntil?, lockedUntil?, ends?_prune, Option.filter_filter]
  congr 1
  funext ends
  rw [Bool.and_eq_right_iff_imp, decide_eq_true_iff, decide_eq_true_iff]
  exact Nat.lt_of_le_of_lt h

theorem Reflects.allOrNothing {now : Nat} {table : LockTable} {ledger : Ledger} (h : Reflects now table ledger)
    (clock : Clock) (outpoints : List OutPoint) (duration : Nat) :
    AllOrNothing clock table ledger now outpoints duration where
  granted_iff := by rw [LockTable.lock_eq_granted_iff, h.free_iff]
  unanswered_iff := by rw [LockTable.lock_eq_unanswered_iff, h.free_iff]
  refused_iff error := by
    obtain ⟨hfree, _, hanswer⟩ | ⟨hfree, _, hanswer⟩ | ⟨outpoint, hfirst, hanswer⟩ :=
      h.lock_cases clock outpoints duration
    · rw [hanswer]
      refine iff_of_false (by rintro ⟨⟩) ?_
      rintro ⟨_, hfirst, _⟩
      exact hfirst.not_free hfree
    · rw [hanswer]
      refine iff_of_false (by rintro ⟨⟩) ?_
      rintro ⟨_, hfirst, _⟩
      exact hfirst.not_free hfree
    · rw [hanswer]
      constructor
      · rintro ⟨⟩
        exact ⟨outpoint, hfirst, rfl⟩
      · rintro ⟨other, hother, rfl⟩
        rw [hother.unique hfirst]
  granted hgranted := by
    refine ⟨fun outpoint hmem => ?_, fun outpoint hnot later hlater => ?_⟩
    · rw [LockTable.ends?_lock_of_granted hgranted, if_pos hmem]
    · rw [LockTable.lockedUntil?, LockTable.ends?_lock_of_granted hgranted, if_neg hnot,
        ← LockTable.lockedUntil?_prune table hlater]
      rfl
  otherwise hnot outpoint later hlater := by
    rw [LockTable.lock_of_not_granted hnot, LockTable.lockedUntil?_prune table hlater]

/-- There is one way in which a ledger without limit answers a run of requests, and one in which a ledger does that can
write the times of a clock. An empty table answers as the second one does, and as the first one exactly if no lock that
the first one grants ends after the last time of the clock. Afterwards the table and the second ledger know the same
locks that are not over, and outpoints are locked together or not at all. -/
theorem pruning_unobservable_iff (clock : Clock) {requests : List TimedRequest} (h : InOrder requests) :
    ∃ answers unlimited ledger,
      Ledger.OnlyRun ⊤ .empty requests answers unlimited ∧
      Ledger.OnlyRun clock.last .empty requests (LockTable.empty.answers clock requests) ledger ∧
      (LockTable.empty.answers clock requests = answers ↔ Ledger.GrantsEndBy clock.last .empty requests) ∧
      (Ledger.GrantsEndBy clock.last .empty requests → ledger = unlimited) ∧
      ∀ now, (∀ asked ∈ requests, asked.now ≤ now) →
        Reflects now (LockTable.empty.after clock requests) ledger ∧
        ∀ outpoints duration,
          AllOrNothing clock (LockTable.empty.after clock requests) ledger now outpoints duration := by
  obtain ⟨answers, unlimited, hunlimited⟩ := Ledger.exists_run_unlimited h
  obtain ⟨ledger, hrun, hreflects⟩ :=
    (reflects_empty 0).exists_run clock h fun asked _ => Nat.zero_le asked.now
  refine ⟨answers, unlimited, ledger, hunlimited.onlyRun, hrun.onlyRun, ⟨fun hsame => ?_, fun hends => ?_⟩,
    fun hends => ?_, fun now hnow => ?_⟩
  · exact hrun.grantsEndBy (hsame ▸ hunlimited)
  · exact ((hrun.unlimited hends).unique hunlimited).1
  · exact ((hrun.unlimited hends).unique hunlimited).2
  · have hnow := hreflects now (Nat.zero_le now) hnow
    exact ⟨hnow, hnow.allOrNothing clock⟩

/-- A lock that is over at once, a lock on two outpoints, one that is refused, a release, and three counts. -/
def busyRequests : List TimedRequest :=
  [⟨0, .lock [⟨.zero, 0⟩, ⟨.zero, 0⟩] 0⟩, ⟨0, .active⟩, ⟨0, .lock [⟨.zero, 0⟩, ⟨.zero, 1⟩] 30⟩,
    ⟨29, .lock [⟨.zero, 2⟩, ⟨.zero, 1⟩] 5⟩, ⟨29, .active⟩, ⟨29, .release [⟨.zero, 0⟩]⟩, ⟨29, .active⟩, ⟨30, .active⟩,
    ⟨30, .lock [⟨.zero, 2⟩, ⟨.zero, 1⟩] 5⟩]

theorem pruning_unobservable_iff_busyRequests :
    InOrder busyRequests ∧ Ledger.GrantsEndBy Clock.monotonic.last .empty busyRequests ∧
      ∃ ledger, Ledger.Run ⊤ .empty busyRequests
        [.lock (.answered (.ok ())), .active 0, .lock (.answered (.ok ())),
          .lock (.answered (.error (.alreadyLocked ⟨.zero, 1⟩))), .active 2, .release, .active 1, .active 0,
          .lock (.answered (.ok ()))] ledger := by
  have horder : InOrder busyRequests := by
    unfold InOrder
    decide
  have hends : Ledger.GrantsEndBy Clock.monotonic.last .empty busyRequests := by
    refine Ledger.grantsEndBy_of_forall (fun asked hmem outpoints duration hrequest => ?_) _
    have hall : ∀ asked ∈ busyRequests, asked.ends ≤ Clock.monotonic.last := by decide
    have hasked : asked.ends = asked.now + duration := by rw [TimedRequest.ends, hrequest]
    exact hasked ▸ hall asked hmem
  obtain ⟨answers, unlimited, _, hunlimited, _, hsame, _⟩ := pruning_unobservable_iff .monotonic horder
  exact ⟨horder, hends, unlimited, (hunlimited _ _).mpr ⟨hsame.mpr hends, rfl⟩⟩

/-- One lock for as many seconds as a word of 64 bits can say. -/
def endlessLock : List TimedRequest :=
  [⟨0, .lock [⟨.zero, 0⟩] ((2 ^ 64 - 1) * Clock.monotonic.perSecond)⟩]

/-- The table does not answer who asks for such a lock, whereas a ledger grants it. -/
theorem not_forall_pruning_unobservable :
    ¬ ∀ requests : List TimedRequest, InOrder requests →
      ∃ final, Ledger.Run ⊤ .empty requests (LockTable.empty.answers .monotonic requests) final := by
  intro h
  obtain ⟨_, hrun⟩ := h endlessLock (List.pairwise_singleton _ _)
  have hanswers : LockTable.empty.answers .monotonic endlessLock = [.lock .unanswered] := rfl
  rw [hanswers] at hrun
  cases hrun with
  | cons hstep => exact hstep.answered rfl

end Vtxo.Spend
