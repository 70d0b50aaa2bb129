import Mathlib.Data.List.Forall2
import Vtxo.Spend.Signing

/-!
# Runs of attempts and edits

An attempt is judged by its runs: the exchanges it goes through and the outcome it ends with. A run of one attempt
after another is a run of each, or a run of the first one that fails. The same holds for edits, which also take a
transaction from one state to another.

  1. `Attempt.ends_bind`, `Attempt.ends_bind_ok`: runs of one attempt after another.
  2. `Edit.takes_bind`, `Edit.within_bind`: runs of one edit after another, and what they may do.
  3. `Edit.ends_applyTo`: an edit gives the transaction it arrived at.
-/

set_option autoImplicit false

namespace Vtxo.Spend

/-- A question to a collaborator, with its answer. -/
abbrev Exchange := Dialogue.Exchange Request Reply

/-! ## Attempts -/

namespace Attempt

variable {α β : Type}

/-- The attempt can go through the given exchanges, in order, to the given outcome. -/
def Ends (attempt : Attempt α) (exchanges : List Exchange) (outcome : Except Error α) : Prop :=
  Dialogue.Run attempt.run exchanges outcome

theorem ends_pure {value : α} {exchanges : List Exchange} {outcome : Except Error α} :
    (pure value : Attempt α).Ends exchanges outcome ↔ exchanges = [] ∧ outcome = .ok value :=
  Dialogue.run_done

theorem ends_throw {error : Error} {exchanges : List Exchange} {outcome : Except Error α} :
    (throw error : Attempt α).Ends exchanges outcome ↔ exchanges = [] ∧ outcome = .error error :=
  Dialogue.run_done

theorem ends_ofExcept {value outcome : Except Error α} {exchanges : List Exchange} :
    (ofExcept value).Ends exchanges outcome ↔ exchanges = [] ∧ outcome = value :=
  Dialogue.run_done

/-- A single question ends as the answer says. -/
theorem run_ask {request : Request} {exchanges : List Exchange} {answer : Reply request} :
    Dialogue.Run request.ask exchanges answer ↔ exchanges = [⟨request, answer⟩] := by
  constructor
  · intro h
    cases h with
    | ask _ _ answer rest =>
      cases rest
      rfl
  · rintro rfl
    exact .ask request _ answer (.done answer)

theorem ends_bind {attempt : Attempt α} {f : α → Attempt β} {exchanges : List Exchange}
    {outcome : Except Error β} :
    (attempt >>= f).Ends exchanges outcome ↔
      (∃ (value : α) (before after : List Exchange),
        exchanges = before ++ after ∧ attempt.Ends before (.ok value) ∧ (f value).Ends after outcome) ∨
      ∃ error, attempt.Ends exchanges (.error error) ∧ outcome = .error error := by
  unfold Ends
  rw [ExceptT.run_bind]
  constructor
  · intro h
    obtain ⟨middle, before, after, rfl, hbefore, hafter⟩ := Dialogue.run_bind.mp h
    cases middle with
    | ok value => exact .inl ⟨value, before, after, rfl, hbefore, hafter⟩
    | error error =>
      obtain ⟨rfl, rfl⟩ := Dialogue.run_done.mp hafter
      exact .inr ⟨error, by simpa using hbefore, rfl⟩
  · rintro (⟨value, before, after, rfl, hbefore, hafter⟩ | ⟨error, hrun, rfl⟩)
    · exact Dialogue.run_bind.mpr ⟨.ok value, before, after, rfl, hbefore, hafter⟩
    · exact Dialogue.run_bind.mpr ⟨.error error, exchanges, [], by simp, hrun, .done _⟩

/-- Where one attempt after another succeeds, both do. -/
theorem ends_bind_ok {attempt : Attempt α} {f : α → Attempt β} {exchanges : List Exchange} {result : β} :
    (attempt >>= f).Ends exchanges (.ok result) ↔
      ∃ (value : α) (before after : List Exchange),
        exchanges = before ++ after ∧ attempt.Ends before (.ok value) ∧
          (f value).Ends after (.ok result) := by
  rw [ends_bind]
  constructor
  · rintro (h | ⟨error, _, herror⟩)
    · exact h
    · cases herror
  · exact Or.inl

/-- What asks nothing first fails at once, or leaves all exchanges to what follows. -/
theorem ends_ofExcept_bind {value : Except Error α} {f : α → Attempt β} {exchanges : List Exchange}
    {outcome : Except Error β} :
    (ofExcept value >>= f).Ends exchanges outcome ↔
      (∃ a, value = .ok a ∧ (f a).Ends exchanges outcome) ∨
      ∃ error, value = .error error ∧ exchanges = [] ∧ outcome = .error error := by
  rw [ends_bind]
  constructor
  · rintro (⟨a, before, after, rfl, hfirst, hrest⟩ | ⟨error, hfailed, rfl⟩)
    · obtain ⟨rfl, hvalue⟩ := ends_ofExcept.mp hfirst
      exact .inl ⟨a, Eq.symm hvalue, hrest⟩
    · obtain ⟨rfl, hvalue⟩ := ends_ofExcept.mp hfailed
      exact .inr ⟨error, Eq.symm hvalue, rfl, rfl⟩
  · rintro (⟨a, rfl, hrest⟩ | ⟨error, rfl, rfl, rfl⟩)
    · exact .inl ⟨a, [], exchanges, rfl, ends_ofExcept.mpr ⟨rfl, rfl⟩, hrest⟩
    · exact .inr ⟨error, ends_ofExcept.mpr ⟨rfl, rfl⟩, rfl⟩

theorem ends_ofExcept_bind_ok {value : Except Error α} {f : α → Attempt β} {exchanges : List Exchange}
    {result : β} :
    (ofExcept value >>= f).Ends exchanges (.ok result) ↔
      ∃ a, value = .ok a ∧ (f a).Ends exchanges (.ok result) := by
  rw [ends_ofExcept_bind]
  constructor
  · rintro (h | ⟨_, _, _, herror⟩)
    · exact h
    · cases herror
  · exact Or.inl

/-- A refusal on a condition: it fails at once, or the condition does not hold. -/
theorem ends_unless {condition : Prop} [Decidable condition] {error : Error} {rest : Attempt β}
    {exchanges : List Exchange} {outcome : Except Error β} :
    (do if condition then throw error
        rest : Attempt β).Ends exchanges outcome ↔
      (condition ∧ exchanges = [] ∧ outcome = .error error) ∨ (¬ condition ∧ rest.Ends exchanges outcome) := by
  by_cases h : condition
  · rw [if_pos h]
    refine ⟨fun hrun => .inl ⟨h, ends_throw.mp hrun⟩, ?_⟩
    rintro (⟨_, hfailed⟩ | ⟨hnot, _⟩)
    · exact ends_throw.mpr hfailed
    · exact absurd h hnot
  · rw [if_neg h]
    refine ⟨fun hrun => .inr ⟨h, hrun⟩, ?_⟩
    rintro (⟨hcondition, _⟩ | ⟨_, hrun⟩)
    · exact absurd hcondition h
    · exact hrun

theorem ends_unless_ok {condition : Prop} [Decidable condition] {error : Error} {rest : Attempt β}
    {exchanges : List Exchange} {result : β} :
    (do if condition then throw error
        rest : Attempt β).Ends exchanges (.ok result) ↔
      ¬ condition ∧ rest.Ends exchanges (.ok result) := by
  rw [ends_unless]
  constructor
  · rintro (⟨_, _, herror⟩ | h)
    · cases herror
    · exact h
  · exact Or.inr

/-- One attempt for each item: each result comes from a run of its own. -/
theorem ends_mapM_ok {f : α → Attempt β} {items : List α} {exchanges : List Exchange} {results : List β}
    (h : (items.mapM f).Ends exchanges (.ok results)) :
    List.Forall₂ (fun item result =>
      ∃ part : List Exchange, part ⊆ exchanges ∧ (f item).Ends part (.ok result)) items results := by
  induction items generalizing exchanges results with
  | nil =>
    rw [List.mapM_nil] at h
    cases (ends_pure.mp h).2
    exact .nil
  | cons item rest ih =>
    rw [List.mapM_cons] at h
    obtain ⟨first, before, _, rfl, hfirst, h⟩ := ends_bind_ok.mp h
    obtain ⟨others, middle, after, rfl, hothers, h⟩ := ends_bind_ok.mp h
    cases (ends_pure.mp h).2
    refine .cons ⟨before, List.subset_append_left _ _, hfirst⟩ ?_
    refine (ih hothers).imp fun item result hpart => ?_
    obtain ⟨part, hsub, hrun⟩ := hpart
    refine ⟨part, fun exchange hmem => ?_, hrun⟩
    exact List.mem_append_right _ (List.mem_append_left _ (hsub hmem))

/-- Where each item can be brought to a result, all can, one after the other, with answers of the same kind. -/
theorem exists_ends_mapM {f : α → Attempt β} {answers : Exchange → Prop} {items : List α} {results : List β}
    (h : List.Forall₂ (fun item result =>
      ∃ part, (f item).Ends part (.ok result) ∧ ∀ exchange ∈ part, answers exchange) items results) :
    ∃ exchanges, (items.mapM f).Ends exchanges (.ok results) ∧ ∀ exchange ∈ exchanges, answers exchange := by
  induction h with
  | nil => exact ⟨[], by rw [List.mapM_nil]; exact ends_pure.mpr ⟨rfl, rfl⟩, List.forall_mem_nil _⟩
  | cons hitem _ ih =>
    obtain ⟨first, hfirst, hfirstAnswers⟩ := hitem
    obtain ⟨others, hothers, hanswers⟩ := ih
    refine ⟨first ++ others, ?_, List.forall_mem_append.mpr ⟨hfirstAnswers, hanswers⟩⟩
    rw [List.mapM_cons]
    refine ends_bind_ok.mpr ⟨_, first, others, rfl, hfirst, ?_⟩
    exact ends_bind_ok.mpr ⟨_, others, [], by simp, hothers, ends_pure.mpr ⟨rfl, rfl⟩⟩

theorem ends_lift {conversation : Conversation α} {exchanges : List Exchange} {outcome : Except Error α} :
    Ends (ExceptT.lift conversation) exchanges outcome ↔
      ∃ value, outcome = .ok value ∧ Dialogue.Run conversation exchanges value := by
  have hrun : (ExceptT.lift conversation : Attempt α).run =
      conversation.bind fun value => .done (.ok value) := rfl
  unfold Ends
  rw [hrun, Dialogue.run_bind]
  constructor
  · rintro ⟨value, first, rest, rfl, hfirst, hrest⟩
    obtain ⟨rfl, rfl⟩ := Dialogue.run_done.mp hrest
    exact ⟨value, rfl, by simpa using hfirst⟩
  · rintro ⟨value, rfl, hfirst⟩
    exact ⟨value, exchanges, [], by simp, hfirst, .done _⟩

/-! ## What attempts may ask -/

/-- Whatever the answers are, the attempt asks nothing else. -/
def Asks (attempt : Attempt α) (asks : Request → Prop) : Prop :=
  ∀ (exchanges : List Exchange) (outcome : Except Error α),
    attempt.Ends exchanges outcome → ∀ exchange ∈ exchanges, asks exchange.1

variable {asks : Request → Prop}

theorem asks_pure (value : α) : (pure value : Attempt α).Asks asks := by
  intro exchanges outcome h
  obtain ⟨rfl, _⟩ := ends_pure.mp h
  simp

theorem asks_throw (error : Error) : (throw error : Attempt α).Asks asks := by
  intro exchanges outcome h
  obtain ⟨rfl, _⟩ := ends_throw.mp h
  simp

theorem asks_ofExcept (value : Except Error α) : (ofExcept value).Asks asks := by
  intro exchanges outcome h
  obtain ⟨rfl, _⟩ := ends_ofExcept.mp h
  simp

theorem asks_lift_ask {request : Request} (h : asks request) :
    Asks (ExceptT.lift request.ask) asks := by
  intro exchanges outcome hrun
  obtain ⟨answer, _, hask⟩ := ends_lift.mp hrun
  cases run_ask.mp hask
  simpa using h

/-- An attempt of one question asks this question. -/
theorem asks_single (request : Request) {attempt : Attempt α} (h : asks request)
    (hruns : ∀ exchanges outcome, attempt.Ends exchanges outcome → ∃ reply, exchanges = [⟨request, reply⟩]) :
    attempt.Asks asks := by
  intro exchanges outcome hrun
  obtain ⟨reply, rfl⟩ := hruns _ _ hrun
  exact List.forall_mem_singleton.mpr h

theorem Asks.imp {attempt : Attempt α} {others : Request → Prop} (h : attempt.Asks asks)
    (himp : ∀ request, asks request → others request) : attempt.Asks others :=
  fun _ _ hrun exchange hmem => himp _ (h _ _ hrun exchange hmem)

theorem asks_bind {attempt : Attempt α} {f : α → Attempt β} (h : attempt.Asks asks)
    (hf : ∀ value, (f value).Asks asks) : (attempt >>= f).Asks asks := by
  intro exchanges outcome hrun
  rcases ends_bind.mp hrun with ⟨value, before, after, rfl, hbefore, hafter⟩ | ⟨error, hfail, _⟩
  · intro exchange hmem
    exact (List.mem_append.mp hmem).elim (h _ _ hbefore exchange) (hf value _ _ hafter exchange)
  · exact h _ _ hfail

theorem asks_mapM {f : α → Attempt β} (h : ∀ item, (f item).Asks asks) (items : List α) :
    (items.mapM f).Asks asks := by
  induction items with
  | nil => exact asks_pure _
  | cons item rest ih =>
    rw [List.mapM_cons]
    exact asks_bind (h item) fun _ => asks_bind ih fun _ => asks_pure _

end Attempt

/-! ## Edits -/

namespace Edit

variable {α β : Type}

/-- The edit can go through the given exchanges to the given outcome and take one transaction to another; it may
do so when it fails, too. -/
def Takes (edit : Edit α) (before : Psbt) (exchanges : List Exchange) (outcome : Except Error α)
    (after : Psbt) : Prop :=
  Dialogue.Run (edit.run.run before) exchanges (outcome, after)

theorem takes_pure {value : α} {before after : Psbt} {exchanges : List Exchange}
    {outcome : Except Error α} :
    (pure value : Edit α).Takes before exchanges outcome after ↔
      exchanges = [] ∧ outcome = .ok value ∧ after = before := by
  unfold Takes
  rw [← Prod.mk.injEq]
  exact Dialogue.run_done

theorem takes_throw {error : Error} {before after : Psbt} {exchanges : List Exchange}
    {outcome : Except Error α} :
    (throw error : Edit α).Takes before exchanges outcome after ↔
      exchanges = [] ∧ outcome = .error error ∧ after = before := by
  unfold Takes
  rw [← Prod.mk.injEq]
  exact Dialogue.run_done

theorem takes_get {before after : Psbt} {exchanges : List Exchange} {outcome : Except Error Psbt} :
    (get : Edit Psbt).Takes before exchanges outcome after ↔
      exchanges = [] ∧ outcome = .ok before ∧ after = before := by
  unfold Takes
  rw [← Prod.mk.injEq]
  exact Dialogue.run_done

theorem takes_modify {change : Psbt → Psbt} {before after : Psbt} {exchanges : List Exchange}
    {outcome : Except Error PUnit} :
    (modify change : Edit PUnit).Takes before exchanges outcome after ↔
      exchanges = [] ∧ outcome = .ok () ∧ after = change before := by
  unfold Takes
  rw [← Prod.mk.injEq]
  exact Dialogue.run_done

theorem takes_set {psbt before after : Psbt} {exchanges : List Exchange} {outcome : Except Error PUnit} :
    (set psbt : Edit PUnit).Takes before exchanges outcome after ↔
      exchanges = [] ∧ outcome = .ok () ∧ after = psbt := by
  unfold Takes
  rw [← Prod.mk.injEq]
  exact Dialogue.run_done

theorem takes_attempt {a : Attempt α} {before after : Psbt} {exchanges : List Exchange}
    {outcome : Except Error α} :
    (attempt a).Takes before exchanges outcome after ↔ a.Ends exchanges outcome ∧ after = before := by
  have hrun : (attempt a).run.run before = a.run.bind fun outcome => .done (outcome, before) := rfl
  unfold Takes Attempt.Ends
  rw [hrun, Dialogue.run_bind]
  constructor
  · rintro ⟨middle, first, rest, rfl, hfirst, hrest⟩
    obtain ⟨rfl, hpair⟩ := Dialogue.run_done.mp hrest
    obtain ⟨rfl, rfl⟩ := Prod.mk.inj hpair
    exact ⟨by simpa using hfirst, rfl⟩
  · rintro ⟨hends, rfl⟩
    exact ⟨outcome, exchanges, [], by simp, hends, .done _⟩

theorem takes_ofExcept {value outcome : Except Error α} {before after : Psbt} {exchanges : List Exchange} :
    (ofExcept value).Takes before exchanges outcome after ↔
      exchanges = [] ∧ outcome = value ∧ after = before := by
  rw [ofExcept, takes_attempt, Attempt.ends_ofExcept, and_assoc]

theorem takes_bind {edit : Edit α} {f : α → Edit β} {before after : Psbt} {exchanges : List Exchange}
    {outcome : Except Error β} :
    (edit >>= f).Takes before exchanges outcome after ↔
      (∃ (value : α) (middle : Psbt) (first rest : List Exchange),
        exchanges = first ++ rest ∧ edit.Takes before first (.ok value) middle ∧
          (f value).Takes middle rest outcome after) ∨
      ∃ error, edit.Takes before exchanges (.error error) after ∧ outcome = .error error := by
  unfold Takes
  rw [ExceptT.run_bind, StateT.run_bind]
  constructor
  · intro h
    obtain ⟨⟨reached, middle⟩, first, rest, rfl, hfirst, hrest⟩ := Dialogue.run_bind.mp h
    cases reached with
    | ok value => exact .inl ⟨value, middle, first, rest, rfl, hfirst, hrest⟩
    | error error =>
      obtain ⟨rfl, hpair⟩ := Dialogue.run_done.mp hrest
      obtain ⟨rfl, rfl⟩ := Prod.mk.inj hpair
      exact .inr ⟨error, by simpa using hfirst, rfl⟩
  · rintro (⟨value, middle, first, rest, rfl, hfirst, hrest⟩ | ⟨error, hrun, rfl⟩)
    · exact Dialogue.run_bind.mpr ⟨(.ok value, middle), first, rest, rfl, hfirst, hrest⟩
    · exact Dialogue.run_bind.mpr ⟨(.error error, after), exchanges, [], by simp, hrun, .done _⟩

/-- Where one edit after another succeeds, both do. -/
theorem takes_bind_ok {edit : Edit α} {f : α → Edit β} {before after : Psbt} {exchanges : List Exchange}
    {result : β} :
    (edit >>= f).Takes before exchanges (.ok result) after ↔
      ∃ (value : α) (middle : Psbt) (first rest : List Exchange),
        exchanges = first ++ rest ∧ edit.Takes before first (.ok value) middle ∧
          (f value).Takes middle rest (.ok result) after := by
  rw [takes_bind]
  constructor
  · rintro (h | ⟨error, _, herror⟩)
    · exact h
    · cases herror
  · exact Or.inl

/-- What begins with a look at the transaction goes on with it. -/
theorem takes_get_bind {f : Psbt → Edit β} {before after : Psbt} {exchanges : List Exchange} {outcome : Except Error β} :
    (get >>= f).Takes before exchanges outcome after ↔ (f before).Takes before exchanges outcome after := by
  rw [takes_bind]
  constructor
  · rintro (⟨current, middle, first, rest, rfl, hget, hrest⟩ | ⟨error, hget, _⟩)
    · obtain ⟨rfl, hcurrent, rfl⟩ := takes_get.mp hget
      cases hcurrent
      exact hrest
    · cases (takes_get.mp hget).2.1
  · intro h
    exact .inl ⟨before, before, [], exchanges, rfl, takes_get.mpr ⟨rfl, rfl, rfl⟩, h⟩

/-- What asks nothing first fails at once and changes nothing, or leaves everything to what follows. -/
theorem takes_ofExcept_bind {value : Except Error α} {f : α → Edit β} {before after : Psbt} {exchanges : List Exchange}
    {outcome : Except Error β} :
    (ofExcept value >>= f).Takes before exchanges outcome after ↔
      (∃ a, value = .ok a ∧ (f a).Takes before exchanges outcome after) ∨
      ∃ error, value = .error error ∧ exchanges = [] ∧ outcome = .error error ∧ after = before := by
  rw [takes_bind]
  constructor
  · rintro (⟨a, middle, first, rest, rfl, hfirst, hrest⟩ | ⟨error, hfailed, rfl⟩)
    · obtain ⟨rfl, hvalue, rfl⟩ := takes_ofExcept.mp hfirst
      exact .inl ⟨a, hvalue.symm, hrest⟩
    · obtain ⟨rfl, hvalue, rfl⟩ := takes_ofExcept.mp hfailed
      exact .inr ⟨error, hvalue.symm, rfl, rfl, rfl⟩
  · rintro (⟨a, rfl, hrest⟩ | ⟨error, rfl, rfl, rfl, rfl⟩)
    · exact .inl ⟨a, before, [], exchanges, rfl, takes_ofExcept.mpr ⟨rfl, rfl, rfl⟩, hrest⟩
    · exact .inr ⟨error, takes_ofExcept.mpr ⟨rfl, rfl, rfl⟩, rfl⟩

theorem takes_forM_singleton {f : α → Edit PUnit} {item : α} {before after : Psbt} {exchanges : List Exchange}
    {outcome : Except Error PUnit} :
    ([item].forM f).Takes before exchanges outcome after ↔ (f item).Takes before exchanges outcome after := by
  constructor
  · intro h
    rcases takes_bind.mp h with ⟨_, middle, first, rest, rfl, hfirst, hrest⟩ | ⟨error, hfirst, rfl⟩
    · obtain ⟨rfl, rfl, rfl⟩ := takes_pure.mp hrest
      rwa [List.append_nil]
    · exact hfirst
  · intro h
    cases outcome with
    | ok => exact takes_bind_ok.mpr ⟨(), after, _, [], (List.append_nil _).symm, h, takes_pure.mpr ⟨rfl, rfl, rfl⟩⟩
    | error error => exact takes_bind.mpr (.inr ⟨error, h, rfl⟩)

/-- Where each item can be dealt with whenever an invariant holds, all can, one after the other, with answers of the
same kind. -/
theorem exists_takes_forM {f : α → Edit PUnit} (Invariant : Psbt → Prop) {answers : Exchange → Prop} {items : List α}
    (hitems : ∀ item ∈ items, ∀ before, Invariant before → ∃ exchanges after,
      (f item).Takes before exchanges (.ok ()) after ∧ Invariant after ∧ ∀ exchange ∈ exchanges, answers exchange)
    {before : Psbt} (hbefore : Invariant before) :
    ∃ exchanges after, (items.forM f).Takes before exchanges (.ok ()) after ∧ Invariant after ∧
      ∀ exchange ∈ exchanges, answers exchange := by
  induction items generalizing before with
  | nil => exact ⟨[], before, takes_pure.mpr ⟨rfl, rfl, rfl⟩, hbefore, List.forall_mem_nil _⟩
  | cons item rest ih =>
    obtain ⟨first, middle, hfirst, hmiddle, hfirstAnswers⟩ := hitems item List.mem_cons_self before hbefore
    obtain ⟨others, after, hothers, hafter, hanswers⟩ :=
      ih (fun other hmem => hitems other (List.mem_cons_of_mem _ hmem)) hmiddle
    exact ⟨first ++ others, after, takes_bind_ok.mpr ⟨(), middle, first, others, rfl, hfirst, hothers⟩, hafter,
      List.forall_mem_append.mpr ⟨hfirstAnswers, hanswers⟩⟩

/-- An edit of a transaction gives the transaction it arrived at, or fails as the edit does. -/
theorem ends_applyTo {edit : Edit α} {psbt : Psbt} {exchanges : List Exchange} {outcome : Except Error Psbt} :
    (edit.applyTo psbt).Ends exchanges outcome ↔
      ∃ reached edited, edit.Takes psbt exchanges reached edited ∧ outcome = reached.map fun _ => edited := by
  have hrun : (edit.applyTo psbt).run = (edit.run.run psbt).bind fun reached =>
      .done (reached.1.map fun _ => reached.2) := rfl
  unfold Attempt.Ends Takes
  rw [hrun, Dialogue.run_bind]
  constructor
  · rintro ⟨⟨reached, edited⟩, first, rest, rfl, hfirst, hrest⟩
    obtain ⟨rfl, houtcome⟩ := Dialogue.run_done.mp hrest
    exact ⟨reached, edited, by simpa using hfirst, houtcome⟩
  · rintro ⟨reached, edited, hrun, rfl⟩
    exact ⟨(reached, edited), exchanges, [], by simp, hrun, .done _⟩

theorem ends_applyTo_ok {edit : Edit α} {psbt edited : Psbt} {exchanges : List Exchange} :
    (edit.applyTo psbt).Ends exchanges (.ok edited) ↔
      ∃ value, edit.Takes psbt exchanges (.ok value) edited := by
  rw [ends_applyTo]
  constructor
  · rintro ⟨reached, after, htakes, houtcome⟩
    cases reached with
    | error error => cases houtcome
    | ok value =>
      cases houtcome
      exact ⟨value, htakes⟩
  · rintro ⟨value, htakes⟩
    exact ⟨.ok value, edited, htakes, rfl⟩

/-! ## What edits may do -/

/-- Limits of edits: what they may ask, and how they may change a transaction. -/
structure Limits where
  asks : Request → Prop
  changes : Psbt → Psbt → Prop
  unchanged : ∀ psbt, changes psbt psbt
  combined : ∀ {a b c}, changes a b → changes b c → changes a c

/-- The edit stays within limits, whatever the answers are and whether or not it succeeds. -/
def Within (edit : Edit α) (limits : Limits) : Prop :=
  ∀ (before after : Psbt) (exchanges : List Exchange) (outcome : Except Error α),
    edit.Takes before exchanges outcome after →
      limits.changes before after ∧ ∀ exchange ∈ exchanges, limits.asks exchange.1

variable {limits : Limits}

theorem within_pure (value : α) : (pure value : Edit α).Within limits := by
  intro before after exchanges outcome h
  obtain ⟨rfl, _, rfl⟩ := takes_pure.mp h
  exact ⟨limits.unchanged _, by simp⟩

theorem within_get : (get : Edit Psbt).Within limits := by
  intro before after exchanges outcome h
  obtain ⟨rfl, _, rfl⟩ := takes_get.mp h
  exact ⟨limits.unchanged _, by simp⟩

theorem within_ofExcept (value : Except Error α) : (ofExcept value).Within limits := by
  intro before after exchanges outcome h
  obtain ⟨rfl, _, rfl⟩ := takes_ofExcept.mp h
  exact ⟨limits.unchanged _, by simp⟩

theorem within_throw (error : Error) : (throw error : Edit α).Within limits := by
  intro before after exchanges outcome h
  obtain ⟨rfl, _, rfl⟩ := takes_throw.mp h
  exact ⟨limits.unchanged _, by simp⟩

theorem within_attempt {a : Attempt α} (h : a.Asks limits.asks) : (attempt a).Within limits := by
  intro before after exchanges outcome hrun
  obtain ⟨hends, rfl⟩ := takes_attempt.mp hrun
  exact ⟨limits.unchanged _, h _ _ hends⟩

theorem within_modify {change : Psbt → Psbt} (h : ∀ psbt, limits.changes psbt (change psbt)) :
    (modify change : Edit PUnit).Within limits := by
  intro before after exchanges outcome hrun
  obtain ⟨rfl, _, rfl⟩ := takes_modify.mp hrun
  exact ⟨h _, by simp⟩

theorem within_bind {edit : Edit α} {f : α → Edit β} (h : edit.Within limits)
    (hf : ∀ value, (f value).Within limits) : (edit >>= f).Within limits := by
  intro before after exchanges outcome hrun
  rcases takes_bind.mp hrun with ⟨value, middle, first, rest, rfl, hfirst, hrest⟩ | ⟨error, hfail, _⟩
  · obtain ⟨hchange, hasks⟩ := h _ _ _ _ hfirst
    obtain ⟨hchange', hasks'⟩ := hf value _ _ _ _ hrest
    refine ⟨limits.combined hchange hchange', fun exchange hmem => ?_⟩
    exact (List.mem_append.mp hmem).elim (hasks exchange) (hasks' exchange)
  · exact h _ _ _ _ hfail

theorem within_forM_of_mem {f : α → Edit PUnit} {items : List α} (h : ∀ item ∈ items, (f item).Within limits) :
    (items.forM f).Within limits := by
  induction items with
  | nil => exact within_pure _
  | cons item rest ih =>
    obtain ⟨hitem, hrest⟩ := List.forall_mem_cons.mp h
    exact within_bind hitem fun _ => ih hrest

theorem within_forM {f : α → Edit PUnit} (h : ∀ item, (f item).Within limits) (items : List α) :
    (items.forM f).Within limits :=
  within_forM_of_mem fun item _ => h item

theorem asks_applyTo {edit : Edit α} {psbt : Psbt} (h : edit.Within limits) :
    (edit.applyTo psbt).Asks limits.asks := by
  intro exchanges outcome hends
  obtain ⟨_, _, htakes, _⟩ := ends_applyTo.mp hends
  exact (h _ _ _ _ htakes).2

end Edit

end Vtxo.Spend
