/-!
# Dialogues

A dialogue is a computation that asks questions of the world outside and goes on as the answers say. It holds no
answers itself: the same dialogue can be carried out against a wallet and an operator, or against a list
of recorded answers, and what it asks can be reasoned about for all answers at once.

  1. `Run`: the exchanges and the result of a dialogue under some answers.
  2. `run_bind`: a run of one dialogue after another is a run of each.
-/

set_option autoImplicit false

namespace Vtxo

/-- A computation that is done, or that asks a question and continues with the answer. -/
inductive Dialogue (Q : Type) (A : Q → Type) (α : Type) : Type where
  | done (result : α)
  | ask (question : Q) (next : A question → Dialogue Q A α)

namespace Dialogue

variable {Q : Type} {A : Q → Type} {α β γ : Type}

/-- One dialogue after another, which may depend on the result of the first. -/
def bind : Dialogue Q A α → (α → Dialogue Q A β) → Dialogue Q A β
  | done result, f => f result
  | ask question next, f => ask question fun answer => (next answer).bind f

theorem bind_done (d : Dialogue Q A α) : d.bind done = d := by
  induction d with
  | done => rfl
  | ask question next ih => exact congrArg (ask question) (funext ih)

theorem bind_assoc (d : Dialogue Q A α) (f : α → Dialogue Q A β) (g : β → Dialogue Q A γ) :
    (d.bind f).bind g = d.bind fun a => (f a).bind g := by
  induction d with
  | done => rfl
  | ask question next ih => exact congrArg (ask question) (funext ih)

instance : Monad (Dialogue Q A) where
  pure := done
  bind := bind

instance : LawfulMonad (Dialogue Q A) :=
  LawfulMonad.mk' (Dialogue Q A) (fun d => bind_done d) (fun _ _ => rfl)
    (fun d f g => bind_assoc d f g)

/-- A single question; its answer is the result. -/
def question (q : Q) : Dialogue Q A (A q) :=
  ask q done

/-! ## Runs -/

/-- A question with its answer. -/
abbrev Exchange (Q : Type) (A : Q → Type) := (question : Q) × A question

/-- The dialogue can go through the given exchanges, in order, to the given result. -/
inductive Run : Dialogue Q A α → List (Exchange Q A) → α → Prop where
  | done (result : α) : Run (.done result) [] result
  | ask (question : Q) (next : A question → Dialogue Q A α) (answer : A question)
      {exchanges : List (Exchange Q A)} {result : α} (rest : Run (next answer) exchanges result) :
      Run (.ask question next) (⟨question, answer⟩ :: exchanges) result

theorem run_done {result other : α} {exchanges : List (Exchange Q A)} :
    Run (.done result) exchanges other ↔ exchanges = [] ∧ other = result := by
  constructor
  · intro h
    cases h
    exact ⟨rfl, rfl⟩
  · rintro ⟨rfl, rfl⟩
    exact .done other

theorem run_bind {d : Dialogue Q A α} {f : α → Dialogue Q A β} {exchanges : List (Exchange Q A)}
    {result : β} :
    Run (d.bind f) exchanges result ↔
      ∃ (middle : α) (before after : List (Exchange Q A)),
        exchanges = before ++ after ∧ Run d before middle ∧ Run (f middle) after result := by
  constructor
  · intro h
    induction d generalizing exchanges with
    | done a => exact ⟨a, [], exchanges, rfl, .done a, h⟩
    | ask question next ih =>
      cases h with
      | ask _ _ answer rest =>
        obtain ⟨middle, before, after, rfl, hbefore, hafter⟩ := ih answer rest
        exact ⟨middle, ⟨question, answer⟩ :: before, after, rfl, .ask question next answer hbefore, hafter⟩
  · rintro ⟨middle, before, after, rfl, hbefore, hafter⟩
    induction hbefore with
    | done => exact hafter
    | ask question next answer rest ih => exact .ask question _ answer (ih hafter)

/-- A run is determined by its answers: the same exchanges lead to the same result. -/
theorem Run.result_unique {d : Dialogue Q A α} {exchanges : List (Exchange Q A)} {result other : α}
    (h : Run d exchanges result) (h' : Run d exchanges other) : result = other := by
  induction h with
  | done result =>
    cases h'
    rfl
  | ask question next answer rest ih =>
    cases h' with
    | ask _ _ _ rest' => exact ih rest'

/-- Carry out a dialogue: every question is answered in turn. -/
def answeredBy {m : Type → Type} [Monad m] (answer : (question : Q) → m (A question)) :
    Dialogue Q A α → m α
  | done result => pure result
  | ask question next => do (next (← answer question)).answeredBy answer

end Dialogue

end Vtxo
