import Mathlib.Data.List.Forall2

/-!
# Computations that succeed

Where a computation made of several steps succeeds, each of its steps does.

  1. `bind_eq_ok`, `map_eq_ok`: one step after another; `bind_eq_error`, `map_eq_error`: which one fails; `isOk_iff`.
  2. `unless_eq_ok`: a refusal on a condition.
  3. `mapM_eq_ok`, `mapM_eq_ok_iff`, `mapM_eq_error`: one step for each item of a list.
  4. `stateful_bind_eq_ok`: one step after another on a state.
-/

set_option autoImplicit false

namespace Vtxo

variable {ε σ α β : Type}

theorem bind_eq_ok {first : Except ε α} {next : α → Except ε β} {b : β} :
    (first >>= next) = .ok b ↔ ∃ a, first = .ok a ∧ next a = .ok b := by
  cases first with
  | error => exact ⟨fun h => absurd h (by rintro ⟨⟩), fun ⟨_, h, _⟩ => absurd h (by rintro ⟨⟩)⟩
  | ok a => exact ⟨fun h => ⟨a, rfl, h⟩, fun ⟨_, heq, h⟩ => by cases heq; exact h⟩

theorem map_eq_ok {first : Except ε α} {f : α → β} {b : β} :
    first.map f = .ok b ↔ ∃ a, first = .ok a ∧ f a = b := by
  cases first with
  | error => exact ⟨fun h => absurd h (by rintro ⟨⟩), fun ⟨_, h, _⟩ => absurd h (by rintro ⟨⟩)⟩
  | ok a => exact ⟨fun h => ⟨a, rfl, Except.ok.inj h⟩, fun ⟨_, heq, h⟩ => by cases heq; exact congrArg Except.ok h⟩

/-- Whether a computation succeeds can be evaluated where its result is not needed. -/
theorem isOk_iff {first : Except ε α} : first.isOk = true ↔ ∃ a, first = .ok a := by
  cases first with
  | error => exact ⟨fun h => absurd h (by rintro ⟨⟩), fun ⟨_, h⟩ => absurd h (by rintro ⟨⟩)⟩
  | ok a => exact ⟨fun _ => ⟨a, rfl⟩, fun _ => rfl⟩

theorem bind_eq_error {first : Except ε α} {next : α → Except ε β} {error : ε} :
    (first >>= next) = .error error ↔ first = .error error ∨ ∃ a, first = .ok a ∧ next a = .error error := by
  cases first with
  | error fault =>
    refine ⟨fun h => .inl (by cases h; rfl), fun h => ?_⟩
    rcases h with h | ⟨_, h, _⟩
    · cases h
      rfl
    · cases h
  | ok a =>
    refine ⟨fun h => .inr ⟨a, rfl, h⟩, fun h => ?_⟩
    rcases h with h | ⟨_, heq, h⟩
    · cases h
    · cases heq
      exact h

theorem map_eq_error {first : Except ε α} {f : α → β} {error : ε} :
    first.map f = .error error ↔ first = .error error := by
  cases first with
  | error fault => exact ⟨fun h => by cases h; rfl, fun h => by cases h; rfl⟩
  | ok a => exact ⟨fun h => absurd h (by rintro ⟨⟩), fun h => absurd h (by rintro ⟨⟩)⟩

/-- A computation that refuses on a condition succeeds if the condition does not hold and the rest succeeds. -/
theorem unless_eq_ok {condition : Prop} [Decidable condition] {error : ε} {rest : Except ε β} {b : β} :
    (do if condition then throw error
        rest) = .ok b ↔ ¬ condition ∧ rest = .ok b := by
  by_cases h : condition
  · rw [if_pos h]
    exact ⟨fun hthrow => absurd hthrow (by rintro ⟨⟩), fun hrest => absurd h hrest.1⟩
  · rw [if_neg h]
    exact ⟨fun hrest => ⟨h, hrest⟩, fun hrest => hrest.2⟩

theorem mapM_eq_ok {f : α → Except ε β} {R : α → β → Prop} {items : List α}
    (h : ∀ a ∈ items, ∃ b, f a = .ok b ∧ R a b) :
    ∃ results, items.mapM f = .ok results ∧ List.Forall₂ R items results := by
  induction items with
  | nil => exact ⟨[], rfl, .nil⟩
  | cons first rest ih =>
    obtain ⟨⟨b, hfirst, hb⟩, hrest⟩ := List.forall_mem_cons.mp h
    obtain ⟨results, hresults, hall⟩ := ih hrest
    refine ⟨b :: results, ?_, .cons hb hall⟩
    rw [List.mapM_cons, hfirst, hresults]
    rfl

/-- Where all items have results, each result is that of its item. -/
theorem forall₂_of_mapM {f : α → Except ε β} {items : List α} {results : List β} (h : items.mapM f = .ok results) :
    List.Forall₂ (fun a b => f a = .ok b) items results := by
  induction items generalizing results with
  | nil =>
    cases h
    exact .nil
  | cons first rest ih =>
    rw [List.mapM_cons] at h
    obtain ⟨b, hfirst, h⟩ := bind_eq_ok.mp h
    obtain ⟨others, hrest, h⟩ := bind_eq_ok.mp h
    cases h
    exact .cons hfirst (ih hrest)

theorem mapM_eq_ok_iff {f : α → Except ε β} {items : List α} {results : List β} :
    items.mapM f = .ok results ↔ List.Forall₂ (fun a b => f a = .ok b) items results := by
  refine ⟨forall₂_of_mapM, fun h => ?_⟩
  induction h with
  | nil => rfl
  | cons hfirst _ ih =>
    rw [List.mapM_cons, hfirst, ih]
    rfl

/-- Where some item has no result, the first such item is to blame. -/
theorem mapM_eq_error {f : α → Except ε β} {items : List α} (h : ∃ a ∈ items, ∃ error, f a = .error error) :
    ∃ a ∈ items, ∃ error, f a = .error error ∧ items.mapM f = .error error := by
  induction items with
  | nil =>
    obtain ⟨_, hmem, _⟩ := h
    cases hmem
  | cons first rest ih =>
    cases hfirst : f first with
    | error error =>
      refine ⟨first, List.mem_cons_self, error, hfirst, ?_⟩
      rw [List.mapM_cons, hfirst]
      rfl
    | ok b =>
      obtain ⟨a, hmem, error, herror⟩ := h
      have hrest : a ∈ rest := by
        rcases List.mem_cons.mp hmem with rfl | hrest
        · rw [hfirst] at herror
          cases herror
        · exact hrest
      obtain ⟨blamed, hblamed, fault, hfault, hmapM⟩ := ih ⟨a, hrest, error, herror⟩
      refine ⟨blamed, List.mem_cons_of_mem _ hblamed, fault, hfault, ?_⟩
      rw [List.mapM_cons, hfirst, hmapM]
      rfl

/-- The second step goes on from the state in which the first one ends. -/
theorem stateful_bind_eq_ok {first : StateT σ (Except ε) α} {next : α → StateT σ (Except ε) β} {b : β}
    {before after : σ} :
    (first >>= next) before = .ok (b, after) ↔
      ∃ a between, first before = .ok (a, between) ∧ next a between = .ok (b, after) := by
  change (first before >>= fun (a, between) => next a between) = _ ↔ _
  rw [bind_eq_ok]
  exact ⟨fun ⟨⟨a, between⟩, hfirst, hnext⟩ => ⟨a, between, hfirst, hnext⟩,
    fun ⟨a, between, hfirst, hnext⟩ => ⟨(a, between), hfirst, hnext⟩⟩

theorem stateful_pure_eq_ok {a b : α} {before after : σ} :
    (pure a : StateT σ (Except ε) α) before = .ok (b, after) ↔ b = a ∧ after = before := by
  change Except.ok (a, before) = Except.ok (b, after) ↔ _
  rw [Except.ok.injEq, Prod.mk.injEq, eq_comm, @eq_comm _ before]

end Vtxo
