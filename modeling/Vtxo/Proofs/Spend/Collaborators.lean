import Vtxo.Proofs.Spend.Runs

/-!
# Conversations carried out

Collaborators answer each call as they like, after the calls that were made before it. A cancellation happens while one
of the calls is under way, because a conversation does nothing in between; a look at the cancellation is not a call. So
collaborators and the number of a call determine all that a conversation asks, and what it comes to.

  1. `carryOut_of_run`, `exists_run`: what a conversation comes to is the result of its run under these answers.
  2. `take_carryOut`: until a cancellation happens, it makes no difference.
  3. `exists_answered`: every run that noticed no cancellation is one with some collaborators.
-/

set_option autoImplicit false

namespace Vtxo.Spend

deriving instance DecidableEq for Request

/-! ## Calls -/

/-- Whether a question goes to a collaborator. -/
def Request.isCall : Request → Bool
  | .cancelled => false
  | _ => true

/-- The calls among some exchanges. -/
def callsOf (exchanges : List Exchange) : List Exchange :=
  exchanges.filter fun exchange => exchange.1.isCall

theorem callsOf_append (first rest : List Exchange) : callsOf (first ++ rest) = callsOf first ++ callsOf rest :=
  List.filter_append ..

theorem callsOf_cons (exchange : Exchange) (rest : List Exchange) :
    callsOf (exchange :: rest) = callsOf [exchange] ++ callsOf rest :=
  callsOf_append [exchange] rest

/-- Whether the exchange is a look that noticed a cancellation. -/
def noticesCancellation : Exchange → Bool
  | ⟨.cancelled, answer⟩ => answer
  | _ => false

/-! ## Answers -/

/-- How others answer a question, after the calls that were made before. -/
abbrev Collaborators := (before : List Exchange) → (request : Request) → Reply request

namespace Collaborators

variable {α : Type} (collaborators : Collaborators)

/-- The answer to a question after some calls. A cancellation happens during the call with the number `point`, from the
start if that is zero, or never. -/
def answer (point : Option Nat) (before : List Exchange) : (request : Request) → Reply request
  | .cancelled => point.any fun number => number ≤ before.length
  | request => collaborators before request

/-- Answer a question, and take down the calls. -/
def respond (point : Option Nat) (request : Request) : StateM (List Exchange) (Reply request) := do
  let before ← get
  let reply := collaborators.answer point before request
  set (before ++ callsOf [⟨request, reply⟩])
  return reply

/-- What a conversation comes to, and all calls that were made in the end. -/
def carryOut (point : Option Nat) (conversation : Conversation α) (before : List Exchange) : α × List Exchange :=
  (conversation.answeredBy (collaborators.respond point)).run before

theorem carryOut_ask (point : Option Nat) (request : Request) (next : Reply request → Conversation α)
    (before : List Exchange) :
    collaborators.carryOut point (.ask request next) before =
      let reply := collaborators.answer point before request
      collaborators.carryOut point (next reply) (before ++ callsOf [⟨request, reply⟩]) :=
  rfl

/-! ## Runs -/

/-- After some calls, the exchanges are answered by these collaborators. -/
def Answered (point : Option Nat) : List Exchange → List Exchange → Prop
  | _, [] => True
  | before, exchange :: rest =>
    exchange.2 = collaborators.answer point before exchange.1 ∧ Answered point (before ++ callsOf [exchange]) rest

variable {collaborators} {point : Option Nat} {before : List Exchange}

theorem answered_append {first rest : List Exchange} :
    collaborators.Answered point before (first ++ rest) ↔
      collaborators.Answered point before first ∧ collaborators.Answered point (before ++ callsOf first) rest := by
  induction first generalizing before with
  | nil => simp [Answered, callsOf]
  | cons exchange others ih =>
    rw [List.cons_append, Answered, Answered, ih, and_assoc, callsOf_cons exchange others, List.append_assoc]

theorem carryOut_of_run {conversation : Conversation α} {exchanges : List Exchange} {result : α}
    (h : Dialogue.Run conversation exchanges result) (hanswered : collaborators.Answered point before exchanges) :
    collaborators.carryOut point conversation before = (result, before ++ callsOf exchanges) := by
  induction h generalizing before with
  | done result => exact congrArg (Prod.mk result) (List.append_nil before).symm
  | ask request next reply _ ih =>
    obtain ⟨hreply, hrest⟩ := hanswered
    have hreply : reply = collaborators.answer point before request := hreply
    subst hreply
    rw [carryOut_ask, callsOf_cons, ← List.append_assoc]
    exact ih hrest

theorem exists_run (collaborators : Collaborators) (point : Option Nat) (conversation : Conversation α)
    (before : List Exchange) :
    ∃ exchanges, Dialogue.Run conversation exchanges (collaborators.carryOut point conversation before).1 ∧
      collaborators.Answered point before exchanges ∧
      (collaborators.carryOut point conversation before).2 = before ++ callsOf exchanges := by
  induction conversation generalizing before with
  | done result => exact ⟨[], .done result, trivial, (List.append_nil before).symm⟩
  | ask request next ih =>
    let reply := collaborators.answer point before request
    obtain ⟨exchanges, hrun, hanswered, hcalls⟩ := ih reply (before ++ callsOf [⟨request, reply⟩])
    refine ⟨⟨request, reply⟩ :: exchanges, .ask request next reply hrun, ⟨rfl, hanswered⟩, ?_⟩
    rw [callsOf_cons, ← List.append_assoc]
    exact hcalls

/-- Where no look notices a cancellation, there might as well have been none. -/
theorem Answered.without_cancellation {exchanges : List Exchange}
    (h : collaborators.Answered point before exchanges)
    (hnone : ∀ exchange ∈ exchanges, noticesCancellation exchange = false) :
    collaborators.Answered none before exchanges := by
  induction exchanges generalizing before with
  | nil => trivial
  | cons exchange rest ih =>
    obtain ⟨hfirst, hrest⟩ := List.forall_mem_cons.mp hnone
    refine ⟨?_, ih h.2 hrest⟩
    obtain ⟨request, reply⟩ := exchange
    cases request with
    | cancelled => exact hfirst
    | _ => exact h.1

/-- A look that does not notice the cancellation comes before it. -/
theorem lt_of_unnoticed {number : Nat}
    (h : false = collaborators.answer (some number) before .cancelled) : before.length < number :=
  Nat.lt_of_not_le (of_decide_eq_false h.symm)

/-- Until a cancellation happens, the calls are the same as without it. -/
theorem take_carryOut (collaborators : Collaborators) (number : Nat) (conversation : Conversation α)
    (before : List Exchange) :
    (collaborators.carryOut (some number) conversation before).2.take number =
      (collaborators.carryOut none conversation before).2.take number := by
  induction conversation generalizing before with
  | done => rfl
  | ask request next ih =>
    by_cases hnumber : number ≤ before.length
    · -- The calls up to the cancellation were all made before.
      obtain ⟨_, _, _, hcalls⟩ := exists_run collaborators (some number) (.ask request next) before
      obtain ⟨_, _, _, hothers⟩ := exists_run collaborators none (.ask request next) before
      rw [hcalls, hothers, List.take_append_of_le_length hnumber, List.take_append_of_le_length hnumber]
    · have hsame : collaborators.answer (some number) before request = collaborators.answer none before request := by
        cases request with
        | cancelled => exact decide_eq_false hnumber
        | _ => rfl
      rw [carryOut_ask, carryOut_ask, hsame]
      exact ih _ _

/-! ## Collaborators of a run -/

/-- The answer of a collaborator that does nothing. -/
def refusal : (request : Request) → Reply request
  | .operatorInfo | .chainTime | .lock _ _ | .sign _ _ | .submit _ _ | .finalize _ _ | .cancelIntents _ =>
    .error .cancelled
  | .release _ => ()
  | .cancelled => false

/-- The collaborators that repeat the answers to some calls. -/
def replay (calls : List Exchange) : Collaborators := fun before request =>
  match calls[before.length]? with
  | some ⟨asked, reply⟩ => if h : asked = request then h ▸ reply else refusal request
  | none => refusal request

theorem replay_eq {calls before after : List Exchange} {request : Request} {reply : Reply request}
    (h : calls = before ++ ⟨request, reply⟩ :: after) : replay calls before request = reply := by
  have hcall : calls[before.length]? = some ⟨request, reply⟩ := by simp [h]
  rw [replay, hcall]
  exact dif_pos rfl

theorem answered_replay {first rest : List Exchange}
    (hnone : ∀ exchange ∈ rest, noticesCancellation exchange = false) :
    (replay (callsOf (first ++ rest))).Answered none (callsOf first) rest := by
  induction rest generalizing first with
  | nil => trivial
  | cons exchange rest ih =>
    obtain ⟨hfirst, hrest⟩ := List.forall_mem_cons.mp hnone
    have hrest : (replay (callsOf (first ++ [exchange] ++ rest))).Answered none (callsOf (first ++ [exchange])) rest :=
      ih hrest
    rw [List.append_assoc, List.singleton_append, callsOf_append first [exchange]] at hrest
    refine ⟨?_, hrest⟩
    obtain ⟨request, reply⟩ := exchange
    cases request with
    | cancelled => exact hfirst
    | _ => exact (replay_eq (callsOf_append first _)).symm

/-- A run that noticed no cancellation is one with some collaborators. -/
theorem exists_answered {exchanges : List Exchange}
    (h : ∀ exchange ∈ exchanges, noticesCancellation exchange = false) :
    ∃ collaborators : Collaborators, collaborators.Answered none [] exchanges :=
  ⟨replay (callsOf ([] ++ exchanges)), answered_replay h⟩

end Collaborators

end Vtxo.Spend
