import GameServer.Base.Transition

set_option autoImplicit false

/- Handlers that run one at a time. A handler is a list of calls, made one after the
other on the shared state; between two handlers the loop waits for the next event. -/
namespace Base

structure EventLoop (σ ε κ : Type) where
  enabled : σ → ε → Prop
  /-- The state the handler of an event finds. -/
  taken : σ → ε → σ
  handler : σ → ε → List κ
  exec : σ → κ → σ

namespace EventLoop

variable {σ ε κ : Type} (loop : EventLoop σ ε κ)

/-- The handler of an event, from its first call to its last. -/
def next (state : σ) (event : ε) : σ := (loop.handler state event).foldl loop.exec (loop.taken state event)

def system : System σ ε := ⟨loop.enabled, loop.next⟩

/-- The states in front of the calls and behind the last one. -/
def stages : σ → List κ → List σ
  | state, [] => [state]
  | state, call :: calls => state :: stages (loop.exec state call) calls

/-- The states a run goes through, between its handlers and inside them. -/
def visited : σ → List ε → List σ
  | state, [] => [state]
  | state, event :: events =>
      state :: (loop.stages (loop.taken state event) (loop.handler state event) ++ visited (loop.next state event) events)

/-- `inv` relates a state to the calls that are still to be made: none between handlers. -/
structure Keeps (inv : σ → List κ → Prop) : Prop where
  enter : ∀ state event, inv state [] → loop.enabled state event →
    inv (loop.taken state event) (loop.handler state event)
  call : ∀ state call calls, inv state (call :: calls) → inv (loop.exec state call) calls

section Rules

variable {loop} {inv : σ → List κ → Prop} (keeps : loop.Keeps inv)
include keeps

theorem Keeps.foldl {state : σ} {calls : List κ} (holds : inv state calls) :
    inv (calls.foldl loop.exec state) [] := by
  induction calls generalizing state with
  | nil => exact holds
  | cons call calls ih => exact ih (keeps.call state call calls holds)

theorem Keeps.next {state : σ} {event : ε} (holds : inv state []) (may : loop.enabled state event) :
    inv (loop.next state event) [] :=
  keeps.foldl (keeps.enter state event holds may)

theorem Keeps.run {state : σ} {events : List ε} (start : inv state []) (valid : loop.system.Valid state events) :
    inv (loop.system.run state events) [] :=
  loop.system.invariant (fun _ _ holds may => keeps.next holds may) start valid

theorem Keeps.stages {state : σ} {calls : List κ} (holds : inv state calls) {stage : σ}
    (member : stage ∈ loop.stages state calls) : ∃ rest, inv stage rest := by
  induction calls generalizing state with
  | nil =>
      rw [EventLoop.stages, List.mem_singleton] at member
      rw [member]
      exact ⟨[], holds⟩
  | cons call calls ih =>
      rw [EventLoop.stages, List.mem_cons] at member
      rcases member with first | later
      · rw [first]
        exact ⟨call :: calls, holds⟩
      · exact ih (keeps.call state call calls holds) later

/-- Every state a run goes through satisfies the invariant with the calls left there. -/
theorem Keeps.visited {state : σ} {events : List ε} (start : inv state [])
    (valid : loop.system.Valid state events) {stage : σ} (member : stage ∈ loop.visited state events) :
    ∃ rest, inv stage rest := by
  induction events generalizing state with
  | nil =>
      rw [EventLoop.visited, List.mem_singleton] at member
      rw [member]
      exact ⟨[], start⟩
  | cons event events ih =>
      rw [EventLoop.visited, List.mem_cons, List.mem_append] at member
      rcases member with first | inside | later
      · rw [first]
        exact ⟨[], start⟩
      · exact keeps.stages (keeps.enter state event start valid.1) inside
      · exact ih (keeps.next start valid.1) valid.2 later

end Rules

end EventLoop

end Base
