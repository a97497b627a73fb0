import Mathlib.Data.List.Basic

/-! # Interleaved operations

Several threads share a state, and each has a list of operations it makes on it in
order.  A schedule names the thread that makes its next operation.  Whatever the
schedule, all the operations have been made when every thread is done; where they
commute, the state at the end is that of any sequential order.
-/

namespace PFS.Lib

universe u v

/-- The shared state, and the operations each thread has still to make. -/
structure Threads (σ : Type u) (ω : Type v) where
  state : σ
  todo : List (List ω)

namespace Threads

variable {σ : Type u} {ω : Type v} (act : σ → ω → σ)

/-- Thread `k` makes its next operation. -/
def step (s : Threads σ ω) (k : Nat) : Option (Threads σ ω) :=
  match s.todo[k]? with
  | some (op :: rest) => some ⟨act s.state op, s.todo.set k rest⟩
  | _ => none

def run (s : Threads σ ω) : List Nat → Option (Threads σ ω)
  | [] => some s
  | k :: rest => (s.step act k).bind fun t => t.run rest

/-- Taking an operation from a thread takes it from all the operations. -/
theorem flatten_set {todo : List (List ω)} {k : Nat} {op : ω} {rest : List ω} (here : todo[k]? = some (op :: rest)) :
    (op :: (todo.set k rest).flatten).Perm todo.flatten := by
  induction todo generalizing k with
  | nil => cases here
  | cons first others ih =>
      cases k with
      | zero =>
          obtain rfl := Option.some.inj here
          rw [List.set_cons_zero, List.flatten_cons, List.flatten_cons, List.cons_append]
      | succ k =>
          rw [List.set_cons_succ, List.flatten_cons, List.flatten_cons]
          exact List.perm_middle.symm.trans ((ih here).append_left first)

variable {act}

/-- Each step takes one operation off the lists. -/
theorem todo_length {s t : Threads σ ω} {k : Nat} (stepped : s.step act k = some t) :
    t.todo.flatten.length + 1 = s.todo.flatten.length := by
  unfold step at stepped
  split at stepped
  · next op later here =>
      obtain rfl := Option.some.inj stepped
      exact (flatten_set here).length_eq
  · cases stepped

/-- The operations made so far and those still to come are all the operations. -/
theorem run_perm {s t : Threads σ ω} {schedule : List Nat} (ran : s.run act schedule = some t) :
    ∃ made, t.state = made.foldl act s.state ∧ (made ++ t.todo.flatten).Perm s.todo.flatten := by
  induction schedule generalizing s with
  | nil =>
      obtain rfl := Option.some.inj ran
      exact ⟨[], rfl, .refl _⟩
  | cons k rest ih =>
      obtain ⟨s₁, first, ran⟩ := Option.bind_eq_some_iff.mp ran
      unfold step at first
      split at first
      · next op later here =>
          obtain rfl := Option.some.inj first
          obtain ⟨made, state, perm⟩ := ih ran
          exact ⟨op :: made, state, (perm.cons op).trans (flatten_set here)⟩
      · cases first

/-- When every thread is done, the state is that of any order of the operations. -/
theorem run_finished {s t : Threads σ ω} {schedule : List Nat} (ran : s.run act schedule = some t)
    (finished : ∀ ops ∈ t.todo, ops = [])
    (commute : ∀ a ∈ s.todo.flatten, ∀ b ∈ s.todo.flatten, ∀ x, act (act x a) b = act (act x b) a)
    {order : List ω} (perm : order.Perm s.todo.flatten) : t.state = order.foldl act s.state := by
  obtain ⟨made, state, all⟩ := run_perm ran
  have none : t.todo.flatten = [] := List.flatten_eq_nil_iff.mpr finished
  rw [none, List.append_nil] at all
  rw [state]
  refine (all.trans perm.symm).foldl_eq' ?_ s.state
  intro a left b right x
  exact commute a (all.subset left) b (all.subset right) x

end Threads

end PFS.Lib
