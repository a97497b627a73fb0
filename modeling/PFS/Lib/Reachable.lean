import Mathlib.Logic.Relation

/-! # Runs of a transition system

A run is a finite sequence of steps (`Relation.ReflTransGen`).  `Reachable`
fixes where runs start, and `Reachable.invariant` is the rule every safety
result of the development goes through: what holds initially and is kept by
each step holds in every reachable state.  A `Machine` is such a system given by
an executable step function over events.
-/

namespace PFS.Lib

universe u

variable {σ : Type u}

/-- Some run of `step` from an initial state ends in `s`. -/
def Reachable (initial : σ → Prop) (step : σ → σ → Prop) (s : σ) : Prop :=
  ∃ s₀, initial s₀ ∧ Relation.ReflTransGen step s₀ s

namespace Reachable

variable {initial : σ → Prop} {step : σ → σ → Prop}

theorem init {s : σ} (h : initial s) : Reachable initial step s := ⟨s, h, .refl⟩

theorem tail {s t : σ} (h : Reachable initial step s) (next : step s t) : Reachable initial step t := by
  obtain ⟨s₀, first, run⟩ := h
  exact ⟨s₀, first, run.tail next⟩

theorem invariant {s : σ} (h : Reachable initial step s) (inv : σ → Prop)
    (start : ∀ s, initial s → inv s) (keep : ∀ s t, inv s → step s t → inv t) : inv s := by
  obtain ⟨s₀, first, run⟩ := h
  induction run with
  | refl => exact start s₀ first
  | tail _ next ih => exact keep _ _ ih next

end Reachable

/-- A transition system driven by events: which events a state allows, and what
    an event does; `none` if it cannot happen. -/
structure Machine (σ ε : Type) where
  allowed : σ → ε → Prop
  exec : σ → ε → Option σ

namespace Machine

variable {σ ε : Type} (m : Machine σ ε)

def Step (s t : σ) : Prop := ∃ e, m.allowed s e ∧ m.exec s e = some t

/-- Let the events happen in turn. -/
def run [∀ s e, Decidable (m.allowed s e)] (s : σ) : List ε → Option σ
  | [] => some s
  | e :: rest => if m.allowed s e then (m.exec s e).bind (fun t => run t rest) else none

/-- The first event of a run. -/
theorem run_cons [∀ s e, Decidable (m.allowed s e)] {s u : σ} {e : ε} {rest : List ε} :
    m.run s (e :: rest) = some u ↔ m.allowed s e ∧ ∃ t, m.exec s e = some t ∧ m.run t rest = some u := by
  rw [run, Option.ite_none_right_eq_some, Option.bind_eq_some_iff]

theorem run_append [∀ s e, Decidable (m.allowed s e)] (s : σ) (xs ys : List ε) :
    m.run s (xs ++ ys) = (m.run s xs).bind (fun t => m.run t ys) := by
  induction xs generalizing s with
  | nil => rfl
  | cons e rest ih =>
      rw [List.cons_append, run, run]
      split
      · simp only [Option.bind_assoc, ih]
      · rfl

/-- The last event of a run. -/
theorem run_snoc [∀ s e, Decidable (m.allowed s e)] {s u : σ} {xs : List ε} {e : ε} :
    m.run s (xs ++ [e]) = some u ↔ ∃ t, m.run s xs = some t ∧ m.allowed t e ∧ m.exec t e = some u := by
  rw [run_append, Option.bind_eq_some_iff]
  refine exists_congr fun t => and_congr_right fun _ => ?_
  rw [run_cons]
  simp only [run, Option.some.injEq, exists_eq_right]

theorem run_reachable {initial : σ → Prop} [∀ s e, Decidable (m.allowed s e)] {s t : σ} {events : List ε}
    (reach : Reachable initial m.Step s) (ran : m.run s events = some t) : Reachable initial m.Step t := by
  induction events generalizing s with
  | nil =>
      obtain rfl := Option.some.inj ran
      exact reach
  | cons e rest ih =>
      obtain ⟨allowed, u, first, ran⟩ := m.run_cons.mp ran
      exact ih (reach.tail ⟨e, allowed, first⟩) ran

/-- No event of a run is of a kind. -/
def Never (kind : σ → ε → Prop) : σ → List ε → Prop
  | _, [] => True
  | s, e :: rest => ¬ kind s e ∧ ∀ t, m.exec s e = some t → Never kind t rest

/-- A property that some events bring about and some end holds after a run if it was brought
    about, or held at first, and has not been ended since. -/
theorem run_since [∀ s e, Decidable (m.allowed s e)] {inv : σ → Prop} (holds : σ → Prop) (brings ends : σ → ε → Prop)
    (keep : ∀ s t, inv s → m.Step s t → inv t)
    (step : ∀ s e t, inv s → m.exec s e = some t → (holds t ↔ brings s e ∨ holds s ∧ ¬ ends s e))
    {s u : σ} {events : List ε} (start : inv s) (ran : m.run s events = some u) :
    holds u ↔ (holds s ∧ m.Never ends s events) ∨ ∃ before e after t t', events = before ++ e :: after ∧
      m.run s before = some t ∧ m.exec t e = some t' ∧ brings t e ∧ m.Never ends t' after := by
  induction events generalizing s with
  | nil =>
      obtain rfl := Option.some.inj ran
      constructor
      · intro here
        exact .inl ⟨here, trivial⟩
      · rintro (⟨here, -⟩ | ⟨before, e, after, t, t', cut, -⟩)
        · exact here
        · cases before with
          | nil => cases cut
          | cons _ _ => cases cut
  | cons e rest ih =>
      obtain ⟨allowed, t, first, ran⟩ := m.run_cons.mp ran
      have later := ih (keep s t start ⟨e, allowed, first⟩) ran
      constructor
      · intro here
        rcases later.mp here with ⟨held, never⟩ | ⟨before, e', after, v, v', rfl, ran', happens, brought, never⟩
        · rcases (step s e t start first).mp held with brought | ⟨held, spared⟩
          · exact .inr ⟨[], e, rest, s, t, rfl, rfl, first, brought, never⟩
          · refine .inl ⟨held, spared, fun t' first' => ?_⟩
            obtain rfl := Option.some.inj (first.symm.trans first')
            exact never
        · exact .inr ⟨e :: before, e', after, v, v', rfl, m.run_cons.mpr ⟨allowed, t, first, ran'⟩, happens, brought, never⟩
      · intro since
        refine later.mpr ?_
        rcases since with ⟨held, spared, never⟩ | ⟨before, e', after, v, v', cut, ran', happens, brought, never⟩
        · exact .inl ⟨(step s e t start first).mpr (.inr ⟨held, spared⟩), never t first⟩
        · cases before with
          | nil =>
              obtain ⟨rfl, rfl⟩ := List.cons.inj cut
              obtain rfl := Option.some.inj ran'
              obtain rfl := Option.some.inj (first.symm.trans happens)
              exact .inl ⟨(step s e t start first).mpr (.inl brought), never⟩
          | cons e₁ before =>
              obtain ⟨rfl, rfl⟩ := List.cons.inj cut
              obtain ⟨-, t₁, first₁, ran'⟩ := m.run_cons.mp ran'
              obtain rfl := Option.some.inj (first.symm.trans first₁)
              exact .inr ⟨before, e', after, v, v', rfl, ran', happens, brought, never⟩

end Machine

end PFS.Lib
