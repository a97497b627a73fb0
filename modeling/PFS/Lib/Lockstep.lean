import Mathlib.Logic.Relation

/-! # Programs in lockstep

Two programs that may fail to return, `Option.Rel` of each other's results: both
return, and what they return is related, or none of them does.
-/

namespace PFS.Lib

variable {α β γ δ : Type} {r : α → β → Prop} {q : γ → δ → Prop} {x : Option α} {y : Option β}

/-- One step after the other. -/
theorem rel_bind {f : α → Option γ} {g : β → Option δ} (first : Option.Rel r x y)
    (rest : ∀ a b, r a b → Option.Rel q (f a) (g b)) : Option.Rel q (x.bind f) (y.bind g) := by
  cases first with
  | some related => exact rest _ _ related
  | none => exact .none

theorem rel_map {f : α → γ} {g : β → δ} (first : Option.Rel r x y) (rest : ∀ a b, r a b → q (f a) (g b)) :
    Option.Rel q (x.map f) (y.map g) := by
  cases first with
  | some related => exact .some (rest _ _ related)
  | none => exact .none

theorem rel_map_left {p : γ → β → Prop} {f : α → γ} (first : Option.Rel r x y) (rest : ∀ a b, r a b → p (f a) b) :
    Option.Rel p (x.map f) y := by
  cases first with
  | some related => exact .some (rest _ _ related)
  | none => exact .none

theorem rel_map_right {p : α → δ → Prop} {g : β → δ} (first : Option.Rel r x y) (rest : ∀ a b, r a b → p a (g b)) :
    Option.Rel p x (y.map g) := by
  cases first with
  | some related => exact .some (rest _ _ related)
  | none => exact .none

theorem rel_self {p : α → α → Prop} {x : Option α} (h : ∀ a, x = some a → p a a) : Option.Rel p x x := by
  cases x with
  | some a => exact .some (h a rfl)
  | none => exact .none

/-- The second program returns when the first does. -/
theorem rel_returns {a : α} (h : Option.Rel r x y) (done : x = some a) : ∃ b, y = some b ∧ r a b := by
  cases h with
  | some related =>
      obtain rfl := Option.some.inj done
      exact ⟨_, rfl, related⟩
  | none => cases done

theorem rel_isSome (h : Option.Rel r x y) : x.isSome = y.isSome := by
  cases h <;> rfl

end PFS.Lib
