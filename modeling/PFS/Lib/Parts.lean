import PFS.Lib.UpToDate

/-! # Copies of several stores

The cells of several stores, told apart by a key.  What happens to the copies of one
store happens to the cells under its key, and the other stores are as before.
-/

namespace PFS.Lib

universe u v w

variable {κ : Type w} {α : Type u} {β : Type v}

/-- Some cells of one store. -/
def under (k : κ) (A : Set α) : Set (κ × α) := {a | a.1 = k ∧ a.2 ∈ A}

theorem mem_under {k : κ} {A : Set α} {a : α} : (k, a) ∈ under k A ↔ a ∈ A := and_iff_right rfl

theorem notMem_under {k other : κ} {A : Set α} {a : α} (different : other ≠ k) : (other, a) ∉ under k A :=
  fun inside => different inside.1

open Classical in
/-- A change of some cells of one store. -/
theorem eq_ite_under {γ : Type v} {f f' new : κ × α → γ} {k : κ} {A : Set α}
    (here : ∀ a, f' (k, a) = if a ∈ A then new (k, a) else f (k, a))
    (others : ∀ other a, other ≠ k → f' (other, a) = f (other, a)) :
    f' = fun a => if a ∈ under k A then new a else f a := by
  funext ⟨other, a⟩
  by_cases same : other = k
  · subst same
    exact (here a).trans (if_congr mem_under.symm rfl rfl)
  · exact (others other a same).trans (if_neg (notMem_under same)).symm

namespace Copies

/-- The copies of one store. -/
def part (m : Copies (κ × α) β) (k : κ) : Copies α β := fun a => m (k, a)

variable {m m' : Copies (κ × α) β} {k : κ} {A : Set α} {store store' : κ × α → β}

theorem eq_drop_under (here : m'.part k = (m.part k).drop A) (others : ∀ other, other ≠ k → m'.part other = m.part other) :
    m' = m.drop (under k A) :=
  eq_ite_under (congrFun here) fun other a different => congrFun (others other different) a

theorem eq_clean_under (here : m'.part k = (m.part k).clean A)
    (others : ∀ other, other ≠ k → m'.part other = m.part other) : m' = m.clean (under k A) :=
  eq_ite_under (congrFun here) fun other a different => congrFun (others other different) a

theorem eq_load_under (here : m'.part k = (m.part k).load A fun a => store (k, a))
    (others : ∀ other, other ≠ k → m'.part other = m.part other) : m' = m.load (under k A) store :=
  eq_ite_under (congrFun here) fun other a different => congrFun (others other different) a

open Classical in
theorem part_load (m : Copies (κ × α) β) (k : κ) (A : Set α) (store : κ × α → β) :
    (m.load (under k A) store).part k = (m.part k).load A fun a => store (k, a) :=
  funext fun _ => if_congr mem_under rfl rfl

theorem part_load_other (m : Copies (κ × α) β) (A : Set α) (store : κ × α → β) {other : κ} (different : other ≠ k) :
    (m.load (under k A) store).part other = m.part other := funext fun _ => if_neg (notMem_under different)

theorem eq_put_under (values : α → β) (here : m'.part k = (m.part k).put A values)
    (others : ∀ other, other ≠ k → m'.part other = m.part other) : m' = m.put (under k A) fun a => values a.2 :=
  eq_ite_under (congrFun here) fun other a different => congrFun (others other different) a

theorem eq_writeBack_under (here : (fun a => store' (k, a)) = (m.part k).writeBack A fun a => store (k, a))
    (others : ∀ other a, other ≠ k → store' (other, a) = store (other, a)) : store' = m.writeBack (under k A) store :=
  eq_ite_under (congrFun here) others

end Copies

namespace Replicas

universe x

variable {Peer : Type x}

/-- What the peers have of one store. -/
def part (s : Replicas Peer (κ × α) β) (k : κ) : Replicas Peer α β where
  cover p write a := s.cover p write (k, a)
  copies p := (s.copies p).part k
  store a := s.store (k, a)
  latest a := s.latest (k, a)

/-- Only tokens of one store move. -/
theorem Moves.of_part {s : Replicas Peer (κ × α) β} {cover : Peer → Bool → κ × α → Prop} {k : κ} (guarded : s.Guarded)
    (here : (s.part k).Moves fun p write a => cover p write (k, a))
    (others : ∀ p write other a, other ≠ k → (cover p write (other, a) ↔ s.cover p write (other, a))) : s.Moves cover where
  readable p a held := by
    obtain ⟨other, a⟩ := a
    by_cases same : other = k
    · subst same
      exact here.readable p a held
    · rw [others p _ other a same] at held ⊢
      exact guarded.readable p _ held
  exclusive p q a distinct held := by
    obtain ⟨other, a⟩ := a
    by_cases same : other = k
    · subst same
      exact here.exclusive p q a distinct held
    · rw [others _ _ other a same] at held ⊢
      exact guarded.exclusive p q _ distinct held
  guarded p a dirty held := by
    obtain ⟨other, a⟩ := a
    by_cases same : other = k
    · subst same
      exact here.guarded p a dirty held
    · rw [others p _ other a same]
      exact held

/-- Fewer cells count as written. -/
theorem UpToDate.forget {s : Replicas Peer α β} (h : s.UpToDate) {latest : α → Option β}
    (fewer : ∀ a x, latest a = some x → s.latest a = some x) : UpToDate { s with latest := latest } where
  toGuarded := h.toGuarded.forget latest
  current p a x c readable written copy := h.current p a x c readable (fewer a x written) copy
  stored a x written clean := h.stored a x (fewer a x written) clean

end Replicas

end PFS.Lib
