import Mathlib.Data.Set.Basic
import Mathlib.Logic.Function.Basic

/-! # Copies of a store under tokens

Peers keep copies of the cells of a store; a dirty copy is one the store does
not have yet.  Tokens say which peer may read or write which cell.  `Guarded`
says that dirty copies are covered by write tokens and that write tokens are
exclusive; `Coherent` adds that the copies a peer may read have the value of the
latest write, and so has the store where no copy is dirty.

Each lemma is about one thing that can happen: copies are written back, loaded
or written, or tokens move.
-/

namespace PFS.Lib

universe u v w

/-- What a peer has of each cell: a value, and whether it is dirty. -/
abbrev Copies (α : Type u) (β : Type v) := α → Option (β × Bool)

namespace Copies

variable {α : Type u} {β : Type v}

def Dirty (m : Copies α β) (a : α) : Prop := ∃ x, m a = some (x, true)

section Operations

open Classical

noncomputable section

def drop (m : Copies α β) (A : Set α) : Copies α β := fun a => if a ∈ A then none else m a

def clean (m : Copies α β) (A : Set α) : Copies α β := fun a => if a ∈ A then (m a).map fun c => (c.1, false) else m a

/-- Cells without a copy get that of the store. -/
def load (m : Copies α β) (A : Set α) (store : α → β) : Copies α β := fun a =>
  if a ∈ A then some ((m a).getD (store a, false)) else m a

def put (m : Copies α β) (A : Set α) (values : α → β) : Copies α β := fun a =>
  if a ∈ A then some (values a, true) else m a

/-- The store after the dirty copies in `A` have been written back. -/
def writeBack (m : Copies α β) (A : Set α) (store : α → β) : α → β := fun a =>
  if a ∈ A then
    match m a with
    | some (x, true) => x
    | _ => store a
  else store a

end

end Operations

variable {m : Copies α β} {A : Set α} {store : α → β} {a : α}

theorem writeBack_dirty {x : β} (inside : a ∈ A) (copy : m a = some (x, true)) : m.writeBack A store a = x := by
  simp only [writeBack, if_pos inside, copy]

theorem writeBack_other (clean : ¬ (a ∈ A ∧ m.Dirty a)) : m.writeBack A store a = store a := by
  unfold writeBack
  split
  · next inside =>
      split
      · next x copy => exact (clean ⟨inside, x, copy⟩).elim
      · rfl
  · rfl

theorem drop_eq_some {c : β × Bool} : m.drop A a = some c ↔ a ∉ A ∧ m a = some c := by
  unfold drop
  split
  · next inside => simp [inside]
  · next outside => simp [outside]

theorem clean_eq_some {x : β} {d : Bool} :
    m.clean A a = some (x, d) ↔ (a ∈ A ∧ d = false ∧ ∃ d', m a = some (x, d')) ∨ (a ∉ A ∧ m a = some (x, d)) := by
  unfold clean
  split
  · next inside =>
      simp only [inside, Option.map_eq_some_iff, Prod.mk.injEq, Prod.exists, true_and, not_true, false_and,
        or_false]
      grind
  · next outside => simp [outside]

theorem put_eq_some {values : α → β} {c : β × Bool} :
    m.put A values a = some c ↔ (a ∈ A ∧ c = (values a, true)) ∨ (a ∉ A ∧ m a = some c) := by
  unfold put
  split
  · next inside => simp [inside, eq_comm]
  · next outside => simp [outside]

theorem load_eq_some {c : β × Bool} :
    m.load A store a = some c ↔ m a = some c ∨ (m a = none ∧ a ∈ A ∧ c = (store a, false)) := by
  simp only [load]
  cases copy : m a with
  | none =>
      split
      · next inside => simp [inside, eq_comm]
      · next outside => simp [outside]
  | some c' => simp

/-! ## One operation after the other -/

theorem drop_drop (m : Copies α β) (A B : Set α) : (m.drop A).drop B = m.drop (A ∪ B) := by
  funext a
  simp only [drop, Set.mem_union]
  grind

theorem writeBack_drop (m : Copies α β) (A B : Set α) (store : α → β) :
    (m.drop A).writeBack B (m.writeBack A store) = m.writeBack (A ∪ B) store := by
  funext a
  simp only [drop, writeBack, Set.mem_union]
  grind

theorem load_load (m : Copies α β) (A B : Set α) (store : α → β) :
    (m.load A store).load B store = m.load (A ∪ B) store := by
  funext a
  simp only [load, Set.mem_union]
  grind

theorem load_of_copies (present : ∀ a ∈ A, (m a).isSome) (store : α → β) : m.load A store = m := by
  funext a
  unfold load
  split
  · next inside =>
      obtain ⟨c, copy⟩ := Option.isSome_iff_exists.mp (present a inside)
      simp [copy]
  · rfl

/-- Loading and writing commute: what is written has a copy. -/
theorem load_put (m : Copies α β) (A B : Set α) (store values : α → β) :
    (m.put A values).load B store = (m.load B store).put A values := by
  funext a
  simp only [load, put]
  grind

theorem put_put (m : Copies α β) (A B : Set α) (values : α → β) :
    (m.put A values).put B values = m.put (A ∪ B) values := by
  funext a
  simp only [put, Set.mem_union]
  grind

theorem drop_empty (m : Copies α β) : m.drop ∅ = m := by
  funext a
  simp only [drop, Set.mem_empty_iff_false, if_false]

theorem writeBack_of_clean (clean : ∀ a ∈ A, ¬ m.Dirty a) : m.writeBack A store = store := by
  funext a
  exact writeBack_other (fun both => clean a both.1 both.2)

/-- Copies that are about to be written need not be there. -/
theorem put_load_drop {B : Set α} (sub : A ⊆ B) (m : Copies α β) (C : Set α) (store values : α → β) :
    ((m.drop A).load C store).put B values = (m.load C store).put B values := by
  funext a
  simp only [put, load, drop]
  split
  · rfl
  · next outside => rw [if_neg (fun inside => outside (sub inside))]

/-! ## What one peer sees -/

/-- The copy, or else the store's value. -/
def view (m : Copies α β) (store : α → β) : α → β := fun a =>
  match m a with
  | some c => c.1
  | none => store a

/-- Copies that are not dirty are the store's. -/
def Settled (m : Copies α β) (store : α → β) : Prop := ∀ a x, m a = some (x, false) → x = store a

theorem Settled.drop (h : m.Settled store) (A : Set α) : (m.drop A).Settled (m.writeBack A store) := by
  intro a x copy
  obtain ⟨outside, copy⟩ := drop_eq_some.mp copy
  rw [writeBack_other (fun both => outside both.1)]
  exact h a x copy

theorem Settled.view_drop (h : m.Settled store) (A : Set α) : (m.drop A).view (m.writeBack A store) = m.view store := by
  funext a
  by_cases inside : a ∈ A
  · simp only [view, Copies.drop, writeBack, if_pos inside]
    cases copy : m a with
    | none => rfl
    | some c =>
        obtain ⟨x, d⟩ := c
        cases d with
        | true => rfl
        | false => exact (h a x copy).symm
  · simp only [view, Copies.drop, writeBack, if_neg inside]

theorem Settled.clean (h : m.Settled store) (A : Set α) : (m.clean A).Settled (m.writeBack A store) := by
  intro a x copy
  rcases clean_eq_some.mp copy with ⟨inside, -, d, before⟩ | ⟨outside, before⟩
  · cases d with
    | true => exact (writeBack_dirty inside before).symm
    | false =>
        rw [writeBack_other]
        · exact h a x before
        · rintro ⟨-, y, dirty⟩
          rw [before] at dirty
          cases dirty
  · rw [writeBack_other (fun both => outside both.1)]
    exact h a x before

theorem view_clean (m : Copies α β) (A : Set α) (store : α → β) : (m.clean A).view (m.writeBack A store) = m.view store := by
  funext a
  by_cases inside : a ∈ A
  · simp only [view, Copies.clean, writeBack, if_pos inside]
    cases m a with
    | none => rfl
    | some c => rfl
  · simp only [view, Copies.clean, writeBack, if_neg inside]

theorem Settled.load (h : m.Settled store) (A : Set α) : (m.load A store).Settled store := by
  intro a x copy
  rcases load_eq_some.mp copy with copy | ⟨-, -, loaded⟩
  · exact h a x copy
  · exact (Prod.mk.inj loaded).1

theorem view_load (m : Copies α β) (A : Set α) (store : α → β) : (m.load A store).view store = m.view store := by
  funext a
  by_cases inside : a ∈ A
  · simp only [view, Copies.load, if_pos inside]
    cases m a with
    | none => rfl
    | some c => rfl
  · simp only [view, Copies.load, if_neg inside]

theorem Settled.put (h : m.Settled store) (A : Set α) (values : α → β) : (m.put A values).Settled store := by
  intro a x copy
  rcases put_eq_some.mp copy with ⟨-, written⟩ | ⟨-, copy⟩
  · cases written
  · exact h a x copy

theorem view_put_of_mem {values : α → β} (inside : a ∈ A) : (m.put A values).view store a = values a := by
  simp only [view, Copies.put, if_pos inside]

theorem view_put_of_notMem {values : α → β} (outside : a ∉ A) : (m.put A values).view store a = m.view store a := by
  simp only [view, Copies.put, if_neg outside]

end Copies

/-- A store, the copies the peers have of it and the tokens they hold: `cover p
    true a` allows `p` to write cell `a`, `cover p false a` to read it.  `latest`
    is the value of the latest write. -/
structure Replicas (Peer : Type w) (α : Type u) (β : Type v) where
  cover : Peer → Bool → α → Prop
  copies : Peer → Copies α β
  store : α → β
  latest : α → Option β

namespace Replicas

variable {Peer : Type w} {α : Type u} {β : Type v}

/-- Nothing is dirty without a write token, and write tokens are exclusive. -/
structure Guarded (s : Replicas Peer α β) : Prop where
  readable : ∀ p a, s.cover p true a → s.cover p false a
  exclusive : ∀ p q a, p ≠ q → s.cover p true a → ¬ s.cover q false a
  guarded : ∀ p a, (s.copies p).Dirty a → s.cover p true a

/-- Who may read a cell and has a copy of it has the latest value. -/
structure Coherent (s : Replicas Peer α β) : Prop extends Guarded s where
  current : ∀ p a x c, s.cover p false a → s.latest a = some x → s.copies p a = some c → c.1 = x
  stored : ∀ a x, s.latest a = some x → (∀ p, ¬ (s.copies p).Dirty a) → s.store a = x
  owned : ∀ a x, s.latest a = some x → ∃ p, s.cover p false a

/-- Tokens move.  A peer keeps the write tokens of its dirty copies. -/
structure Moves (s : Replicas Peer α β) (cover : Peer → Bool → α → Prop) : Prop where
  readable : ∀ p a, cover p true a → cover p false a
  exclusive : ∀ p q a, p ≠ q → cover p true a → ¬ cover q false a
  guarded : ∀ p a, (s.copies p).Dirty a → s.cover p true a → cover p true a

/-- Tokens move and no stale copy becomes readable. -/
structure MovesFresh (s : Replicas Peer α β) (cover : Peer → Bool → α → Prop) : Prop extends Moves s cover where
  fresh : ∀ p a x c, cover p false a → s.latest a = some x → s.copies p a = some c → s.cover p false a ∨ c.1 = x
  owned : ∀ a x p, s.latest a = some x → s.cover p false a → ∃ q, cover q false a

variable [DecidableEq Peer] {s : Replicas Peer α β} {p : Peer} {A : Set α}

section Operations

noncomputable section

def evict (s : Replicas Peer α β) (p : Peer) (A : Set α) : Replicas Peer α β :=
  { s with copies := Function.update s.copies p ((s.copies p).drop A), store := (s.copies p).writeBack A s.store }

def clean (s : Replicas Peer α β) (p : Peer) (A : Set α) : Replicas Peer α β :=
  { s with copies := Function.update s.copies p ((s.copies p).clean A), store := (s.copies p).writeBack A s.store }

def load (s : Replicas Peer α β) (p : Peer) (A : Set α) : Replicas Peer α β :=
  { s with copies := Function.update s.copies p ((s.copies p).load A s.store) }

open Classical in
def put (s : Replicas Peer α β) (p : Peer) (A : Set α) (values : α → β) : Replicas Peer α β :=
  { s with
    copies := Function.update s.copies p ((s.copies p).put A values)
    latest := fun a => if a ∈ A then some (values a) else s.latest a }

def move (s : Replicas Peer α β) (cover : Peer → Bool → α → Prop) : Replicas Peer α β := { s with cover := cover }

end

end Operations

theorem evict_empty (s : Replicas Peer α β) (p : Peer) : s.evict p ∅ = s := by
  have nothing : (s.copies p).writeBack ∅ s.store = s.store :=
    Copies.writeBack_of_clean (fun a inside => (Set.notMem_empty a inside).elim)
  simp only [evict, Copies.drop_empty, Function.update_eq_self, nothing]

/-- Clean copies that are about to be written need not be there. -/
theorem evict_load_put {B T : Set α} (sub : T ⊆ B) (clean : ∀ a ∈ T, ¬ (s.copies p).Dirty a) (values : α → β) :
    ((s.evict p T).load p A).put p B values = (s.load p A).put p B values := by
  simp only [evict, load, put, Function.update_self, Function.update_idem, Copies.writeBack_of_clean clean,
    Copies.put_load_drop sub]

/-- The copies of one peer change; what is dirty then is covered. -/
theorem Guarded.change (h : s.Guarded) {m : Copies α β} {store : α → β} {latest : α → Option β}
    (covered : ∀ a, m.Dirty a → (s.copies p).Dirty a ∨ s.cover p true a) :
    Guarded ⟨s.cover, Function.update s.copies p m, store, latest⟩ where
  readable := h.readable
  exclusive := h.exclusive
  guarded q a dirty := by
    by_cases same : q = p
    · subst same
      simp only [Function.update_self] at dirty
      exact (covered a dirty).elim (h.guarded q a) id
    · simp only [Function.update_of_ne same] at dirty
      exact h.guarded q a dirty

omit [DecidableEq Peer] in
/-- Being guarded is not about the latest values. -/
theorem Guarded.forget (h : s.Guarded) (latest : α → Option β) : Guarded { s with latest := latest } :=
  ⟨h.readable, h.exclusive, h.guarded⟩

theorem Guarded.evict (h : s.Guarded) (p : Peer) (A : Set α) : (s.evict p A).Guarded := by
  apply h.change
  rintro a ⟨x, copy⟩
  exact .inl ⟨x, (Copies.drop_eq_some.mp copy).2⟩

theorem Guarded.clean (h : s.Guarded) (p : Peer) (A : Set α) : (s.clean p A).Guarded := by
  apply h.change
  rintro a ⟨x, copy⟩
  rcases Copies.clean_eq_some.mp copy with ⟨-, clean, -⟩ | ⟨-, copy⟩
  · cases clean
  · exact .inl ⟨x, copy⟩

theorem Guarded.load (h : s.Guarded) (p : Peer) (A : Set α) : (s.load p A).Guarded := by
  apply h.change
  rintro a ⟨x, copy⟩
  rcases Copies.load_eq_some.mp copy with copy | ⟨-, -, loaded⟩
  · exact .inl ⟨x, copy⟩
  · cases loaded

theorem Guarded.put (h : s.Guarded) (values : α → β) (covered : ∀ a ∈ A, s.cover p true a) :
    (s.put p A values).Guarded := by
  apply h.change
  rintro a ⟨x, copy⟩
  rcases Copies.put_eq_some.mp copy with ⟨inside, -⟩ | ⟨-, copy⟩
  · exact .inr (covered a inside)
  · exact .inl ⟨x, copy⟩

omit [DecidableEq Peer] in
theorem Guarded.move (h : s.Guarded) {cover : Peer → Bool → α → Prop} (moves : Moves s cover) :
    (s.move cover).Guarded where
  readable := moves.readable
  exclusive := moves.exclusive
  guarded p a dirty := moves.guarded p a dirty (h.guarded p a dirty)

/-- The dirty copies in `A` are written back; what stays are copies with the same
    values, dirty only outside `A`. -/
theorem Coherent.writeBack (h : s.Coherent) {m : Copies α β}
    (values : ∀ a c, m a = some c → ∃ c', s.copies p a = some c' ∧ c'.1 = c.1)
    (dirty : ∀ a, m.Dirty a ↔ a ∉ A ∧ (s.copies p).Dirty a) :
    Coherent ⟨s.cover, Function.update s.copies p m, (s.copies p).writeBack A s.store, s.latest⟩ where
  toGuarded := h.toGuarded.change (fun a now => .inl ((dirty a).mp now).2)
  current q a x c readable written copy := by
    by_cases same : q = p
    · subst same
      simp only [Function.update_self] at copy
      obtain ⟨c', before, value⟩ := values a c copy
      exact value ▸ h.current q a x c' readable written before
    · simp only [Function.update_of_ne same] at copy
      exact h.current q a x c readable written copy
  stored a x written none := by
    simp only at written none ⊢
    by_cases here : (s.copies p).Dirty a
    · have inside : a ∈ A := by
        by_contra outside
        refine none p ?_
        rw [Function.update_self]
        exact (dirty a).mpr ⟨outside, here⟩
      obtain ⟨y, copy⟩ := here
      have readable := h.readable p a (h.guarded p a ⟨y, copy⟩)
      rw [Copies.writeBack_dirty inside copy]
      exact h.current p a x (y, true) readable written copy
    · rw [Copies.writeBack_other (fun both => here both.2)]
      refine h.stored a x written (fun q dirtyBefore => ?_)
      by_cases same : q = p
      · subst same
        exact here dirtyBefore
      · refine none q ?_
        simp only [Function.update_of_ne same]
        exact dirtyBefore
  owned := h.owned

theorem Coherent.evict (h : s.Coherent) (p : Peer) (A : Set α) : (s.evict p A).Coherent := by
  apply h.writeBack
  · intro a c copy
    exact ⟨c, (Copies.drop_eq_some.mp copy).2, rfl⟩
  · intro a
    simp only [Copies.Dirty, Copies.drop_eq_some, exists_and_left]

theorem Coherent.clean (h : s.Coherent) (p : Peer) (A : Set α) : (s.clean p A).Coherent := by
  apply h.writeBack
  · rintro a ⟨x, d⟩ copy
    rcases Copies.clean_eq_some.mp copy with ⟨-, -, d', before⟩ | ⟨-, before⟩
    · exact ⟨(x, d'), before, rfl⟩
    · exact ⟨(x, d), before, rfl⟩
  · intro a
    simp [Copies.Dirty, Copies.clean_eq_some]

/-- What may be read and has no copy is up to date in the store. -/
theorem Coherent.load (h : s.Coherent) (p : Peer) (A : Set α) : (s.load p A).Coherent where
  toGuarded := h.toGuarded.load p A
  current q a x c readable written copy := by
    by_cases same : q = p
    · subst same
      simp only [Replicas.load, Function.update_self] at copy
      rcases Copies.load_eq_some.mp copy with copy | ⟨missing, -, rfl⟩
      · exact h.current q a x c readable written copy
      · refine h.stored a x written (fun r dirty => ?_)
        by_cases other : r = q
        · subst other
          obtain ⟨y, copy⟩ := dirty
          rw [missing] at copy
          cases copy
        · exact h.exclusive r q a other (h.guarded r a dirty) readable
    · simp only [Replicas.load, Function.update_of_ne same] at copy
      exact h.current q a x c readable written copy
  stored a x written none := by
    refine h.stored a x written (fun q dirty => none q ?_)
    by_cases same : q = p
    · subst same
      obtain ⟨y, copy⟩ := dirty
      simp only [Replicas.load, Function.update_self]
      exact ⟨y, Copies.load_eq_some.mpr (.inl copy)⟩
    · simp only [Replicas.load, Function.update_of_ne same]
      exact dirty
  owned := h.owned

theorem Coherent.put (h : s.Coherent) (values : α → β) (covered : ∀ a ∈ A, s.cover p true a) :
    (s.put p A values).Coherent where
  toGuarded := h.toGuarded.put values covered
  current q a x c readable written copy := by
    simp only [Replicas.put] at readable written copy
    by_cases inside : a ∈ A
    · rw [if_pos inside] at written
      by_cases same : q = p
      · subst same
        rw [Function.update_self] at copy
        rcases Copies.put_eq_some.mp copy with ⟨-, rfl⟩ | ⟨outside, -⟩
        · exact Option.some.inj written
        · exact (outside inside).elim
      · exact (h.exclusive p q a (Ne.symm same) (covered a inside) readable).elim
    · rw [if_neg inside] at written
      by_cases same : q = p
      · subst same
        rw [Function.update_self] at copy
        rcases Copies.put_eq_some.mp copy with ⟨outside, -⟩ | ⟨-, copy⟩
        · exact (inside outside).elim
        · exact h.current q a x c readable written copy
      · rw [Function.update_of_ne same] at copy
        exact h.current q a x c readable written copy
  stored a x written none := by
    simp only [Replicas.put] at written none
    by_cases inside : a ∈ A
    · refine (none p ⟨values a, ?_⟩).elim
      rw [Function.update_self]
      exact Copies.put_eq_some.mpr (.inl ⟨inside, rfl⟩)
    · rw [if_neg inside] at written
      refine h.stored a x written (fun q dirty => none q ?_)
      by_cases same : q = p
      · subst same
        obtain ⟨y, copy⟩ := dirty
        rw [Function.update_self]
        exact ⟨y, Copies.put_eq_some.mpr (.inr ⟨inside, copy⟩)⟩
      · rw [Function.update_of_ne same]
        exact dirty
  owned a x written := by
    simp only [Replicas.put] at written
    by_cases inside : a ∈ A
    · exact ⟨p, h.readable p a (covered a inside)⟩
    · rw [if_neg inside] at written
      exact h.owned a x written

omit [DecidableEq Peer] in
theorem Coherent.move (h : s.Coherent) {cover : Peer → Bool → α → Prop} (moves : MovesFresh s cover) :
    (s.move cover).Coherent where
  toGuarded := h.toGuarded.move moves.toMoves
  current p a x c readable written copy :=
    (moves.fresh p a x c readable written copy).elim (fun before => h.current p a x c before written copy) id
  stored := h.stored
  owned a x written := by
    obtain ⟨p, before⟩ := h.owned a x written
    exact moves.owned a x p written before

end Replicas

end PFS.Lib
