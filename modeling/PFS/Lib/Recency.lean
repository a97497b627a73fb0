import Mathlib.Data.List.Pairwise

/-! # Lists in order of use

A list whose entries are moved to the front when they are used is in the order of
their last uses, the newest first, and its last entry is the one to evict.
-/

namespace PFS.Lib

variable {ι : Type} {use use' : ι → Nat} {xs : List ι} {n m : ι}

/-- An entry has been used after those behind it. -/
def NewestFirst (use : ι → Nat) (xs : List ι) : Prop := xs.Pairwise fun a b => use b < use a

namespace NewestFirst

theorem nil : NewestFirst use [] := List.Pairwise.nil

theorem cons (h : NewestFirst use xs) (newer : ∀ m ∈ xs, use m < use n) : NewestFirst use (n :: xs) :=
  List.pairwise_cons.mpr ⟨newer, h⟩

theorem sublist {ys : List ι} (h : NewestFirst use xs) (sub : ys.Sublist xs) : NewestFirst use ys :=
  List.Pairwise.sublist sub h

theorem congr (h : NewestFirst use xs) (same : ∀ m ∈ xs, use' m = use m) : NewestFirst use' xs := by
  apply List.Pairwise.imp_of_mem _ h
  intro a b inside inside' less
  rw [same a inside, same b inside']
  exact less

/-- The last entry is the oldest. -/
theorem last_lt (h : NewestFirst use xs) (last : xs.getLast? = some n) (member : m ∈ xs) (other : m ≠ n) :
    use n < use m := by
  obtain ⟨front, rfl⟩ := List.getLast?_eq_some_iff.mp last
  rcases List.mem_append.mp member with inside | inside
  · exact (List.pairwise_append.mp h).2.2 m inside n List.mem_cons_self
  · exact (other (List.mem_singleton.mp inside)).elim

/-- The entries of a list in two parts, those used since a given time and the others. -/
theorem split_at (h : NewestFirst use xs) (time : Nat) : ∃ front back, xs = front ++ back ∧
    (∀ m ∈ front, time ≤ use m) ∧ ∀ m ∈ back, use m < time := by
  induction xs with
  | nil => exact ⟨[], [], rfl, nofun, nofun⟩
  | cons first rest ih =>
      obtain ⟨older, tail⟩ := List.pairwise_cons.mp h
      by_cases new : time ≤ use first
      · obtain ⟨front, back, rfl, since, before⟩ := ih tail
        refine ⟨first :: front, back, rfl, ?_, before⟩
        intro m member
        rcases List.mem_cons.mp member with rfl | member
        · exact new
        · exact since m member
      · refine ⟨[], first :: rest, rfl, nofun, ?_⟩
        intro m member
        rcases List.mem_cons.mp member with rfl | member
        · omega
        · have := older m member
          omega

variable [DecidableEq ι]

/-- An entry that is used goes to the front. -/
theorem touch (h : NewestFirst use xs) (distinct : xs.Nodup) (newer : ∀ m ∈ xs, m ≠ n → use' m < use' n)
    (same : ∀ m ∈ xs, m ≠ n → use' m = use m) : NewestFirst use' (n :: xs.erase n) := by
  have rest : ∀ m ∈ xs.erase n, m ∈ xs ∧ m ≠ n :=
    fun m member => (distinct.mem_erase_iff.mp member).symm
  refine ((h.sublist List.erase_sublist).congr ?_).cons ?_
  · intro m member
    exact same m (rest m member).1 (rest m member).2
  · intro m member
    exact newer m (rest m member).1 (rest m member).2

end NewestFirst

end PFS.Lib
