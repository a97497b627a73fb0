import PFS.Lib.Coherence

/-! # Copies of a store whose tokens may vanish

`Coherent` wants a token on every cell that has been written.  A peer that leaves
takes its tokens with it, so here cells may be nobody's.  The store then stands
in for a peer: it may read what nobody may write, and it has no copies.  With
it the cells have an owner again, and what is known of `Coherent` applies.
-/

namespace PFS.Lib

universe u v w

namespace Replicas

variable {Peer : Type w} {α : Type u} {β : Type v}

/-- Who may read a cell and has a copy of it has the latest value, and the store
    has it where nothing is dirty. -/
structure UpToDate (s : Replicas Peer α β) : Prop extends Guarded s where
  current : ∀ p a x c, s.cover p false a → s.latest a = some x → s.copies p a = some c → c.1 = x
  stored : ∀ a x, s.latest a = some x → (∀ p, ¬ (s.copies p).Dirty a) → s.store a = x

/-- The store as one more peer. -/
def hosted (s : Replicas Peer α β) : Replicas (Option Peer) α β where
  cover
    | some p, write, a => s.cover p write a
    | none, write, a => write = false ∧ ∀ p, ¬ s.cover p true a
  copies
    | some p => s.copies p
    | none => fun _ => none
  store := s.store
  latest := s.latest

variable {s : Replicas Peer α β}

theorem UpToDate.hosted (h : s.UpToDate) : s.hosted.Coherent where
  readable p a held := by
    cases p with
    | some p => exact h.readable p a held
    | none => cases held.1
  exclusive p q a distinct held other := by
    cases p with
    | none => cases held.1
    | some p =>
        cases q with
        | none => exact other.2 p held
        | some q => exact h.exclusive p q a (fun same => distinct (congrArg some same)) held other
  guarded p a dirty := by
    cases p with
    | some p => exact h.guarded p a dirty
    | none =>
        obtain ⟨x, copy⟩ := dirty
        cases copy
  current p a x c readable written copy := by
    cases p with
    | some p => exact h.current p a x c readable written copy
    | none => cases copy
  stored a x written clean := h.stored a x written fun p => clean (some p)
  owned a x written := by
    by_cases writer : ∃ p, s.cover p true a
    · obtain ⟨p, held⟩ := writer
      exact ⟨some p, h.readable p a held⟩
    · exact ⟨none, rfl, not_exists.mp writer⟩

theorem UpToDate.of_hosted (h : s.hosted.Coherent) : s.UpToDate where
  readable p := h.readable (some p)
  exclusive p q a distinct := h.exclusive (some p) (some q) a fun same => distinct (Option.some.inj same)
  guarded p := h.guarded (some p)
  current p := h.current (some p)
  stored a x written clean := by
    refine h.stored a x written fun p dirty => ?_
    cases p with
    | some p => exact clean p dirty
    | none =>
        obtain ⟨y, copy⟩ := dirty
        cases copy

variable [DecidableEq Peer]

/-- The copies of one peer change. -/
theorem hosted_update (s : Replicas Peer α β) (p : Peer) (m : Copies α β) (store : α → β) (latest : α → Option β) :
    (⟨s.cover, Function.update s.copies p m, store, latest⟩ : Replicas Peer α β).hosted =
      ⟨s.hosted.cover, Function.update s.hosted.copies (some p) m, store, latest⟩ := by
  unfold Replicas.hosted
  congr 1
  funext q
  cases q with
  | none => rw [Function.update_of_ne (by simp)]
  | some q =>
      by_cases same : q = p
      · subst same
        simp only [Function.update_self]
      · simp only [Function.update_of_ne same, Function.update_of_ne (fun eq => same (Option.some.inj eq))]

theorem UpToDate.evict (h : s.UpToDate) (p : Peer) (A : Set α) : (s.evict p A).UpToDate := by
  apply UpToDate.of_hosted
  rw [Replicas.evict, hosted_update]
  exact h.hosted.evict (some p) A

theorem UpToDate.clean (h : s.UpToDate) (p : Peer) (A : Set α) : (s.clean p A).UpToDate := by
  apply UpToDate.of_hosted
  rw [Replicas.clean, hosted_update]
  exact h.hosted.clean (some p) A

theorem UpToDate.load (h : s.UpToDate) (p : Peer) (A : Set α) : (s.load p A).UpToDate := by
  apply UpToDate.of_hosted
  rw [Replicas.load, hosted_update]
  exact h.hosted.load (some p) A

theorem UpToDate.put (h : s.UpToDate) {p : Peer} {A : Set α} (values : α → β) (covered : ∀ a ∈ A, s.cover p true a) :
    (s.put p A values).UpToDate := by
  apply UpToDate.of_hosted
  rw [Replicas.put, hosted_update]
  exact h.hosted.put (p := some p) values covered

omit [DecidableEq Peer] in
/-- Tokens move, or vanish, and no stale copy becomes readable. -/
theorem UpToDate.move (h : s.UpToDate) {cover : Peer → Bool → α → Prop} (moves : Moves s cover)
    (fresh : ∀ p a x c, cover p false a → s.latest a = some x → s.copies p a = some c → s.cover p false a ∨ c.1 = x) :
    (s.move cover).UpToDate where
  toGuarded := h.toGuarded.move moves
  current p a x c readable written copy :=
    (fresh p a x c readable written copy).elim (fun before => h.current p a x c before written copy) id
  stored := h.stored

omit [DecidableEq Peer] in
/-- Tokens vanish, but no write token of a dirty copy. -/
theorem UpToDate.lose (h : s.UpToDate) {cover : Peer → Bool → α → Prop}
    (fewer : ∀ p write a, cover p write a → s.cover p write a) (readable : ∀ p a, cover p true a → cover p false a)
    (kept : ∀ p a, (s.copies p).Dirty a → s.cover p true a → cover p true a) : (s.move cover).UpToDate := by
  refine h.move ⟨readable, fun p q a distinct held other => ?_, kept⟩ fun p a x c held _ _ => .inl (fewer p false a held)
  exact h.exclusive p q a distinct (fewer p true a held) (fewer q false a other)

omit [DecidableEq Peer] in
/-- What nobody may write is up to date in the store. -/
theorem UpToDate.at_rest (h : s.UpToDate) {a : α} {x : β} (nobody : ∀ p, ¬ s.cover p true a)
    (written : s.latest a = some x) : s.store a = x :=
  h.stored a x written fun p dirty => nobody p (h.guarded p a dirty)

end Replicas

end PFS.Lib
