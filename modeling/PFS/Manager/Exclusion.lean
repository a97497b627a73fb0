import PFS.Manager.MMFile

/-! # Mutual exclusion in the manager's table

A request first takes the requested range from every peer with a conflicting
token and only then grants it, and neither `addPermission` nor
`revokePermission` invents coverage.  So no byte is ever writable for one peer
and held by another, in every state the table can reach, sorted lists or not.
-/

namespace PFS

open Lib

variable {Peer : Type} [DecidableEq Peer]

namespace MMFile

/-- After the revocations of a request nobody else has a token in the granted
    range that stands in its way. -/
theorem tokensAfter_clear {f : MMFile Peer} {peer q : Peer} {start stop : Nat} {iswrite : Bool}
    (other : q ≠ peer) {b : Nat} (low : (f.grantRange peer start stop iswrite).1 ≤ b)
    (high : b < (f.grantRange peer start stop iswrite).2) :
    ¬ Grants (f.tokensAfter start stop iswrite q) true b ∧
      (iswrite = true → ¬ Grants (f.tokensAfter start stop iswrite q) false b) := by
  rcases grantRange_cases f peer start stop iswrite with exactly | ⟨-, alone⟩
  · rw [exactly] at low high
    unfold tokensAfter
    split
    · exact ⟨fun g => revokePermission_clears g ⟨low, high⟩,
        fun _ g => revokePermission_clears g ⟨low, high⟩⟩
    · next clear => exact not_conflicts clear low high
  · have empty : f.tokensAfter start stop iswrite q = [] := by
      rw [tokensAfter, alone q other]
      split <;> rfl
    simp [empty]

theorem tokensAfter_le {f : MMFile Peer} {start stop : Nat} {iswrite : Bool} {q : Peer} {m b}
    (g : Grants (f.tokensAfter start stop iswrite q) m b) : Grants (f.tokens q) m b := by
  unfold tokensAfter at g
  split at g
  · exact revokePermission_le g
  · exact g

/-- One call of the manager on the file. -/
inductive Call (Peer : Type) where
  | «open» (peer : Peer)
  | close (peer : Peer)
  | getPermission (peer : Peer) (start stop : Nat) (iswrite : Bool)

/-- What the handlers promise about the arguments of a call. -/
def Call.Valid (f : MMFile Peer) : Call Peer → Prop
  | .open _ => True
  | .close peer => f.isOpenedBy peer = true
  | .getPermission peer start stop _ => f.isOpenedBy peer = true ∧ start ≤ stop ∧ stop < uint32Size

instance (f : MMFile Peer) : (call : Call Peer) → Decidable (call.Valid f)
  | .open _ => isTrue trivial
  | .close _ => inferInstanceAs (Decidable (_ = true))
  | .getPermission _ _ _ _ => inferInstanceAs (Decidable (_ ∧ _))

/-- The table after a call. -/
def serve (f : MMFile Peer) : Call Peer → Option (MMFile Peer)
  | .open peer => some (f.open peer).1
  | .close peer => some (f.close peer).1
  | .getPermission peer start stop iswrite =>
      (f.waitAndGetPermissionFor peer start stop iswrite).map (fun r => r.1)

/-- The table as a machine driven by calls. -/
def machine : Machine (MMFile Peer) (Call Peer) := ⟨fun f call => call.Valid f, serve⟩

instance (f : MMFile Peer) (call : Call Peer) : Decidable (machine.allowed f call) :=
  inferInstanceAs (Decidable (call.Valid f))

/-- A file no peer has opened yet. -/
def Fresh (f : MMFile Peer) : Prop := f.clientPermissions = ∅

/-- The tokens of two peers are exclusive. -/
def PairwiseExclusive (f : MMFile Peer) : Prop :=
  ∀ p q, p ≠ q → Exclusive (f.tokens p) (f.tokens q)

theorem grant_exclusive {f f' : MMFile Peer} {peer start stop iswrite grant}
    (inv : f.PairwiseExclusive)
    (h : f.waitAndGetPermissionFor peer start stop iswrite = some (f', grant)) {q : Peer} (other : q ≠ peer) :
    Exclusive (f'.tokens peer) (f'.tokens q) := by
  obtain ⟨range, -, added, rest, -⟩ := waitAndGetPermissionFor_spec h
  rw [rest q other]
  intro b
  constructor
  · intro own theirs
    rcases addPermission_le added own with own | ⟨low, high, mode⟩
    · exact (inv peer q other.symm b).1 own (tokensAfter_le theirs)
    · exact (tokensAfter_clear other (by rwa [range]) (by rwa [range])).2 (mode rfl) theirs
  · intro theirs own
    rcases addPermission_le added own with own | ⟨low, high, -⟩
    · exact (inv peer q other.symm b).2 (tokensAfter_le theirs) own
    · exact (tokensAfter_clear other (by rwa [range]) (by rwa [range])).1 theirs

theorem getPermission_exclusive {f f' : MMFile Peer} {peer start stop iswrite grant}
    (inv : f.PairwiseExclusive)
    (h : f.waitAndGetPermissionFor peer start stop iswrite = some (f', grant)) : f'.PairwiseExclusive := by
  obtain ⟨-, -, -, rest, -⟩ := waitAndGetPermissionFor_spec h
  intro p q distinct
  by_cases pIs : p = peer
  · subst pIs
    exact grant_exclusive inv h distinct.symm
  · by_cases qIs : q = peer
    · subst qIs
      exact (grant_exclusive inv h distinct).symm
    · rw [rest p pIs, rest q qIs]
      exact ((inv p q distinct).left (fun m b => tokensAfter_le)).right (fun m b => tokensAfter_le)

theorem step_exclusive {f f' : MMFile Peer} (inv : f.PairwiseExclusive) (step : machine.Step f f') :
    f'.PairwiseExclusive := by
  obtain ⟨call, -, served⟩ := step
  cases call with
  | «open» peer =>
      obtain rfl := Option.some.inj served
      intro p q distinct
      rw [tokens_open, tokens_open]
      exact inv p q distinct
  | close peer =>
      obtain rfl := Option.some.inj served
      intro p q distinct
      rw [tokens_close, tokens_close]
      split
      · intro b; simp
      · split
        · intro b; simp
        · exact inv p q distinct
  | getPermission peer start stop iswrite =>
      obtain ⟨⟨_, grant⟩, h, rfl⟩ := Option.map_eq_some_iff.mp served
      exact getPermission_exclusive inv h

theorem fresh_exclusive {f : MMFile Peer} (fresh : f.Fresh) : f.PairwiseExclusive := by
  intro p q distinct b
  have empty : f.tokens p = [] := by
    simp only [tokens, show f.clientPermissions = ∅ from fresh, AList.lookup_empty, Option.getD_none]
  simp [empty]

/-- In every reachable state of the table, a byte that one peer may write is
    not held by any other peer. -/
theorem reachable_exclusive {f : MMFile Peer} (reach : Reachable Fresh machine.Step f) {p q : Peer}
    (distinct : p ≠ q) (b : Nat) (writable : ∃ x ∈ f.tokens p, x.write = true ∧ x.Covers b) :
    ¬ ∃ y ∈ f.tokens q, y.Covers b := by
  have inv := reach.invariant PairwiseExclusive (fun _ => fresh_exclusive) (fun _ _ => step_exclusive)
  obtain ⟨x, member, mode, covers⟩ := writable
  rintro ⟨y, held, inside⟩
  exact (inv p q distinct b).1 ⟨x, member, fun _ => mode, covers⟩ ⟨y, held, nofun, inside⟩

/-- A file as `CreateFile` makes it. -/
def created (name : String) (stripWidth : Nat) : MMFile Peer := { name := name, stripWidth := stripWidth }

omit [DecidableEq Peer] in
theorem created_fresh (name : String) (stripWidth : Nat) :
    Fresh (created name stripWidth : MMFile Peer) := rfl

/-- Peer 1 opens the file and writes, which grants it the whole file; then peer
    2 opens it and writes bytes 5 to 8. -/
def twoWriters : Option (MMFile Nat) :=
  machine.run (created "f" 1)
    [.open 1, .getPermission 1 0 10 true, .open 2, .getPermission 2 5 8 true]

theorem reachable_exclusive_twoWriters :
    (∃ x ∈ (twoWriters.get rfl).tokens 2, x.write = true ∧ x.Covers 6) ∧
      ¬ ∃ y ∈ (twoWriters.get rfl).tokens 1, y.Covers 6 := by
  have holds : ∃ x ∈ (twoWriters.get rfl).tokens 2, x.write = true ∧ x.Covers 6 := by decide
  have reach : Reachable Fresh machine.Step (twoWriters.get rfl) :=
    machine.run_reachable (Reachable.init (created_fresh "f" 1)) (Option.some_get _).symm
  exact ⟨holds, reachable_exclusive reach (by decide) 6 holds⟩

end MMFile

end PFS
