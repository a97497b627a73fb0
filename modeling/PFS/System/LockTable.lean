import PFS.Levels
import PFS.System.Copies

/-! # The manager's table as a table of locks

What the manager's token lists are for: every byte of the file is a lock that many
clients may hold for reading or one for writing.  A request takes its bytes from
the clients that hold them in the way and is then granted them, or the whole file
if nobody else holds anything.  In every run of requests that keep the lists in
normal form the lists do exactly that.
-/

namespace PFS

open Lib

variable {Peer : Type} [DecidableEq Peer]

/-- The level at which each client holds each byte. -/
abbrev LockTable (Peer : Type) := Peer → Nat → Level

namespace LockTable

/-- A client holds bytes of a range that another one asks for. -/
def InTheWay (t : LockTable Peer) (peer q : Peer) (start stop : Nat) (write : Bool) : Prop :=
  q ≠ peer ∧ ∃ b, start ≤ b ∧ b < stop ∧ (t q b = .write ∨ (write = true ∧ t q b ≠ .none))

open Classical in
/-- The bytes a request is granted. -/
noncomputable def granted (t : LockTable Peer) (peer : Peer) (start stop : Nat) : Nat × Nat :=
  if ∃ q b, q ≠ peer ∧ t q b ≠ .none then (start, stop) else (0, intMax)

open Classical in
/-- A request is granted, once the clients in the way have given up its bytes. -/
noncomputable def request (t : LockTable Peer) (peer : Peer) (start stop : Nat) (write : Bool) : LockTable Peer :=
  fun q b =>
    if q = peer then
      if (t.granted peer start stop).1 ≤ b ∧ b < (t.granted peer start stop).2 then max (t q b) (.requested write)
      else t q b
    else if t.InTheWay peer q start stop write ∧ start ≤ b ∧ b < stop then .none
    else t q b

/-- A client leaves. -/
def drop (t : LockTable Peer) (peer : Peer) : LockTable Peer := fun q b => if q = peer then .none else t q b

noncomputable def exec (t : LockTable Peer) : MMFile.Call Peer → LockTable Peer
  | .open _ => t
  | .close peer => t.drop peer
  | .getPermission peer start stop write => t.request peer start stop write

/-- Many readers or one writer. -/
def Exclusive (t : LockTable Peer) : Prop := ∀ p q b, p ≠ q → t p b = .write → t q b = .none

end LockTable

namespace MMFile

/-- The locks of the manager's table. -/
def locks (f : MMFile Peer) : LockTable Peer := fun q b => level (f.tokens q) b

/-- The lists are in normal form and in range. -/
structure Formed (f : MMFile Peer) : Prop where
  form : ∀ q, WellFormed (f.tokens q)
  small : ∀ q, Bounded (f.tokens q)
  exclusive : f.PairwiseExclusive

/-- A request inside the `int` range that keeps the client's list in normal form. -/
def KeepsFormed (f : MMFile Peer) : Call Peer → Prop
  | .getPermission peer start stop write => start < stop ∧ stop ≤ intMax ∧
      KeepsForm (f.tokens peer) (f.grantRange peer start stop write).1 (f.grantRange peer start stop write).2 write false
  | _ => True

instance (f : MMFile Peer) : (call : Call Peer) → Decidable (f.KeepsFormed call)
  | .getPermission _ _ _ _ => inferInstanceAs (Decidable (_ ∧ _ ∧ _))
  | .open _ | .close _ => isTrue trivial

def formed : Machine (MMFile Peer) (Call Peer) := ⟨fun f call => call.Valid f ∧ f.KeepsFormed call, serve⟩

instance (f : MMFile Peer) (call : Call Peer) : Decidable (formed.allowed f call) := inferInstanceAs (Decidable (_ ∧ _))

end MMFile

/-- What keeps the form does. -/
theorem KeepsForm.wellFormed {l l' : List Permission} {start stop : Nat} {write lockNew : Bool}
    (keeps : KeepsForm l start stop write lockNew) (form : WellFormed l) (range : start < stop) (small : stop ≤ intMax)
    (added : addPermission start stop write l lockNew = some l') : WellFormed l' := by
  have formed : ∃ m, addPermission start stop write l lockNew = some m ∧ WellFormed m := by
    cases found : scan start stop l with
    | some sc =>
        cases write with
        | false => exact (addPermission_read_wellFormed form range small found).mpr keeps
        | true => exact (addPermission_write_wellFormed form range small found).mpr keeps
    | none =>
        have inserted : addPermission start stop write l lockNew =
            some (insertPermit ⟨start, stop, write, lockNew, []⟩ l) := by
          simp [addPermission, found]
        have ordered := addPermission_ordered form.ordered (Nat.le_of_lt range) small keeps.clean inserted
        refine ⟨_, inserted, wellFormed_iff.mpr ⟨fun p member => ?_, ordered⟩⟩
        rcases List.mem_append.mp member with before | here
        · exact form.positive p ((List.rdropWhile_prefix _ _).subset before)
        · rcases List.mem_cons.mp here with rfl | after
          · exact range
          · exact form.positive p ((List.rtakeWhile_suffix _ _).subset after)
  obtain ⟨m, same, wellFormed⟩ := formed
  rw [added] at same
  obtain rfl := Option.some.inj same
  exact wellFormed

namespace MMFile

variable {f f' : MMFile Peer} {peer : Peer} {start stop : Nat} {iswrite : Bool} {grant : Grant Peer}

theorem Formed.orderly (h : f.Formed) : f.Orderly := ⟨fun q => (h.form q).ordered, h.small, h.exclusive⟩

/-- A list with a token has a byte. -/
theorem locks_none_iff (h : f.Formed) {q : Peer} : (∀ b, f.locks q b = .none) ↔ f.tokens q = [] := by
  constructor
  · intro nothing
    rw [List.eq_nil_iff_forall_not_mem]
    intro p member
    have held : Grants (f.tokens q) false p.start :=
      ⟨p, member, Not.elim Bool.false_ne_true, Nat.le_refl _, (h.form q).positive p member⟩
    have level := requested_le_level.mpr held
    rw [← locks, nothing] at level
    exact Level.not_requested_le_none level
  · intro empty b
    rw [locks, empty]
    rfl

theorem locks_eq_write_iff {q : Peer} {b : Nat} : f.locks q b = .write ↔ Grants (f.tokens q) true b := by
  rw [← requested_le_level, ← locks]
  cases f.locks q b <;> decide

theorem locks_ne_none_iff {q : Peer} {b : Nat} : f.locks q b ≠ .none ↔ Grants (f.tokens q) false b := by
  rw [← requested_le_level, ← locks]
  cases f.locks q b <;> decide

theorem level_eq_none {l : List Permission} {b : Nat} (free : ¬ Grants l false b) : level l b = .none := by
  unfold level
  rw [if_neg fun held => free held.read, if_neg free]

/-- The clients the manager takes tokens from are those in the way. -/
theorem inTheWay_iff (h : f.Formed) (range : start < stop) {q : Peer} (other : q ≠ peer) :
    f.locks.InTheWay peer q start stop iswrite ↔ Conflicts (f.tokens q) start stop iswrite := by
  simp only [LockTable.InTheWay, locks_eq_write_iff, locks_ne_none_iff]
  constructor
  · rintro ⟨-, b, low, high, held⟩
    by_contra clear
    obtain ⟨noWriter, noReader⟩ := not_conflicts clear low high
    rcases held with writes | ⟨writing, reads⟩
    · exact noWriter writes
    · exact noReader writing reads
  · rintro ⟨p, member, mode, shared⟩
    have positive := (h.form q).positive p member
    rw [Permission.isShared_iff] at shared
    have covers : p.Covers (max p.start start) := ⟨Nat.le_max_left _ _, by omega⟩
    refine ⟨other, max p.start start, Nat.le_max_right _ _, by omega, ?_⟩
    rcases mode with writes | writing
    · exact .inl ⟨p, member, fun _ => writes, covers⟩
    · exact .inr ⟨writing, p, member, Not.elim Bool.false_ne_true, covers⟩

theorem granted_eq (h : f.Formed) (peer : Peer) (start stop : Nat) (iswrite : Bool) :
    f.locks.granted peer start stop = f.grantRange peer start stop iswrite := by
  unfold LockTable.granted
  split
  · next held =>
      obtain ⟨q, b, other, some⟩ := held
      rcases grantRange_cases f peer start stop iswrite with exactly | ⟨-, alone⟩
      · exact exactly.symm
      · exact (some ((locks_none_iff h).mpr (alone q other) b)).elim
  · next free =>
      refine (grantRange_alone (fun q other => (locks_none_iff h).mp fun b => ?_) start stop iswrite).symm
      by_contra held
      exact free ⟨q, b, other, held⟩

/-- A request on the lists is one on the locks. -/
theorem locks_request (h : f.Formed) (range : start < stop) (smallStop : stop ≤ intMax)
    (clean : GrantClean (f.tokens peer) (f.grantRange peer start stop iswrite).1
      (f.grantRange peer start stop iswrite).2 iswrite)
    (asked : f.waitAndGetPermissionFor peer start stop iswrite = some (f', grant)) :
    f'.locks = f.locks.request peer start stop iswrite := by
  obtain ⟨granted, -, added, rest, -⟩ := waitAndGetPermissionFor_spec asked
  funext q b
  unfold LockTable.request
  by_cases own : q = peer
  · subst own
    have raises : Raises grant.start grant.stop iswrite (f.tokens q) (f'.tokens q) := by
      refine raises_iff.mpr fun b m => ⟨addPermission_le added, ?_⟩
      rintro (held | ⟨low, high, mode⟩)
      · refine h.orderly.keeps (Nat.le_of_lt range) smallStop clean asked (fun clash => ?_) held
        exact ((mem_conflicting.mp clash).1 rfl).elim
      · have gets := gets_grant (Nat.le_of_lt range) smallStop asked low high
        cases m with
        | true => exact mode rfl ▸ gets
        | false => exact gets.read
    rw [if_pos rfl, granted_eq h q start stop iswrite, granted]
    exact raises b
  · rw [if_neg own]
    simp only [inTheWay_iff h range own]
    rw [locks, rest q own, tokensAfter]
    by_cases clash : Conflicts (f.tokens q) start stop iswrite
    · rw [if_pos clash]
      by_cases inside : start ≤ b ∧ b < stop
      · rw [if_pos ⟨clash, inside⟩]
        exact level_eq_none fun held => revokePermission_clears held inside
      · rw [if_neg fun both => inside both.2, locks]
        exact level_eq_iff.mpr fun m => ⟨revokePermission_le, revokePermission_keeps (h.form q).ordered inside⟩
    · rw [if_neg clash, if_neg fun both => clash both.1, locks]

/-- A call keeps the lists in normal form and does to the locks what it should. -/
theorem Formed.serve (h : f.Formed) {call : Call Peer} (allowed : formed.allowed f call) (served : f.serve call = some f') :
    f'.Formed ∧ f'.locks = f.locks.exec call := by
  have exclusive := step_exclusive h.exclusive ⟨call, allowed.1, served⟩
  cases call with
  | «open» peer =>
      obtain rfl := Option.some.inj served
      refine ⟨⟨fun q => ?_, fun q => ?_, exclusive⟩, ?_⟩
      · rw [tokens_open]; exact h.form q
      · rw [tokens_open]; exact h.small q
      · funext q b
        rw [locks, tokens_open]
        rfl
  | close peer =>
      obtain rfl := Option.some.inj served
      refine ⟨⟨fun q => ?_, fun q => ?_, exclusive⟩, ?_⟩
      · rw [tokens_close]
        split
        · exact wellFormed_iff.mpr ⟨fun p member => (List.not_mem_nil member).elim, Ordered.nil⟩
        · exact h.form q
      · rw [tokens_close]
        split
        · exact Bounded.nil
        · exact h.small q
      · funext q b
        rw [locks, tokens_close, LockTable.exec, LockTable.drop]
        split
        · rfl
        · rfl
  | getPermission peer start stop iswrite =>
      obtain ⟨-, range, smallStop, keeps⟩ := allowed
      obtain ⟨⟨_, grant⟩, asked, rfl⟩ := Option.map_eq_some_iff.mp served
      refine ⟨⟨fun q => ?_, waitAndGetPermissionFor_bounded h.small (Nat.le_of_lt range) smallStop asked, exclusive⟩,
        locks_request h range smallStop keeps.clean asked⟩
      obtain ⟨granted, -, added, rest, -⟩ := waitAndGetPermissionFor_spec asked
      by_cases own : q = peer
      · subst own
        obtain ⟨low, high, smallEnd, -⟩ := grantRange_le f q iswrite (Nat.le_of_lt range) smallStop
        rw [granted] at keeps low high smallEnd
        exact keeps.wellFormed (h.form q) (by omega) smallEnd added
      · rw [rest q own, tokensAfter]
        split
        · exact revokePermission_wellFormed (h.form q) (Nat.le_of_lt range)
        · exact h.form q

theorem fresh_formed (fresh : f.Fresh) : f.Formed ∧ f.locks = fun _ _ => .none := by
  have empty : ∀ q, f.tokens q = [] := by
    intro q
    simp only [tokens, show f.clientPermissions = ∅ from fresh, AList.lookup_empty, Option.getD_none]
  refine ⟨⟨fun q => ?_, fun q => ?_, fresh_exclusive fresh⟩, ?_⟩
  · rw [empty]
    exact wellFormed_iff.mpr ⟨fun p member => (List.not_mem_nil member).elim, Ordered.nil⟩
  · rw [empty]
    exact Bounded.nil
  · funext q b
    rw [locks, empty]
    rfl

theorem Formed.run (h : f.Formed) {calls : List (Call Peer)} (ran : formed.run f calls = some f') :
    f'.locks = calls.foldl LockTable.exec f.locks := by
  induction calls generalizing f with
  | nil =>
      obtain rfl := Option.some.inj ran
      rfl
  | cons call rest ih =>
      obtain ⟨allowed, g, first, ran⟩ := formed.run_cons.mp ran
      obtain ⟨next, locks⟩ := h.serve allowed first
      rw [List.foldl_cons, ← locks]
      exact ih next ran

end MMFile

namespace LockTable

variable {t : LockTable Peer} {peer : Peer} {start stop : Nat} {write : Bool}

theorem max_requested_eq_write {x : Level} {write : Bool} : max x (.requested write) = .write ↔ x = .write ∨ write = true := by
  cases x <;> cases write <;> decide

omit [DecidableEq Peer] in
theorem granted_cases (t : LockTable Peer) (peer : Peer) (start stop : Nat) :
    t.granted peer start stop = (start, stop) ∨ ∀ q b, q ≠ peer → t q b = .none := by
  unfold granted
  split
  · exact .inl rfl
  · next free =>
      right
      intro q b other
      by_contra held
      exact free ⟨q, b, other, held⟩

/-- What another client holds after a request it held before, and not in its way. -/
theorem request_other {q : Peer} {b : Nat} (other : q ≠ peer) (held : t.request peer start stop write q b ≠ .none) :
    t.request peer start stop write q b = t q b ∧
      ((start ≤ b ∧ b < stop) → t q b ≠ .write ∧ write = false) := by
  unfold request at held ⊢
  rw [if_neg other] at held ⊢
  split at held
  · exact (held rfl).elim
  · next free =>
      rw [if_neg free]
      refine ⟨rfl, fun inside => ⟨fun writes => ?_, ?_⟩⟩
      · exact free ⟨⟨other, b, inside.1, inside.2, .inl writes⟩, inside⟩
      · by_contra writing
        exact free ⟨⟨other, b, inside.1, inside.2, .inr ⟨by simpa using writing, held⟩⟩, inside⟩

theorem Exclusive.request (h : t.Exclusive) : (t.request peer start stop write).Exclusive := by
  intro p q b distinct writes
  by_contra held
  by_cases asks : p = peer
  · subst asks
    obtain ⟨kept, clear⟩ := request_other (Ne.symm distinct) held
    rw [kept] at held
    unfold LockTable.request at writes
    rw [if_pos rfl] at writes
    split at writes
    · next inside =>
        rcases max_requested_eq_write.mp writes with before | writing
        · exact held (h p q b distinct before)
        · rcases t.granted_cases p start stop with exactly | alone
          · rw [exactly] at inside
            rw [(clear inside).2] at writing
            cases writing
          · exact held (alone q b (Ne.symm distinct))
    · exact held (h p q b distinct writes)
  · obtain ⟨kept, clear⟩ := request_other asks (by rw [writes]; decide)
    rw [kept] at writes
    by_cases other : q = peer
    · subst other
      unfold LockTable.request at held
      rw [if_pos rfl] at held
      split at held
      · next inside =>
          rcases t.granted_cases q start stop with exactly | alone
          · rw [exactly] at inside
            exact (clear inside).1 writes
          · rw [alone p b distinct] at writes
            cases writes
      · exact held (h p q b distinct writes)
    · rw [(request_other other held).1] at held
      exact held (h p q b distinct writes)

theorem Exclusive.exec (h : t.Exclusive) (call : MMFile.Call Peer) : (t.exec call).Exclusive := by
  cases call with
  | «open» => exact h
  | close peer =>
      intro p q b distinct writes
      simp only [LockTable.exec, drop] at writes ⊢
      split at writes
      · cases writes
      · split
        · rfl
        · exact h p q b distinct writes
  | getPermission => exact h.request

theorem Exclusive.run (h : t.Exclusive) (calls : List (MMFile.Call Peer)) : (calls.foldl LockTable.exec t).Exclusive := by
  induction calls generalizing t with
  | nil => exact h
  | cons call rest ih => exact ih (h.exec call)

end LockTable

namespace MMFile

/-- In every run that keeps the lists in normal form, the manager's table is the table
    of locks that its calls make, and no byte has a writer and another holder. -/
theorem locks_refine {f f' : MMFile Peer} (fresh : f.Fresh) {calls : List (Call Peer)}
    (ran : formed.run f calls = some f') :
    f'.locks = calls.foldl LockTable.exec (fun _ _ => .none) ∧ f'.locks.Exclusive := by
  obtain ⟨start, nothing⟩ := fresh_formed fresh
  have same := start.run ran
  rw [nothing] at same
  refine ⟨same, ?_⟩
  rw [same]
  refine LockTable.Exclusive.run (fun p q b _ writes => ?_) calls
  cases writes

/-- Two readers, a writer that takes a range from both, and a reader that comes back. -/
theorem locks_refine_shared : ∃ f' : MMFile Nat,
    formed.run (created "f" 1) [.open 1, .open 2, .getPermission 1 0 10 false, .getPermission 2 5 8 false,
      .open 3, .getPermission 3 4 9 true, .close 2, .getPermission 1 8 12 false] = some f' ∧
    f'.locks 3 6 = .write ∧ f'.locks 1 6 = .none ∧ f'.locks.Exclusive := by
  obtain ⟨f', ran, writer, reader⟩ : ∃ f' : MMFile Nat, formed.run (created "f" 1)
      [.open 1, .open 2, .getPermission 1 0 10 false, .getPermission 2 5 8 false, .open 3, .getPermission 3 4 9 true,
        .close 2, .getPermission 1 8 12 false] = some f' ∧ f'.locks 3 6 = .write ∧ f'.locks 1 6 = .none :=
    ⟨_, rfl, by decide, by decide⟩
  exact ⟨f', ran, writer, reader, (locks_refine (created_fresh "f" 1) ran).2⟩

end MMFile

end PFS
