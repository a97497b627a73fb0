import PFS.Client.TokenWindow

/-! # Posts to waiting revocations

`File::revokePermission` leaves its semaphore with the locked tokens of its range and
waits for as many posts.  `Permission::unlock` posts to every semaphore left with the
token and takes none of them off, and a token can be deleted with semaphores left on it.
Posts are counted here against the entries: what a call has got and what the locked
tokens still owe it is what it registered.
-/

namespace PFS

open Lib

/-- The entries for `sem` in the waiting lists of the tokens; with `held` only those of
    the locked tokens. -/
def entries (held : Bool) (sem : Nat) (l : List Permission) : Nat :=
  (l.map fun p => if held && !p.locked then 0 else p.waitingSemaphores.count sem).sum

/-- The tokens of an open file with the calls of `revokePermission` that wait and those
    that have returned. -/
structure Waiters extends TokenHolder where
  finished : List Revocation := []

namespace Waiters

/-- A critical section of one of the calls: `addPermission`, `unlockPermission`, and the
    two of `revokePermission`. -/
inductive Section where
  | addPermission (start stop : Nat) (write : Bool)
  | unlockPermission (start stop : Nat)
  | register (start stop : Nat)
  | complete (i : Nat)
  deriving DecidableEq, Repr

/-- `addPermission` with `lockNewPermissions`, which does not come back if a token it
    locks is locked. -/
def addPermission (w : Waiters) (start stop : Nat) (write : Bool) : Option Waiters :=
  (PFS.addPermission start stop write w.permissions true).map fun permissions =>
    { w with permissions := permissions }

/-- `ClientFile::unlockPermission`, with the posts of each `Permission::unlock`. -/
def unlockPermission (w : Waiters) (start stop : Nat) : Waiters :=
  { w with
    permissions := PFSClient.unlockPermission start stop w.permissions
    posts := fun sem => w.posts sem + entries false sem (w.permissions.filter fun p => p.isShared start stop) }

def register (w : Waiters) (start stop : Nat) : Waiters :=
  { w with toTokenHolder := w.toTokenHolder.register start stop }

def complete (w : Waiters) (i : Nat) : Option Waiters := do
  let r ← w.revocations[i]?
  let holder ← w.toTokenHolder.complete i
  some ⟨holder, w.finished ++ [r]⟩

def exec (w : Waiters) : Section → Option Waiters
  | .addPermission start stop write => w.addPermission start stop write
  | .unlockPermission start stop => some (w.unlockPermission start stop)
  | .register start stop => some (w.register start stop)
  | .complete i => w.complete i

def machine : Machine Waiters Section := ⟨fun _ _ => True, exec⟩

instance (w : Waiters) (s : Section) : Decidable (machine.allowed w s) := inferInstanceAs (Decidable True)

/-! ## What the tokens owe -/

/-- What a call has got and what the locked tokens owe it is what it registered, and a
    call that has returned has got all of it. -/
structure Exact (w : Waiters) : Prop where
  waiting : ∀ r ∈ w.revocations, w.posts r.sem + entries true r.sem w.permissions = r.count
  returned : ∀ r ∈ w.finished, w.posts r.sem = r.count ∧ entries true r.sem w.permissions = 0

/-- The posts that lead from `w` to `w'` go to calls that still wait for them. -/
def WakesWaiting (w w' : Waiters) : Prop :=
  ∀ sem, w.posts sem < w'.posts sem → ∃ r ∈ w.revocations, r.sem = sem ∧ w'.posts sem ≤ r.count

end Waiters

/-- The tokens that adding a read token locks again. -/
def Scan.relocked (sc : Scan) (write : Bool) : List Permission := if write then [] else sc.writePermits

/-- The tokens of the run that leave the list with what is left on them.  A token that is
    the only one is replaced by new ones. -/
def erasedRun (start stop : Nat) : List Permission → List Permission
  | [] => []
  | [p] => [p]
  | p :: q :: rest =>
      let last := rest.getLastD q
      (if p.start < start then [] else [p]) ++ (q :: rest).dropLast ++ if last.stop > stop then [] else [last]

/-- The tokens that `revokePermission` takes out of the list. -/
def erased (start stop : Nat) (l : List Permission) : List Permission :=
  let untouched := fun p : Permission => !p.isShared start stop
  erasedRun start stop ((l.dropWhile untouched).rdropWhile untouched)

namespace Waiters

/-- The section neither meets an entry of a call that has been served nor drops one of a
    call that has not.  `unlockPermission` finds no entry on an unlocked token, a
    revocation takes no locked token with an entry out of the list, and what
    `addPermission` deletes owes as much as what it locks again is going to. -/
def Spares (w : Waiters) : Section → Prop
  | .addPermission start stop write =>
      ∀ sc, scan start stop w.permissions = some sc →
        ∀ sem, entries true sem (sc.first :: sc.run) = entries false sem (sc.relocked write)
  | .unlockPermission start stop =>
      ∀ p ∈ w.permissions, p.isShared start stop = true → p.locked = false → p.waitingSemaphores = []
  | .register _ _ => True
  | .complete i =>
      ∀ r, w.revocations[i]? = some r →
        ∀ p ∈ erased r.start r.stop w.permissions, p.locked = true → p.waitingSemaphores = []

end Waiters

/-! ## The entries of lists -/

section Entries

variable {held : Bool} {sem start stop : Nat}

@[simp] theorem entries_nil : entries held sem [] = 0 := rfl

@[simp] theorem entries_cons {p : Permission} {l : List Permission} : entries held sem (p :: l) =
    (if held && !p.locked then 0 else p.waitingSemaphores.count sem) + entries held sem l := List.sum_cons

@[simp] theorem entries_append {l m : List Permission} :
    entries held sem (l ++ m) = entries held sem l + entries held sem m := by
  simp only [entries, List.map_append, List.sum_append]

theorem entries_eq_zero {l : List Permission} :
    entries held sem l = 0 ↔ ∀ p ∈ l, (held = true → p.locked = true) → sem ∉ p.waitingSemaphores := by
  induction l with
  | nil => simp
  | cons p l ih =>
      cases held <;> cases locked : p.locked <;> simp [ih, locked, List.count_eq_zero]

theorem entries_reverse {l : List Permission} : entries held sem l.reverse = entries held sem l := by
  induction l with
  | nil => rfl
  | cons p l ih =>
      simp only [List.reverse_cons, entries_append, entries_cons, entries_nil, ih]
      omega

theorem entries_filter_le (keep : Permission → Bool) (l : List Permission) :
    entries held sem (l.filter keep) ≤ entries held sem l := by
  induction l with
  | nil => exact Nat.le_refl 0
  | cons p l ih =>
      rw [List.filter_cons]
      split
      · simp only [entries_cons]
        omega
      · rw [entries_cons]
        omega

/-- On locked tokens all entries count. -/
theorem entries_locked {l : List Permission} (locked : ∀ p ∈ l, p.locked = true) :
    entries held sem l = entries false sem l := by
  induction l with
  | nil => rfl
  | cons p l ih =>
      rw [entries_cons, entries_cons, ih fun q member => locked q (List.mem_cons_of_mem p member),
        locked p List.mem_cons_self]
      simp

/-! ## The entries after a section -/

theorem fillGaps_entries : ∀ {ws newEnd acc bound merged}, fillGaps true ws newEnd acc = some (bound, merged) →
    entries false sem merged = entries false sem ws + entries false sem acc := by
  intro ws
  induction ws with
  | nil =>
      intro newEnd acc bound merged done
      obtain ⟨-, rfl⟩ := Prod.mk.inj (Option.some.inj done)
      simp
  | cons w ws ih =>
      intro newEnd acc bound merged done
      simp only [fillGaps, Option.bind_eq_bind, Option.bind_eq_some_iff] at done
      obtain ⟨kept, lock, done⟩ := done
      rw [ih done, Permission.lock_eq_some lock]
      simp only [entries_cons, Bool.false_and, Bool.false_eq_true, if_false, List.count_nil]
      omega

theorem fillFrom_entries {ws newEnd bound merged} (done : fillFrom true newEnd ws = some (bound, merged)) :
    entries false sem merged = entries false sem ws := by
  cases ws with
  | nil =>
      obtain ⟨-, rfl⟩ := Prod.mk.inj (Option.some.inj done)
      rfl
  | cons w ws =>
      simp only [fillFrom] at done
      split at done
      · simp only [Option.bind_eq_bind, Option.bind_eq_some_iff] at done
        obtain ⟨kept, lock, done⟩ := done
        rw [fillGaps_entries done, Permission.lock_eq_some lock]
        simp only [entries_cons, entries_nil, Bool.false_and, Bool.false_eq_true, if_false]
        omega
      · rw [fillGaps_entries done, entries_nil, Nat.add_zero]

/-- Adding a read token keeps the write tokens, locked, and nothing else. -/
theorem mergeRead_entries {sc : Scan} {merged} (done : mergeRead sc start stop true = some merged) :
    entries held sem merged = entries false sem sc.writePermits := by
  rw [entries_locked (mergeRead_locked done)]
  unfold mergeRead at done
  split at done
  · next empty =>
      obtain rfl := Option.some.inj done
      rw [List.isEmpty_iff.mp empty]
      rfl
  · simp only [Option.bind_eq_bind, Option.bind_eq_some_iff] at done
    obtain ⟨filled, fill, done⟩ := done
    have kept : entries false sem filled.2 = entries false sem sc.writePermits := by
      rw [fillFrom_entries fill, entries_reverse]
    split at done
    · obtain rfl := Option.some.inj done
      simp [kept]
    · obtain rfl := Option.some.inj done
      exact kept

/-- Adding a write token keeps no token of the run. -/
theorem mergeWrite_entries (sc : Scan) : entries held sem (mergeWrite sc start stop true) = 0 := by
  have front : entries held sem (sc.sPermit start) = 0 := by
    unfold Scan.sPermit
    split <;> simp
  have back : entries held sem (sc.ePermit stop) = 0 := by
    unfold Scan.ePermit
    split <;> simp
  simp [mergeWrite, front, back]

theorem insertPermit_entries {permit : Permission} (fresh : permit.waitingSemaphores = []) (l : List Permission) :
    entries held sem (insertPermit permit l) = entries held sem l := by
  have whole := List.rdropWhile_append_rtakeWhile (p := fun p : Permission => !decide (p.stop < permit.start)) (l := l)
  have sum := congrArg (entries held sem) whole
  rw [entries_append] at sum
  simp [insertPermit, fresh, sum]

theorem addPermission_entries_none {write l l'} (done : addPermission start stop write l true = some l')
    (apart : scan start stop l = none) : entries held sem l' = entries held sem l := by
  simp only [addPermission, apart] at done
  obtain rfl := Option.some.inj done
  exact insertPermit_entries rfl l

/-- The run goes with its entries, and the write tokens that are locked again come back. -/
theorem addPermission_entries {write l l' sc} (done : addPermission start stop write l true = some l')
    (found : scan start stop l = some sc) :
    entries held sem l' + entries held sem (sc.first :: sc.run) =
      entries held sem l + entries false sem (sc.relocked write) := by
  obtain ⟨merged, result, kept⟩ : ∃ merged, l' = sc.before ++ merged ++ sc.after ∧
      entries held sem merged = entries false sem (sc.relocked write) := by
    simp only [addPermission, found] at done
    cases write with
    | true =>
        obtain rfl := Option.some.inj done
        exact ⟨_, rfl, mergeWrite_entries sc⟩
    | false =>
        obtain ⟨merged, read, rfl⟩ := Option.map_eq_some_iff.mp done
        exact ⟨merged, rfl, mergeRead_entries read⟩
  rw [result, ← Scan.list_eq found, Scan.list]
  simp only [entries_append, entries_cons, kept]
  omega

/-- What is locked again was in the run, and the run in the list. -/
theorem Scan.relocked_entries (sc : Scan) (write : Bool) :
    entries false sem (sc.relocked write) ≤ entries false sem (sc.first :: sc.run) := by
  cases write with
  | true => exact Nat.zero_le _
  | false => exact entries_filter_le _ _

theorem Scan.run_entries {l sc} (found : scan start stop l = some sc) :
    entries held sem (sc.first :: sc.run) ≤ entries held sem l := by
  rw [← Scan.list_eq found, Scan.list]
  simp only [entries_append, entries_cons]
  omega

theorem addPermission_entries_le {write l l'} (done : addPermission start stop write l true = some l') :
    entries false sem l' ≤ entries false sem l := by
  cases found : scan start stop l with
  | none => exact (addPermission_entries_none done found).le
  | some sc =>
      have balance : entries false sem l' + entries false sem (sc.first :: sc.run) =
          entries false sem l + entries false sem (sc.relocked write) := addPermission_entries done found
      have fewer : entries false sem (sc.relocked write) ≤ entries false sem (sc.first :: sc.run) :=
        sc.relocked_entries write
      omega

/-- Unlocking pays what the locked tokens owe, and once more what is left on the
    unlocked ones. -/
theorem unlockPermission_entries (sem start stop : Nat) (l : List Permission) :
    entries true sem (PFSClient.unlockPermission start stop l) +
        entries false sem (l.filter fun p => p.isShared start stop) =
      entries true sem l + entries false sem (l.filter fun p => p.isShared start stop && !p.locked) := by
  induction l with
  | nil => rfl
  | cons p l ih =>
      have first : PFSClient.unlockPermission start stop (p :: l) =
          (if p.isShared start stop then p.unlock else p) :: PFSClient.unlockPermission start stop l := rfl
      rw [first, List.filter_cons, List.filter_cons]
      cases shared : p.isShared start stop <;> cases locked : p.locked <;>
        simp [-Permission.isShared_iff, locked, Permission.unlock] <;> omega

theorem unlockPermission_left (sem start stop : Nat) (l : List Permission) :
    entries false sem (PFSClient.unlockPermission start stop l) = entries false sem l := by
  simp only [entries, PFSClient.unlockPermission, List.map_map]
  congr 2
  funext p
  simp only [Function.comp]
  split <;> rfl

/-- The entries of a registration. -/
theorem noted_entries (sem' start stop : Nat) (l : List Permission) :
    entries held sem (l.map (TokenHolder.noted sem' start stop)) = entries held sem l +
      if sem = sem' then l.countP fun p => p.isShared start stop && (p.addWaitingSemaphore sem').2 else 0 := by
  induction l with
  | nil => simp
  | cons p l ih =>
      rw [List.map_cons, entries_cons, entries_cons, ih, List.countP_cons, TokenHolder.noted]
      cases shared : p.isShared start stop with
      | false => simp [-Permission.isShared_iff]; omega
      | true =>
          cases locked : p.locked with
          | false => simp [-Permission.isShared_iff, Permission.addWaitingSemaphore, locked]; omega
          | true =>
              by_cases same : sem = sem'
              · simp [-Permission.isShared_iff, Permission.addWaitingSemaphore, locked, same]; omega
              · simp [-Permission.isShared_iff, Permission.addWaitingSemaphore, locked, same, Ne.symm same]

theorem erasedRun_entries (run : List Permission) :
    entries held sem (cutRun start stop run) + entries held sem (erasedRun start stop run) = entries held sem run := by
  match run with
  | [] => rfl
  | [p] =>
      simp only [cutRun, cutOne, erasedRun, entries_append]
      split <;> split <;> simp
  | p :: q :: rest =>
      have last : rest.getLastD q = (q :: rest).getLast (List.cons_ne_nil q rest) :=
        (List.getLast_eq_getLastD _).symm
      have whole : q :: rest = (q :: rest).dropLast ++ [rest.getLastD q] := by
        rw [last, List.dropLast_append_getLast]
      have split : entries held sem (q :: rest) =
          entries held sem (q :: rest).dropLast + entries held sem [rest.getLastD q] := by
        conv_lhs => rw [whole, entries_append]
      rw [entries_cons, split]
      simp only [cutRun, erasedRun, entries_append]
      split <;> split <;> simp <;> omega

/-- What a revocation takes out of the list goes with its entries. -/
theorem revokePermission_entries (start stop : Nat) (l : List Permission) :
    entries held sem (revokePermission start stop l) + entries held sem (erased start stop l) = entries held sem l := by
  let untouched := fun p : Permission => !p.isShared start stop
  have cut : entries held sem (cutRun start stop ((l.dropWhile untouched).rdropWhile untouched)) +
      entries held sem (erased start stop l) = entries held sem ((l.dropWhile untouched).rdropWhile untouched) :=
    erasedRun_entries _
  conv_rhs => rw [← List.takeWhile_append_dropWhile (p := untouched) (l := l),
    ← List.rdropWhile_append_rtakeWhile (p := untouched) (l := l.dropWhile untouched)]
  have result : revokePermission start stop l = l.takeWhile untouched ++
      cutRun start stop ((l.dropWhile untouched).rdropWhile untouched) ++
      (l.dropWhile untouched).rtakeWhile untouched := rfl
  rw [result, entries_append, entries_append, entries_append, entries_append]
  omega

theorem erasedRun_sub {run : List Permission} {p : Permission} (member : p ∈ erasedRun start stop run) : p ∈ run := by
  match run with
  | [] => cases member
  | [q] => exact member
  | q :: q' :: rest =>
      simp only [erasedRun, List.mem_append] at member
      rcases member with (member | member) | member
      · split at member
        · cases member
        · rw [List.mem_singleton.mp member]
          exact List.mem_cons_self
      · exact List.mem_cons_of_mem q (List.dropLast_subset _ member)
      · split at member
        · cases member
        · rw [List.mem_singleton.mp member, ← List.getLast_eq_getLastD (List.cons_ne_nil q' rest)]
          exact List.mem_cons_of_mem q (List.getLast_mem _)

theorem erased_sub {l : List Permission} {p : Permission} (member : p ∈ erased start stop l) : p ∈ l :=
  (List.dropWhile_sublist _).subset ((List.rdropWhile_prefix _ _).subset (erasedRun_sub member))

theorem entries_le (l : List Permission) : entries true sem l ≤ entries false sem l := by
  induction l with
  | nil => exact Nat.le_refl 0
  | cons p l ih =>
      rw [entries_cons, entries_cons]
      split <;> simp <;> omega

end Entries

/-! ## One section -/

namespace Waiters

variable {w w' : Waiters}

/-- All the calls of `revokePermission` so far. -/
def calls (w : Waiters) : List Revocation := w.revocations ++ w.finished

/-- The entries with the tokens are those of calls, and a new semaphore is none of theirs. -/
structure Known (w : Waiters) : Prop where
  sems : ∀ r ∈ w.calls, r.sem < w.semCount
  entries : ∀ sem, 0 < entries false sem w.permissions → ∃ r ∈ w.calls, r.sem = sem

namespace Known

theorem initial : Known {} := by
  refine ⟨nofun, ?_⟩
  intro sem positive
  cases positive

theorem sub (known : w.Known) (same : ∀ r ∈ w.calls, r ∈ w'.calls) (back : ∀ r ∈ w'.calls, r ∈ w.calls)
    (count : w'.semCount = w.semCount)
    (fewer : ∀ sem, PFS.entries false sem w'.permissions ≤ PFS.entries false sem w.permissions) : w'.Known := by
  constructor
  · intro r member
    rw [count]
    exact known.sems r (back r member)
  · intro sem positive
    obtain ⟨r, member, rfl⟩ := known.entries sem (Nat.lt_of_lt_of_le positive (fewer sem))
    exact ⟨r, same r member, rfl⟩

/-- Tokens without entries of the calls have no entries. -/
theorem empty (known : w.Known) {held : Bool} {l : List Permission} (inside : ∀ p ∈ l, p ∈ w.permissions)
    (zero : ∀ r ∈ w.calls, PFS.entries held r.sem l = 0) {p : Permission} (member : p ∈ l)
    (locked : held = true → p.locked = true) : p.waitingSemaphores = [] := by
  apply List.eq_nil_iff_forall_not_mem.mpr
  intro sem left
  have positive : 0 < PFS.entries false sem w.permissions := by
    apply Nat.pos_of_ne_zero
    intro none
    exact entries_eq_zero.mp none p (inside p member) (Not.elim Bool.false_ne_true) left
  obtain ⟨r, call, rfl⟩ := known.entries sem positive
  exact entries_eq_zero.mp (zero r call) p member locked left

end Known

/-- `addPermission` comes back with a new list. -/
theorem addPermission_cases {start stop : Nat} {write : Bool} (done : w.addPermission start stop write = some w') :
    ∃ permissions, PFS.addPermission start stop write w.permissions true = some permissions ∧
      w' = { w with permissions := permissions } := by
  obtain ⟨permissions, added, rfl⟩ := Option.map_eq_some_iff.mp done
  exact ⟨permissions, added, rfl⟩

/-- A call that has got its posts takes its range from the list and returns. -/
theorem complete_cases {i : Nat} (done : w.complete i = some w') :
    ∃ r, w.revocations[i]? = some r ∧ r.count ≤ w.posts r.sem ∧
      w' = { w with
        permissions := PFS.revokePermission r.start r.stop w.permissions
        revocations := w.revocations.eraseIdx i
        finished := w.finished ++ [r] } := by
  simp only [complete, TokenHolder.complete, Option.bind_eq_bind] at done
  obtain ⟨r, here, done⟩ := Option.bind_eq_some_iff.mp done
  rw [here, Option.bind_some] at done
  obtain ⟨holder, section₂, done⟩ := Option.bind_eq_some_iff.mp done
  obtain ⟨ready, section₂⟩ := Option.ite_none_right_eq_some.mp section₂
  obtain rfl := Option.some.inj section₂
  exact ⟨r, here, ready, (Option.some.inj done).symm⟩

theorem mem_complete_calls {i : Nat} {r other : Revocation} (here : w.revocations[i]? = some r) :
    other ∈ w.revocations.eraseIdx i ++ (w.finished ++ [r]) ↔ other ∈ w.calls := by
  have perm := List.getElem_cons_eraseIdx_perm (List.getElem?_eq_some_iff.mp here).1
  rw [(List.getElem?_eq_some_iff.mp here).2] at perm
  simp only [calls, List.mem_append, ← perm.mem_iff, List.mem_cons]
  tauto

/-- The entries after a registration: one for each token the call has to wait for. -/
theorem register_entries (w : Waiters) (held : Bool) (sem start stop : Nat) :
    PFS.entries held sem (w.register start stop).permissions = PFS.entries held sem w.permissions +
      if sem = w.semCount then
        w.permissions.countP fun p => p.isShared start stop && (p.addWaitingSemaphore w.semCount).2
      else 0 :=
  noted_entries w.semCount start stop w.permissions

theorem mem_register_calls {start stop : Nat} {r : Revocation} :
    r ∈ (w.register start stop).calls ↔ r ∈ w.calls ∨ r = ⟨start, stop, w.semCount,
      w.permissions.countP fun p => p.isShared start stop && (p.addWaitingSemaphore w.semCount).2⟩ := by
  simp only [calls, register, TokenHolder.register, List.mem_append, List.mem_singleton]
  tauto

theorem Known.step (known : w.Known) {s : Section} (done : w.exec s = some w') : w'.Known := by
  cases s with
  | addPermission start stop write =>
      obtain ⟨permissions, added, rfl⟩ := addPermission_cases done
      exact known.sub (fun _ member => member) (fun _ member => member) rfl fun sem => addPermission_entries_le added
  | unlockPermission start stop =>
      obtain rfl := Option.some.inj done
      exact known.sub (fun _ member => member) (fun _ member => member) rfl
        fun sem => (unlockPermission_left sem start stop w.permissions).le
  | register start stop =>
      obtain rfl := Option.some.inj done
      constructor
      · intro r member
        rcases mem_register_calls.mp member with old | rfl
        · exact Nat.lt_succ_of_lt (known.sems r old)
        · exact Nat.lt_succ_self _
      · intro sem positive
        rw [register_entries] at positive
        by_cases new : sem = w.semCount
        · exact ⟨_, mem_register_calls.mpr (.inr rfl), new.symm⟩
        · rw [if_neg new, Nat.add_zero] at positive
          obtain ⟨r, member, same⟩ := known.entries sem positive
          exact ⟨r, mem_register_calls.mpr (.inl member), same⟩
  | complete i =>
      obtain ⟨r, here, -, rfl⟩ := complete_cases done
      refine known.sub (fun other => (mem_complete_calls here).mpr) (fun other => (mem_complete_calls here).mp) rfl ?_
      intro sem
      have split : PFS.entries false sem (PFS.revokePermission r.start r.stop w.permissions) +
          PFS.entries false sem (erased r.start r.stop w.permissions) = PFS.entries false sem w.permissions :=
        revokePermission_entries r.start r.stop w.permissions
      exact Nat.le.intro split

/-! ### Exactness after one section -/

/-- What a call has got and is owed. -/
def total (w : Waiters) (sem : Nat) : Nat := w.posts sem + PFS.entries true sem w.permissions

namespace Exact

theorem initial : Exact {} := ⟨nofun, nofun⟩

theorem total_eq (exact : w.Exact) {r : Revocation} (call : r ∈ w.calls) : w.total r.sem = r.count := by
  rcases List.mem_append.mp call with waiting | returned
  · exact exact.waiting r waiting
  · obtain ⟨posted, none⟩ := exact.returned r returned
    rw [total, posted, none, Nat.add_zero]

/-- Nothing is promised or lost, and posts are not taken back. -/
theorem keep (exact : w.Exact) (waiting : w'.revocations = w.revocations) (returned : w'.finished = w.finished)
    (same : ∀ r ∈ w.calls, w'.total r.sem = w.total r.sem) (more : ∀ sem, w.posts sem ≤ w'.posts sem) : w'.Exact := by
  constructor
  · intro r member
    rw [waiting] at member
    have call := List.mem_append_left w.finished member
    exact (same r call).trans (exact.total_eq call)
  · intro r member
    rw [returned] at member
    have call := List.mem_append_right w.revocations member
    have sum := (same r call).trans (exact.total_eq call)
    have posted := (exact.returned r member).1
    have grown := more r.sem
    rw [total] at sum
    omega

theorem addPermission_iff (exact : w.Exact) (known : w.Known) {start stop : Nat} {write : Bool}
    (done : w.addPermission start stop write = some w') :
    w'.Exact ↔ w.Spares (.addPermission start stop write) := by
  obtain ⟨permissions, added, rfl⟩ := addPermission_cases done
  constructor
  · intro exact' sc found sem
    have balance : PFS.entries true sem permissions + PFS.entries true sem (sc.first :: sc.run) =
        PFS.entries true sem w.permissions + PFS.entries false sem (sc.relocked write) := addPermission_entries added found
    by_cases some : 0 < PFS.entries false sem w.permissions
    · obtain ⟨r, call, rfl⟩ := known.entries sem some
      have before := exact.total_eq call
      have after := exact'.total_eq call
      simp only [total] at before after
      omega
    · have run : PFS.entries false sem (sc.first :: sc.run) ≤ PFS.entries false sem w.permissions :=
        Scan.run_entries found
      have due : PFS.entries true sem (sc.first :: sc.run) ≤ PFS.entries false sem (sc.first :: sc.run) := entries_le _
      have locked : PFS.entries false sem (sc.relocked write) ≤ PFS.entries false sem (sc.first :: sc.run) :=
        sc.relocked_entries write
      omega
  · intro spares
    refine exact.keep rfl rfl ?_ fun sem => Nat.le_refl _
    intro r _
    cases found : scan start stop w.permissions with
    | none => exact congrArg (w.posts r.sem + ·) (addPermission_entries_none added found)
    | some sc =>
        have balance : PFS.entries true r.sem permissions + PFS.entries true r.sem (sc.first :: sc.run) =
            PFS.entries true r.sem w.permissions + PFS.entries false r.sem (sc.relocked write) :=
          addPermission_entries added found
        have spared := spares sc found r.sem
        simp only [total]
        omega

theorem unlockPermission_iff (exact : w.Exact) (known : w.Known) {start stop : Nat} :
    (w.unlockPermission start stop).Exact ↔ w.Spares (.unlockPermission start stop) := by
  have balance : ∀ sem, (w.unlockPermission start stop).total sem = w.total sem +
      PFS.entries false sem (w.permissions.filter fun p => p.isShared start stop && !p.locked) := by
    intro sem
    have paid := unlockPermission_entries sem start stop w.permissions
    simp only [total, unlockPermission]
    omega
  constructor
  · intro exact' p member shared unlocked
    have stale : p ∈ w.permissions.filter fun p => p.isShared start stop && !p.locked := by
      rw [List.mem_filter, shared, unlocked]
      exact ⟨member, rfl⟩
    refine known.empty (fun q inside => (List.mem_filter.mp inside).1) ?_ stale (Not.elim Bool.false_ne_true)
    intro r call
    have before := exact.total_eq call
    have after : (w.unlockPermission start stop).total r.sem = r.count := exact'.total_eq call
    rw [balance, before] at after
    omega
  · intro spares
    refine exact.keep rfl rfl ?_ fun sem => Nat.le_add_right _ _
    intro r _
    rw [balance, entries_eq_zero.mpr, Nat.add_zero]
    intro p member _ left
    obtain ⟨inside, both⟩ := List.mem_filter.mp member
    obtain ⟨shared, unlocked⟩ := (Bool.and_eq_true _ _).mp both
    rw [spares p inside shared (by simpa using unlocked)] at left
    cases left

theorem register (exact : w.Exact) (known : w.Known) (start stop : Nat) : (w.register start stop).Exact := by
  have old : ∀ r ∈ w.calls, (w.register start stop).posts r.sem = w.posts r.sem ∧
      PFS.entries true r.sem (w.register start stop).permissions = PFS.entries true r.sem w.permissions := by
    intro r call
    have other : r.sem ≠ w.semCount := Nat.ne_of_lt (known.sems r call)
    rw [register_entries, if_neg other, Nat.add_zero]
    exact ⟨Function.update_of_ne other _ _, rfl⟩
  constructor
  · intro r member
    rcases List.mem_append.mp member with waiting | new
    · obtain ⟨posts, due⟩ := old r (List.mem_append_left _ waiting)
      rw [posts, due]
      exact exact.waiting r waiting
    · obtain rfl := List.mem_singleton.mp new
      have fresh : PFS.entries true w.semCount w.permissions = 0 := by
        by_contra some
        obtain ⟨r, call, same⟩ := known.entries w.semCount
          (Nat.lt_of_lt_of_le (Nat.pos_of_ne_zero some) (entries_le w.permissions))
        exact Nat.lt_irrefl _ (same ▸ known.sems r call)
      rw [register_entries, if_pos rfl, fresh, Nat.zero_add]
      simp only [Waiters.register, TokenHolder.register, Function.update_self, Nat.zero_add]
  · intro r returned
    obtain ⟨posts, due⟩ := old r (List.mem_append_right _ returned)
    rw [posts, due]
    exact exact.returned r returned

theorem complete_iff (exact : w.Exact) (known : w.Known) {i : Nat} (done : w.complete i = some w') :
    w'.Exact ↔ w.Spares (.complete i) := by
  obtain ⟨r, here, ready, rfl⟩ := complete_cases done
  have split : ∀ sem, PFS.entries true sem (PFS.revokePermission r.start r.stop w.permissions) +
      PFS.entries true sem (erased r.start r.stop w.permissions) = PFS.entries true sem w.permissions :=
    fun sem => revokePermission_entries r.start r.stop w.permissions
  constructor
  · intro exact' other same p member locked
    obtain rfl := Option.some.inj (here.symm.trans same)
    have none : ∀ caller ∈ w.calls, PFS.entries true caller.sem (erased r.start r.stop w.permissions) = 0 := by
      intro caller call
      have before := exact.total_eq call
      have after := exact'.total_eq ((mem_complete_calls here).mpr call)
      have sum := split caller.sem
      simp only [total] at before after
      omega
    exact known.empty (fun q inside => erased_sub inside) none member fun _ => locked
  · intro spares
    have kept : ∀ sem, PFS.entries true sem (PFS.revokePermission r.start r.stop w.permissions) =
        PFS.entries true sem w.permissions := by
      intro sem
      have none : PFS.entries true sem (erased r.start r.stop w.permissions) = 0 := by
        rw [entries_eq_zero]
        intro p member locked left
        rw [spares r here p member (locked rfl)] at left
        cases left
      have sum := split sem
      omega
    constructor
    · intro other waiting
      simp only [kept]
      exact exact.waiting other (List.mem_of_mem_eraseIdx waiting)
    · intro other returned
      simp only [kept]
      rcases List.mem_append.mp returned with old | new
      · exact exact.returned other old
      · obtain rfl := List.mem_singleton.mp new
        have sum := exact.waiting other (List.mem_of_getElem? here)
        omega

/-- One section keeps the account exactly when it spares the entries. -/
theorem step_iff (exact : w.Exact) (known : w.Known) {s : Section} (done : w.exec s = some w') :
    w'.Exact ↔ w.Spares s := by
  cases s with
  | addPermission start stop write => exact exact.addPermission_iff known done
  | unlockPermission start stop =>
      obtain rfl := Option.some.inj done
      exact exact.unlockPermission_iff known
  | register start stop =>
      obtain rfl := Option.some.inj done
      exact iff_of_true (exact.register known start stop) trivial
  | complete i => exact exact.complete_iff known done

/-- With an exact account the posts go to calls that wait. -/
theorem wakes (exact : w.Exact) (known : w.Known) {start stop : Nat} (exact' : (w.unlockPermission start stop).Exact) :
    w.WakesWaiting (w.unlockPermission start stop) := by
  intro sem posted
  have some : 0 < PFS.entries false sem (w.permissions.filter fun p => p.isShared start stop) := by
    simp only [unlockPermission] at posted
    omega
  obtain ⟨r, call, rfl⟩ := known.entries sem (Nat.lt_of_lt_of_le some (entries_filter_le _ _))
  rcases List.mem_append.mp call with waiting | returned
  · exact ⟨r, waiting, rfl, Nat.le.intro (exact'.waiting r waiting)⟩
  · have before := (exact.returned r returned).1
    have after := (exact'.returned r returned).1
    omega

end Exact

/-! ## Runs -/

theorem run_known {sections : List Section} (ran : machine.run {} sections = some w) : w.Known := by
  induction sections using List.reverseRecOn generalizing w with
  | nil =>
      obtain rfl := Option.some.inj ran
      exact .initial
  | append_singleton before s ih =>
      obtain ⟨v, front, -, done⟩ := machine.run_snoc.mp ran
      exact (ih front).step done

theorem run_exact {sections : List Section}
    (spares : ∀ before s w w', before ++ [s] <+: sections → machine.run {} before = some w → w.exec s = some w' →
      w.Spares s) (ran : machine.run {} sections = some w) : w.Exact := by
  induction sections using List.reverseRecOn generalizing w with
  | nil =>
      obtain rfl := Option.some.inj ran
      exact .initial
  | append_singleton before s ih =>
      obtain ⟨v, front, -, done⟩ := machine.run_snoc.mp ran
      have exact := ih (fun earlier s w w' sub => spares earlier s w w' (sub.trans (List.prefix_append _ _))) front
      exact (exact.step_iff (run_known front) done).mpr (spares before s v w (List.prefix_refl _) front done)

/-- In every interleaving the posts of each `unlockPermission` go to calls of
    `revokePermission` that still wait, and every call gets as many as it registered,
    as long as every section spares the entries; and not from the first one on that does
    not. -/
theorem wakeups_iff (sections : List Section) :
    (∀ before w, before <+: sections → machine.run {} before = some w →
        w.Exact ∧ ∀ start stop, before ++ [.unlockPermission start stop] <+: sections →
          w.WakesWaiting (w.unlockPermission start stop)) ↔
      ∀ before s w w', before ++ [s] <+: sections → machine.run {} before = some w → w.exec s = some w' →
        w.Spares s := by
  constructor
  · intro all before s w w' sub front done
    have next : machine.run {} (before ++ [s]) = some w' := machine.run_snoc.mpr ⟨w, front, trivial, done⟩
    have here := (all before w ((List.prefix_append _ _).trans sub) front).1
    exact (here.step_iff (run_known front) done).mp (all _ w' sub next).1
  · intro spares before w sub ran
    have exact := run_exact (fun earlier s w w' sub' => spares earlier s w w' (sub'.trans sub)) ran
    refine ⟨exact, fun start stop next => ?_⟩
    have unlocked := (exact.unlockPermission_iff (run_known ran)).mpr (spares before _ w _ next ran rfl)
    exact exact.wakes (run_known ran) unlocked

/-- A writes bytes 0 to 10 and reads bytes 10 to 20, which locks the write token again.  A
    revocation of bytes 5 to 15 registers with both tokens, the read and one more call on
    bytes 0 to 10 unlock them, and it returns. -/
def served : List Section := [.addPermission 0 10 true, .unlockPermission 0 10, .addPermission 10 20 false,
  .register 5 15, .unlockPermission 10 20, .unlockPermission 0 10, .complete 0]

/-- The entry is still with the token of bytes 0 to 5, so the next call there posts to the
    semaphore of the call that has returned. -/
theorem served_postedAgain : ∃ w, machine.run {} served = some w ∧ w.revocations.isEmpty ∧
    w.finished.map Revocation.count = [2] ∧ w.posts 0 = 2 ∧ (w.unlockPermission 0 5).posts 0 = 3 ∧
      ¬ w.WakesWaiting (w.unlockPermission 0 5) := by
  refine ⟨_, rfl, rfl, rfl, rfl, rfl, fun wakes => ?_⟩
  obtain ⟨r, member, -⟩ := wakes 0 (by decide)
  cases member

end Waiters

end PFS
