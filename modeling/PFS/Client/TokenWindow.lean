import PFS.Client.PFSClient
import PFS.Locked
import PFS.Lib.Reachable
import Mathlib.Algebra.GroupWithZero.Nat

/-! # Tokens in use

A call keeps its token from `acquirePermission` to `unlockPermission`, while
`RevokePermission` requests are served by other threads.  A request first leaves
a semaphore with every locked token of its range, then waits for as many posts as
tokens it found locked, then takes its range from the list.  A token that comes
with a reply is locked, one that `acquirePermission` finds in the list is not.
-/

namespace PFS

open Lib

/-- A `RevokePermission` that waits for `count` posts of its semaphore. -/
structure Revocation where
  start : Nat
  stop : Nat
  sem : Nat
  count : Nat

/-- What the application thread is doing.  While it is `working` it has the
    pieces `rest` still to read or write; `found` says that it found its token in
    the list. -/
inductive App where
  | idle
  | requesting (offset nbyte : Nat) (write : Bool)
  | working (offset nbyte : Nat) (write found : Bool) (rest : List (Nat × Nat))

/-- The tokens of an open file and the threads that use them; `posts` are the
    values of the semaphores. -/
structure TokenHolder where
  permissions : List Permission := []
  app : App := .idle
  revocations : List Revocation := []
  posts : Nat → Nat := fun _ => 0
  semCount : Nat := 0

namespace TokenHolder

/-- `acquirePermission` up to the RPC. -/
def acquire (h : TokenHolder) (offset nbyte : Nat) (write : Bool) : Option TokenHolder :=
  match h.app with
  | .idle =>
      some { h with
        app :=
          if hasPermission offset (offset + nbyte) write h.permissions then
            .working offset nbyte write true (pieces offset nbyte)
          else .requesting offset nbyte write }
  | _ => none

/-- `acquirePermission` from the reply on. -/
def granted (h : TokenHolder) (grantStart grantStop : Nat) : Option TokenHolder :=
  match h.app with
  | .requesting offset nbyte write =>
      (addPermission grantStart grantStop write h.permissions true).map fun permissions =>
        { h with permissions := permissions, app := .working offset nbyte write false (pieces offset nbyte) }
  | _ => none

/-- One turn of the loop of `readFile` or `writeFile`, which always succeeds here: the
    semaphores of the cache, for which `addBlock` may wait for ever, are left out. -/
def block (h : TokenHolder) : Option TokenHolder :=
  match h.app with
  | .working offset nbyte write found (_ :: rest) => some { h with app := .working offset nbyte write found rest }
  | _ => none

/-- `unlockPermission`: posts to the semaphores left with the tokens. -/
def unlock (h : TokenHolder) : Option TokenHolder :=
  match h.app with
  | .working offset nbyte _ _ [] =>
      some { h with
        app := .idle
        permissions := PFSClient.unlockPermission offset (offset + nbyte) h.permissions
        posts := fun sem => h.posts sem +
          ((h.permissions.filter (fun p => p.isShared offset (offset + nbyte))).map
            (fun p => p.waitingSemaphores.count sem)).sum }
  | _ => none

/-- The first critical section of `revokePermission`. -/
def register (h : TokenHolder) (start stop : Nat) : TokenHolder :=
  { h with
    permissions := h.permissions.map fun p =>
      if p.isShared start stop then (p.addWaitingSemaphore h.semCount).1 else p
    revocations := h.revocations ++ [{
      start := start
      stop := stop
      sem := h.semCount
      count := h.permissions.countP fun p => p.isShared start stop && (p.addWaitingSemaphore h.semCount).2 }]
    posts := Function.update h.posts h.semCount 0
    semCount := h.semCount + 1 }

/-- The second critical section of `revokePermission`, after the waiting. -/
def complete (h : TokenHolder) (i : Nat) : Option TokenHolder := do
  let r ← h.revocations[i]?
  if r.count ≤ h.posts r.sem then
    some { h with
      permissions := PFS.revokePermission r.start r.stop h.permissions
      revocations := h.revocations.eraseIdx i }
  else none

/-- The request a client waits for. -/
def request : App → Option (Nat × Nat × Bool)
  | .requesting offset nbyte write => some (offset, nbyte, write)
  | _ => none

/-- A step of one of the threads. -/
inductive Event where
  | acquire (offset nbyte : Nat) (write : Bool)
  | granted (grantStart grantStop : Nat)
  | block
  | unlock
  | register (start stop : Nat)
  | complete (i : Nat)

/-- A reply grants the requested range or the whole file. -/
def answers (grantStart grantStop : Nat) : App → Bool
  | .requesting offset nbyte _ =>
      (grantStart = offset && grantStop = offset + nbyte) || (grantStart = 0 && grantStop = intMax)
  | _ => false

/-- The ranges of calls, replies and revocations. -/
def allowed (h : TokenHolder) : Event → Prop
  | .acquire offset nbyte _ => 1 ≤ nbyte ∧ offset + nbyte < uint32Size
  | .granted grantStart grantStop => answers grantStart grantStop h.app = true
  | .register start stop => start ≤ stop ∧ stop < uint32Size
  | _ => True

def exec (h : TokenHolder) : Event → Option TokenHolder
  | .acquire offset nbyte write => h.acquire offset nbyte write
  | .granted grantStart grantStop => h.granted grantStart grantStop
  | .block => h.block
  | .unlock => h.unlock
  | .register start stop => some (h.register start stop)
  | .complete i => h.complete i

def machine : Machine TokenHolder Event := ⟨allowed, exec⟩

instance (h : TokenHolder) : (e : Event) → Decidable (machine.allowed h e)
  | .acquire _ _ _ | .register _ _ => inferInstanceAs (Decidable (_ ∧ _))
  | .granted _ _ => inferInstanceAs (Decidable (_ = true))
  | .block | .unlock | .complete _ => isTrue trivial

/-- A client that has just opened the file. -/
def Initial (h : TokenHolder) : Prop := h = {}

/-! ## When tokens stay -/

end TokenHolder

/-- The revocation leaves the range alone. -/
def Revocation.Avoids (r : Revocation) (start stop : Nat) : Prop := r.stop ≤ start ∨ stop ≤ r.start

instance (r : Revocation) (start stop : Nat) : Decidable (r.Avoids start stop) := inferInstanceAs (Decidable (_ ∨ _))

namespace TokenHolder

/-- The range of a call that found its token, so that nothing is locked for it. -/
def foundRange : App → Option (Nat × Nat)
  | .working offset nbyte _ true _ => some (offset, offset + nbyte)
  | _ => none

/-- No revocation meets a call that found its token, and none that has left its
    semaphores already meets a token that a reply brings or widens.  Tokens are in
    order when a call gets its own. -/
def Safe (h : TokenHolder) : Event → Prop
  | .acquire offset nbyte write =>
      offset + nbyte ≤ intMax ∧ (hasPermission offset (offset + nbyte) write h.permissions = true →
        Ordered h.permissions ∧ ∀ r ∈ h.revocations, r.Avoids offset (offset + nbyte))
  | .granted grantStart grantStop =>
      Ordered h.permissions ∧ ∀ r ∈ h.revocations, r.Avoids grantStart grantStop ∧
        ∀ p ∈ touching grantStart grantStop h.permissions, r.Avoids p.start p.stop
  | .register start stop =>
      start < stop ∧ stop ≤ intMax ∧ ∀ range ∈ foundRange h.app, stop ≤ range.1 ∨ range.2 ≤ start
  | _ => True

instance (h : TokenHolder) : (e : Event) → Decidable (h.Safe e)
  | .acquire _ _ _ => inferInstanceAs (Decidable (_ ∧ (_ → _ ∧ _)))
  | .granted _ _ => inferInstanceAs (Decidable (_ ∧ ∀ r ∈ _, _ ∧ _))
  | .register _ _ => inferInstanceAs (Decidable (_ ∧ _ ∧ ∀ range ∈ foundRange h.app, _))
  | .block | .unlock | .complete _ => isTrue trivial

def safe : Machine TokenHolder Event := ⟨fun h e => machine.allowed h e ∧ h.Safe e, exec⟩

instance (h : TokenHolder) (e : Event) : Decidable (safe.allowed h e) := inferInstanceAs (Decidable (_ ∧ _))

end TokenHolder

/-! ## The window of a call -/

namespace TokenHolder

variable {h h' : TokenHolder}

/-- What registering does to a token. -/
def noted (sem start stop : Nat) (p : Permission) : Permission :=
  if p.isShared start stop then (p.addWaitingSemaphore sem).1 else p

theorem noted_bare (sem start stop : Nat) (p : Permission) : (noted sem start stop p).bare = p.bare := by
  simp only [noted, Permission.addWaitingSemaphore]
  split
  · split <;> rfl
  · rfl

theorem noted_locked (sem start stop : Nat) (p : Permission) : (noted sem start stop p).locked = p.locked := by
  simp only [noted, Permission.addWaitingSemaphore]
  split
  · split
    · next locked => exact locked.symm ▸ rfl
    · rfl
  · rfl

theorem bareList_noted (sem start stop : Nat) (l : List Permission) :
    bareList (l.map (noted sem start stop)) = bareList l := by
  simp only [bareList, List.map_map, Function.comp_def, noted_bare]

/-- A call that found its token: nobody takes away from its range. -/
structure FoundWindow (h : TokenHolder) (offset nbyte : Nat) (write : Bool) : Prop where
  ordered : Ordered h.permissions
  covers : ∀ b, offset ≤ b → b < offset + nbyte → Grants h.permissions write b
  avoids : ∀ r ∈ h.revocations, r.Avoids offset (offset + nbyte)

/-- A call that got its token with a reply: the tokens `K` are locked, and who
    wants them waits. -/
structure LockedWindow (h : TokenHolder) (offset nbyte : Nat) (write : Bool) (g : Nat) (A K B : List Permission) :
    Prop where
  split : h.permissions = A ++ K ++ B
  front : ∀ p ∈ A, p.stop ≤ g
  back : ∀ p ∈ B, g ≤ p.start
  center : ∃ p ∈ K, p.Covers g
  locked : ∀ p ∈ K, p.locked = true
  covers : ∀ b, offset ≤ b → b < offset + nbyte → Grants K write b
  waits : ∀ r ∈ h.revocations, (∀ p ∈ K, r.Avoids p.start p.stop) ∨ h.posts r.sem < r.count

/-- The token of a running call is there. -/
def Kept (h : TokenHolder) : Prop :=
  match h.app with
  | .idle => True
  | .requesting offset nbyte _ => 1 ≤ nbyte ∧ offset + nbyte ≤ intMax
  | .working offset nbyte write true _ => h.FoundWindow offset nbyte write
  | .working offset nbyte write false _ => ∃ g A K B, h.LockedWindow offset nbyte write g A K B

structure Inv (h : TokenHolder) : Prop where
  small : Bounded h.permissions
  ranges : ∀ r ∈ h.revocations, r.start < r.stop ∧ r.stop ≤ intMax
  kept : h.Kept

/-- Who takes away from a token the call has locked has to wait. -/
theorem LockedWindow.overlap {offset nbyte g : Nat} {write : Bool} {A K B : List Permission}
    (w : h.LockedWindow offset nbyte write g A K B) {r : Revocation} (member : r ∈ h.revocations) {b : Nat}
    (inside : offset ≤ b ∧ b < offset + nbyte) (taken : r.start ≤ b ∧ b < r.stop) : h.posts r.sem < r.count := by
  rcases w.waits r member with avoids | waits
  · obtain ⟨p, held, -, low, high⟩ := w.covers b inside.1 inside.2
    have := avoids p held
    simp only [Revocation.Avoids] at this
    omega
  · exact waits

theorem avoids_iff {r : Revocation} {p : Permission} :
    r.Avoids p.start p.stop ↔ p.isShared r.start r.stop = false := by
  rw [← Bool.not_eq_true, Permission.isShared_iff, Revocation.Avoids]
  omega

/-- A call gets a locked token. -/
theorem granted_window (inv : h.Inv) {grantStart grantStop offset nbyte : Nat} {write : Bool}
    {permissions : List Permission} (ordered : Ordered h.permissions) (range : grantStart < grantStop)
    (smallStop : grantStop ≤ intMax) (inside : grantStart ≤ offset ∧ offset + nbyte ≤ grantStop)
    (avoids : ∀ r ∈ h.revocations, r.Avoids grantStart grantStop ∧
      ∀ p ∈ touching grantStart grantStop h.permissions, r.Avoids p.start p.stop)
    (added : addPermission grantStart grantStop write h.permissions true = some permissions) (app : App) :
    ∃ A K B, LockedWindow { h with permissions := permissions, app := app } offset nbyte write grantStart A K B := by
  obtain ⟨A, K, B, run⟩ := addPermission_locks ordered (Nat.le_of_lt range) smallStop added
  refine ⟨A, K, B, run.split, run.front, run.back, ?_, run.locked, ?_, ?_⟩
  · obtain ⟨p, member, -, covers⟩ := run.covers grantStart (Nat.le_refl _) range
    exact ⟨p, member, covers⟩
  · intro b low high
    exact run.covers b (by omega) (by omega)
  · intro r member
    left
    obtain ⟨grant, touched⟩ := avoids r member
    obtain ⟨forward, -⟩ := inv.ranges r member
    have place : ∀ t ∈ touching grantStart grantStop h.permissions, t.start ≤ grantStop ∧ grantStart ≤ t.stop :=
      fun t inside => Permission.isInclusiveShared_iff.mp (List.mem_filter.mp inside).2
    have held : ∀ t ∈ touching grantStart grantStop h.permissions, t.stop ≤ intMax :=
      fun t inside => (inv.small t (List.mem_filter.mp inside).1).2
    rcases grant with before | behind
    · have all := run.between r.stop intMax before smallStop (fun t inside => by
        have := touched t inside
        have := place t inside
        have := held t inside
        simp only [Revocation.Avoids] at *
        omega)
      exact fun p inside => .inl (all p inside).1
    · have all := run.between 0 r.start (Nat.zero_le _) behind (fun t inside => by
        have := touched t inside
        have := place t inside
        simp only [Revocation.Avoids] at *
        omega)
      exact fun p inside => .inr (all p inside).2

theorem register_window {start stop offset nbyte g : Nat} {write : Bool} {A K B : List Permission}
    (w : h.LockedWindow offset nbyte write g A K B) :
    (h.register start stop).LockedWindow offset nbyte write g (A.map (noted h.semCount start stop))
      (K.map (noted h.semCount start stop)) (B.map (noted h.semCount start stop)) := by
  have startEq : ∀ p, (noted h.semCount start stop p).start = p.start :=
    fun p => (Permission.fields_of_bare (noted_bare h.semCount start stop p)).1
  have stopEq : ∀ p, (noted h.semCount start stop p).stop = p.stop :=
    fun p => (Permission.fields_of_bare (noted_bare h.semCount start stop p)).2.1
  have fewer : ∀ sem, (h.register start stop).posts sem ≤ h.posts sem := by
    intro sem
    simp only [register]
    by_cases same : sem = h.semCount
    · rw [same, Function.update_self]
      exact Nat.zero_le _
    · rw [Function.update_of_ne same]
  refine ⟨?_, ?_, ?_, ?_, ?_, ?_, ?_⟩
  · rw [← List.map_append, ← List.map_append, ← w.split]
    rfl
  · intro p member
    obtain ⟨q, inside, rfl⟩ := List.mem_map.mp member
    rw [stopEq]
    exact w.front q inside
  · intro p member
    obtain ⟨q, inside, rfl⟩ := List.mem_map.mp member
    rw [startEq]
    exact w.back q inside
  · obtain ⟨p, inside, low, high⟩ := w.center
    refine ⟨_, List.mem_map_of_mem inside, ?_, ?_⟩
    · rw [startEq]; exact low
    · rw [stopEq]; exact high
  · intro p member
    obtain ⟨q, inside, rfl⟩ := List.mem_map.mp member
    rw [noted_locked]
    exact w.locked q inside
  · intro b low high
    exact grants_congr (bareList_noted _ _ _ _) (w.covers b low high)
  · intro r member
    have avoidsMap : (∀ p ∈ K, r.Avoids p.start p.stop) →
        ∀ p ∈ K.map (noted h.semCount start stop), r.Avoids p.start p.stop := by
      intro avoids p member
      obtain ⟨q, inside, rfl⟩ := List.mem_map.mp member
      rw [startEq, stopEq]
      exact avoids q inside
    rcases List.mem_append.mp member with member | member
    · exact (w.waits r member).imp avoidsMap (fun waits => (fewer r.sem).trans_lt waits)
    · by_cases avoids : ∀ p ∈ K, r.Avoids p.start p.stop
      · exact .inl (avoidsMap avoids)
      · right
        push Not at avoids
        obtain ⟨p, inside, meets⟩ := avoids
        obtain rfl := List.mem_singleton.mp member
        rw [avoids_iff, Bool.not_eq_false] at meets
        have counted : 0 < h.permissions.countP fun p =>
            p.isShared start stop && (p.addWaitingSemaphore h.semCount).2 := by
          rw [List.countP_pos_iff]
          refine ⟨p, ?_, ?_⟩
          · rw [w.split]
            exact List.mem_append_left _ (List.mem_append_right _ inside)
          · simp only [Permission.addWaitingSemaphore, w.locked p inside, if_true, Bool.and_true]
            exact meets
        simp only [register, Function.update_self]
        exact counted

theorem complete_window (inv : h.Inv) {i offset nbyte g : Nat} {write : Bool} {A K B : List Permission}
    (w : h.LockedWindow offset nbyte write g A K B) (done : h.complete i = some h') :
    ∃ A' B', h'.LockedWindow offset nbyte write g A' K B' := by
  simp only [complete, Option.bind_eq_bind] at done
  obtain ⟨r, at_i, done⟩ := Option.bind_eq_some_iff.mp done
  obtain ⟨ready, done⟩ := Option.ite_none_right_eq_some.mp done
  obtain rfl := Option.some.inj done
  have member := List.mem_of_getElem? at_i
  have avoids := (w.waits r member).resolve_right (by omega)
  obtain ⟨A', B', result, front, back⟩ := revokePermission_around (Nat.le_of_lt (inv.ranges r member).1) w.front w.back
    w.center (fun p inside => avoids_iff.mp (avoids p inside))
  refine ⟨A', B', ?_, front, back, w.center, w.locked, w.covers, ?_⟩
  · simp only
    rw [w.split, result]
  · intro r' inside
    exact w.waits r' (List.mem_of_mem_eraseIdx inside)

theorem complete_found (inv : h.Inv) {i offset nbyte : Nat} {write : Bool} (w : h.FoundWindow offset nbyte write)
    (done : h.complete i = some h') : h'.FoundWindow offset nbyte write := by
  simp only [complete, Option.bind_eq_bind] at done
  obtain ⟨r, at_i, done⟩ := Option.bind_eq_some_iff.mp done
  obtain ⟨-, done⟩ := Option.ite_none_right_eq_some.mp done
  obtain rfl := Option.some.inj done
  have member := List.mem_of_getElem? at_i
  have avoids := w.avoids r member
  simp only [Revocation.Avoids] at avoids
  refine ⟨revokePermission_ordered w.ordered (Nat.le_of_lt (inv.ranges r member).1), ?_, ?_⟩
  · intro b low high
    exact revokePermission_keeps w.ordered (by omega) (w.covers b low high)
  · intro r' inside
    exact w.avoids r' (List.mem_of_mem_eraseIdx inside)

theorem register_inv (inv : h.Inv) {start stop : Nat} (safely : h.Safe (.register start stop)) :
    (h.register start stop).Inv := by
  obtain ⟨forward, smallStop, apart⟩ := safely
  refine ⟨bounded_congr (bareList_noted _ _ _ _) inv.small, ?_, ?_⟩
  · intro r member
    rcases List.mem_append.mp member with member | member
    · exact inv.ranges r member
    · rw [List.mem_singleton.mp member]
      exact ⟨forward, smallStop⟩
  · have kept := inv.kept
    have app : (h.register start stop).app = h.app := rfl
    simp only [Kept, app] at kept ⊢
    split
    · trivial
    · next busy => rw [busy] at kept; exact kept
    · next offset nbyte write rest busy =>
        rw [busy] at kept
        refine ⟨ordered_congr (bareList_noted _ _ _ _) kept.ordered, ?_, ?_⟩
        · intro b low high
          exact grants_congr (bareList_noted _ _ _ _) (kept.covers b low high)
        · intro r member
          rcases List.mem_append.mp member with member | member
          · exact kept.avoids r member
          · rw [List.mem_singleton.mp member]
            exact apart (offset, offset + nbyte) (by rw [busy]; rfl)
    · next busy =>
        rw [busy] at kept
        obtain ⟨g, A, K, B, w⟩ := kept
        exact ⟨g, _, _, _, register_window w⟩

theorem complete_inv (inv : h.Inv) {i : Nat} (done : h.complete i = some h') : h'.Inv := by
  have kept := inv.kept
  have result := done
  simp only [complete, Option.bind_eq_bind] at result
  obtain ⟨r, at_i, result⟩ := Option.bind_eq_some_iff.mp result
  obtain ⟨-, result⟩ := Option.ite_none_right_eq_some.mp result
  have range := inv.ranges r (List.mem_of_getElem? at_i)
  have app : h'.app = h.app := by rw [← Option.some.inj result]
  refine ⟨?_, ?_, ?_⟩
  · rw [← Option.some.inj result]
    exact revokePermission_bounded inv.small (by omega) range.2
  · rw [← Option.some.inj result]
    intro r' member
    exact inv.ranges r' (List.mem_of_mem_eraseIdx member)
  · simp only [Kept, app] at kept ⊢
    split
    · trivial
    · next busy => rw [busy] at kept; exact kept
    · next busy =>
        rw [busy] at kept
        exact complete_found inv kept done
    · next busy =>
        rw [busy] at kept
        obtain ⟨g, A, K, B, w⟩ := kept
        obtain ⟨A', B', w'⟩ := complete_window inv w done
        exact ⟨g, A', K, B', w'⟩

theorem step_inv (inv : h.Inv) (step : safe.Step h h') : h'.Inv := by
  obtain ⟨event, ⟨range, safely⟩, ran⟩ := step
  cases event with
  | acquire offset nbyte write =>
      simp only [safe, exec, acquire] at ran
      split at ran
      · obtain rfl := Option.some.inj ran
        refine ⟨inv.small, inv.ranges, ?_⟩
        by_cases has : hasPermission offset (offset + nbyte) write h.permissions = true
        · obtain ⟨ordered, avoids⟩ := safely.2 has
          simp only [Kept, if_pos has]
          exact ⟨ordered, fun b low high => hasPermission_covers has low high, avoids⟩
        · simp only [Kept, if_neg has]
          exact ⟨range.1, safely.1⟩
      · cases ran
  | granted grantStart grantStop =>
      simp only [safe, exec, granted] at ran
      split at ran
      · next offset nbyte write busy =>
          obtain ⟨permissions, added, rfl⟩ := Option.map_eq_some_iff.mp ran
          have kept := inv.kept
          simp only [Kept, busy] at kept
          have answered : answers grantStart grantStop h.app = true := range
          simp only [busy, answers, Bool.or_eq_true, Bool.and_eq_true, decide_eq_true_eq] at answered
          have wide : grantStart ≤ offset ∧ offset + nbyte ≤ grantStop ∧ grantStop ≤ intMax := by omega
          refine ⟨addPermission_bounded added inv.small (by omega) wide.2.2, inv.ranges, ?_⟩
          exact ⟨grantStart, granted_window inv safely.1 (by omega) wide.2.2 ⟨wide.1, wide.2.1⟩ safely.2 added _⟩
      · cases ran
  | block =>
      simp only [safe, exec, block] at ran
      split at ran
      · next offset nbyte write found piece rest busy =>
          obtain rfl := Option.some.inj ran
          have kept := inv.kept
          refine ⟨inv.small, inv.ranges, ?_⟩
          cases found with
          | true =>
              simp only [Kept, busy] at kept ⊢
              exact ⟨kept.ordered, kept.covers, kept.avoids⟩
          | false =>
              simp only [Kept, busy] at kept ⊢
              obtain ⟨g, A, K, B, w⟩ := kept
              exact ⟨g, A, K, B, w.split, w.front, w.back, w.center, w.locked, w.covers, w.waits⟩
      · cases ran
  | unlock =>
      simp only [safe, exec, unlock] at ran
      split at ran
      · obtain rfl := Option.some.inj ran
        exact ⟨bounded_congr (PFSClient.bareList_unlockPermission _ _ _) inv.small, inv.ranges, trivial⟩
      · cases ran
  | register start stop =>
      obtain rfl := Option.some.inj ran
      exact register_inv inv safely
  | complete i => exact complete_inv inv ran

theorem initial_inv (first : h.Initial) : h.Inv := by
  rw [first]
  exact ⟨Bounded.nil, nofun, trivial⟩

/-- In every run in which no revocation meets a call that found its token, and
    none past its first step meets the tokens of a reply, a call between
    `acquirePermission` and `unlockPermission` has tokens for its whole range, and no
    revocation of a part of it completes. -/
theorem reachable_kept {h : TokenHolder} (reach : Reachable Initial safe.Step h) {offset nbyte : Nat}
    {write found : Bool} {rest : List (Nat × Nat)} (window : h.app = .working offset nbyte write found rest) :
    (∀ b, offset ≤ b → b < offset + nbyte → Grants h.permissions write b) ∧
      ∀ i r b, h.revocations[i]? = some r → offset ≤ b ∧ b < offset + nbyte → r.start ≤ b ∧ b < r.stop →
        h.complete i = none := by
  have inv : h.Inv := reach.invariant Inv (fun _ => initial_inv) (fun _ _ => step_inv)
  have kept := inv.kept
  cases found with
  | true =>
      simp only [Kept, window] at kept
      refine ⟨kept.covers, ?_⟩
      intro i r b at_i inside taken
      have avoids := kept.avoids r (List.mem_of_getElem? at_i)
      simp only [Revocation.Avoids] at avoids
      omega
  | false =>
      simp only [Kept, window] at kept
      obtain ⟨g, A, K, B, w⟩ := kept
      constructor
      · intro b low high
        rw [w.split]
        exact Grants.append.mpr (.inl (Grants.append.mpr (.inr (w.covers b low high))))
      · intro i r b at_i inside taken
        have waits := w.overlap (List.mem_of_getElem? at_i) inside taken
        simp only [complete, at_i, Option.bind_eq_bind, Option.bind_some]
        rw [if_neg (by omega)]

/-- A call has got its token with a reply, and another client wants it. -/
def wanted : Option TokenHolder :=
  safe.run {} [.acquire 0 2 true, .granted 0 intMax, .register 1 5, .block]

theorem reachable_kept_wanted :
    (wanted.get rfl).app = .working 0 2 true false [] ∧ Grants (wanted.get rfl).permissions true 1 ∧
      (wanted.get rfl).complete 0 = none := by
  have reach : Reachable Initial safe.Step (wanted.get rfl) :=
    safe.run_reachable (Reachable.init rfl) (Option.some_get _).symm
  have window : (wanted.get rfl).app = .working 0 2 true false [] := rfl
  obtain ⟨covers, waits⟩ := reachable_kept reach window
  exact ⟨window, covers 1 (by decide) (by decide), waits 0 ⟨1, 5, 0, 1⟩ 1 rfl (by decide) (by decide)⟩

/-- A second call finds the token of the first, which is not locked any more. -/
def foundUnlocked : Option TokenHolder :=
  machine.run {} [.acquire 0 2 true, .granted 0 intMax, .block, .unlock, .acquire 0 2 true, .register 1 5]

theorem not_kept_foundUnlocked :
    ¬ ∀ h : TokenHolder, Reachable Initial machine.Step h →
      ∀ (offset nbyte : Nat) (write found : Bool) (rest : List (Nat × Nat)),
        h.app = .working offset nbyte write found rest →
          (∀ b, offset ≤ b → b < offset + nbyte → Grants h.permissions write b) ∧
            ∀ i r b, h.revocations[i]? = some r → offset ≤ b ∧ b < offset + nbyte → r.start ≤ b ∧ b < r.stop →
              h.complete i = none := by
  intro kept
  have reach : Reachable Initial machine.Step (foundUnlocked.get rfl) :=
    machine.run_reachable (Reachable.init rfl) (Option.some_get _).symm
  obtain ⟨-, waits⟩ := kept _ reach 0 2 true true _ rfl
  have waiting := waits 0 ⟨1, 5, 0, 0⟩ 1 rfl (by decide) (by decide)
  have completes : ((foundUnlocked.get rfl).complete 0).isSome = true := rfl
  rw [waiting] at completes
  cases completes

end TokenHolder

end PFS
