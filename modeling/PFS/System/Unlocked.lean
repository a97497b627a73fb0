import PFS.Locked
import PFS.System.Agreement

/-! # Tokens are unlocked again

`addPermission` locks every token it makes or keeps in the granted range, and
`unlockPermission` unlocks those that overlap the bytes of the call.  A write token
that is added is one token around these bytes.  A read token is split up by the
write tokens it meets, and a part that does not overlap the bytes of the call stays
locked for good.
-/

namespace PFS

open Lib

/-! ## The parts of a read token -/

/-- Each of the tokens that take the place of the run overlaps the bytes of the
    call: the write tokens of the run and what is left between, in front of and
    behind them. -/
structure Scan.Overlaps (sc : Scan) (start stop offset finish : Nat) : Prop where
  shared : ∀ w ∈ sc.writePermits, w.isShared offset finish = true
  behind : ∀ w ∈ sc.writePermits.dropLast, w.stop < finish
  before : ∀ w ∈ sc.writePermits.tail, offset < w.start
  front : ∀ w ∈ sc.writePermits.head?, asInt (sc.readStart start) < asInt w.start → offset < w.start
  back : ∀ w ∈ sc.writePermits.getLast?, ¬ (w.start ≤ sc.readEnd stop ∧ sc.readEnd stop ≤ w.stop) → w.stop < finish

instance (sc : Scan) (start stop offset finish : Nat) : Decidable (sc.Overlaps start stop offset finish) :=
  decidable_of_iff ((∀ w ∈ sc.writePermits, w.isShared offset finish = true) ∧
    (∀ w ∈ sc.writePermits.dropLast, w.stop < finish) ∧ (∀ w ∈ sc.writePermits.tail, offset < w.start) ∧
    (∀ w ∈ sc.writePermits.head?, asInt (sc.readStart start) < asInt w.start → offset < w.start) ∧
    ∀ w ∈ sc.writePermits.getLast?, ¬ (w.start ≤ sc.readEnd stop ∧ sc.readEnd stop ≤ w.stop) → w.stop < finish)
    ⟨fun h => ⟨h.1, h.2.1, h.2.2.1, h.2.2.2.1, h.2.2.2.2⟩,
      fun h => ⟨h.shared, h.behind, h.before, h.front, h.back⟩⟩

/-- Reading `[offset, finish)` under a new read token for `[start, stop)`. -/
def ReadOverlaps (l : List Permission) (start stop offset finish : Nat) : Prop :=
  match scan start stop l with
  | none => True
  | some sc => sc.Overlaps start stop offset finish

instance (l : List Permission) (start stop offset finish : Nat) : Decidable (ReadOverlaps l start stop offset finish) := by
  unfold ReadOverlaps
  split <;> infer_instance

section Parts

variable {start stop offset finish : Nat}

theorem fillGaps_shared : ∀ {ws newEnd acc bound merged},
    fillGaps true ws newEnd acc = some (bound, merged) →
    ((∀ p ∈ merged, p.isShared offset finish = true) ↔
      (∀ p ∈ acc, p.isShared offset finish = true) ∧ (∀ w ∈ ws, w.isShared offset finish = true ∧ w.stop < finish) ∧
        (ws ≠ [] → offset < newEnd) ∧ ∀ w ∈ ws.dropLast, offset < w.start) := by
  intro ws
  induction ws with
  | nil =>
      intro newEnd acc bound merged done
      obtain ⟨-, rfl⟩ := Prod.mk.inj (Option.some.inj done)
      simp
  | cons w ws ih =>
      intro newEnd acc bound merged done
      simp only [fillGaps, Option.bind_eq_bind, Option.bind_eq_some_iff] at done
      obtain ⟨kept, lock, done⟩ := done
      obtain ⟨startEq, stopEq, -⟩ := lockIf_fields lock
      rw [ih done]
      simp only [List.forall_mem_cons, Permission.isShared_iff, startEq, stopEq, ne_eq, reduceCtorEq, not_false_eq_true,
        true_imp_iff]
      cases ws with
      | nil => simp; tauto
      | cons v ws => simp only [List.dropLast_cons_cons, List.forall_mem_cons]; tauto

theorem fillFrom_shared (ahead : offset < finish) {newEnd bound : Nat} {ws merged : List Permission}
    (reach : finish ≤ newEnd) (done : fillFrom true newEnd ws = some (bound, merged)) :
    (∀ p ∈ merged, p.isShared offset finish = true) ↔
      (∀ w ∈ ws, w.isShared offset finish = true) ∧ (∀ w ∈ ws.tail, w.stop < finish) ∧
        (∀ w ∈ ws.dropLast, offset < w.start) ∧
        ∀ w, ws.head? = some w → ¬ (w.start ≤ newEnd ∧ newEnd ≤ w.stop) → w.stop < finish := by
  cases ws with
  | nil =>
      obtain ⟨-, rfl⟩ := Prod.mk.inj (Option.some.inj done)
      simp
  | cons w ws =>
      simp only [fillFrom] at done
      simp only [List.head?_cons, Option.some.injEq, forall_eq', List.tail_cons, List.forall_mem_cons]
      split at done
      · next covers =>
          simp only [Option.bind_eq_bind, Option.bind_eq_some_iff] at done
          obtain ⟨kept, lock, done⟩ := done
          obtain ⟨startEq, stopEq, -⟩ := lockIf_fields lock
          rw [fillGaps_shared done]
          simp only [List.forall_mem_cons, Permission.isShared_iff, startEq, stopEq, List.not_mem_nil, false_imp_iff,
            implies_true, and_true, covers, not_true_eq_false, forall_and]
          cases ws with
          | nil => simp
          | cons v ws => simp only [List.dropLast_cons_cons, List.forall_mem_cons]; tauto
      · next short =>
          rw [fillGaps_shared done]
          simp only [List.forall_mem_cons, short, not_false_eq_true, true_imp_iff, forall_and]
          have early : offset < newEnd := by omega
          simp only [early, implies_true, true_and]
          tauto

theorem mergeRead_shared {sc : Scan} {merged : List Permission} (ahead : offset < finish) (lower : start ≤ offset)
    (upper : finish ≤ stop) (done : mergeRead sc start stop true = some merged) :
    (∀ p ∈ merged, p.isShared offset finish = true) ↔ sc.Overlaps start stop offset finish := by
  have startLow := sc.readStart_le start
  have endHigh := sc.le_readEnd stop
  unfold mergeRead at done
  split at done
  · next none =>
      obtain rfl := Option.some.inj done
      have empty := List.isEmpty_iff.mp none
      constructor
      · intro _
        constructor <;> simp [empty]
      · intro _
        simp only [List.forall_mem_singleton, Permission.isShared_iff]
        omega
  · next nonempty =>
      simp only [Option.bind_eq_bind, Option.bind_eq_some_iff] at done
      obtain ⟨⟨bound, rest⟩, filled, done⟩ := done
      obtain ⟨first, isHead, rfl⟩ := fillFrom_bound_head filled nonempty
      have parts := fillFrom_shared ahead (by omega) filled
      simp only [List.mem_reverse, List.tail_reverse, List.dropLast_reverse, List.head?_reverse] at parts
      have split : (∀ p ∈ merged, p.isShared offset finish = true) ↔
          (asInt (sc.readStart start) < asInt first.start → offset < first.start) ∧
            ∀ p ∈ rest, p.isShared offset finish = true := by
        split at done
        · next early =>
            obtain rfl := Option.some.inj done
            simp only [List.forall_mem_cons, Permission.isShared_iff, early, true_imp_iff]
            have here : sc.readStart start < finish := by omega
            simp only [here, true_and]
        · next late =>
            obtain rfl := Option.some.inj done
            simp only [late, false_imp_iff, true_and]
      rw [split, parts]
      constructor
      · rintro ⟨front, shared, behind, before, back⟩
        refine ⟨shared, behind, before, fun w found => ?_, back⟩
        rw [isHead] at found
        obtain rfl := Option.some.inj found
        exact front
      · intro h
        exact ⟨h.front first isHead, h.shared, h.behind, h.before, h.back⟩

end Parts

/-! ## A call's tokens -/

/-- No token of the list is locked. -/
def Unlocked (l : List Permission) : Prop := ∀ p ∈ l, p.locked = false

instance (l : List Permission) : Decidable (Unlocked l) := inferInstanceAs (Decidable (∀ p ∈ l, _))

section Lists

variable {start stop offset finish : Nat} {l l' : List Permission}

theorem unlocked_unlockPermission_iff :
    Unlocked (PFSClient.unlockPermission offset finish l) ↔ ∀ p ∈ l, p.locked = true → p.isShared offset finish = true := by
  simp only [Unlocked, PFSClient.unlockPermission, List.forall_mem_map]
  constructor
  · intro h p member locked
    have unlocked := h p member
    by_contra apart
    rw [if_neg apart, locked] at unlocked
    cases unlocked
  · intro h p member
    split
    · rfl
    · next apart =>
        by_contra locked
        exact apart (h p member (by simpa using locked))

theorem Unlocked.unlockPermission (h : Unlocked l) : Unlocked (PFSClient.unlockPermission offset finish l) := by
  apply unlocked_unlockPermission_iff.mpr
  intro p member locked
  rw [h p member] at locked
  cases locked

theorem insertPermit_mem {permit p : Permission} : p ∈ insertPermit permit l ↔ p = permit ∨ p ∈ l := by
  have whole := List.rdropWhile_append_rtakeWhile (p := fun p : Permission => !decide (p.stop < permit.start)) (l := l)
  have member : p ∈ l ↔ p ∈ l.rdropWhile (fun p => !decide (p.stop < permit.start)) ∨
      p ∈ l.rtakeWhile (fun p => !decide (p.stop < permit.start)) := by
    rw [← List.mem_append, whole]
  rw [insertPermit, List.mem_append, List.mem_cons, member]
  tauto

/-- A read unlocks all it has locked exactly when all of it overlaps the call. -/
theorem addPermission_read_unlocked (h : Unlocked l) (ahead : offset < finish) (lower : start ≤ offset)
    (upper : finish ≤ stop) (done : addPermission start stop false l true = some l') :
    Unlocked (PFSClient.unlockPermission offset finish l') ↔ ReadOverlaps l start stop offset finish := by
  rw [unlocked_unlockPermission_iff]
  unfold addPermission at done
  split at done
  · next sc found =>
      have list := Scan.split found
      simp only [Bool.false_eq_true, if_false] at done
      obtain ⟨merged, mergeDone, rfl⟩ := Option.map_eq_some_iff.mp done
      have outer : ∀ p, p ∈ sc.before ∨ p ∈ sc.after → p.locked = false := by
        intro p member
        apply h p
        rw [← list]
        rcases member with member | member
        · exact List.mem_append_left _ (List.mem_append_left _ member)
        · exact List.mem_append_right _ member
      have inner : (∀ p ∈ sc.before ++ merged ++ sc.after, p.locked = true → p.isShared offset finish = true) ↔
          ∀ p ∈ merged, p.isShared offset finish = true := by
        constructor
        · intro all p member
          exact all p (List.mem_append_left _ (List.mem_append_right _ member)) (mergeRead_locked mergeDone p member)
        · intro all p member locked
          rcases List.mem_append.mp member with member | member
          · rcases List.mem_append.mp member with member | member
            · rw [outer p (.inl member)] at locked; cases locked
            · exact all p member
          · rw [outer p (.inr member)] at locked; cases locked
      rw [inner, mergeRead_shared ahead lower upper mergeDone, ReadOverlaps, found]
  · next found =>
      obtain rfl := Option.some.inj done
      constructor
      · intro _
        rw [ReadOverlaps, found]
        trivial
      · intro _ p member locked
        rcases insertPermit_mem.mp member with rfl | member
        · simp only [Permission.isShared_iff]
          omega
        · rw [h p member] at locked; cases locked

/-- A write locks one token, around the bytes it writes. -/
theorem addPermission_write_unlocked (h : Unlocked l) (ahead : offset < finish) (lower : start ≤ offset)
    (upper : finish ≤ stop) (done : addPermission start stop true l true = some l') :
    Unlocked (PFSClient.unlockPermission offset finish l') := by
  rw [unlocked_unlockPermission_iff]
  unfold addPermission at done
  split at done
  · next sc found =>
      have list := Scan.split found
      simp only [if_true] at done
      obtain rfl := Option.some.inj done
      intro p member locked
      have startLow := sc.writeStart_le start
      have endHigh := sc.le_writeEnd stop
      simp only [mergeWrite, List.mem_append, List.mem_cons, Scan.sPermit, Scan.ePermit, List.mem_ite_nil_right,
        List.not_mem_nil, or_false] at member
      rcases member with (member | ⟨-, rfl⟩ | rfl | ⟨-, rfl⟩) | member
      · rw [h p (by rw [← list]; simp [member])] at locked; cases locked
      · cases locked
      · simp only [Permission.isShared_iff]
        omega
      · cases locked
      · rw [h p (by rw [← list]; simp [member])] at locked; cases locked
  · next found =>
      obtain rfl := Option.some.inj done
      intro p member locked
      rcases insertPermit_mem.mp member with rfl | member
      · simp only [Permission.isShared_iff]
        omega
      · rw [h p member] at locked; cases locked

theorem cutRun_unlocked (h : Unlocked l) : Unlocked (cutRun start stop l) := by
  match l with
  | [] => exact nofun
  | [q] =>
      intro p member
      simp only [cutRun, cutOne, List.mem_append, List.mem_ite_nil_right, List.mem_singleton] at member
      rcases member with ⟨-, rfl⟩ | ⟨-, rfl⟩
      · rfl
      · rfl
  | q :: q' :: rest =>
      have inside : rest.getLastD q' ∈ q :: q' :: rest :=
        List.mem_cons_of_mem _ (List.mem_of_getLast? (by simp [List.getLast?_cons]))
      intro p member
      simp only [cutRun, List.mem_append, List.mem_ite_nil_right, List.mem_singleton] at member
      rcases member with ⟨-, rfl⟩ | ⟨-, rfl⟩
      · exact h q List.mem_cons_self
      · exact h (rest.getLastD q') inside

theorem Unlocked.revokePermission (h : Unlocked l) : Unlocked (PFS.revokePermission start stop l) := by
  obtain ⟨before, run, after, whole, result, -⟩ := revokePermission_parts start stop l
  rw [result]
  rw [whole] at h
  intro p member
  rcases List.mem_append.mp member with member | member
  · rcases List.mem_append.mp member with member | member
    · exact h p (List.mem_append_left _ (List.mem_append_left _ member))
    · exact cutRun_unlocked (fun q inside => h q (List.mem_append_left _ (List.mem_append_right _ inside))) p member
  · exact h p (List.mem_append_right _ member)

end Lists

/-! ## Calls -/

variable {Peer : Type} [DecidableEq Peer]

/-- No token of any file of the client is locked. -/
def PFSClient.Quiet (c : PFSClient) : Prop := ∀ file ∈ c.openedFiles, Unlocked file.permissions

namespace PFSClient

variable {c c' : PFSClient}

theorem Quiet.setFile (h : c.Quiet) {i : Nat} {file : ClientFile} (own : Unlocked file.permissions) :
    (c.setFile i file).Quiet := by
  intro other member
  rcases List.mem_or_eq_of_mem_set member with member | rfl
  · exact h other member
  · exact own

theorem Quiet.revoke (h : c.Quiet) {bytes bytes' : FileBytes} {name : String} {start stop : Nat}
    (revoked : c.revokePermission bytes name start stop = some (c', bytes')) : c'.Quiet := by
  unfold PFSClient.revokePermission at revoked
  split at revoked
  · obtain ⟨rfl, -⟩ := Prod.mk.inj (Option.some.inj revoked)
    exact h
  · next i found =>
      simp only [Option.bind_eq_bind] at revoked
      obtain ⟨file, at_i, revoked⟩ := Option.bind_eq_some_iff.mp revoked
      obtain ⟨-, revoked⟩ := Option.ite_none_left_eq_some.mp revoked
      obtain ⟨⟨cache, flushed⟩, -, revoked⟩ := Option.bind_eq_some_iff.mp revoked
      obtain ⟨rfl, -⟩ := Prod.mk.inj (Option.some.inj revoked)
      refine Quiet.setFile (c := { c with cache := cache }) h ?_
      exact (h file (List.mem_of_getElem? at_i)).revokePermission

/-- Once the token is there, only the file of the call matters. -/
theorem Quiet.unlock {cache : Cache} {i offset finish : Nat} {file file' : ClientFile}
    (others : ∀ j other, j ≠ i → c.openedFiles[j]? = some other → Unlocked other.permissions)
    (permissions : file'.permissions = unlockPermission offset finish file.permissions)
    (own : Unlocked (unlockPermission offset finish file.permissions)) :
    ({ c with cache := cache }.setFile i file').Quiet := by
  intro other member
  obtain ⟨j, here⟩ := List.mem_iff_getElem?.mp member
  by_cases same : j = i
  · subst same
    rw [PFSClient.setFile, List.getElem?_set] at here
    simp only [if_true] at here
    split at here
    · obtain rfl := Option.some.inj here
      rw [permissions]
      exact own
    · cases here
  · rw [PFSClient.setFile, List.getElem?_set_ne (Ne.symm same)] at here
    exact others j other same here

end PFSClient

namespace World

variable {w w' : World Peer}

def Quiet (w : World Peer) : Prop := ∀ peer, (w.clients peer).Quiet

/-- The grant a read needs, if it needs one, leaves no token locked. -/
def QuietRead (w : World Peer) (peer : Peer) (filedes start stop : Nat) : Prop :=
  ∀ i ∈ (w.clients peer).foundAt filedes, ∀ file ∈ (w.clients peer).openedFiles[i]?,
    hasPermission start stop false file.permissions = false →
      ReadOverlaps file.permissions (w.manager.grantRange peer start stop false).1
        (w.manager.grantRange peer start stop false).2 start stop

instance (w : World Peer) (peer : Peer) (filedes start stop : Nat) : Decidable (w.QuietRead peer filedes start stop) :=
  inferInstanceAs (Decidable (∀ i ∈ (w.clients peer).foundAt filedes, _))

def QuietCall (w : World Peer) : Call Peer → Prop
  | .readFile peer filedes offset nbyte _ => w.QuietRead peer filedes offset (offset + nbyte)
  | _ => True

instance (w : World Peer) : (call : Call Peer) → Decidable (w.QuietCall call)
  | .readFile _ _ _ _ _ => inferInstanceAs (Decidable (QuietRead _ _ _ _ _))
  | .openFile _ | .writeFile _ _ _ _ _ _ | .closeFile _ _ _ | .flush _ | .harvest _ => isTrue trivial

/-- Runs whose reads leave no token locked. -/
def quiet : Machine (World Peer) (Call Peer) := ⟨fun w call => machine.allowed w call ∧ w.QuietCall call, exec⟩

instance (w : World Peer) (call : Call Peer) : Decidable (quiet.allowed w call) :=
  inferInstanceAs (Decidable (_ ∧ _))

theorem Quiet.setClient (h : w.Quiet) {peer : Peer} {c : PFSClient} (own : c.Quiet) : (w.setClient peer c).Quiet := by
  intro q
  by_cases same : q = peer
  · subst same
    rw [setClient_self]
    exact own
  · rw [setClient_other w c same]
    exact h q

/-- The revocations of a request reach only the clients it names. -/
theorem revokeAll_quiet {start stop : Nat} {order : List Peer} (h : w.Quiet)
    (done : revokeAll start stop order w = some w') :
    w'.Quiet ∧ ∀ q, q ∉ order → w'.clients q = w.clients q := by
  induction order generalizing w with
  | nil =>
      obtain rfl := Option.some.inj done
      exact ⟨h, fun _ _ => rfl⟩
  | cons peer rest ih =>
      simp only [revokeAll, Option.bind_eq_bind] at done
      obtain ⟨⟨c, bytes⟩, revoked, done⟩ := Option.bind_eq_some_iff.mp done
      have next : (World.setClient { w with bytes := bytes } peer c).Quiet :=
        Quiet.setClient (w := { w with bytes := bytes }) h ((h peer).revoke revoked)
      obtain ⟨quiet, rest'⟩ := ih next done
      refine ⟨quiet, fun q outside => ?_⟩
      rw [List.mem_cons, not_or] at outside
      rw [rest' q outside.2, setClient_other _ c outside.1]

/-- A call has its token: everything is unlocked but the tokens it has just been granted. -/
structure Granted (w w' : World Peer) (peer : Peer) (i start stop : Nat) (write : Bool) : Prop where
  clients : ∀ q, q ≠ peer → (w'.clients q).Quiet
  files : ∀ j other, j ≠ i → (w'.clients peer).openedFiles[j]? = some other → Unlocked other.permissions
  own : ∀ file', (w'.clients peer).openedFiles[i]? = some file' → Unlocked file'.permissions ∨
    ∃ file, (w.clients peer).openedFiles[i]? = some file ∧ Unlocked file.permissions ∧
      hasPermission start stop write file.permissions = false ∧
      addPermission (w.manager.grantRange peer start stop write).1 (w.manager.grantRange peer start stop write).2 write
        file.permissions true = some file'.permissions

theorem acquirePermission_granted (h : w.Quiet) {peer : Peer} {filedes start stop : Nat} {write : Bool}
    {order : List Peer} {result : Option Nat}
    (done : w.acquirePermission peer filedes start stop write order = some (w', result)) :
    (result = none ∧ w' = w) ∨
      ∃ i, result = some i ∧ (w.clients peer).foundAt filedes = some i ∧ Granted w w' peer i start stop write := by
  rcases acquirePermission_cases done with ⟨nothing, rfl⟩ | ⟨i, file, rfl, found, at_i, ⟨-, rfl⟩ | slow⟩
  · exact .inl ⟨nothing, rfl⟩
  · refine .inr ⟨i, rfl, found, fun q _ => h q, fun j other _ here => ?_, fun file' here => .inl ?_⟩
    · exact h peer other (List.mem_of_getElem? here)
    · exact h peer file' (List.mem_of_getElem? here)
  · obtain ⟨misses, manager, grant, w₂, file₂, permissions, asked, perm, revoked, at_i₂, added, rfl⟩ := slow
    obtain ⟨granted, conflicting, -⟩ := MMFile.waitAndGetPermissionFor_spec asked
    obtain ⟨quiet, others⟩ := revokeAll_quiet (w := { w with manager := manager }) h revoked
    have spared : peer ∉ order := by
      rw [perm.mem_iff, conflicting]
      intro member
      exact (MMFile.mem_conflicting.mp member).1 rfl
    have same : w₂.clients peer = w.clients peer := others peer spared
    rw [same, at_i] at at_i₂
    obtain rfl := Option.some.inj at_i₂
    refine .inr ⟨i, rfl, found, fun q other => ?_, fun j other apart here => ?_,
      fun file' here => .inr ⟨file, at_i, ?_, misses, ?_⟩⟩
    · rw [setClient_other _ _ other]
      exact quiet q
    · rw [setClient_self, same, PFSClient.setFile, List.getElem?_set_ne (Ne.symm apart)] at here
      exact h peer other (List.mem_of_getElem? here)
    · exact h peer file (List.mem_of_getElem? at_i)
    · have inside := (List.getElem?_eq_some_iff.mp at_i).1
      rw [setClient_self, same, PFSClient.setFile, List.getElem?_set_self inside] at here
      obtain rfl := Option.some.inj here
      rw [granted]
      exact added

/-- The call ends by unlocking the tokens that overlap its bytes. -/
theorem Granted.unlock {peer : Peer} {i start stop : Nat} {write : Bool} (h : Granted w w' peer i start stop write)
    {cache : Cache} {file file' : ClientFile} (at_i : (w'.clients peer).openedFiles[i]? = some file)
    (permissions : file'.permissions = PFSClient.unlockPermission start stop file.permissions)
    (own : Unlocked (PFSClient.unlockPermission start stop file.permissions)) :
    (w'.setClient peer ({ w'.clients peer with cache := cache }.setFile i file')).Quiet := by
  intro q
  by_cases same : q = peer
  · subst same
    rw [setClient_self]
    exact PFSClient.Quiet.unlock h.files permissions own
  · rw [setClient_other _ _ same]
    exact h.clients q same

theorem readFile_quiet (h : w.Quiet) {peer : Peer} {filedes offset nbyte : Nat} {order : List Peer}
    {result : Option (Nat → UInt8)} (nonempty : 1 ≤ nbyte) (small : offset + nbyte ≤ intMax)
    (reads : w.QuietRead peer filedes offset (offset + nbyte))
    (ran : w.readFile peer filedes offset nbyte order = some (w', result)) : w'.Quiet := by
  obtain ⟨w₂, acquired, acquiring, shape⟩ := readFile_cases ran
  rcases acquirePermission_granted h acquiring with ⟨rfl, rfl⟩ | ⟨i, rfl, found, granted⟩
  · obtain ⟨-, rfl, -⟩ | ⟨i, c, buffer, nothing, -⟩ := shape
    · exact h
    · cases nothing
  · obtain ⟨nothing, -⟩ | ⟨j, c, buffer, same, read, rfl, -⟩ := shape
    · cases nothing
    obtain rfl := Option.some.inj same
    simp only [PFSClient.readBytes, Option.bind_eq_bind] at read
    obtain ⟨⟨cache, buffer'⟩, -, read⟩ := Option.bind_eq_some_iff.mp read
    obtain ⟨file, at_i, read⟩ := Option.bind_eq_some_iff.mp read
    obtain ⟨rfl, -⟩ := Prod.mk.inj (Option.some.inj read)
    refine granted.unlock at_i rfl ?_
    rcases granted.own file at_i with unlocked | ⟨before, at_i', unlocked, misses, added⟩
    · exact unlocked.unlockPermission
    · obtain ⟨lower, upper, -⟩ := w.manager.grantRange_le peer false (Nat.le_add_right offset nbyte) small
      exact (addPermission_read_unlocked unlocked (by omega) lower upper added).mpr (reads i found before at_i' misses)

theorem writeFile_quiet (h : w.Quiet) {peer : Peer} {filedes offset nbyte : Nat} {data : Nat → UInt8}
    {order : List Peer} {result : Bool} (nonempty : 1 ≤ nbyte) (small : offset + nbyte ≤ intMax)
    (ran : w.writeFile peer filedes offset nbyte data order = some (w', result)) : w'.Quiet := by
  obtain ⟨w₂, acquired, acquiring, shape⟩ := writeFile_cases ran
  rcases acquirePermission_granted h acquiring with ⟨rfl, rfl⟩ | ⟨i, rfl, found, granted⟩
  · obtain ⟨-, rfl, -⟩ | ⟨i, c, nothing, -⟩ := shape
    · exact h
    · cases nothing
  · obtain ⟨nothing, -⟩ | ⟨j, c, same, written, rfl, -⟩ := shape
    · cases nothing
    obtain rfl := Option.some.inj same
    simp only [PFSClient.writeBytes, Option.bind_eq_bind] at written
    obtain ⟨cache, -, written⟩ := Option.bind_eq_some_iff.mp written
    obtain ⟨file, at_i, written⟩ := Option.bind_eq_some_iff.mp written
    obtain rfl := Option.some.inj written
    refine granted.unlock at_i rfl ?_
    rcases granted.own file at_i with unlocked | ⟨before, at_i', unlocked, misses, added⟩
    · exact unlocked.unlockPermission
    · obtain ⟨lower, upper, -⟩ := w.manager.grantRange_le peer true (Nat.le_add_right offset nbyte) small
      exact addPermission_write_unlocked unlocked (by omega) lower upper added

theorem openFile_quiet (h : w.Quiet) (peer : Peer) : (w.openFile peer).1.Quiet := by
  unfold openFile
  split
  · exact h
  · apply Quiet.setClient (w := { w with manager := _ }) h
    intro file member
    rcases List.mem_append.mp member with member | member
    · exact h peer file member
    · rw [List.mem_singleton.mp member]
      exact nofun

theorem closeFile_quiet (h : w.Quiet) {peer : Peer} {filedes now : Nat}
    (done : w.closeFile peer filedes now = some w') : w'.Quiet := by
  obtain ⟨i, file, cache, bytes, manager, -, -, -, -, rfl⟩ := closeFile_cases done
  apply Quiet.setClient (w := { w with manager := _, bytes := bytes }) h
  intro other member
  dsimp only at member
  split at member
  · exact h peer other (List.mem_of_mem_eraseIdx member)
  · exact h peer other member

theorem step_quiet (h : w.Quiet) (step : quiet.Step w w') : w'.Quiet := by
  obtain ⟨call, ⟨allowed, reads⟩, ran⟩ := step
  cases call with
  | openFile peer =>
      obtain rfl := Option.some.inj ran
      exact openFile_quiet h peer
  | readFile peer filedes offset nbyte order =>
      obtain ⟨⟨_, result⟩, done, rfl⟩ := Option.map_eq_some_iff.mp ran
      exact readFile_quiet h allowed.1 allowed.2 reads done
  | writeFile peer filedes offset nbyte data order =>
      obtain ⟨⟨_, result⟩, done, rfl⟩ := Option.map_eq_some_iff.mp ran
      exact writeFile_quiet h allowed.1 allowed.2 done
  | closeFile peer filedes now => exact closeFile_quiet h ran
  | flush peer =>
      obtain ⟨bytes, -, rfl⟩ := flush_cases ran
      exact Quiet.setClient (w := { w with bytes := bytes }) h (h peer)
  | harvest peer =>
      obtain ⟨cache, block, bytes, -, -, rfl⟩ := harvest_cases ran
      exact Quiet.setClient (w := { w with bytes := bytes }) h (h peer)

omit [DecidableEq Peer] in
theorem initial_quiet (h : w.Initial) : w.Quiet := by
  intro peer file member
  rw [h.2 peer] at member
  cases member

/-- In a run whose reads split no grant beside the bytes they read, no token is
    locked between calls. -/
theorem reachable_unlocked {w : World Peer} (reach : Reachable Initial quiet.Step w) (peer : Peer) (file : ClientFile)
    (member : file ∈ (w.clients peer).openedFiles) (p : Permission) (held : p ∈ file.permissions) : p.locked = false := by
  have still : w.Quiet := reach.invariant Quiet (fun _ => initial_quiet) (fun _ _ h => step_quiet h)
  exact still peer file member p held

/-- Client 1 writes, client 2 writes the first byte and reads two. -/
def quietRun : Option (World Nat) :=
  quiet.run blank [.openFile 1, .openFile 2, .writeFile 1 1 0 2 (fun _ => 7) [],
    .writeFile 2 1 0 1 (fun _ => 8) [1], .readFile 2 1 0 2 [1]]

theorem reachable_unlocked_quietRun :
    ((quietRun.get rfl).clients 2).openedFiles.map ClientFile.permissions =
        [[⟨0, 1, true, false, []⟩, ⟨1, 2, false, false, []⟩]] ∧
      ∀ file ∈ ((quietRun.get rfl).clients 2).openedFiles, ∀ p ∈ file.permissions, p.locked = false := by
  have reach : Reachable Initial quiet.Step (quietRun.get rfl) :=
    quiet.run_reachable (Reachable.init ⟨rfl, fun _ => rfl⟩) (Option.some_get _).symm
  exact ⟨rfl, fun file member p held => reachable_unlocked reach 2 file member p held⟩

/-- Client 1 holds the file for writing, client 2 takes the first byte and closes
    the file, and client 1 reads that byte under a grant of the whole file. -/
def lockedRun : Option (World Nat) :=
  machine.run blank [.openFile 1, .openFile 2, .writeFile 1 1 0 1 (fun _ => 7) [],
    .writeFile 2 1 0 1 (fun _ => 8) [1], .closeFile 2 1 0, .readFile 1 1 0 1 []]

/-- The write token behind the byte stays locked. -/
theorem locked_after_read :
    Reachable Initial machine.Step (lockedRun.get rfl) ∧
      ((lockedRun.get rfl).clients 1).openedFiles.map ClientFile.permissions =
        [[⟨0, 1, false, false, []⟩, ⟨1, intMax, true, true, []⟩]] :=
  ⟨machine.run_reachable (Reachable.init ⟨rfl, fun _ => rfl⟩) (Option.some_get _).symm, rfl⟩

end World

end PFS
