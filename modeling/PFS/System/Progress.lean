import PFS.NormalForm
import PFS.System.Messages
import PFS.System.Unlocked
import Mathlib.Algebra.Order.BigOperators.Group.Finset
import Mathlib.Data.Fintype.BigOperators

/-! # Calls return

The manager holds the file's lock while it waits for revocations, and a client
answers a revocation only when the tokens it found locked have been unlocked.  So
one token that stays locked holds up everybody.  As long as every read unlocks
all that its reply has locked and no revocation takes a token that is locked, it
never comes to that: while a call or a message is under way, something other than
a new call can happen.  And it ends: every step but a new call lowers the number
of steps that are left.  A request still has to be served, answered and received
and may cause one revocation at each client, which has to arrive, to be answered
and to be received; a call has its blocks to go through.
-/

namespace PFS

open Lib

section Lists

variable {l l' : List Permission} {start stop : Nat}

/-- `addPermission` blocks on no `lock()` when nothing is locked. -/
theorem addPermission_answers (h : Unlocked l) (start stop : Nat) (write : Bool) :
    ∃ l', addPermission start stop write l true = some l' := by
  refine (addPermission_returns_iff start stop write true l).mpr fun _ _ sc found p member => h p ?_
  have run : p ∈ sc.first :: sc.run := List.mem_of_mem_filter member
  rw [← Scan.split found]
  simp only [List.mem_append]
  exact .inl (.inr run)

/-- A revocation that takes no locked token leaves the locked tokens as they are. -/
theorem mem_revokePermission_locked (clear : ∀ p ∈ l, p.isShared start stop = true → p.locked = false) {p : Permission}
    (member : p ∈ revokePermission start stop l) (locked : p.locked = true) : p ∈ l := by
  obtain ⟨before, run, after, whole, result, -, -, ends⟩ := revokePermission_parts start stop l
  rw [result] at member
  rw [whole] at clear ⊢
  rcases List.mem_append.mp member with member | member
  · rcases List.mem_append.mp member with member | member
    · exact List.mem_append_left _ (List.mem_append_left _ member)
    · have unlocked : ∀ q, run.head? = some q ∨ run.getLast? = some q → q.locked = false := by
        intro q is
        have here : q ∈ run := is.elim List.mem_of_head? List.mem_of_getLast?
        exact clear q (List.mem_append_left _ (List.mem_append_right _ here)) (ends q is)
      match run with
      | [] => cases member
      | [q] =>
          simp only [cutRun, cutOne, List.mem_append, List.mem_ite_nil_right, List.mem_singleton] at member
          rcases member with ⟨-, rfl⟩ | ⟨-, rfl⟩
          · cases locked
          · cases locked
      | q :: q' :: rest =>
          simp only [cutRun, List.mem_append, List.mem_ite_nil_right, List.mem_singleton] at member
          rcases member with ⟨-, rfl⟩ | ⟨-, rfl⟩
          · exact Bool.noConfusion ((unlocked q (.inl rfl)).symm.trans locked)
          · have last : (q :: q' :: rest).getLast? = some (rest.getLastD q') := by simp [List.getLast?_cons]
            exact Bool.noConfusion ((unlocked _ (.inr last)).symm.trans locked)
  · exact List.mem_append_right _ member

end Lists

/-! ## One client -/

namespace TokenHolder

/-- The tokens as the running call will leave them. -/
def afterCall : App → List Permission → List Permission
  | .working offset nbyte _ _ _, l => PFSClient.unlockPermission offset (offset + nbyte) l
  | _, l => l

/-- What the running call will post to a semaphore. -/
def due : App → List Permission → Nat → Nat
  | .working offset nbyte _ _ _, l, sem =>
      ((l.filter fun p => p.isShared offset (offset + nbyte)).map fun p => p.waitingSemaphores.count sem).sum
  | _, _, _ => 0

/-- Nothing is locked but for the running call, and every revocation has its posts or
    will get them from it. -/
structure Live (h : TokenHolder) : Prop where
  unlocks : Unlocked (afterCall h.app h.permissions)
  posted : ∀ r ∈ h.revocations, r.count ≤ h.posts r.sem + due h.app h.permissions r.sem

variable {h h' : TokenHolder}

theorem live_of_initial (first : h = {}) : h.Live := by
  subst first
  exact ⟨nofun, nofun⟩

theorem Live.acquire (live : h.Live) {offset nbyte : Nat} {write : Bool}
    (done : h.acquire offset nbyte write = some h') : h'.Live := by
  unfold TokenHolder.acquire at done
  split at done
  · next idle =>
      obtain rfl := Option.some.inj done
      have unlocks := live.unlocks
      have posted := live.posted
      rw [idle] at unlocks posted
      constructor
      · simp only
        split
        · exact unlocks.unlockPermission
        · exact unlocks
      · intro r member
        exact (posted r member).trans (Nat.add_le_add_left (Nat.zero_le _) _)
  · cases done

/-- A reply whose locks the call will undo. -/
theorem Live.granted (live : h.Live) {grantStart grantStop offset nbyte : Nat} {write : Bool}
    (app : h.app = .requesting offset nbyte write) (nonempty : 1 ≤ nbyte) (lower : grantStart ≤ offset)
    (upper : offset + nbyte ≤ grantStop)
    (overlaps : write = false → ReadOverlaps h.permissions grantStart grantStop offset (offset + nbyte))
    (done : h.granted grantStart grantStop = some h') : h'.Live := by
  have unlocks := live.unlocks
  have posted := live.posted
  rw [app] at unlocks posted
  simp only [TokenHolder.granted, app] at done
  obtain ⟨permissions, added, rfl⟩ := Option.map_eq_some_iff.mp done
  constructor
  · cases write with
    | true => exact addPermission_write_unlocked unlocks (by omega) lower upper added
    | false => exact (addPermission_read_unlocked unlocks (by omega) lower upper added).mpr (overlaps rfl)
  · intro r member
    exact (posted r member).trans (Nat.add_le_add_left (Nat.zero_le _) _)

theorem Live.block (live : h.Live) (done : h.block = some h') : h'.Live := by
  unfold TokenHolder.block at done
  split at done
  · next app =>
      obtain rfl := Option.some.inj done
      have unlocks := live.unlocks
      have posted := live.posted
      rw [app] at unlocks posted
      exact ⟨unlocks, posted⟩
  · cases done

theorem Live.unlock (live : h.Live) (done : h.unlock = some h') : h'.Live := by
  unfold TokenHolder.unlock at done
  split at done
  · next app =>
      obtain rfl := Option.some.inj done
      have unlocks := live.unlocks
      have posted := live.posted
      rw [app] at unlocks posted
      exact ⟨unlocks, posted⟩
  · cases done

/-- The tokens a revocation finds locked will post to it. -/
theorem count_le_due {offset finish start stop sem : Nat} {l : List Permission}
    (locked : ∀ p ∈ l, p.locked = true → p.isShared offset finish = true) :
    l.countP (fun p => p.isShared start stop && (p.addWaitingSemaphore sem).2) ≤
      (((l.map (noted sem start stop)).filter fun p => p.isShared offset finish).map fun p =>
        p.waitingSemaphores.count sem).sum := by
  induction l with
  | nil => exact Nat.zero_le _
  | cons p rest ih =>
      have tail := ih fun q member => locked q (List.mem_cons_of_mem _ member)
      have shared : (noted sem start stop p).isShared offset finish = p.isShared offset finish := by
        rw [← isShared_bare, noted_bare, isShared_bare]
      rw [List.countP_cons, List.map_cons, List.filter_cons, shared]
      by_cases counted : (p.isShared start stop && (p.addWaitingSemaphore sem).2) = true
      · obtain ⟨inside, isLocked⟩ := Bool.and_eq_true_iff.mp counted
        have holds : p.locked = true := by
          by_contra free
          simp [Permission.addWaitingSemaphore, free] at isLocked
        have entry : 1 ≤ (noted sem start stop p).waitingSemaphores.count sem := by
          simp [noted, inside, Permission.addWaitingSemaphore, holds]
        rw [if_pos counted, if_pos (locked p List.mem_cons_self holds), List.map_cons, List.sum_cons]
        omega
      · rw [if_neg counted]
        split
        · rw [List.map_cons, List.sum_cons]
          omega
        · exact tail

theorem Live.register (live : h.Live) (none : h.revocations = []) (start stop : Nat) : (h.register start stop).Live := by
  have locks : ∀ p ∈ h.permissions.map (noted h.semCount start stop), ∃ q ∈ h.permissions, p.locked = q.locked ∧
      ∀ s e, p.isShared s e = q.isShared s e := by
    intro p member
    obtain ⟨q, inside, rfl⟩ := List.mem_map.mp member
    refine ⟨q, inside, noted_locked _ _ _ _, fun s e => ?_⟩
    rw [← isShared_bare, noted_bare, isShared_bare]
  have unlocks := live.unlocks
  constructor
  · cases app : h.app with
    | idle | requesting =>
        rw [app] at unlocks
        intro p member
        rw [TokenHolder.register] at member
        simp only [app] at member
        obtain ⟨q, inside, same, -⟩ := locks p member
        rw [same]
        exact unlocks q inside
    | working offset nbyte write found rest =>
        rw [app] at unlocks
        simp only [TokenHolder.register, app]
        refine unlocked_unlockPermission_iff.mpr fun p member locked => ?_
        obtain ⟨q, inside, same, shared⟩ := locks p member
        rw [shared]
        exact unlocked_unlockPermission_iff.mp unlocks q inside (same ▸ locked)
  · intro r member
    simp only [TokenHolder.register, none, List.nil_append, List.mem_singleton] at member
    subst member
    simp only [TokenHolder.register]
    refine Nat.le_trans ?_ (Nat.le_add_left _ _)
    cases app : h.app with
    | idle | requesting =>
        rw [app] at unlocks
        refine Nat.le_of_eq (List.countP_eq_zero.mpr fun p inside => ?_)
        simp [Permission.addWaitingSemaphore, unlocks p inside]
    | working offset nbyte write found rest =>
        rw [app] at unlocks
        exact count_le_due (unlocked_unlockPermission_iff.mp unlocks)

/-- The only revocation is over, and has taken nothing that is locked. -/
theorem Live.complete (live : h.Live) {v : Revocation} (only : h.revocations = [v])
    (clear : ∀ p ∈ h.permissions, p.isShared v.start v.stop = true → p.locked = false)
    (done : h.complete 0 = some h') : h'.Live ∧ h'.app = h.app ∧ h'.revocations = [] := by
  simp only [TokenHolder.complete, only, List.getElem?_cons_zero, Option.bind_eq_bind, Option.bind_some] at done
  obtain ⟨-, done⟩ := Option.ite_none_right_eq_some.mp done
  obtain rfl := Option.some.inj done
  refine ⟨⟨?_, fun _ member => (List.not_mem_nil member).elim⟩, rfl, rfl⟩
  have unlocks := live.unlocks
  cases app : h.app with
  | idle | requesting =>
      rw [app] at unlocks
      exact unlocks.revokePermission
  | working offset nbyte write found rest =>
      rw [app] at unlocks
      refine unlocked_unlockPermission_iff.mpr fun p member locked => ?_
      exact unlocked_unlockPermission_iff.mp unlocks p (mem_revokePermission_locked clear member locked) locked

end TokenHolder

/-! ## The messages -/

variable {Peer : Type} [DecidableEq Peer]

namespace Network

open TokenHolder (request)

/-- The read that gets the reply will unlock all that it locks. -/
def UnlocksAll (l : List Permission) : Asking → Option (Nat × Nat × Bool) → Prop
  | .reply start stop, some (offset, nbyte, false) => ReadOverlaps l start stop offset (offset + nbyte)
  | _, _ => True

instance (l : List Permission) : (a : Asking) → (x : Option (Nat × Nat × Bool)) → Decidable (UnlocksAll l a x)
  | .reply _ _, some (_, _, false) => inferInstanceAs (Decidable (ReadOverlaps _ _ _ _ _))
  | .reply _ _, some (_, _, true) | .reply _ _, none | .none, _ | .request, _ | .served, _ => isTrue trivial

/-- A read unlocks all that its reply locks, and a revocation takes no locked token. -/
def Patient (n : Network Peer) : Event Peer → Prop
  | .acquire _ offset nbyte _ => offset + nbyte ≤ intMax
  | .complete peer => ∀ v ∈ (n.clients peer).revocations, ∀ p ∈ (n.clients peer).permissions,
      p.isShared v.start v.stop = true → p.locked = false
  | .reply peer => UnlocksAll (n.clients peer).permissions (n.asking peer) (request (n.clients peer).app)
  | _ => True

instance (n : Network Peer) : (e : Event Peer) → Decidable (n.Patient e)
  | .acquire _ _ _ _ => inferInstanceAs (Decidable (_ ≤ _))
  | .complete peer => inferInstanceAs (Decidable (∀ v ∈ (n.clients peer).revocations, _))
  | .reply _ => inferInstanceAs (Decidable (UnlocksAll _ _ _))
  | .serve _ | .arrive _ | .join _ | .finish | .block _ | .unlock _ => isTrue trivial

def patient : Machine (Network Peer) (Event Peer) := ⟨fun n e => machine.allowed n e ∧ n.Patient e, exec⟩

instance (n : Network Peer) (e : Event Peer) : Decidable (patient.allowed n e) := inferInstanceAs (Decidable (_ ∧ _))

variable {n n' : Network Peer} {peer : Peer} {c : TokenHolder} {a : Asking} {r : Revoking}

/-- A client waits for a reply exactly while its request is under way, and a revocation
    to it is under way exactly while the manager waits for it. -/
structure FlowAt (n : Network Peer) (q : Peer) (c : TokenHolder) (a : Asking) (r : Revoking) : Prop where
  asks : a = .none ↔ request c.app = none
  range : ∀ x ∈ request c.app, 1 ≤ x.2.1 ∧ x.1 + x.2.1 ≤ intMax
  opened : a ≠ .none → n.manager.isOpenedBy q = true
  served : a = .served ↔ ∃ s, n.serving = some s ∧ s.peer = q
  replied : ∀ start stop, a = .reply start stop → ∀ x ∈ request c.app, start ≤ x.1 ∧ x.1 + x.2.1 ≤ stop
  awaited : r ≠ .none ↔ n.Awaits q
  running : ∀ start stop, r = .running start stop → ∃ v, c.revocations = [v]
  unrevoked : (∀ start stop, r ≠ .running start stop) → c.revocations = []
  live : c.Live

structure Flow (n : Network Peer) : Prop where
  each : ∀ q, FlowAt n q (n.clients q) (n.asking q) (n.revoking q)
  distinct : ∀ s, n.serving = some s → s.waiting.Nodup
  grant : ∀ s, n.serving = some s → ∀ x ∈ request (n.clients s.peer).app, s.start ≤ x.1 ∧ x.1 + x.2.1 ≤ s.stop

/-- One client and its messages change. -/
theorem Flow.change (flow : n.Flow) (own : FlowAt n peer c a r)
    (same : a = .served → request c.app = request (n.clients peer).app) : (n.change peer c a r).Flow := by
  refine ⟨fun q => ?_, flow.distinct, fun s serving x member => ?_⟩
  · by_cases here : q = peer
    · subst here
      simp only [Network.change, Function.update_self]
      exact ⟨own.asks, own.range, own.opened, own.served, own.replied, own.awaited, own.running, own.unrevoked, own.live⟩
    · simp only [Network.change, Function.update_of_ne here]
      obtain ⟨asks, range, opened, served, replied, awaited, running, unrevoked, live⟩ := flow.each q
      exact ⟨asks, range, opened, served, replied, awaited, running, unrevoked, live⟩
  · refine flow.grant s serving x ?_
    by_cases here : s.peer = peer
    · simp only [Network.change, here, Function.update_self] at member
      rw [here, ← same (own.served.mpr ⟨s, serving, here⟩)]
      exact member
    · simp only [Network.change, Function.update_of_ne here] at member
      exact member

/-- A step of a client's own. -/
theorem Flow.setClient (flow : n.Flow) (same : request c.app = request (n.clients peer).app)
    (revocations : c.revocations = (n.clients peer).revocations) (live : c.Live) : (n.setClient peer c).Flow := by
  rw [setClient_eq]
  obtain ⟨asks, range, opened, served, replied, awaited, running, unrevoked, -⟩ := flow.each peer
  refine flow.change ⟨?_, ?_, opened, served, ?_, awaited, ?_, ?_, live⟩ (fun _ => same)
  · rw [same]; exact asks
  · rw [same]; exact range
  · rw [same]; exact replied
  · rw [revocations]; exact running
  · rw [revocations]; exact unrevoked

theorem Flow.acquire (flow : n.Flow) {offset nbyte : Nat} {write : Bool} (isOpen : n.manager.isOpenedBy peer = true)
    (nonempty : 1 ≤ nbyte) (small : offset + nbyte ≤ intMax)
    (done : n.acquire peer offset nbyte write = some n') : n'.Flow := by
  simp only [Network.acquire] at done
  obtain ⟨c, acquired, rfl⟩ := Option.map_eq_some_iff.mp done
  obtain ⟨asks, range, opened, served, replied, awaited, running, unrevoked, live⟩ := flow.each peer
  have live' := live.acquire acquired
  unfold TokenHolder.acquire at acquired
  split at acquired
  · next idle =>
      have silent : n.asking peer = .none := asks.mpr (by rw [idle]; rfl)
      obtain rfl := Option.some.inj acquired
      by_cases has : hasPermission offset (offset + nbyte) write (n.clients peer).permissions = true
      · simp only [if_pos has] at live' ⊢
        exact flow.setClient (by rw [idle]; rfl) rfl live'
      · simp only [if_neg has] at live' ⊢
        have asked : ∀ c, { n.setClient peer c with asking := Function.update n.asking peer .request } =
            n.change peer c .request (n.revoking peer) := by
          intro c
          simp only [Network.setClient, Network.change, Function.update_eq_self]
        rw [asked]
        refine flow.change ⟨?_, ?_, fun _ => isOpen, ?_, ?_, awaited, running, unrevoked, live'⟩ ?_
        · constructor <;> rintro ⟨⟩
        · rintro _ ⟨⟩
          exact ⟨nonempty, small⟩
        · rw [← served, silent]
          constructor <;> rintro ⟨⟩
        · rintro _ _ ⟨⟩
        · rintro ⟨⟩
  · cases acquired

theorem Flow.arrive (flow : n.Flow) (done : n.arrive peer = some n') : n'.Flow := by
  unfold Network.arrive at done
  split at done
  · next start stop revoking =>
      obtain rfl := Option.some.inj done
      have arrived : { n.setClient peer ((n.clients peer).register start stop) with
          revoking := Function.update n.revoking peer (.running start stop) } =
          n.change peer ((n.clients peer).register start stop) (n.asking peer) (.running start stop) := by
        simp only [Network.setClient, Network.change, Function.update_eq_self]
      rw [arrived]
      obtain ⟨asks, range, opened, served, replied, awaited, running, unrevoked, live⟩ := flow.each peer
      rw [revoking] at awaited unrevoked
      have none := unrevoked (by rintro _ _ ⟨⟩)
      refine flow.change ⟨asks, range, opened, served, replied, ?_, ?_, ?_, live.register none start stop⟩ (fun _ => rfl)
      · rw [← awaited]
        constructor <;> rintro _ ⟨⟩
      · intro _ _ _
        rw [TokenHolder.register, none]
        exact ⟨_, rfl⟩
      · intro never
        exact (never start stop rfl).elim
  · cases done

theorem Flow.complete (flow : n.Flow) (patience : n.Patient (.complete peer)) (done : n.complete peer = some n') :
    n'.Flow := by
  unfold Network.complete at done
  split at done
  · next start stop revoking =>
      obtain ⟨c, completed, rfl⟩ := Option.map_eq_some_iff.mp done
      have answered : { n.setClient peer c with revoking := Function.update n.revoking peer .reply } =
          n.change peer c (n.asking peer) .reply := by
        simp only [Network.setClient, Network.change, Function.update_eq_self]
      rw [answered]
      obtain ⟨asks, range, opened, served, replied, awaited, running, unrevoked, live⟩ := flow.each peer
      obtain ⟨v, only⟩ := running start stop revoking
      have clear := patience v (by rw [only]; exact List.mem_singleton_self v)
      obtain ⟨live', app, none⟩ := live.complete only clear completed
      rw [revoking] at awaited
      refine flow.change ⟨?_, ?_, opened, served, ?_, ?_, ?_, fun _ => none, live'⟩ (fun _ => by rw [app])
      · rw [app]; exact asks
      · rw [app]; exact range
      · rw [app]; exact replied
      · rw [← awaited]
        constructor <;> rintro _ ⟨⟩
      · rintro _ _ ⟨⟩
  · cases done

theorem Flow.reply (flow : n.Flow) (patience : n.Patient (.reply peer)) (done : n.reply peer = some n') : n'.Flow := by
  unfold Network.reply at done
  split at done
  · next start stop asking =>
      obtain ⟨c, granted, rfl⟩ := Option.map_eq_some_iff.mp done
      have received : { n.setClient peer c with asking := Function.update n.asking peer .none } =
          n.change peer c .none (n.revoking peer) := by
        simp only [Network.setClient, Network.change, Function.update_eq_self]
      rw [received]
      obtain ⟨asks, range, opened, served, replied, awaited, running, unrevoked, live⟩ := flow.each peer
      cases app : (n.clients peer).app with
      | idle | working =>
          rw [TokenHolder.granted, app] at granted
          cases granted
      | requesting offset nbyte write =>
          obtain ⟨nonempty, -⟩ := range (offset, nbyte, write) (by rw [app]; rfl)
          obtain ⟨lower, upper⟩ := replied start stop asking (offset, nbyte, write) (by rw [app]; rfl)
          have live' := live.granted app nonempty lower upper (by
            rintro rfl
            simp only [Patient, asking, app, request] at patience
            exact patience) granted
          rw [asking] at served
          have idle : ¬ ∃ s, n.serving = some s ∧ s.peer = peer := by
            intro serving
            cases served.mpr serving
          simp only [TokenHolder.granted, app] at granted
          obtain ⟨permissions, -, rfl⟩ := Option.map_eq_some_iff.mp granted
          refine flow.change ⟨?_, ?_, fun asks => (asks rfl).elim, ?_, ?_, awaited, running, unrevoked, live'⟩ ?_
          · exact ⟨fun _ => rfl, fun _ => rfl⟩
          · rintro _ ⟨⟩
          · constructor
            · rintro ⟨⟩
            · exact fun serving => (idle serving).elim
          · rintro _ _ ⟨⟩
          · rintro ⟨⟩
  · cases done

theorem Flow.serve (flow : n.Flow) (done : n.serve peer = some n') : n'.Flow := by
  unfold Network.serve at done
  split at done
  · next offset nbyte write idle asking app =>
      obtain ⟨⟨manager, grant⟩, asked, rfl⟩ := Option.map_eq_some_iff.mp done
      obtain ⟨granted, revoked, -, -, opened⟩ := MMFile.waitAndGetPermissionFor_spec asked
      have nobody : ∀ q, ¬ n.Awaits q := by
        rintro q ⟨s, serving, -⟩
        rw [idle] at serving
        cases serving
      have quiet : ∀ q, n.revoking q = .none := fun q => by
        by_contra busy
        exact nobody q ((flow.each q).awaited.mp busy)
      have unserved : ∀ q, n.asking q ≠ .served := by
        intro q served
        obtain ⟨s, serving, -⟩ := (flow.each q).served.mp served
        rw [idle] at serving
        cases serving
      obtain ⟨nonempty, small⟩ := (flow.each peer).range (offset, nbyte, write) (by rw [app]; rfl)
      obtain ⟨lower, upper, -⟩ := MMFile.grantRange_le n.manager peer write (Nat.le_add_right offset nbyte) small
      rw [granted] at lower upper
      refine ⟨fun q => ?_, ?_, ?_⟩
      · obtain ⟨asks, range, isOpened, served, replied, awaited, running, unrevoked, live⟩ := flow.each q
        have awaited' : (if q ∈ grant.revoked then Revoking.request offset (offset + nbyte) else n.revoking q) ≠ .none ↔
            q ∈ grant.revoked := by
          rw [quiet]
          split
          · next member => exact ⟨fun _ => member, fun _ => nofun⟩
          · next outside => exact ⟨fun busy => (busy rfl).elim, fun member => (outside member).elim⟩
        have notRunning : ∀ start stop,
            (if q ∈ grant.revoked then Revoking.request offset (offset + nbyte) else n.revoking q) ≠
              .running start stop := by
          rw [quiet]
          intro start stop
          split <;> exact nofun
        have none : (n.clients q).revocations = [] := unrevoked (by rw [quiet]; exact nofun)
        have waits : ∀ m : MMFile Peer, ∀ a r, Network.Awaits ⟨m, some ⟨peer, grant.start, grant.stop, grant.revoked⟩,
            n.clients, a, r⟩ q ↔ q ∈ grant.revoked := by
          intro m a r
          constructor
          · rintro ⟨s, serving, member⟩
            obtain rfl := Option.some.inj serving
            exact member
          · exact fun member => ⟨_, rfl, member⟩
        by_cases here : q = peer
        · subst here
          simp only [Function.update_self]
          refine ⟨?_, range, ?_, ?_, nofun, awaited'.trans (waits _ _ _).symm,
            fun start stop is => (notRunning start stop is).elim, fun _ => none, live⟩
          · rw [app]
            constructor <;> exact nofun
          · intro _
            rw [opened]
            exact isOpened (by rw [asking]; exact nofun)
          · exact ⟨fun _ => ⟨_, rfl, rfl⟩, fun _ => rfl⟩
        · simp only [Function.update_of_ne here]
          refine ⟨asks, range, ?_, ?_, replied, awaited'.trans (waits _ _ _).symm,
            fun start stop is => (notRunning start stop is).elim, fun _ => none, live⟩
          · intro busy
            rw [opened]
            exact isOpened busy
          · constructor
            · exact fun served => (unserved q served).elim
            · rintro ⟨s, serving, is⟩
              obtain rfl := Option.some.inj serving
              exact (here is.symm).elim
      · intro s serving
        obtain rfl := Option.some.inj serving
        rw [revoked]
        exact MMFile.conflicting_nodup _ _ _ _ _
      · intro s serving x member
        obtain rfl := Option.some.inj serving
        rw [app] at member
        obtain rfl := Option.some.inj member
        exact ⟨lower, upper⟩
  · cases done

theorem Flow.join (flow : n.Flow) (done : n.join peer = some n') : n'.Flow := by
  unfold Network.join at done
  split at done
  · next s serving revoking =>
      obtain rfl := Option.some.inj done
      have distinct := flow.distinct s serving
      refine ⟨fun q => ?_, ?_, ?_⟩
      · obtain ⟨asks, range, opened, served, replied, awaited, running, unrevoked, live⟩ := flow.each q
        have servedNow : n.asking q = .served ↔
            ∃ t, some { s with waiting := s.waiting.erase peer } = some t ∧ t.peer = q := by
          rw [served, serving]
          constructor
          · rintro ⟨t, is, rfl⟩
            obtain rfl := Option.some.inj is
            exact ⟨_, rfl, rfl⟩
          · rintro ⟨t, is, rfl⟩
            obtain rfl := Option.some.inj is
            exact ⟨s, rfl, rfl⟩
        have awaitedBefore : n.revoking q ≠ .none ↔ q ∈ s.waiting := by
          rw [awaited]
          constructor
          · rintro ⟨t, is, member⟩
            obtain rfl := Option.some.inj (serving.symm.trans is)
            exact member
          · exact fun member => ⟨s, serving, member⟩
        have awaitedNow : ∀ m a r, Network.Awaits ⟨m, some { s with waiting := s.waiting.erase peer },
            n.clients, a, r⟩ q ↔ q ∈ s.waiting.erase peer := by
          intro m a r
          constructor
          · rintro ⟨t, is, member⟩
            obtain rfl := Option.some.inj is
            exact member
          · exact fun member => ⟨_, rfl, member⟩
        refine ⟨asks, range, opened, servedNow, replied, ?_, ?_, ?_, live⟩
        · rw [awaitedNow]
          by_cases here : q = peer
          · subst here
            simp only [Function.update_self]
            exact ⟨fun busy => (busy rfl).elim, fun member => ((distinct.mem_erase_iff.mp member).1 rfl).elim⟩
          · simp only [Function.update_of_ne here, awaitedBefore, List.mem_erase_of_ne here]
        · intro start stop is
          by_cases here : q = peer
          · subst here
            simp only [Function.update_self] at is
            cases is
          · simp only [Function.update_of_ne here] at is
            exact running start stop is
        · intro never
          by_cases here : q = peer
          · subst here
            exact unrevoked (by rw [revoking]; exact nofun)
          · simp only [Function.update_of_ne here] at never
            exact unrevoked never
      · intro t is
        obtain rfl := Option.some.inj is
        exact distinct.erase peer
      · intro t is
        obtain rfl := Option.some.inj is
        exact flow.grant s serving
  · cases done

theorem Flow.finish (flow : n.Flow) (done : n.finish = some n') : n'.Flow := by
  unfold Network.finish at done
  split at done
  · next s serving =>
      obtain ⟨empty, done⟩ := Option.ite_none_right_eq_some.mp done
      obtain rfl := Option.some.inj done
      refine ⟨fun q => ?_, nofun, nofun⟩
      obtain ⟨asks, range, opened, served, replied, awaited, running, unrevoked, live⟩ := flow.each q
      have nobody : ¬ n.Awaits q := by
        rintro ⟨t, is, member⟩
        obtain rfl := Option.some.inj (serving.symm.trans is)
        rw [empty] at member
        cases member
      have awaitedNow : ∀ m a r, n.revoking q ≠ .none ↔ Network.Awaits ⟨m, none, n.clients, a, r⟩ q := by
        intro m a r
        rw [awaited]
        refine ⟨fun waits => (nobody waits).elim, ?_⟩
        rintro ⟨t, is, -⟩
        cases is
      by_cases here : q = s.peer
      · have isServed : n.asking q = .served := served.mpr ⟨s, serving, here.symm⟩
        rw [isServed] at asks opened
        subst here
        simp only [Function.update_self]
        refine ⟨?_, range, fun _ => opened nofun, ?_, ?_, awaitedNow _ _ _, running, unrevoked, live⟩
        · rw [← asks]
          constructor <;> exact nofun
        · constructor
          · exact nofun
          · rintro ⟨t, is, -⟩
            cases is
        · rintro _ _ ⟨⟩
          exact flow.grant s serving
      · simp only [Function.update_of_ne here]
        refine ⟨asks, range, opened, ?_, replied, awaitedNow _ _ _, running, unrevoked, live⟩
        rw [served, serving]
        constructor
        · rintro ⟨t, is, rfl⟩
          obtain rfl := Option.some.inj is
          exact (here rfl).elim
        · rintro ⟨t, is, -⟩
          cases is
  · cases done

theorem Flow.step (flow : n.Flow) {e : Event Peer} (allowed : patient.allowed n e) (done : n.exec e = some n') :
    n'.Flow := by
  obtain ⟨range, patience⟩ := allowed
  cases e with
  | acquire peer offset nbyte write => exact flow.acquire range.1 range.2.1 patience done
  | serve peer => exact flow.serve done
  | arrive peer => exact flow.arrive done
  | complete peer => exact flow.complete patience done
  | join peer => exact flow.join done
  | finish => exact flow.finish done
  | reply peer => exact flow.reply patience done
  | block peer =>
      obtain ⟨c, ran, rfl⟩ := Option.map_eq_some_iff.mp done
      have live := (flow.each peer).live.block ran
      unfold TokenHolder.block at ran
      split at ran
      · next app =>
          obtain rfl := Option.some.inj ran
          exact flow.setClient (by rw [app]; rfl) rfl live
      · cases ran
  | unlock peer =>
      obtain ⟨c, ran, rfl⟩ := Option.map_eq_some_iff.mp done
      have live := (flow.each peer).live.unlock ran
      unfold TokenHolder.unlock at ran
      split at ran
      · next app =>
          obtain rfl := Option.some.inj ran
          exact flow.setClient (by rw [app]; rfl) rfl live
      · cases ran

theorem Flow.initial (first : n.Initial) : n.Flow := by
  obtain ⟨-, idle, each⟩ := first
  refine ⟨fun q => ?_, ?_, ?_⟩
  · obtain ⟨client, asking, revoking⟩ := each q
    rw [client, asking, revoking]
    refine ⟨⟨fun _ => rfl, fun _ => rfl⟩, nofun, fun busy => (busy rfl).elim, ?_, nofun, ?_, nofun, fun _ => rfl,
      TokenHolder.live_of_initial rfl⟩
    · rw [idle]
      constructor
      · exact nofun
      · rintro ⟨t, is, -⟩
        cases is
    · constructor
      · exact fun busy => (busy rfl).elim
      · rintro ⟨t, is, -⟩
        rw [idle] at is
        cases is
  · rw [idle]; exact nofun
  · rw [idle]; exact nofun

theorem reachable_flow (reach : Reachable Initial patient.Step n) : n.Flow :=
  reach.invariant Flow (fun _ => Flow.initial) (fun _ _ flow ⟨_, allowed, ran⟩ => flow.step allowed ran)

/-! ## Something can happen -/

/-- No call and no message is under way. -/
def AtRest (n : Network Peer) : Prop :=
  n.serving = none ∧ ∀ q, (n.clients q).app = .idle ∧ n.asking q = .none ∧ n.revoking q = .none

/-- A new call of a client. -/
def Event.isCall : Event Peer → Bool
  | .acquire _ _ _ _ => true
  | _ => false

/-- Something other than a new call can happen. -/
def CanMove (n : Network Peer) : Prop := ∃ e : Event Peer, e.isCall = false ∧ (n.exec e).isSome = true

/-- A client that works can go on. -/
theorem working_moves {offset nbyte : Nat} {write found : Bool} {rest : List (Nat × Nat)}
    (app : (n.clients peer).app = .working offset nbyte write found rest) :
    n.CanMove := by
  cases rest with
  | nil => exact ⟨.unlock peer, rfl, by simp only [exec, TokenHolder.unlock, app, Option.map_some, Option.isSome_some]⟩
  | cons piece rest =>
      exact ⟨.block peer, rfl, by simp only [exec, TokenHolder.block, app, Option.map_some, Option.isSome_some]⟩

/-- A revocation to a client that does not work can go on. -/
theorem Flow.revoking_moves (flow : n.Flow) (still : ∀ offset nbyte write found rest,
    (n.clients peer).app ≠ .working offset nbyte write found rest) (awaits : n.Awaits peer) :
    n.CanMove := by
  obtain ⟨-, -, -, -, -, awaited, running, -, live⟩ := flow.each peer
  cases where_ : n.revoking peer with
  | none => exact (awaited.mpr awaits where_).elim
  | request start stop => exact ⟨.arrive peer, rfl, by simp only [exec, Network.arrive, where_, Option.isSome_some]⟩
  | running start stop =>
      obtain ⟨v, only⟩ := running start stop where_
      have posted := live.posted v (by rw [only]; exact List.mem_singleton_self v)
      have nothing : TokenHolder.due (n.clients peer).app (n.clients peer).permissions v.sem = 0 := by
        cases app : (n.clients peer).app with
        | idle | requesting => rfl
        | working offset nbyte write found rest => exact (still _ _ _ _ _ app).elim
      rw [nothing, Nat.add_zero] at posted
      refine ⟨.complete peer, rfl, ?_⟩
      simp only [exec, Network.complete, where_, TokenHolder.complete, only, List.getElem?_cons_zero, Option.bind_eq_bind,
        Option.bind_some, if_pos posted, Option.map_some, Option.isSome_some]
  | reply =>
      obtain ⟨s, serving, -⟩ := awaits
      exact ⟨.join peer, rfl, by simp only [exec, Network.join, where_, serving, Option.isSome_some]⟩

/-- A request can go on when the manager is free. -/
theorem Flow.asking_moves (flow : n.Flow) (free : n.serving = none) {offset nbyte : Nat} {write : Bool}
    (app : (n.clients peer).app = .requesting offset nbyte write) : n.CanMove := by
  obtain ⟨asks, -, opened, served, -, -, -, -, live⟩ := flow.each peer
  rw [app] at asks
  have unlocks := live.unlocks
  rw [app] at unlocks
  cases where_ : n.asking peer with
  | none => exact nomatch asks.mp where_
  | request =>
      obtain ⟨answer, asked⟩ := MMFile.waitAndGetPermissionFor_answers (opened (by rw [where_]; exact nofun)) offset
        (offset + nbyte) write
      refine ⟨.serve peer, rfl, ?_⟩
      simp only [exec, Network.serve, free, where_, app, asked, Option.map_some, Option.isSome_some]
  | served =>
      obtain ⟨s, serving, -⟩ := served.mp where_
      rw [free] at serving
      cases serving
  | reply start stop =>
      obtain ⟨permissions, added⟩ : ∃ l, addPermission start stop write (n.clients peer).permissions true = some l :=
        addPermission_answers unlocks start stop write
      refine ⟨.reply peer, rfl, ?_⟩
      simp only [exec, Network.reply, where_, TokenHolder.granted, app, added, Option.map_some, Option.isSome_some]

/-- Nothing hangs: while a call or a message is under way, something other than a new
    call can happen. -/
theorem Flow.moves (flow : n.Flow) : n.AtRest ∨ n.CanMove := by
  by_cases busy : ∃ q offset nbyte write found rest, (n.clients q).app = .working offset nbyte write found rest
  · obtain ⟨q, offset, nbyte, write, found, rest, app⟩ := busy
    exact .inr (working_moves app)
  · have still : ∀ q offset nbyte write found rest,
        (n.clients q).app ≠ .working offset nbyte write found rest :=
      fun q offset nbyte write found rest app => busy ⟨q, offset, nbyte, write, found, rest, app⟩
    cases serving : n.serving with
    | some s =>
        right
        cases waiting : s.waiting with
        | nil => exact ⟨.finish, rfl, by simp only [exec, Network.finish, serving, waiting, if_true, Option.isSome_some]⟩
        | cons q rest =>
            exact flow.revoking_moves (still q) ⟨s, serving, by rw [waiting]; exact List.mem_cons_self⟩
    | none =>
        by_cases asking : ∃ q offset nbyte write, (n.clients q).app = .requesting offset nbyte write
        · obtain ⟨q, offset, nbyte, write, app⟩ := asking
          exact .inr (flow.asking_moves serving app)
        · refine .inl ⟨serving, fun q => ?_⟩
          obtain ⟨asks, -, -, -, -, awaited, -⟩ := flow.each q
          have app : (n.clients q).app = .idle := by
            cases app : (n.clients q).app with
            | idle => rfl
            | requesting offset nbyte write => exact (asking ⟨q, offset, nbyte, write, app⟩).elim
            | working offset nbyte write found rest => exact (still _ _ _ _ _ _ app).elim
          refine ⟨app, asks.mpr (by rw [app]; rfl), ?_⟩
          by_contra revoked
          obtain ⟨s, is, -⟩ := awaited.mp revoked
          rw [serving] at is
          cases is

/-! ## It ends -/

section Measure

variable [Fintype Peer]

/-- The steps a call still has to make on the client. -/
def appLeft : App → Nat
  | .idle => 0
  | .requesting offset nbyte _ => (pieces offset nbyte).length + 1
  | .working _ _ _ _ rest => rest.length + 1

/-- The steps of a request, with those of the revocations it may cause at `peers` clients. -/
def askingLeft (peers : Nat) : Asking → Nat
  | .none => 0
  | .request => 3 + peers * 3
  | .served => 2
  | .reply _ _ => 1

def revokingLeft : Revoking → Nat
  | .none => 0
  | .request _ _ => 3
  | .running _ _ => 2
  | .reply => 1

/-- At most so many steps are left. -/
def left (n : Network Peer) : Nat :=
  ∑ q, (appLeft (n.clients q).app + askingLeft (Fintype.card Peer) (n.asking q)) + ∑ q, revokingLeft (n.revoking q)

/-- One client and its messages change. -/
theorem left_lt (peer : Peer) (others : ∀ q, q ≠ peer →
      (n'.clients q).app = (n.clients q).app ∧ n'.asking q = n.asking q ∧ n'.revoking q = n.revoking q)
    (less : appLeft (n'.clients peer).app + askingLeft (Fintype.card Peer) (n'.asking peer) +
        revokingLeft (n'.revoking peer) <
      appLeft (n.clients peer).app + askingLeft (Fintype.card Peer) (n.asking peer) + revokingLeft (n.revoking peer)) :
    n'.left < n.left := by
  unfold Network.left
  rw [← Finset.sum_add_distrib, ← Finset.sum_add_distrib]
  refine Finset.sum_lt_sum (fun q _ => ?_) ⟨peer, Finset.mem_univ peer, less⟩
  by_cases here : q = peer
  · rw [here]
    exact less.le
  · obtain ⟨app, asking, revoking⟩ := others q here
    rw [app, asking, revoking]

theorem revokingLeft_le (r : Revoking) : revokingLeft r ≤ 3 := by
  cases r <;> simp [revokingLeft]

theorem serve_left (done : n.serve peer = some n') : n'.left < n.left := by
  unfold Network.serve at done
  split at done
  · next offset nbyte write idle asking app =>
      obtain ⟨⟨manager, grant⟩, -, rfl⟩ := Option.map_eq_some_iff.mp done
      unfold Network.left
      have revocations : ∀ f : Peer → Revoking, ∑ q, revokingLeft (f q) ≤ Fintype.card Peer * 3 := by
        intro f
        calc ∑ q, revokingLeft (f q) ≤ ∑ _q : Peer, 3 := Finset.sum_le_sum fun q _ => revokingLeft_le (f q)
          _ = Fintype.card Peer * 3 := by simp
      have own : ∑ q, (appLeft (n.clients q).app + askingLeft (Fintype.card Peer)
            (Function.update n.asking peer Asking.served q)) + (1 + Fintype.card Peer * 3) ≤
          ∑ q, (appLeft (n.clients q).app + askingLeft (Fintype.card Peer) (n.asking q)) := by
        rw [← Finset.add_sum_erase _ _ (Finset.mem_univ peer), ← Finset.add_sum_erase Finset.univ
          (fun q => appLeft (n.clients q).app + askingLeft (Fintype.card Peer) (n.asking q)) (Finset.mem_univ peer)]
        have others : ∑ q ∈ Finset.univ.erase peer, (appLeft (n.clients q).app + askingLeft (Fintype.card Peer)
              (Function.update n.asking peer Asking.served q)) =
            ∑ q ∈ Finset.univ.erase peer, (appLeft (n.clients q).app +
              askingLeft (Fintype.card Peer) (n.asking q)) := by
          refine Finset.sum_congr rfl fun q member => ?_
          rw [Function.update_of_ne (Finset.ne_of_mem_erase member)]
        rw [others, Function.update_self, asking]
        simp only [askingLeft]
        omega
      have after := revocations fun q => if q ∈ grant.revoked then .request offset (offset + nbyte) else n.revoking q
      simp only at after ⊢
      omega
  · cases done

/-- Every step but a new call lowers the number of steps that are left. -/
theorem Flow.left_lt (flow : n.Flow) {e : Event Peer} (silent : e.isCall = false) (done : n.exec e = some n') :
    n'.left < n.left := by
  cases e with
  | acquire peer offset nbyte write => cases silent
  | serve peer => exact serve_left done
  | arrive peer =>
      simp only [exec, Network.arrive] at done
      split at done
      · next start stop where_ =>
          obtain rfl := Option.some.inj done
          refine Network.left_lt peer (fun q other => ?_) ?_
          · simp only [Network.setClient, Function.update_of_ne other, and_self]
          · simp only [Network.setClient, Function.update_self, where_, TokenHolder.register, revokingLeft]
            omega
      · cases done
  | complete peer =>
      simp only [exec, Network.complete] at done
      split at done
      · next start stop where_ =>
          obtain ⟨c, completed, rfl⟩ := Option.map_eq_some_iff.mp done
          have app : c.app = (n.clients peer).app := by
            obtain ⟨v, -, completed⟩ := Option.bind_eq_some_iff.mp completed
            obtain ⟨-, completed⟩ := Option.ite_none_right_eq_some.mp completed
            obtain rfl := Option.some.inj completed
            rfl
          refine Network.left_lt peer (fun q other => ?_) ?_
          · simp only [Network.setClient, Function.update_of_ne other, and_self]
          · simp only [Network.setClient, Function.update_self, where_, app, revokingLeft]
            omega
      · cases done
  | join peer =>
      simp only [exec, Network.join] at done
      split at done
      · next s serving where_ =>
          obtain rfl := Option.some.inj done
          refine Network.left_lt peer (fun q other => ?_) ?_
          · simp only [Function.update_of_ne other, and_self]
          · simp only [Function.update_self, where_, revokingLeft]
            omega
      · cases done
  | finish =>
      simp only [exec, Network.finish] at done
      split at done
      · next s serving =>
          obtain ⟨-, done⟩ := Option.ite_none_right_eq_some.mp done
          obtain rfl := Option.some.inj done
          have served : n.asking s.peer = .served := (flow.each s.peer).served.mpr ⟨s, serving, rfl⟩
          refine Network.left_lt s.peer (fun q other => ?_) ?_
          · simp only [Function.update_of_ne other, and_self]
          · simp only [Function.update_self, served, askingLeft]
            omega
      · cases done
  | reply peer =>
      simp only [exec, Network.reply] at done
      split at done
      · next start stop where_ =>
          obtain ⟨c, granted, rfl⟩ := Option.map_eq_some_iff.mp done
          have same : appLeft c.app = appLeft (n.clients peer).app := by
            unfold TokenHolder.granted at granted
            split at granted
            · next app =>
                obtain ⟨permissions, -, rfl⟩ := Option.map_eq_some_iff.mp granted
                rw [app]
                rfl
            · cases granted
          refine Network.left_lt peer (fun q other => ?_) ?_
          · simp only [Network.setClient, Function.update_of_ne other, and_self]
          · simp only [Network.setClient, Function.update_self, where_, same, askingLeft]
            omega
      · cases done
  | block peer =>
      obtain ⟨c, ran, rfl⟩ := Option.map_eq_some_iff.mp done
      have less : appLeft c.app < appLeft (n.clients peer).app := by
        unfold TokenHolder.block at ran
        split at ran
        · next app =>
            obtain rfl := Option.some.inj ran
            rw [app]
            exact Nat.lt_succ_self _
        · cases ran
      refine Network.left_lt peer (fun q other => ?_) ?_
      · simp only [Network.setClient, Function.update_of_ne other, and_self]
      · simp only [Network.setClient, Function.update_self]
        omega
  | unlock peer =>
      obtain ⟨c, ran, rfl⟩ := Option.map_eq_some_iff.mp done
      have less : appLeft c.app < appLeft (n.clients peer).app := by
        unfold TokenHolder.unlock at ran
        split at ran
        · next app =>
            obtain rfl := Option.some.inj ran
            rw [app]
            exact Nat.zero_lt_succ _
        · cases ran
      refine Network.left_lt peer (fun q other => ?_) ?_
      · simp only [Network.setClient, Function.update_of_ne other, and_self]
      · simp only [Network.setClient, Function.update_self]
        omega

theorem Flow.run (flow : n.Flow) {events : List (Event Peer)} (silent : ∀ e ∈ events, e.isCall = false)
    (ran : patient.run n events = some n') : n'.Flow ∧ events.length + n'.left ≤ n.left := by
  induction events generalizing n with
  | nil =>
      obtain rfl := Option.some.inj ran
      exact ⟨flow, Nat.le_of_eq (Nat.zero_add _)⟩
  | cons e rest ih =>
      obtain ⟨allowed, t, first, ran⟩ := patient.run_cons.mp ran
      have less := flow.left_lt (silent e List.mem_cons_self) first
      obtain ⟨flow', bound⟩ := ih (flow.step allowed first) (fun e' member => silent e' (List.mem_cons_of_mem _ member)) ran
      refine ⟨flow', ?_⟩
      rw [List.length_cons]
      omega

/-- Calls return.  As long as every read unlocks all that its reply locks and no
    revocation takes a locked token: from every state that is reached, at most
    `left` steps are possible before the next call, in whatever order the threads
    run and the messages arrive, and it is never stuck before every call has
    returned and every message has arrived.  The ranges end at `INT_MAX` or before, and a
    call that has its token always gets through its blocks: that `addBlock` may wait for
    ever is not part of the protocol of the tokens. -/
theorem calls_return {n n' : Network Peer} (reach : Reachable Initial patient.Step n) {events : List (Event Peer)}
    (silent : ∀ e ∈ events, e.isCall = false) (ran : patient.run n events = some n') :
    events.length ≤ n.left ∧ (n'.AtRest ∨ n'.CanMove) := by
  obtain ⟨flow, bound⟩ := (reachable_flow reach).run silent ran
  exact ⟨by omega, flow.moves⟩

end Measure

/-- Two clients with the file open. -/
def twoClients : Network Bool :=
  { manager := ((({ name := "f", stripWidth := 1 } : MMFile Bool).open false).1.open true).1 }

/-- One writes; the other wants to write the same byte. -/
def contended : Option (Network Bool) :=
  patient.run twoClients [.acquire false 0 1 true, .serve false, .finish, .reply false, .acquire true 0 1 true,
    .serve true, .arrive false]

theorem calls_return_contended : ∃ n', patient.run (contended.get rfl) [.block false, .unlock false, .complete false] =
    some n' ∧ 3 ≤ (contended.get rfl).left ∧ (n'.AtRest ∨ n'.CanMove) := by
  have start : Reachable Initial patient.Step twoClients := by
    refine Reachable.init ⟨fun q => ?_, rfl, fun q => ⟨rfl, rfl, rfl⟩⟩
    cases q <;> rfl
  have reach : Reachable Initial patient.Step (contended.get rfl) := patient.run_reachable start (Option.some_get _).symm
  obtain ⟨n', ran⟩ : ∃ n', patient.run (contended.get rfl) [.block false, .unlock false, .complete false] = some n' :=
    ⟨_, rfl⟩
  exact ⟨n', ran, calls_return reach (by decide) ran⟩

/-- The first client writes, which gives it the whole file; the second writes byte 1,
    which the first then reads, and byte 0 after that.  The read has locked the write
    tokens on both sides of its byte and unlocks none of them. -/
def hung : Option (Network Bool) :=
  machine.run twoClients [.acquire false 0 1 true, .serve false, .finish, .reply false, .block false, .unlock false,
    .acquire true 1 1 true, .serve true, .arrive false, .complete false, .join false, .finish, .reply true, .block true,
    .unlock true,
    .acquire false 1 1 false, .serve false, .arrive true, .complete true, .join true, .finish, .reply false, .block false,
    .unlock false,
    .acquire true 0 1 true, .serve true, .arrive false]

theorem hung_stuck : ¬ (hung.get rfl).AtRest ∧ ¬ (hung.get rfl).CanMove := by
  refine ⟨fun rest => ?_, ?_⟩
  · cases rest.1
  · rintro ⟨e, silent, moves⟩
    cases e with
    | acquire => cases silent
    | finish => cases moves
    | serve peer | arrive peer | complete peer | join peer | reply peer | block peer | unlock peer =>
        cases peer <;> cases moves

end Network

end PFS
