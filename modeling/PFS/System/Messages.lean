import PFS.Client.TokenWindow
import PFS.System.Copies

/-! # Tokens and messages

The manager and the clients of a file with the messages between them.  A call of
`GetPermission` is in flight as a request or as a reply, and so is a call of
`RevokePermission`; between the two the manager or the client works on it.  The
manager holds the file's lock from the moment it takes a request until all its
revocations have been answered.  Nothing orders the reply to a client before a
revocation that the manager sends to it later.
-/

namespace PFS

open Lib

variable {Peer : Type} [DecidableEq Peer]

/-- Where the `GetPermission` of a client is. -/
inductive Asking where
  | none
  | request
  | served
  | reply (start stop : Nat)

/-- Where the `RevokePermission` to a client is. -/
inductive Revoking where
  | none
  | request (start stop : Nat)
  | running (start stop : Nat)
  | reply

/-- The request the manager is working on: the granted range, and the clients
    whose revocations it waits for. -/
structure Service (Peer : Type) where
  peer : Peer
  start : Nat
  stop : Nat
  waiting : List Peer

structure Network (Peer : Type) where
  manager : MMFile Peer
  serving : Option (Service Peer) := none
  clients : Peer → TokenHolder := fun _ => {}
  asking : Peer → Asking := fun _ => .none
  revoking : Peer → Revoking := fun _ => .none

namespace Network

def setClient (n : Network Peer) (peer : Peer) (c : TokenHolder) : Network Peer :=
  { n with clients := Function.update n.clients peer c }

/-- A client calls `acquirePermission`: it finds its token or sends a request. -/
def acquire (n : Network Peer) (peer : Peer) (offset nbyte : Nat) (write : Bool) : Option (Network Peer) :=
  ((n.clients peer).acquire offset nbyte write).map fun c =>
    match c.app with
    | .requesting _ _ _ => { n.setClient peer c with asking := Function.update n.asking peer .request }
    | _ => n.setClient peer c

/-- The manager takes a request and sends the revocations it needs. -/
def serve (n : Network Peer) (peer : Peer) : Option (Network Peer) :=
  match n.serving, n.asking peer, (n.clients peer).app with
  | none, .request, .requesting offset nbyte write =>
      (n.manager.waitAndGetPermissionFor peer offset (offset + nbyte) write).map fun r =>
        { n with
          manager := r.1
          serving := some ⟨peer, r.2.start, r.2.stop, r.2.revoked⟩
          asking := Function.update n.asking peer .served
          revoking := fun q => if q ∈ r.2.revoked then .request offset (offset + nbyte) else n.revoking q }
  | _, _, _ => none

/-- A revocation reaches its client. -/
def arrive (n : Network Peer) (peer : Peer) : Option (Network Peer) :=
  match n.revoking peer with
  | .request start stop =>
      some { n.setClient peer ((n.clients peer).register start stop) with
        revoking := Function.update n.revoking peer (.running start stop) }
  | _ => none

/-- The client answers a revocation. -/
def complete (n : Network Peer) (peer : Peer) : Option (Network Peer) :=
  match n.revoking peer with
  | .running _ _ =>
      ((n.clients peer).complete 0).map fun c =>
        { n.setClient peer c with revoking := Function.update n.revoking peer .reply }
  | _ => none

/-- The answer to a revocation reaches the manager. -/
def join (n : Network Peer) (peer : Peer) : Option (Network Peer) :=
  match n.serving, n.revoking peer with
  | some s, .reply =>
      some { n with
        serving := some { s with waiting := s.waiting.erase peer }
        revoking := Function.update n.revoking peer .none }
  | _, _ => none

/-- The manager replies, once nothing is left to wait for. -/
def finish (n : Network Peer) : Option (Network Peer) :=
  match n.serving with
  | some s =>
      if s.waiting = [] then
        some { n with serving := none, asking := Function.update n.asking s.peer (.reply s.start s.stop) }
      else none
  | none => none

/-- The reply reaches the client. -/
def reply (n : Network Peer) (peer : Peer) : Option (Network Peer) :=
  match n.asking peer with
  | .reply start stop =>
      ((n.clients peer).granted start stop).map fun c =>
        { n.setClient peer c with asking := Function.update n.asking peer .none }
  | _ => none

inductive Event (Peer : Type) where
  | acquire (peer : Peer) (offset nbyte : Nat) (write : Bool)
  | serve (peer : Peer)
  | arrive (peer : Peer)
  | complete (peer : Peer)
  | join (peer : Peer)
  | finish
  | reply (peer : Peer)
  | block (peer : Peer)
  | unlock (peer : Peer)

def allowed (n : Network Peer) : Event Peer → Prop
  | .acquire peer offset nbyte _ => n.manager.isOpenedBy peer = true ∧ 1 ≤ nbyte ∧ offset + nbyte < uint32Size
  | _ => True

def exec (n : Network Peer) : Event Peer → Option (Network Peer)
  | .acquire peer offset nbyte write => n.acquire peer offset nbyte write
  | .serve peer => n.serve peer
  | .arrive peer => n.arrive peer
  | .complete peer => n.complete peer
  | .join peer => n.join peer
  | .finish => n.finish
  | .reply peer => n.reply peer
  | .block peer => (n.clients peer).block.map (n.setClient peer)
  | .unlock peer => (n.clients peer).unlock.map (n.setClient peer)

def machine : Machine (Network Peer) (Event Peer) := ⟨allowed, exec⟩

instance (n : Network Peer) : (e : Event Peer) → Decidable (machine.allowed n e)
  | .acquire _ _ _ _ => inferInstanceAs (Decidable (_ ∧ _ ∧ _))
  | .serve _ | .arrive _ | .complete _ | .join _ | .finish | .reply _ | .block _ | .unlock _ => isTrue trivial

/-- Nobody holds a token and no message is in flight. -/
def Initial (n : Network Peer) : Prop :=
  (∀ q, n.manager.tokens q = []) ∧ n.serving = none ∧ ∀ q, n.clients q = {} ∧ n.asking q = .none ∧ n.revoking q = .none

/-! ## When replies are not overtaken -/

/-- A reply to the client is in flight. -/
def Asking.replied : Asking → Bool
  | .reply _ _ => true
  | _ => false

/-- A client answers a revocation only when no reply to it is in flight, and no
    grant meets a slip of `addPermission`. -/
def InOrder (n : Network Peer) : Event Peer → Prop
  | .acquire _ offset nbyte _ => offset + nbyte ≤ intMax
  | .serve peer => ∀ r ∈ TokenHolder.request (n.clients peer).app,
      GrantClean (n.manager.tokens peer) (n.manager.grantRange peer r.1 (r.1 + r.2.1) r.2.2).1
        (n.manager.grantRange peer r.1 (r.1 + r.2.1) r.2.2).2 r.2.2
  | .complete peer => Asking.replied (n.asking peer) = false
  | _ => True

instance (n : Network Peer) : (e : Event Peer) → Decidable (n.InOrder e)
  | .acquire _ _ _ _ => inferInstanceAs (Decidable (_ ≤ _))
  | .serve peer => inferInstanceAs (Decidable (∀ r ∈ TokenHolder.request (n.clients peer).app, _))
  | .complete _ => inferInstanceAs (Decidable (_ = false))
  | .arrive _ | .join _ | .finish | .reply _ | .block _ | .unlock _ => isTrue trivial

def inOrder : Machine (Network Peer) (Event Peer) := ⟨fun n e => machine.allowed n e ∧ n.InOrder e, exec⟩

instance (n : Network Peer) (e : Event Peer) : Decidable (inOrder.allowed n e) := inferInstanceAs (Decidable (_ ∧ _))

/-! ## Tokens held and on their way -/

variable {n n' : Network Peer} {peer : Peer} {c : TokenHolder} {a : Asking} {r : Revoking}

/-- A client has a token on the byte, or a reply with one is in flight to it. -/
def Claimed (c : TokenHolder) (a : Asking) (m : Bool) (b : Nat) : Prop :=
  Grants c.permissions m b ∨ ∃ start stop offset nbyte write, a = .reply start stop ∧
    c.app = .requesting offset nbyte write ∧ (start ≤ b ∧ b < stop) ∧ (m = true → write = true)

/-- A revocation of the byte is under way and not answered. -/
def Pending (r : Revoking) (b : Nat) : Prop :=
  ∃ start stop, (r = .request start stop ∨ r = .running start stop) ∧ start ≤ b ∧ b < stop

/-- The manager waits for the client's answer. -/
def Awaits (n : Network Peer) (q : Peer) : Prop := ∃ s, n.serving = some s ∧ q ∈ s.waiting

/-- What a client is doing fits its messages. -/
structure Tidy (awaited : Prop) (c : TokenHolder) (a : Asking) (r : Revoking) : Prop where
  request : a ≠ .none → ∃ offset nbyte write, c.app = .requesting offset nbyte write ∧ offset + nbyte ≤ intMax
  waiting : r ≠ .none → awaited
  running : ∀ start stop, r = .running start stop →
    ∃ v, c.revocations = [v] ∧ v.start = start ∧ v.stop = stop
  unrevoked : (∀ start stop, r ≠ .running start stop) → c.revocations = []

/-- The manager knows of every token a client has or is about to get, and these are
    exclusive. -/
structure Inv (n : Network Peer) : Prop where
  tidy : ∀ q, Tidy (n.Awaits q) (n.clients q) (n.asking q) (n.revoking q)
  served : ∀ s, n.serving = some s → n.asking s.peer = .served
  orderly : n.manager.Orderly
  granted : ∀ s offset nbyte write, n.serving = some s → (n.clients s.peer).app = .requesting offset nbyte write →
    ∀ b, s.start ≤ b → b < s.stop → n.manager.cover s.peer write b
  known : ∀ q m b, Claimed (n.clients q) (n.asking q) m b → n.manager.cover q m b ∨ Pending (n.revoking q) b
  exclusive : ∀ p q b, p ≠ q → Claimed (n.clients p) (n.asking p) true b →
    ¬ Claimed (n.clients q) (n.asking q) false b

/-- One client and its messages change. -/
def change (n : Network Peer) (peer : Peer) (c : TokenHolder) (a : Asking) (r : Revoking) : Network Peer :=
  { n with
    clients := Function.update n.clients peer c
    asking := Function.update n.asking peer a
    revoking := Function.update n.revoking peer r }

/-- A client gets no new tokens, and those of which a revocation has been answered
    are gone. -/
theorem Inv.change (inv : n.Inv) (tidy : Tidy (n.Awaits peer) c a r)
    (served : n.asking peer = .served → a = .served ∧ c.app = (n.clients peer).app)
    (fewer : ∀ m b, Claimed c a m b →
      Claimed (n.clients peer) (n.asking peer) m b ∧ (Pending (n.revoking peer) b → Pending r b)) :
    (n.change peer c a r).Inv := by
  have claimed : ∀ q m b, Claimed ((n.change peer c a r).clients q) ((n.change peer c a r).asking q) m b →
      Claimed (n.clients q) (n.asking q) m b ∧ (Pending (n.revoking q) b → Pending ((n.change peer c a r).revoking q) b) := by
    intro q m b now
    by_cases same : q = peer
    · subst same
      simp only [Network.change, Function.update_self] at now ⊢
      exact fewer m b now
    · simp only [Network.change, Function.update_of_ne same] at now ⊢
      exact ⟨now, id⟩
  refine ⟨?_, ?_, inv.orderly, ?_, ?_, ?_⟩
  · intro q
    by_cases same : q = peer
    · subst same
      simp only [Network.change, Function.update_self]
      exact tidy
    · simp only [Network.change, Function.update_of_ne same]
      exact inv.tidy q
  · intro s serving
    have before := inv.served s serving
    by_cases same : s.peer = peer
    · simp only [Network.change, same, Function.update_self]
      rw [same] at before
      exact (served before).1
    · simp only [Network.change, Function.update_of_ne same]
      exact before
  · intro s offset nbyte write serving app
    refine inv.granted s offset nbyte write serving ?_
    have before := inv.served s serving
    by_cases same : s.peer = peer
    · simp only [Network.change, same, Function.update_self] at app
      rw [same] at before ⊢
      rw [← (served before).2]
      exact app
    · simp only [Network.change, Function.update_of_ne same] at app
      exact app
  · intro q m b now
    obtain ⟨before, pending⟩ := claimed q m b now
    exact (inv.known q m b before).imp id pending
  · intro p q b distinct writes reads
    exact inv.exclusive p q b distinct (claimed p true b writes).1 (claimed q false b reads).1

theorem setClient_eq (n : Network Peer) (peer : Peer) (c : TokenHolder) :
    n.setClient peer c = n.change peer c (n.asking peer) (n.revoking peer) := by
  simp only [setClient, change, Function.update_eq_self]

/-- A step of a client that is not about its messages. -/
theorem Inv.setClient (inv : n.Inv) (same : bareList c.permissions = bareList (n.clients peer).permissions)
    (busy : n.asking peer ≠ .none → c.app = (n.clients peer).app)
    (revocations : c.revocations = (n.clients peer).revocations) : (n.setClient peer c).Inv := by
  rw [setClient_eq]
  have tidy := inv.tidy peer
  refine inv.change ⟨?_, tidy.waiting, ?_, ?_⟩ ?_ ?_
  · intro asks
    rw [busy asks]
    exact tidy.request asks
  · rw [revocations]
    exact tidy.running
  · rw [revocations]
    exact tidy.unrevoked
  · intro serving
    exact ⟨serving, busy (by rw [serving]; exact nofun)⟩
  · intro m b claimed
    refine ⟨?_, id⟩
    rcases claimed with held | ⟨start, stop, offset, nbyte, write, asking, app, inside⟩
    · exact .inl (grants_congr same.symm held)
    · rw [busy (by rw [asking]; exact nofun)] at app
      exact .inr ⟨start, stop, offset, nbyte, write, asking, app, inside⟩

theorem acquire_inv (inv : n.Inv) {offset nbyte : Nat} {write : Bool} (small : offset + nbyte ≤ intMax)
    (done : n.acquire peer offset nbyte write = some n') : n'.Inv := by
  simp only [acquire] at done
  obtain ⟨c, acquired, rfl⟩ := Option.map_eq_some_iff.mp done
  unfold TokenHolder.acquire at acquired
  split at acquired
  · next idle =>
      have silent : n.asking peer = .none := by
        by_contra asks
        obtain ⟨_, _, _, app, -⟩ := (inv.tidy peer).request asks
        rw [idle] at app
        cases app
      obtain rfl := Option.some.inj acquired
      by_cases has : hasPermission offset (offset + nbyte) write (n.clients peer).permissions = true
      · simp only [if_pos has]
        exact inv.setClient rfl (fun asks => (asks silent).elim) rfl
      · simp only [if_neg has]
        have asked : ∀ c, { n.setClient peer c with asking := Function.update n.asking peer .request } =
            n.change peer c .request (n.revoking peer) := by
          intro c
          simp only [Network.setClient, Network.change, Function.update_eq_self]
        rw [asked]
        have tidy := inv.tidy peer
        refine inv.change ⟨fun _ => ⟨offset, nbyte, write, rfl, small⟩, tidy.waiting, tidy.running, tidy.unrevoked⟩ ?_ ?_
        · intro serving
          rw [silent] at serving
          cases serving
        · intro m b claimed
          rcases claimed with held | ⟨_, _, _, _, _, replied, -⟩
          · exact ⟨.inl held, id⟩
          · cases replied
  · cases acquired

theorem arrive_inv (inv : n.Inv) (done : n.arrive peer = some n') : n'.Inv := by
  unfold arrive at done
  split at done
  · next start stop revoking =>
      obtain rfl := Option.some.inj done
      have arrived : { n.setClient peer ((n.clients peer).register start stop) with
          revoking := Function.update n.revoking peer (.running start stop) } =
          n.change peer ((n.clients peer).register start stop) (n.asking peer) (.running start stop) := by
        simp only [Network.setClient, Network.change, Function.update_eq_self]
      rw [arrived]
      have tidy := inv.tidy peer
      have none : (n.clients peer).revocations = [] := by
        apply tidy.unrevoked
        intro _ _ running
        rw [revoking] at running
        cases running
      refine inv.change ⟨tidy.request, ?_, ?_, ?_⟩ ?_ ?_
      · intro _
        apply tidy.waiting
        rw [revoking]
        exact nofun
      · intro _ _ same
        cases same
        have only : ∃ sem count, ((n.clients peer).register start stop).revocations = [⟨start, stop, sem, count⟩] := by
          rw [TokenHolder.register, none]
          exact ⟨_, _, rfl⟩
        obtain ⟨sem, count, only⟩ := only
        exact ⟨_, only, rfl, rfl⟩
      · intro never
        exact (never start stop rfl).elim
      · exact fun serving => ⟨serving, rfl⟩
      · intro m b claimed
        constructor
        · rcases claimed with held | replied
          · exact .inl (grants_congr (TokenHolder.bareList_noted _ _ _ _).symm held)
          · exact .inr replied
        · rintro ⟨s, e, where_, inside⟩
          rw [revoking] at where_
          rcases where_ with same | same
          · cases same
            exact ⟨start, stop, .inr rfl, inside⟩
          · cases same
  · cases done

theorem complete_inv (inv : n.Inv) (inOrder : Asking.replied (n.asking peer) = false)
    (done : n.complete peer = some n') : n'.Inv := by
  unfold complete at done
  split at done
  · next start stop revoking =>
      obtain ⟨c, completed, rfl⟩ := Option.map_eq_some_iff.mp done
      have answered : { n.setClient peer c with revoking := Function.update n.revoking peer .reply } =
          n.change peer c (n.asking peer) .reply := by
        simp only [Network.setClient, Network.change, Function.update_eq_self]
      rw [answered]
      have tidy := inv.tidy peer
      obtain ⟨v, only, startEq, stopEq⟩ := tidy.running start stop revoking
      simp only [TokenHolder.complete, only, List.getElem?_cons_zero, Option.bind_eq_bind, Option.bind_some] at completed
      obtain ⟨-, completed⟩ := Option.ite_none_right_eq_some.mp completed
      obtain rfl := Option.some.inj completed
      refine inv.change ⟨tidy.request, ?_, ?_, fun _ => rfl⟩ (fun serving => ⟨serving, rfl⟩) ?_
      · intro _
        apply tidy.waiting
        rw [revoking]
        intro idle
        cases idle
      · intro start stop running
        cases running
      · intro m b claimed
        rcases claimed with held | ⟨_, _, _, _, _, replied, -⟩
        · simp only [startEq, stopEq] at held
          refine ⟨.inl (revokePermission_le held), ?_⟩
          rintro ⟨s, e, where_, inside⟩
          rw [revoking] at where_
          rcases where_ with same | same
          · cases same
          · cases same
            exact (revokePermission_clears held inside).elim
        · rw [replied] at inOrder
          cases inOrder
  · cases done

theorem reply_inv (inv : n.Inv) (done : n.reply peer = some n') : n'.Inv := by
  unfold reply at done
  split at done
  · next start stop asking =>
      obtain ⟨c, granted, rfl⟩ := Option.map_eq_some_iff.mp done
      have received : { n.setClient peer c with asking := Function.update n.asking peer .none } =
          n.change peer c .none (n.revoking peer) := by
        simp only [Network.setClient, Network.change, Function.update_eq_self]
      rw [received]
      unfold TokenHolder.granted at granted
      split at granted
      · next offset nbyte write app =>
          obtain ⟨permissions, added, rfl⟩ := Option.map_eq_some_iff.mp granted
          have tidy := inv.tidy peer
          refine inv.change ⟨fun asks => (asks rfl).elim, tidy.waiting, tidy.running, tidy.unrevoked⟩ ?_ ?_
          · intro serving
            rw [asking] at serving
            cases serving
          · intro m b claimed
            refine ⟨?_, id⟩
            rcases claimed with held | ⟨_, _, _, _, _, replied, -⟩
            · rcases addPermission_le added held with before | ⟨low, high, mode⟩
              · exact .inl before
              · exact .inr ⟨start, stop, offset, nbyte, write, asking, app, ⟨low, high⟩, mode⟩
            · cases replied
      · cases granted
  · cases done

theorem join_inv (inv : n.Inv) (done : n.join peer = some n') : n'.Inv := by
  unfold join at done
  split at done
  · next s serving revoking =>
      obtain rfl := Option.some.inj done
      have pending : ∀ q b, Pending (n.revoking q) b → Pending (Function.update n.revoking peer .none q) b := by
        intro q b
        by_cases same : q = peer
        · subst same
          rintro ⟨_, _, where_, -⟩
          rw [revoking] at where_
          rcases where_ with same | same
          · cases same
          · cases same
        · rw [Function.update_of_ne same]
          exact id
      refine ⟨?_, ?_, inv.orderly, ?_, ?_, inv.exclusive⟩
      · intro q
        have tidy := inv.tidy q
        by_cases same : q = peer
        · subst same
          refine ⟨tidy.request, fun some => ?_, fun _ _ running => ?_, fun _ => tidy.unrevoked (fun _ _ running => ?_)⟩
          · simp only [Function.update_self] at some
            exact (some rfl).elim
          · simp only [Function.update_self] at running
            cases running
          · rw [revoking] at running
            cases running
        · simp only [Function.update_of_ne same]
          refine ⟨tidy.request, fun some => ?_, tidy.running, tidy.unrevoked⟩
          obtain ⟨s', serving', member⟩ := tidy.waiting some
          rw [serving] at serving'
          obtain rfl := Option.some.inj serving'
          exact ⟨_, rfl, (List.mem_erase_of_ne same).mpr member⟩
      · intro s' serving'
        obtain rfl := Option.some.inj serving'
        exact inv.served s serving
      · intro s' offset nbyte write serving' app
        obtain rfl := Option.some.inj serving'
        exact inv.granted s offset nbyte write serving app
      · intro q m b claimed
        exact (inv.known q m b claimed).imp id (pending q b)
  · cases done

/-- A client the manager does not wait for has no revocation under way. -/
theorem Inv.not_pending (inv : n.Inv) {q : Peer} (free : ¬ n.Awaits q) (b : Nat) : ¬ Pending (n.revoking q) b := by
  rintro ⟨start, stop, where_, -⟩
  apply free
  apply (inv.tidy q).waiting
  rcases where_ with same | same
  · rw [same]; exact nofun
  · rw [same]; exact nofun

/-- The reply goes out when everybody who stood in its way has given up the range. -/
theorem finish_inv (inv : n.Inv) (done : n.finish = some n') : n'.Inv := by
  unfold finish at done
  split at done
  · next s serving =>
      obtain ⟨all, done⟩ := Option.ite_none_right_eq_some.mp done
      obtain rfl := Option.some.inj done
      have free : ∀ q, ¬ n.Awaits q := by
        rintro q ⟨s', serving', member⟩
        rw [serving] at serving'
        obtain rfl := Option.some.inj serving'
        rw [all] at member
        cases member
      have served := inv.served s serving
      obtain ⟨offset, nbyte, write, app, small⟩ := (inv.tidy s.peer).request (by rw [served]; exact nofun)
      have covered : ∀ q m b,
          Claimed (n.clients q) (Function.update n.asking s.peer (.reply s.start s.stop) q) m b →
          n.manager.cover q m b := by
        intro q m b claimed
        by_cases same : q = s.peer
        · subst same
          rw [Function.update_self] at claimed
          rcases claimed with held | ⟨start, stop, offset', nbyte', write', replied, app', inside, mode⟩
          · exact (inv.known s.peer m b (.inl held)).resolve_right (inv.not_pending (free s.peer) b)
          · cases replied
            rw [app] at app'
            cases app'
            have own := inv.granted s offset nbyte write serving app b inside.1 inside.2
            cases m with
            | false => exact own.read
            | true => rw [mode rfl] at own; exact own
        · rw [Function.update_of_ne same] at claimed
          exact (inv.known q m b claimed).resolve_right (inv.not_pending (free q) b)
      refine ⟨?_, nofun, inv.orderly, nofun, ?_, ?_⟩
      · intro q
        have tidy := inv.tidy q
        refine ⟨?_, fun some => (free q (tidy.waiting some)).elim, tidy.running, tidy.unrevoked⟩
        intro asks
        apply tidy.request
        by_cases same : q = s.peer
        · subst same
          rw [served]
          exact nofun
        · simp only [Function.update_of_ne same] at asks
          exact asks
      · intro q m b claimed
        exact .inl (covered q m b claimed)
      · intro p q b distinct writes reads
        exact (inv.orderly.exclusive p q distinct b).1 (covered p true b writes) (covered q false b reads)
  · cases done

/-- Nothing is revoked between requests. -/
theorem Inv.revoking_of_idle (inv : n.Inv) (idle : n.serving = none) (q : Peer) : n.revoking q = .none := by
  by_contra some
  obtain ⟨s, serving, -⟩ := (inv.tidy q).waiting some
  rw [idle] at serving
  cases serving

/-- A request that is served claims nothing yet. -/
theorem claimed_of_served {q : Peer} {m : Bool} {b : Nat}
    (now : Claimed (n.clients q) (Function.update n.asking peer .served q) m b) :
    Claimed (n.clients q) (n.asking q) m b := by
  by_cases same : q = peer
  · subst same
    rw [Function.update_self] at now
    rcases now with held | ⟨_, _, _, _, _, replied, -⟩
    · exact .inl held
    · cases replied
  · rw [Function.update_of_ne same] at now
    exact now

theorem serve_inv (inv : n.Inv)
    (clean : ∀ r ∈ TokenHolder.request (n.clients peer).app,
      GrantClean (n.manager.tokens peer) (n.manager.grantRange peer r.1 (r.1 + r.2.1) r.2.2).1
        (n.manager.grantRange peer r.1 (r.1 + r.2.1) r.2.2).2 r.2.2)
    (done : n.serve peer = some n') : n'.Inv := by
  unfold serve at done
  split at done
  · next offset nbyte write idle asking app =>
      obtain ⟨⟨manager, grant⟩, asked, rfl⟩ := Option.map_eq_some_iff.mp done
      obtain ⟨_, _, _, app', small⟩ := (inv.tidy peer).request (by rw [asking]; exact nofun)
      rw [app] at app'
      cases app'
      have clean := clean (offset, nbyte, write) (by rw [app]; rfl)
      obtain ⟨-, revoked, -⟩ := MMFile.waitAndGetPermissionFor_spec asked
      have range : offset ≤ offset + nbyte := Nat.le_add_right _ _
      have free := inv.revoking_of_idle idle
      refine ⟨?_, ?_, inv.orderly.serve range small clean asked, ?_, ?_, ?_⟩
      · intro q
        have tidy := inv.tidy q
        have none := tidy.unrevoked (fun _ _ running => by rw [free] at running; cases running)
        simp only [free]
        refine ⟨fun asks => ?_, fun some => ?_, fun _ _ running => ?_, fun _ => none⟩
        · apply tidy.request
          by_cases same : q = peer
          · subst same
            rw [asking]
            exact nofun
          · rw [Function.update_of_ne same] at asks
            exact asks
        · split at some
          · next member => exact ⟨_, rfl, member⟩
          · exact (some rfl).elim
        · split at running
          · cases running
          · cases running
      · intro s serving
        obtain rfl := Option.some.inj serving
        exact Function.update_self _ _ _
      · intro s offset' nbyte' write' serving app' b low high
        obtain rfl := Option.some.inj serving
        rw [app] at app'
        cases app'
        exact MMFile.gets_grant range small asked low high
      · intro q m b now
        have held := (inv.known q m b (claimed_of_served now)).resolve_right
          (inv.not_pending (by rintro ⟨s, serving, -⟩; rw [idle] at serving; cases serving) b)
        by_cases taken : q ∈ grant.revoked ∧ b ∈ bytesIn offset (offset + nbyte)
        · right
          simp only [if_pos taken.1]
          exact ⟨offset, offset + nbyte, .inl rfl, taken.2⟩
        · left
          refine inv.orderly.keeps range small clean asked (fun conflicting inside => taken ⟨?_, inside⟩) held
          rw [revoked]
          exact conflicting
      · intro p q b distinct writes reads
        exact inv.exclusive p q b distinct (claimed_of_served writes) (claimed_of_served reads)
  · cases done

theorem step_inv (inv : n.Inv) (step : inOrder.Step n n') : n'.Inv := by
  obtain ⟨event, ⟨-, ordered⟩, ran⟩ := step
  cases event with
  | acquire peer offset nbyte write => exact acquire_inv inv ordered ran
  | serve peer => exact serve_inv inv ordered ran
  | arrive peer => exact arrive_inv inv ran
  | complete peer => exact complete_inv inv ordered ran
  | join peer => exact join_inv inv ran
  | finish => exact finish_inv inv ran
  | reply peer => exact reply_inv inv ran
  | block peer =>
      obtain ⟨c, moved, rfl⟩ := Option.map_eq_some_iff.mp ran
      unfold TokenHolder.block at moved
      split at moved
      · next busy =>
          obtain rfl := Option.some.inj moved
          refine inv.setClient rfl (fun asks => ?_) rfl
          obtain ⟨_, _, _, app, -⟩ := (inv.tidy peer).request asks
          rw [busy] at app
          cases app
      · cases moved
  | unlock peer =>
      obtain ⟨c, moved, rfl⟩ := Option.map_eq_some_iff.mp ran
      unfold TokenHolder.unlock at moved
      split at moved
      · next busy =>
          obtain rfl := Option.some.inj moved
          refine inv.setClient (PFSClient.bareList_unlockPermission _ _ _) (fun asks => ?_) rfl
          obtain ⟨_, _, _, app, -⟩ := (inv.tidy peer).request asks
          rw [busy] at app
          cases app
      · cases moved

theorem initial_inv (first : n.Initial) : n.Inv := by
  obtain ⟨tokens, idle, clients⟩ := first
  have nothing : ∀ q m b, ¬ Claimed (n.clients q) (n.asking q) m b := by
    rintro q m b (held | ⟨_, _, _, _, _, replied, -⟩)
    · rw [(clients q).1] at held
      exact Grants.nil held
    · rw [(clients q).2.1] at replied
      cases replied
  refine ⟨?_, ?_, ⟨?_, ?_, ?_⟩, ?_, ?_, ?_⟩
  · intro q
    obtain ⟨client, silent, unrevoked⟩ := clients q
    rw [client, silent, unrevoked]
    exact ⟨fun asks => (asks rfl).elim, fun some => (some rfl).elim, nofun, fun _ => rfl⟩
  · intro s serving
    rw [idle] at serving
    cases serving
  · intro q
    rw [tokens]
    exact .nil
  · intro q
    rw [tokens]
    exact .nil
  · intro p q _ b
    rw [tokens, tokens]
    exact ⟨fun held => (Grants.nil held).elim, fun held => (Grants.nil held).elim⟩
  · intro s _ _ _ serving
    rw [idle] at serving
    cases serving
  · intro q m b claimed
    exact (nothing q m b claimed).elim
  · intro p q b _ claimed
    exact (nothing p true b claimed).elim

/-- In every run in which no revocation is answered while a reply to the client is
    in flight and no grant meets a slip of `addPermission`, a byte that one client
    may write is not in the list of any other client. -/
theorem reachable_exclusion {n : Network Peer} (reach : Reachable Initial inOrder.Step n) {p q : Peer}
    (distinct : p ≠ q) (b : Nat) (writable : ∃ x ∈ (n.clients p).permissions, x.write = true ∧ x.Covers b) :
    ¬ ∃ y ∈ (n.clients q).permissions, y.Covers b := by
  have inv : n.Inv := reach.invariant Inv (fun _ => initial_inv) (fun _ _ => step_inv)
  obtain ⟨x, member, mode, covers⟩ := writable
  rintro ⟨y, held, inside⟩
  exact inv.exclusive p q b distinct (.inl ⟨x, member, fun _ => mode, covers⟩) (.inl ⟨y, held, nofun, inside⟩)

/-- Clients 1 and 2 have the file open. -/
def opened : Network Nat := { manager := ((MMFile.created "f" 1).open 1).1.open 2 |>.1 }

theorem opened_initial : opened.Initial := by
  refine ⟨fun q => ?_, rfl, fun q => ⟨rfl, rfl, rfl⟩⟩
  rw [opened, MMFile.tokens_open, MMFile.tokens_open]
  rfl

/-- Client 1 writes and then client 2 does. -/
def handedOver : Option (Network Nat) :=
  inOrder.run opened [.acquire 1 0 1 true, .serve 1, .finish, .reply 1, .block 1, .unlock 1, .acquire 2 0 1 true,
    .serve 2, .arrive 1, .complete 1, .join 1, .finish, .reply 2]

theorem reachable_exclusion_handedOver :
    (∃ x ∈ ((handedOver.get rfl).clients 2).permissions, x.write = true ∧ x.Covers 0) ∧
      ¬ ∃ y ∈ ((handedOver.get rfl).clients 1).permissions, y.Covers 0 := by
  have reach : Reachable Initial inOrder.Step (handedOver.get rfl) :=
    inOrder.run_reachable (Reachable.init opened_initial) (Option.some_get _).symm
  have writable : ∃ x ∈ ((handedOver.get rfl).clients 2).permissions, x.write = true ∧ x.Covers 0 := by decide
  exact ⟨writable, reachable_exclusion reach (by decide) 0 writable⟩

/-- The reply to client 1 is overtaken by a revocation: client 1 answers that it has
    nothing, and adds its token afterwards. -/
def overtaken : Option (Network Nat) :=
  machine.run opened [.acquire 1 0 1 true, .serve 1, .finish, .acquire 2 0 1 true, .serve 2, .arrive 1, .complete 1,
    .join 1, .finish, .reply 2, .reply 1]

theorem not_exclusion_overtaken :
    ¬ ∀ n : Network Nat, Reachable Initial machine.Step n → ∀ p q : Nat, p ≠ q → ∀ b,
      (∃ x ∈ (n.clients p).permissions, x.write = true ∧ x.Covers b) → ¬ ∃ y ∈ (n.clients q).permissions, y.Covers b := by
  intro exclusive
  have reach : Reachable Initial machine.Step (overtaken.get rfl) :=
    machine.run_reachable (Reachable.init opened_initial) (Option.some_get _).symm
  exact exclusive _ reach 1 2 (by decide) 0 (by decide) (by decide)

end Network

end PFS
