import PFS.System.Coherence

/-! # Reads return what was written last

A session is a run of clients that share a file, with a record of the byte each
position was last written with.
-/

namespace PFS

open Lib

variable {Peer : Type} [DecidableEq Peer]

/-- The system and the bytes of the latest calls of `writeFile`. -/
structure Session (Peer : Type) where
  world : World Peer
  latest : Nat → Option UInt8 := fun _ => none

namespace Session

open World (Call)

def exec (s : Session Peer) : Call Peer → Option (Session Peer)
  | .writeFile peer filedes offset nbyte data order =>
      (s.world.writeFile peer filedes offset nbyte data order).map fun r =>
        ⟨r.1, latestAfter s.latest offset nbyte data r.2⟩
  | call => (s.world.exec call).map fun w => { s with world := w }

def machine : Machine (Session Peer) (Call Peer) := ⟨fun s call => World.sharing.allowed s.world call, exec⟩

instance (s : Session Peer) (call : Call Peer) : Decidable (machine.allowed s call) :=
  inferInstanceAs (Decidable (World.sharing.allowed _ _))

/-- A grant meets no slip, and a read is not granted stale copies. -/
def Fresh (s : Session Peer) : Call Peer → Prop
  | .readFile peer filedes offset nbyte _ => s.world.FreshRead s.latest peer filedes offset nbyte
  | _ => True

instance (s : Session Peer) : (call : Call Peer) → Decidable (s.Fresh call)
  | .readFile _ _ _ _ _ => inferInstanceAs (Decidable (World.FreshRead _ _ _ _ _ _))
  | .openFile _ | .writeFile _ _ _ _ _ _ | .closeFile _ _ _ | .flush _ | .harvest _ => isTrue trivial

/-- Sessions without slips and stale copies. -/
def fresh : Machine (Session Peer) (Call Peer) :=
  ⟨fun s call => machine.allowed s call ∧ s.world.CleanCall call ∧ s.Fresh call, exec⟩

instance (s : Session Peer) (call : Call Peer) : Decidable (fresh.allowed s call) :=
  inferInstanceAs (Decidable (_ ∧ _ ∧ _))

def Initial (s : Session Peer) : Prop := s.world.Initial ∧ s.latest = fun _ => none

variable {s s' : Session Peer}

/-- The invariant of a session. -/
structure Inv (s : Session Peer) : Prop where
  steady : s.world.Steady
  coherent : (s.world.replicas s.world.manager.cover s.latest).Coherent

theorem initial_inv (h : s.Initial) : s.Inv where
  steady := World.initial_steady h.1
  coherent := by
    rw [h.2]
    exact World.initial_coherent h.1

theorem step_inv (h : s.Inv) (step : fresh.Step s s') : s'.Inv := by
  obtain ⟨call, ⟨⟨range, shares⟩, clean, isFresh⟩, ran⟩ := step
  cases call with
  | openFile peer =>
      obtain rfl := Option.some.inj ran
      obtain ⟨keeps, same⟩ := World.openFile_keeps h.steady peer
      refine ⟨keeps.steady, ?_⟩
      simp only [same]
      exact h.coherent
  | readFile peer filedes offset nbyte order =>
      obtain ⟨w, inWorld, rfl⟩ := Option.map_eq_some_iff.mp ran
      obtain ⟨⟨_, result⟩, done, rfl⟩ := Option.map_eq_some_iff.mp inWorld
      obtain ⟨keeps, reads⟩ := World.readFile_keeps h.steady range.2 clean done
      exact ⟨keeps.steady, (reads s.latest h.coherent isFresh).1⟩
  | writeFile peer filedes offset nbyte data order =>
      obtain ⟨⟨w, wrote⟩, done, rfl⟩ := Option.map_eq_some_iff.mp ran
      obtain ⟨keeps, writes⟩ := World.writeFile_keeps h.steady range.2 clean done
      exact ⟨keeps.steady, writes s.latest h.coherent⟩
  | closeFile peer filedes now => cases shares
  | flush peer =>
      obtain ⟨w, done, rfl⟩ := Option.map_eq_some_iff.mp ran
      obtain ⟨keeps, A, same⟩ := World.flush_keeps h.steady done
      refine ⟨keeps.steady, ?_⟩
      simp only [same]
      exact h.coherent.clean peer A
  | harvest peer =>
      obtain ⟨w, done, rfl⟩ := Option.map_eq_some_iff.mp ran
      obtain ⟨keeps, A, same⟩ := World.harvest_keeps h.steady done
      refine ⟨keeps.steady, ?_⟩
      simp only [same]
      exact h.coherent.evict peer A

/-- In every session whose grants meet no slip of `addPermission` and whose reads
    are not granted stale copies, a read returns, for every byte that has been
    written, the byte of the latest `writeFile`. -/
theorem reachable_read {s : Session Peer} (reach : Reachable Initial fresh.Step s) {peer : Peer}
    {filedes offset nbyte : Nat} {order : List Peer} {w : World Peer} {buffer : Nat → UInt8}
    (allowed : fresh.allowed s (.readFile peer filedes offset nbyte order))
    (read : s.world.readFile peer filedes offset nbyte order = some (w, some buffer)) {k : Nat} {x : UInt8}
    (inside : k < nbyte) (written : s.latest (offset + k) = some x) : buffer k = x := by
  have inv : s.Inv := reach.invariant Inv (fun _ => initial_inv) (fun _ _ => step_inv)
  obtain ⟨⟨range, -⟩, clean, isFresh⟩ := allowed
  obtain ⟨-, reads⟩ := World.readFile_keeps inv.steady range.2 clean read
  exact (reads s.latest inv.coherent isFresh).2 buffer rfl k x inside written

/-- Client 1 writes two bytes and client 2 writes the second of them again; then
    client 1 reads. -/
def updated : Option (Session Nat) :=
  fresh.run ⟨World.blank, fun _ => none⟩ [.openFile 1, .openFile 2, .writeFile 1 1 0 2 (fun _ => 7) [],
    .writeFile 2 1 1 1 (fun _ => 8) [1]]

theorem reachable_read_updated :
    ∃ w buffer, (updated.get rfl).world.readFile 1 1 0 2 [2] = some (w, some buffer) ∧ buffer 1 = 8 := by
  have reach : Reachable Initial fresh.Step (updated.get rfl) :=
    fresh.run_reachable (Reachable.init ⟨⟨rfl, fun _ => rfl⟩, rfl⟩) (Option.some_get _).symm
  obtain ⟨w, buffer, read⟩ : ∃ w buffer, (updated.get rfl).world.readFile 1 1 0 2 [2] = some (w, some buffer) :=
    ⟨_, _, rfl⟩
  exact ⟨w, buffer, read, reachable_read reach (by decide) read (by decide) rfl⟩

/-- Client 1 writes byte 0, client 2 byte 1, and client 1 byte 0 again, for which
    it fetches the block without the byte client 2 has in its cache. -/
def staleBlock : Option (Session Nat) :=
  machine.run ⟨World.blank, fun _ => none⟩ [.openFile 1, .openFile 2, .writeFile 1 1 0 1 (fun _ => 7) [],
    .writeFile 2 1 1 1 (fun _ => 8) [1], .writeFile 1 1 0 1 (fun _ => 9) []]

/-- A read of byte 1 by client 1 then returns what it has, not what client 2 has
    written. -/
theorem not_read_staleBlock :
    ¬ ∀ s : Session Nat, Reachable Initial machine.Step s →
      ∀ (peer filedes offset nbyte : Nat) (order : List Nat) (w : World Nat) (buffer : Nat → UInt8),
        machine.allowed s (.readFile peer filedes offset nbyte order) →
        s.world.readFile peer filedes offset nbyte order = some (w, some buffer) →
          ∀ (k : Nat) (x : UInt8), k < nbyte → s.latest (offset + k) = some x → buffer k = x := by
  intro reads
  have reach : Reachable Initial machine.Step (staleBlock.get rfl) :=
    machine.run_reachable (Reachable.init ⟨⟨rfl, fun _ => rfl⟩, rfl⟩) (Option.some_get _).symm
  obtain ⟨w, buffer, read, value⟩ : ∃ w buffer,
      (staleBlock.get rfl).world.readFile 1 1 1 1 [2] = some (w, some buffer) ∧ buffer 0 = 0 := ⟨_, _, rfl, rfl⟩
  have latest := reads _ reach 1 1 1 1 [2] w buffer (by decide) read 0 8 (by decide) rfl
  rw [value] at latest
  cases latest

end Session

end PFS
