import PFS.System.Stack

/-! # Reads and writes down to the strips

Runs of clients that share a file which lies in strips on the file servers.  The
servers may serve requests for other files in between.  Every such run is a run of
the system with one array of bytes, whatever that array has at first at the bytes
nobody has written.  So what is shown there about the bytes that have been written
holds down to the strip files.
-/

namespace PFS

open Lib

variable {Peer : Type} [DecidableEq Peer]

/-- The file a request to the file servers is about. -/
def StoreRequest.file : StoreRequest → String
  | .createFile name _ | .writeBlock name _ _ _ | .readBlock name _ _ | .writeFile name _ _ | .readFile name _ _ _ => name

theorem Cluster.createStrips_widths (c : Cluster) (name : String) (width n : Nat) :
    (c.createStrips name width n).widths = c.widths := by
  induction n with
  | zero => rfl
  | succ n ih => exact ih

/-- A request does the same to the servers whatever has been written, and nothing to
    the other files. -/
theorem StripedStore.exec_congr {s s' : StripedStore} {request : StoreRequest} {reply : Option (Nat → UInt8)}
    (done : s.exec request = some (s', reply)) (flat : String → Nat → Option UInt8) :
    ∃ flat', StripedStore.exec ⟨s.cluster, flat⟩ request = some (⟨s'.cluster, flat'⟩, reply) ∧
      ∀ name, name ≠ request.file → flat' name = flat name ∧ s'.cluster.widths name = s.cluster.widths name := by
  cases request with
  | createFile name width =>
      obtain ⟨c, made, result⟩ := Option.map_eq_some_iff.mp done
      obtain ⟨rfl, rfl⟩ := Prod.mk.inj result
      refine ⟨flat, Option.map_eq_some_iff.mpr ⟨c, made, rfl⟩, fun other different => ⟨rfl, ?_⟩⟩
      unfold Cluster.createFile at made
      split at made
      · cases made
      · obtain rfl := Option.some.inj made
        rw [Cluster.createStrips_widths]
        exact Function.update_of_ne different _ _
  | writeBlock name addr data dirty =>
      simp only [exec, Option.bind_eq_bind] at done ⊢
      obtain ⟨width, known, done⟩ := Option.bind_eq_some_iff.mp done
      obtain ⟨disk, written, done⟩ := Option.bind_eq_some_iff.mp done
      obtain ⟨rfl, rfl⟩ := Prod.mk.inj (Option.some.inj done)
      simp only [known, written, Option.bind_some]
      exact ⟨_, rfl, fun other different => ⟨Function.update_of_ne different _ _, trivial⟩⟩
  | writeFile name start data =>
      simp only [exec, Option.bind_eq_bind] at done ⊢
      obtain ⟨width, known, done⟩ := Option.bind_eq_some_iff.mp done
      obtain ⟨disk, written, done⟩ := Option.bind_eq_some_iff.mp done
      obtain ⟨rfl, rfl⟩ := Prod.mk.inj (Option.some.inj done)
      simp only [known, written, Option.bind_some]
      exact ⟨_, rfl, fun other different => ⟨Function.update_of_ne different _ _, trivial⟩⟩
  | readBlock name addr buffer =>
      simp only [exec, Option.bind_eq_bind] at done ⊢
      obtain ⟨width, known, done⟩ := Option.bind_eq_some_iff.mp done
      obtain ⟨data, read, done⟩ := Option.bind_eq_some_iff.mp done
      obtain ⟨rfl, rfl⟩ := Prod.mk.inj (Option.some.inj done)
      simp only [known, read, Option.bind_some]
      exact ⟨_, rfl, fun _ _ => ⟨rfl, trivial⟩⟩
  | readFile name start size buffer =>
      simp only [exec, Option.bind_eq_bind] at done ⊢
      obtain ⟨width, known, done⟩ := Option.bind_eq_some_iff.mp done
      obtain ⟨data, read, done⟩ := Option.bind_eq_some_iff.mp done
      obtain ⟨rfl, rfl⟩ := Prod.mk.inj (Option.some.inj done)
      simp only [known, read, Option.bind_some]
      exact ⟨_, rfl, fun _ _ => ⟨rfl, trivial⟩⟩

/-- What is allowed does not depend on what has been written. -/
theorem StripedStore.allowed_congr {cluster : Cluster} {request : StoreRequest} {flat : String → Nat → Option UInt8}
    (h : StripedStore.allowed ⟨cluster, flat⟩ request) (flat' : String → Nat → Option UInt8) :
    StripedStore.allowed ⟨cluster, flat'⟩ request := by
  cases request <;> exact h

namespace Stack

open Striped

variable {unwritten : Nat → UInt8} {s s' : Stack Peer} {w : World Peer}

/-- The call stays away from the last offsets, where the servers' arithmetic overflows. -/
def Near : World.Call Peer → Prop
  | .readFile _ _ offset nbyte _ | .writeFile _ _ offset nbyte _ _ => offset + nbyte + stripBytes ≤ intMax
  | _ => True

instance : (call : World.Call Peer) → Decidable (Near call)
  | .readFile _ _ _ _ _ => inferInstanceAs (Decidable (_ ≤ _))
  | .writeFile _ _ _ _ _ _ => inferInstanceAs (Decidable (_ ≤ _))
  | .openFile _ | .closeFile _ _ _ | .flush _ | .harvest _ => isTrue trivial

theorem copies_isSome {name : String} {width : Nat} {c c' : PFSClient} (alike : ClientLike name width unwritten c c')
    (b : Nat) : (c.copies b).isSome = (c'.copies b).isSome := by
  obtain ⟨-, cache, rfl, alike⟩ := alike
  simp only [PFSClient.copies, Cache.byte]
  cases c'.openedFiles.head? with
  | none => rfl
  | some file => simp only [Option.bind_some, Option.isSome_map, alike.find_isSome]

/-- A step of both systems. -/
theorem Shows.exec (h : Shows unwritten s w) (wf : ∀ q, (w.clients q).cache.WF) {call : World.Call Peer}
    (near : Near call) (buffers : Nat → Nat → UInt8) :
    Option.Rel (Shows unwritten) (s.exec call buffers) (w.exec call) := by
  cases call with
  | openFile peer => exact .some (h.openFile peer)
  | readFile peer filedes offset nbyte order =>
      exact rel_map (h.readFile peer filedes near buffers order) fun _ _ both => both.1
  | writeFile peer filedes offset nbyte data order =>
      exact rel_map (h.writeFile peer filedes near buffers data order) fun _ _ both => both.1
  | closeFile peer filedes now => exact h.closeFile peer filedes now
  | flush peer => exact h.flush (wf peer)
  | harvest peer => exact h.harvest peer

omit [DecidableEq Peer] in
/-- A request for another file. -/
theorem Shows.serve (h : Shows unwritten s w) {request : StoreRequest} (other : request.file ≠ s.manager.name)
    (allowed : StripedStore.allowed ⟨s.cluster, fun _ _ => none⟩ request) (done : s.serve request = some s') :
    Shows unwritten s' w := by
  obtain ⟨⟨store, reply⟩, ran, rfl⟩ := Option.map_eq_some_iff.mp done
  obtain ⟨flat, inv, known, stored⟩ := h.backs
  obtain ⟨flat', ran', rest⟩ := StripedStore.exec_congr ran flat
  rw [h.manager] at other
  obtain ⟨sameFlat, sameWidth⟩ := rest _ (Ne.symm other)
  refine ⟨h.manager, h.clients, flat', ?_, sameWidth.trans known, ?_⟩
  · exact inv.step ⟨request, StripedStore.allowed_congr allowed flat, Option.map_eq_some_iff.mpr ⟨_, ran', rfl⟩⟩
  · rw [sameFlat]
    exact stored

end Stack

/-- The system, and the bytes of the latest calls of `writeFile`. -/
structure StripedSession (Peer : Type) where
  stack : Stack Peer
  latest : Nat → Option UInt8 := fun _ => none

namespace StripedSession

/-- A call, with the servers' buffers, or a request for another file. -/
inductive Call (Peer : Type) where
  | call (call : World.Call Peer) (buffers : Nat → Nat → UInt8)
  | serve (request : StoreRequest)

def exec (s : StripedSession Peer) : Call Peer → Option (StripedSession Peer)
  | .call (.writeFile peer filedes offset nbyte data order) buffers =>
      (s.stack.writeFile peer filedes offset nbyte buffers data order).map fun r =>
        ⟨r.1, latestAfter s.latest offset nbyte data r.2⟩
  | .call call buffers => (s.stack.exec call buffers).map fun k => { s with stack := k }
  | .serve request => (s.stack.serve request).map fun k => { s with stack := k }

/-- The manager and the clients, without the servers. -/
def view (s : StripedSession Peer) : Session Peer := ⟨⟨s.stack.manager, s.stack.clients, fun _ => 0⟩, s.latest⟩

/-- Grants meet no slip of `addPermission` and cover no stale copies. -/
def allowed (s : StripedSession Peer) : Call Peer → Prop
  | .call call _ => Stack.Near call ∧ Session.reopening.allowed s.view call
  | .serve request =>
      request.file ≠ s.stack.manager.name ∧ StripedStore.allowed ⟨s.stack.cluster, fun _ _ => none⟩ request

def machine : Machine (StripedSession Peer) (Call Peer) := ⟨allowed, exec⟩

/-- The file has been created, others may have been before it, and no client has
    opened it yet. -/
def Initial (s : StripedSession Peer) : Prop :=
  s.stack.manager.clientPermissions = ∅ ∧ (∀ q, s.stack.clients q = {}) ∧ s.latest = (fun _ => none) ∧
    ∃ flat, Reachable StripedStore.Initial StripedStore.machine.Step ⟨s.stack.cluster, flat⟩ ∧
      s.stack.cluster.widths s.stack.manager.name = some s.stack.manager.stripWidth ∧
        ∀ b, flat s.stack.manager.name b = none

variable {unwritten : Nat → UInt8} {s s' : StripedSession Peer} {t : Session Peer}

/-- A session with one array of bytes that does the same. -/
structure Shows (unwritten : Nat → UInt8) (s : StripedSession Peer) (t : Session Peer) : Prop where
  stack : s.stack.Shows unwritten t.world
  latest : s.latest = t.latest

theorem Shows.exec (h : Shows unwritten s t) (settled : t.Settled) {call : World.Call Peer} (near : Stack.Near call)
    (buffers : Nat → Nat → UInt8) :
    Option.Rel (Shows unwritten) (s.exec (.call call buffers)) (t.exec call) := by
  have wf : ∀ q, (t.world.clients q).cache.WF := fun q => (settled.steady.sound q).wf
  have others : Option.Rel (Shows unwritten) ((s.stack.exec call buffers).map fun k => { s with stack := k })
      ((t.world.exec call).map fun w => { t with world := w }) :=
    rel_map (h.stack.exec wf near buffers) fun _ _ shows => ⟨shows, h.latest⟩
  cases call with
  | writeFile peer filedes offset nbyte data order =>
      refine rel_map (h.stack.writeFile peer filedes near buffers data order) fun r r' both => ⟨both.1, ?_⟩
      simp only [h.latest, both.2]
  | openFile | readFile | closeFile | flush | harvest => exact others

/-- What is allowed does not depend on the bytes. -/
theorem Shows.allowed (h : Shows unwritten s t) {call : World.Call Peer}
    (allowed : Session.reopening.allowed s.view call) : Session.reopening.allowed t call := by
  obtain ⟨range, clean, fresh⟩ := allowed
  have manager : s.view.world.manager = t.world.manager := h.stack.manager
  have holds : ∀ peer filedes start stop write, s.view.world.holds peer filedes start stop write =
      t.world.holds peer filedes start stop write := by
    intro peer filedes start stop write
    obtain ⟨-, cache, same, -⟩ := h.stack.clients peer
    simp only [World.holds, view, same]
    rfl
  have stale : ∀ peer b, t.world.stale t.latest peer b → s.view.world.stale s.view.latest peer b := by
    rintro peer b ⟨written, unheld, copy⟩
    refine ⟨?_, ?_, ?_⟩
    · rw [view, h.latest]
      exact written
    · rw [manager]
      exact unheld
    · rw [view, Stack.copies_isSome (h.stack.clients peer)]
      exact copy
  have grants : ∀ {peer filedes start stop write}, s.view.world.CleanGrant peer filedes start stop write →
      t.world.CleanGrant peer filedes start stop write := by
    intro peer filedes start stop write clean
    rw [World.CleanGrant, holds, manager] at clean
    exact clean
  have freshens : ∀ {peer filedes start stop write},
      s.view.world.FreshGrant s.view.latest peer filedes start stop write →
        t.world.FreshGrant t.latest peer filedes start stop write := by
    intro peer filedes start stop write fresh
    rw [World.FreshGrant, holds, manager] at fresh
    exact fresh.imp id fun covers b below above isStale => covers b below above (stale peer b isStale)
  cases call with
  | readFile peer filedes offset nbyte order => exact ⟨range, grants clean, freshens fresh⟩
  | writeFile peer filedes offset nbyte data order => exact ⟨range, grants clean, freshens fresh⟩
  | openFile | closeFile | flush | harvest => exact ⟨range, trivial, trivial⟩

omit [DecidableEq Peer] in
theorem Shows.initial (h : s.Initial) (unwritten : Nat → UInt8) :
    ∃ t : Session Peer, t.Initial ∧ Shows unwritten s t := by
  obtain ⟨⟨manager, clients, cluster⟩, latest⟩ := s
  obtain ⟨closed, idle, unrecorded, flat, reach, known, blank⟩ := h
  refine ⟨⟨⟨manager, clients, unwritten⟩, latest⟩, ⟨⟨closed, idle⟩, unrecorded⟩, ⟨rfl, fun q => ?_, flat, ?_, known, ?_⟩, rfl⟩
  · dsimp only at idle ⊢
    rw [idle q]
    exact ⟨fun file member => (List.not_mem_nil member).elim, Cache.init, rfl, Cache.like_init⟩
  · exact reach.invariant StripedStore.Inv (fun _ => StripedStore.Inv.initial) (fun _ _ inv => inv.step)
  · exact fun b => .inr ⟨blank b, rfl⟩

/-- Whatever the bytes are that nobody has written: every state that is reached is
    shown by one that is reached with one array of bytes. -/
theorem reachable_shows (reach : Reachable Initial machine.Step s) (unwritten : Nat → UInt8) :
    ∃ t, Reachable Session.Initial Session.reopening.Step t ∧ Shows unwritten s t := by
  refine reach.invariant (fun s => ∃ t, Reachable Session.Initial Session.reopening.Step t ∧ Shows unwritten s t) ?_ ?_
  · intro s first
    obtain ⟨t, start, shows⟩ := Shows.initial first unwritten
    exact ⟨t, .init start, shows⟩
  · rintro s s' ⟨t, reached, shows⟩ ⟨call, allowed, done⟩
    cases call with
    | call call buffers =>
        obtain ⟨t', ran, shows'⟩ := rel_returns (shows.exec (Session.reachable_settled reached) allowed.1 buffers) done
        exact ⟨t', reached.tail ⟨call, shows.allowed allowed.2, ran⟩, shows'⟩
    | serve request =>
        obtain ⟨k, served, rfl⟩ := Option.map_eq_some_iff.mp done
        exact ⟨t, reached, shows.stack.serve allowed.1 allowed.2 served, shows.latest⟩

/-- What holds unless a byte is the one that stood there before the first write. -/
theorem of_unwritten {P : Prop} {x : UInt8} (h : ∀ unwritten : Nat → UInt8, P ∨ ∃ b, x = unwritten b) : P := by
  rcases h fun _ => 0 with done | ⟨_, zero⟩
  · exact done
  · rcases h fun _ => 1 with done | ⟨_, one⟩
    · exact done
    · rw [zero] at one
      cases one

/-- The system with the strips does what the system with one array of bytes does,
    whatever that has at the bytes nobody has written: a state that is reached is
    shown by one that is reached there, and a call that `machine` allows returns in the one
    if and only if it returns in the other.  So in these runs no request of a client to a
    file server is rejected. -/
theorem refines_session (reach : Reachable Initial machine.Step s) (unwritten : Nat → UInt8) :
    ∃ t, Reachable Session.Initial Session.reopening.Step t ∧ Shows unwritten s t ∧
      ∀ call buffers, machine.allowed s (.call call buffers) → Session.reopening.allowed t call ∧
        Option.Rel (Shows unwritten) (s.exec (.call call buffers)) (t.exec call) := by
  obtain ⟨t, reached, shows⟩ := reachable_shows reach unwritten
  refine ⟨t, reached, shows, fun call buffers allowed => ⟨shows.allowed allowed.2, ?_⟩⟩
  exact shows.exec (Session.reachable_settled reached) allowed.1 buffers

/-- A file of two strips that has just been created. -/
def newFile : StripedSession Nat :=
  ⟨{ manager := { name := "f", stripWidth := 2 }, cluster := StripedStore.created.cluster }, fun _ => none⟩

theorem newFile_initial : newFile.Initial := by
  have start : Reachable StripedStore.Initial StripedStore.machine.Step StripedStore.blank :=
    Reachable.init ⟨rfl, fun _ _ => rfl⟩
  refine ⟨rfl, fun _ => rfl, rfl, _, start.tail ⟨.createFile "f" 2, ⟨rfl, by decide, by decide, by decide⟩, rfl⟩, rfl, ?_⟩
  exact fun _ => rfl

/-- The servers' buffers have 255 everywhere. -/
def noise : Nat → Nat → UInt8 := fun _ _ => 255

/-- Two clients open the file and the first writes two bytes. -/
def written : Option (StripedSession Nat) :=
  (newFile.exec (.call (.openFile 1) noise)).bind fun s => (s.exec (.call (.openFile 2) noise)).bind fun s =>
    s.exec (.call (.writeFile 1 1 0 2 (fun _ => 7) []) noise)

theorem written_reachable : Reachable Initial machine.Step (written.get rfl) := by
  have start : Reachable Initial machine.Step newFile := Reachable.init newFile_initial
  have opened₁ := start.tail ⟨.call (.openFile 1) noise, ⟨trivial, trivial, trivial, trivial⟩, rfl⟩
  have opened₂ := opened₁.tail ⟨.call (.openFile 2) noise, ⟨trivial, trivial, trivial, trivial⟩, rfl⟩
  exact opened₂.tail ⟨.call (.writeFile 1 1 0 2 (fun _ => 7) []) noise, ⟨by decide, by decide, by decide,
    World.FreshGrant.of_nothing (fun _ => .inl rfl) _ _ _ _⟩, rfl⟩

/-- With one array of bytes that has 5 everywhere at first, the second client can read
    then, as it can with the strips. -/
theorem refines_session_written : ∃ t, Shows (fun _ => 5) (written.get rfl) t ∧
    (t.exec (.readFile 2 1 0 2 [1])).isSome = true := by
  obtain ⟨t, -, shows, steps⟩ := refines_session written_reachable fun _ => 5
  obtain ⟨-, both⟩ := steps (.readFile 2 1 0 2 [1]) noise ⟨by decide, by decide, by decide, by decide⟩
  have returns : ((written.get rfl).exec (.call (.readFile 2 1 0 2 [1]) noise)).isSome = true := rfl
  exact ⟨t, shows, (rel_isSome both).symm.trans returns⟩

/-- A read returns, for every byte that has been written, the byte of the latest
    `writeFile`, from wherever it is: a cache or the strips of any server. -/
theorem reads_latest (reach : Reachable Initial machine.Step s) {peer : Peer} {filedes offset nbyte : Nat}
    {order : List Peer} {buffers : Nat → Nat → UInt8} {k' : Stack Peer} {buffer : Nat → UInt8}
    (allowed : machine.allowed s (.call (.readFile peer filedes offset nbyte order) buffers))
    (read : s.stack.readFile peer filedes offset nbyte buffers order = some (k', some buffer)) {k : Nat} {x : UInt8}
    (inside : k < nbyte) (written : s.latest (offset + k) = some x) : buffer k = x := by
  refine of_unwritten (x := x) fun unwritten => ?_
  obtain ⟨t, reached, shows⟩ := reachable_shows reach unwritten
  have settled := Session.reachable_settled reached
  obtain ⟨range, clean, fresh⟩ := shows.allowed allowed.2
  obtain ⟨⟨w, result⟩, done, -, both⟩ := rel_returns (shows.stack.readFile peer filedes allowed.1 buffers order) read
  obtain ⟨buffer', rfl, same⟩ := rel_returns both rfl
  obtain ⟨-, reads⟩ := World.readFile_upToDate settled.steady range.2 clean fresh done settled.upToDate
  have value := reads buffer' rfl k x inside (shows.latest ▸ written)
  rcases same k with equal | untouched
  · exact .inl (equal.trans value)
  · exact .inr ⟨offset + k, value.symm.trans untouched⟩

/-- The second client reads the bytes; the first has to write them to the servers, and
    the second gets them from there. -/
theorem reads_latest_written : ∃ k buffer,
    (written.get rfl).stack.readFile 2 1 0 2 noise [1] = some (k, some buffer) ∧ buffer 1 = 7 := by
  have allowed : machine.allowed (written.get rfl) (.call (.readFile 2 1 0 2 [1]) noise) :=
    ⟨by decide, by decide, by decide, by decide⟩
  obtain ⟨k, buffer, read⟩ : ∃ k buffer, (written.get rfl).stack.readFile 2 1 0 2 noise [1] = some (k, some buffer) :=
    ⟨_, _, rfl⟩
  exact ⟨k, buffer, read, reads_latest written_reachable allowed read (by decide) rfl⟩

/-- When every client has closed the file, every byte that has been written is in its
    place in the strip file of its strip, as it was written last. -/
theorem strips_at_rest (reach : Reachable Initial machine.Step s)
    (closed : ∀ q, s.stack.manager.isOpenedBy q = false) {b : Nat} {x : UInt8} (written : s.latest b = some x) :
    ∃ content, s.stack.cluster.disk (stripPath s.stack.manager.name (stripOf s.stack.manager.stripWidth b)) =
      some content ∧ content[stripPosition s.stack.manager.stripWidth b]? = some x := by
  refine of_unwritten (x := x) fun unwritten => ?_
  obtain ⟨t, reached, shows⟩ := reachable_shows reach unwritten
  have settled := Session.reachable_settled reached
  have manager : s.stack.manager = t.world.manager := shows.stack.manager
  rw [manager] at closed ⊢
  have value := settled.at_rest closed (shows.latest ▸ written)
  obtain ⟨flat, inv, known, stored⟩ := shows.stack.backs
  rcases stored b with onDisk | ⟨-, untouched⟩
  · rw [value] at onDisk
    exact .inl (inv.bytes _ _ b x known onDisk)
  · exact .inr ⟨b, value.symm.trans untouched⟩

theorem exec_closeFile {peer : Peer} {filedes now : Nat} {k : Stack Peer}
    (closes : s.stack.closeFile peer filedes now = some k) (buffers : Nat → Nat → UInt8) :
    s.exec (.call (.closeFile peer filedes now) buffers) = some { s with stack := k } :=
  Option.map_eq_some_iff.mpr ⟨k, closes, rfl⟩

theorem reachable_closeFile (reach : Reachable Initial machine.Step s) {peer : Peer} {filedes now : Nat}
    {k : Stack Peer} (closes : s.stack.closeFile peer filedes now = some k) (buffers : Nat → Nat → UInt8) :
    Reachable Initial machine.Step { s with stack := k } :=
  reach.tail ⟨.call (.closeFile peer filedes now) buffers, ⟨trivial, trivial, trivial, trivial⟩,
    exec_closeFile closes buffers⟩

/-- One client has opened the file and written two bytes. -/
def writtenOnce : Option (StripedSession Nat) :=
  (newFile.exec (.call (.openFile 1) noise)).bind fun s => s.exec (.call (.writeFile 1 1 0 2 (fun _ => 7) []) noise)

/-- It closes the file, and the strip has the bytes. -/
theorem strips_at_rest_writtenOnce : ∃ (s : StripedSession Nat) (content : List UInt8),
    (writtenOnce.get rfl).exec (.call (.closeFile 1 1 0) noise) = some s ∧
      s.stack.cluster.disk (stripPath s.stack.manager.name (stripOf s.stack.manager.stripWidth 1)) = some content ∧
        content[stripPosition s.stack.manager.stripWidth 1]? = some 7 := by
  have start : Reachable Initial machine.Step newFile := Reachable.init newFile_initial
  have opened := start.tail ⟨.call (.openFile 1) noise, ⟨trivial, trivial, trivial, trivial⟩, rfl⟩
  have written : Reachable Initial machine.Step (writtenOnce.get rfl) :=
    opened.tail ⟨.call (.writeFile 1 1 0 2 (fun _ => 7) []) noise, ⟨by decide, by decide, by decide,
      World.FreshGrant.of_nothing (fun _ => .inl rfl) _ _ _ _⟩, rfl⟩
  obtain ⟨t, reached, shows⟩ := reachable_shows written fun _ => 0
  obtain ⟨-, cache, same, -⟩ := shows.stack.clients 1
  obtain ⟨file, files, descriptor⟩ : ∃ file, ((writtenOnce.get rfl).stack.clients 1).openedFiles = [file] ∧
      file.descriptor = 1 := ⟨_, rfl, rfl⟩
  have files' : (t.world.clients 1).openedFiles = [file] := by
    rw [← files, same]
  obtain ⟨w, answer⟩ := World.closeFile_answers (Session.reachable_settled reached).tidy files' 0
  rw [descriptor] at answer
  have both := shows.stack.closeFile 1 1 0
  have returns := rel_isSome both
  rw [answer, Option.isSome_some] at returns
  obtain ⟨k, closes⟩ := Option.isSome_iff_exists.mp returns
  obtain ⟨w', closes', shows'⟩ := rel_returns both closes
  have done := exec_closeFile closes noise
  have reach := reachable_closeFile written closes noise
  have latest : (writtenOnce.get rfl).latest 1 = some 7 := rfl
  refine ⟨_, _, done, (strips_at_rest reach (fun q => ?_) latest).choose_spec⟩
  rw [shows'.manager, World.closeFile_opened closes', ← shows.stack.manager]
  by_cases here : q = 1
  · simp [here]
  · have keys : (writtenOnce.get rfl).stack.manager.clientPermissions.keys = [1] := rfl
    have absent : q ∉ (writtenOnce.get rfl).stack.manager.clientPermissions := by
      rw [AList.mem_keys, keys, List.mem_singleton]
      exact here
    rw [MMFile.isOpenedBy, AList.lookup_eq_none.mpr absent]
    rfl

end StripedSession

end PFS
