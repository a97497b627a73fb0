import PFS.Client.ManyFiles
import PFS.System.Coherence

/-! # The clients of the system, one by one

What a client of the shared system goes through is a run of a client with any
files: its own calls with the manager's replies, the revocations it serves, and
what the other clients do to the file servers.  So what holds in every run of
`ManyFiles` holds of every client here.
-/

namespace PFS

open Lib

variable {Peer : Type} [DecidableEq Peer]

/-- A grant meets a slip or not whatever is locked. -/
theorem grantClean_bareList {l : List Permission} {start stop : Nat} {write : Bool} :
    GrantClean (bareList l) start stop write ↔ GrantClean l start stop write := by
  have touched : touching start stop (bareList l) = bareList (touching start stop l) :=
    filter_bare (q := fun p => p.isInclusiveShared start stop) (fun _ => rfl) l
  have last : ∀ m : List Permission, (bareList m).getLast? = m.getLast?.map Permission.bare := by
    intro m
    exact List.getLast?_map
  have tail : ∀ m : List Permission, (bareList m).tail = bareList m.tail := by
    intro m
    cases m <;> rfl
  unfold GrantClean
  rw [touched, last, last, tail]
  simp only [bareList, List.length_map, Option.any_map, Option.all_map, List.forall_mem_map,
    isInclusiveShared_bare, Permission.bare_start, Permission.bare_stop, Permission.bare_write]
  exact Iff.rfl

theorem grantClean_congr {l l' : List Permission} {start stop : Nat} {write : Bool} (same : bareList l' = bareList l)
    (h : GrantClean l start stop write) : GrantClean l' start stop write := by
  rw [← grantClean_bareList, same, grantClean_bareList]
  exact h

namespace PFSClient

variable {c c' : PFSClient} {bytes : FileBytes} {i filedes offset nbyte : Nat}

theorem readBytes_file {buffer : Nat → UInt8} (done : c.readBytes bytes i filedes offset nbyte = some (c', buffer)) :
    ∃ file, c.openedFiles[i]? = some file := by
  obtain ⟨_, -, done⟩ := Option.bind_eq_some_iff.mp done
  obtain ⟨file, at_i, -⟩ := Option.bind_eq_some_iff.mp done
  exact ⟨file, at_i⟩

theorem writeBytes_file {data : Nat → UInt8} (done : c.writeBytes bytes i filedes offset nbyte data = some c') :
    ∃ file, c.openedFiles[i]? = some file := by
  obtain ⟨_, -, done⟩ := Option.bind_eq_some_iff.mp done
  obtain ⟨file, at_i, -⟩ := Option.bind_eq_some_iff.mp done
  exact ⟨file, at_i⟩

end PFSClient

namespace World

variable {w w' : World Peer}

/-- A client of the system, with the file servers as it sees them. -/
def client (w : World Peer) (q : Peer) : ManyFiles := ⟨w.clients q, fun _ => w.bytes⟩

/-- A run of a client. -/
abbrev Runs : ManyFiles → ManyFiles → Prop := Relation.ReflTransGen ManyFiles.machine.Step

/-- The other clients write to the file servers. -/
theorem Runs.others {s t : ManyFiles} (same : t.client = s.client) : Runs s t := by
  obtain ⟨c, store⟩ := t
  obtain rfl : c = s.client := same
  exact .single ⟨.others store, trivial, rfl⟩

theorem Runs.call {s t : ManyFiles} (call : ManyFiles.Call) (allowed : s.allowed call)
    (ran : ∃ r, s.exec call = some r ∧ r.client = t.client) : Runs s t := by
  obtain ⟨r, done, same⟩ := ran
  have first : Runs s r := .single ⟨call, allowed, done⟩
  exact first.trans (Runs.others same.symm)

theorem setClient_client_self (w : World Peer) (peer : Peer) (c : PFSClient) :
    (w.setClient peer c).client peer = ⟨c, fun _ => w.bytes⟩ := by
  rw [client, setClient_self]
  rfl

/-- A call of another client. -/
theorem Runs.setClient {s : ManyFiles} {peer q : Peer} {c : PFSClient} (before : Runs s (w.client q))
    (own : q = peer → Runs s ⟨c, fun _ => w.bytes⟩) : Runs s ((w.setClient peer c).client q) := by
  by_cases same : q = peer
  · subst same
    rw [setClient_client_self]
    exact own rfl
  · refine before.trans (Runs.others ?_)
    rw [client, setClient_other w c same]
    rfl

/-- The revocations of a request, as the clients serve them. -/
theorem revokeAll_runs {start stop : Nat} (range : start ≤ stop) {order : List Peer}
    (done : revokeAll start stop order w = some w') (q : Peer) : Runs (w.client q) (w'.client q) := by
  induction order generalizing w with
  | nil =>
      obtain rfl := Option.some.inj done
      exact .refl
  | cons peer rest ih =>
      simp only [revokeAll, Option.bind_eq_bind] at done
      obtain ⟨⟨c, bytes⟩, revoked, done⟩ := Option.bind_eq_some_iff.mp done
      refine Relation.ReflTransGen.trans (Runs.setClient (w := { w with bytes := bytes }) (Runs.others rfl) ?_) (ih done)
      rintro rfl
      refine Runs.call (.revokePermission w.manager.name start stop) range
        ⟨⟨c, Function.update (fun _ => w.bytes) w.manager.name bytes⟩, ?_, rfl⟩
      simp only [ManyFiles.exec, ManyFiles.revokePermission, client, revoked, Option.map_some]

/-- What the manager grants is the range or the whole file. -/
theorem cleanReply (h : w.Steady) {peer : Peer} {filedes offset nbyte : Nat} {write : Bool} {manager : MMFile Peer}
    {grant : Grant Peer}
    (clean : GrantClean (w.manager.tokens peer) (w.manager.grantRange peer offset (offset + nbyte) write).1
      (w.manager.grantRange peer offset (offset + nbyte) write).2 write)
    (asked : w.manager.waitAndGetPermissionFor peer offset (offset + nbyte) write = some (manager, grant))
    (store : String → FileBytes) :
    ManyFiles.CleanReply ⟨w.clients peer, store⟩ filedes offset nbyte write
      { start := grant.start, stop := grant.stop } := by
  obtain ⟨granted, -⟩ := MMFile.waitAndGetPermissionFor_spec asked
  rw [granted] at clean
  refine ⟨?_, ?_⟩
  · rcases MMFile.grantRange_cases w.manager peer offset (offset + nbyte) write with exactly | ⟨whole, -⟩
    · rw [granted, Prod.mk.injEq] at exactly
      exact .inl exactly
    · rw [granted, Prod.mk.injEq] at whole
      exact .inr whole
  · intro file member _
    obtain ⟨i, at_i⟩ := List.getElem?_of_mem member
    obtain ⟨-, -, -, -, same⟩ := (h.agree peer).at at_i
    exact grantClean_congr same clean

/-- `acquirePermission`, as the client sees it: the file servers change, then it
    has the reply. -/
theorem acquirePermission_runs (h : w.Steady) {peer : Peer} {filedes offset nbyte i : Nat} {write : Bool}
    {order : List Peer} (clean : w.CleanGrant peer filedes offset (offset + nbyte) write)
    (done : w.acquirePermission peer filedes offset (offset + nbyte) write order = some (w', some i)) :
    (∀ q, q ≠ peer → Runs (w.client q) (w'.client q)) ∧ ∃ reply,
      (∀ granted ∈ reply, ManyFiles.CleanReply ⟨w.clients peer, fun _ => w'.bytes⟩ filedes offset nbyte write granted) ∧
      ManyFiles.acquirePermission ⟨w.clients peer, fun _ => w'.bytes⟩ filedes offset (offset + nbyte) write reply =
        some (w'.client peer, some i) := by
  rcases acquirePermission_cases done with ⟨missing, -⟩ | ⟨j, file, result, found, at_j, fast | slow⟩
  · cases missing
  · obtain ⟨has, rfl⟩ := fast
    obtain rfl := Option.some.inj result
    refine ⟨fun _ _ => .refl, none, nofun, ?_⟩
    simp only [ManyFiles.acquirePermission, found, at_j, has, Option.bind_eq_bind, Option.bind_some, if_true, client]
  · obtain ⟨misses, manager, grant, w₂, file₂, permissions, asked, perm, revoked, at_j₂, added, rfl⟩ := slow
    obtain rfl := Option.some.inj result
    have slowPath : ¬ w.holds peer filedes offset (offset + nbyte) write = true := by
      simp only [holds, found, at_j, Option.any_some, misses]
      exact Bool.false_ne_true
    obtain ⟨-, own, -⟩ := served_evicted h asked perm revoked
    rw [own] at at_j₂
    obtain rfl := Option.some.inj (at_j.symm.trans at_j₂)
    refine ⟨fun q other => ?_, some { start := grant.start, stop := grant.stop }, ?_, ?_⟩
    · have served := revokeAll_runs (Nat.le_add_right _ _) revoked q
      exact Runs.setClient served (fun same => (other same).elim)
    · rintro _ ⟨⟩
      exact cleanReply h (clean.resolve_left slowPath) asked _
    · simp only [ManyFiles.acquirePermission, found, at_j, misses, added, Option.bind_eq_bind, Option.bind_some,
        Bool.false_eq_true, if_false, setClient_client_self, own]
      rfl

theorem readFile_runs (h : w.Steady) {peer : Peer} {filedes offset nbyte : Nat} {order : List Peer}
    {result : Option (Nat → UInt8)} (smallStop : offset + nbyte ≤ intMax)
    (clean : w.CleanGrant peer filedes offset (offset + nbyte) false)
    (done : w.readFile peer filedes offset nbyte order = some (w', result)) (q : Peer) :
    Runs (w.client q) (w'.client q) := by
  obtain ⟨w₂, acquired, acquiring, ⟨rfl, rfl, -⟩ | ⟨i, c, buffer, rfl, read, rfl, -⟩⟩ := readFile_cases done
  · obtain rfl := acquirePermission_none acquiring
    exact .refl
  · obtain ⟨others, reply, cleanReply, acquiring'⟩ := acquirePermission_runs h clean acquiring
    by_cases same : q = peer
    · subst same
      have waited : Runs (w.client q) ⟨w.clients q, fun _ => w₂.bytes⟩ := Runs.others rfl
      refine waited.trans (Runs.call (.readFile filedes offset nbyte reply) ⟨smallStop, cleanReply⟩
        ⟨⟨c, fun _ => w₂.bytes⟩, ?_, ?_⟩)
      · obtain ⟨file, at_i⟩ := PFSClient.readBytes_file read
        simp only [ManyFiles.exec, ManyFiles.readFile, acquiring', Option.bind_eq_bind, Option.bind_some, client, at_i,
          read, Option.map_some]
      · rw [setClient_client_self]
    · exact Runs.setClient (others q same) (fun eq => (same eq).elim)

theorem writeFile_runs (h : w.Steady) {peer : Peer} {filedes offset nbyte : Nat} {data : Nat → UInt8}
    {order : List Peer} {wrote : Bool} (smallStop : offset + nbyte ≤ intMax)
    (clean : w.CleanGrant peer filedes offset (offset + nbyte) true)
    (done : w.writeFile peer filedes offset nbyte data order = some (w', wrote)) (q : Peer) :
    Runs (w.client q) (w'.client q) := by
  obtain ⟨w₂, acquired, acquiring, ⟨rfl, rfl, -⟩ | ⟨i, c, rfl, written, rfl, -⟩⟩ := writeFile_cases done
  · obtain rfl := acquirePermission_none acquiring
    exact .refl
  · obtain ⟨others, reply, cleanReply, acquiring'⟩ := acquirePermission_runs h clean acquiring
    by_cases same : q = peer
    · subst same
      have waited : Runs (w.client q) ⟨w.clients q, fun _ => w₂.bytes⟩ := Runs.others rfl
      refine waited.trans (Runs.call (.writeFile filedes offset nbyte data reply) ⟨smallStop, cleanReply⟩
        ⟨⟨c, fun _ => w₂.bytes⟩, ?_, ?_⟩)
      · obtain ⟨file, at_i⟩ := PFSClient.writeBytes_file written
        simp only [ManyFiles.exec, ManyFiles.writeFile, acquiring', Option.bind_eq_bind, Option.bind_some, client, at_i,
          written, Option.map_some]
      · rw [setClient_client_self]
    · exact Runs.setClient (others q same) (fun eq => (same eq).elim)

omit [DecidableEq Peer] in
/-- A client that can flush a block in the system can flush it on its own. -/
theorem flushed_runs {peer : Peer} {block : Option CacheBlock} {bytes : FileBytes}
    (done : (w.clients peer).flushed w.bytes block = some bytes) : ∃ store, (w.client peer).flushed block = some store := by
  cases block with
  | none => exact ⟨_, rfl⟩
  | some block =>
      obtain ⟨opened, -⟩ := Option.ite_none_right_eq_some.mp done
      obtain ⟨file, found⟩ := Option.isSome_iff_exists.mp (List.find?_isSome.mpr (List.any_eq_true.mp opened))
      exact ⟨_, Option.map_eq_some_iff.mpr ⟨file, found, rfl⟩⟩

theorem closeFile_runs (h : w.Steady) {peer : Peer} {filedes now : Nat} (done : w.closeFile peer filedes now = some w')
    (q : Peer) : Runs (w.client q) (w'.client q) := by
  obtain ⟨i, file, cache, bytes, m, at_i, evicted, -, table, rfl⟩ := closeFile_cases done
  obtain ⟨rfl, files, isOpen, -⟩ := (h.agree peer).at at_i
  have closes : (m.close peer).2 = true := by
    rw [MMFile.close, MMFile.isOpenedBy, table]
    exact congrArg Prod.snd (if_pos isOpen)
  refine Runs.setClient (w := { w with manager := (m.close peer).1, bytes := bytes }) (Runs.others rfl) ?_
  rintro rfl
  have index : (w.client q).closeIndex file.descriptor = 0 := by
    simp [ManyFiles.closeIndex, client, files]
  have at_0 : (w.client q).client.openedFiles[(w.client q).closeIndex file.descriptor]? = some file := by
    rw [index]
    exact at_i
  refine Runs.call (.closeFile file.descriptor .ok) trivial ⟨_, Option.map_eq_some_iff.mpr
    ⟨_, ManyFiles.closeFile_eq at_0 evicted .ok, rfl⟩, ?_⟩
  rw [index, closes, if_pos rfl]
  rfl

/-- What one call of the system is for a client. -/
theorem exec_runs (h : w.Steady) {call : Call Peer} (allowed : machine.allowed w call) (clean : w.CleanCall call)
    (done : w.exec call = some w') (q : Peer) : Runs (w.client q) (w'.client q) := by
  cases call with
  | openFile peer =>
      obtain rfl := Option.some.inj done
      simp only [openFile]
      split
      · exact .refl
      · next manager opened =>
          refine Runs.setClient (w := { w with manager := manager }) (Runs.others rfl) ?_
          rintro rfl
          refine Runs.call (.openFile w.manager.name (some
            { lastModified := w.manager.lastModifiedTime
              creationTime := w.manager.creationTime
              fileSize := w.manager.size
              stripWidth := w.manager.stripWidth })) trivial ⟨_, rfl, rfl⟩
  | readFile peer filedes offset nbyte order =>
      obtain ⟨⟨_, result⟩, read, rfl⟩ := Option.map_eq_some_iff.mp done
      exact readFile_runs h allowed.2 clean read q
  | writeFile peer filedes offset nbyte data order =>
      obtain ⟨⟨_, result⟩, written, rfl⟩ := Option.map_eq_some_iff.mp done
      exact writeFile_runs h allowed.2 clean written q
  | closeFile peer filedes now => exact closeFile_runs h done q
  | flush peer =>
      obtain ⟨bytes, flushed, rfl⟩ := flush_cases done
      obtain ⟨store, flushed'⟩ := flushed_runs flushed
      refine Runs.setClient (w := { w with bytes := bytes }) (Runs.others rfl) ?_
      rintro rfl
      refine Runs.call .flush trivial ⟨⟨_, store⟩, ?_, rfl⟩
      exact Option.map_eq_some_iff.mpr ⟨store, flushed', rfl⟩
  | harvest peer =>
      obtain ⟨cache, block, bytes, harvested, flushed, rfl⟩ := harvest_cases done
      obtain ⟨store, flushed'⟩ := flushed_runs flushed
      refine Runs.setClient (w := { w with bytes := bytes }) (Runs.others rfl) ?_
      rintro rfl
      refine Runs.call .harvest trivial ⟨⟨{ w.clients q with cache := cache }, store⟩, ?_, rfl⟩
      refine Option.bind_eq_some_iff.mpr ⟨(cache, block), harvested, ?_⟩
      exact Option.bind_eq_some_iff.mpr ⟨store, flushed', rfl⟩

/-! ## Every cached block has a token -/

/-- The invariant of `ManyFiles` holds of every client. -/
def Tidy (w : World Peer) : Prop := ∀ q, (w.client q).Inv

theorem Runs.inv {s t : ManyFiles} (run : Runs s t) (h : s.Inv) : t.Inv := by
  induction run with
  | refl => exact h
  | tail _ step ih =>
      obtain ⟨call, allowed, ran⟩ := step
      exact ih.step allowed ran

theorem Tidy.exec (h : w.Steady) (tidy : w.Tidy) (call : Call Peer) (allowed : machine.allowed w call)
    (clean : w.CleanCall call) (done : w.exec call = some w') : w'.Tidy :=
  fun q => (exec_runs h allowed clean done q).inv (tidy q)

omit [DecidableEq Peer] in
theorem initial_tidy (h : w.Initial) : w.Tidy := fun q => ManyFiles.Inv.initial (h.2 q)

/-- A client with a copy of a byte has a token on the byte's block. -/
theorem Tidy.token (tidy : w.Tidy) (agree : w.Agree) {q : Peer} {b : Nat} (copy : ((w.clients q).copies b).isSome) :
    ∃ b', blockOf b' = blockOf b ∧ w.manager.cover q false b' := by
  rcases (agree q).cases with ⟨files, -⟩ | ⟨file, files, -, -, same⟩
  · rw [PFSClient.copies_closed files] at copy
    cases copy
  · rw [PFSClient.copies_single files, Cache.byte, Option.isSome_map] at copy
    obtain ⟨other, member, -, b', here, granted⟩ := (tidy q).held _ _ copy
    have is : other ∈ (w.clients q).openedFiles := member
    rw [files, List.mem_singleton] at is
    subst is
    exact ⟨b', here, grants_congr same.symm granted⟩

end World

end PFS
