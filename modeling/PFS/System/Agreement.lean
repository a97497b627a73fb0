import PFS.System.World

/-! # The two token tables agree

The manager and a client update their lists of the client's tokens separately:
the manager when it serves a request, before the revocations it sends have been
executed, the client when it gets the reply or a revocation.  After every call
the two lists have the same tokens in the same order, and the manager has a list
for exactly the clients with the file open.
-/

namespace PFS

open Lib

variable {Peer : Type} [DecidableEq Peer]

/-- A client with at most this file open, whose tokens are those the manager has. -/
def PFSClient.Agrees (c : PFSClient) (name : String) (opened : Bool) (tokens : List Permission) : Prop :=
  match c.openedFiles with
  | [] => opened = false
  | [file] => opened = true ∧ file.name = name ∧ bareList file.permissions = bareList tokens
  | _ => False

namespace PFSClient

variable {c c' : PFSClient} {name : String} {opened : Bool} {tokens : List Permission}

theorem Agrees.cases (h : c.Agrees name opened tokens) :
    (c.openedFiles = [] ∧ opened = false) ∨
      ∃ file, c.openedFiles = [file] ∧ opened = true ∧ file.name = name ∧
        bareList file.permissions = bareList tokens := by
  cases files : c.openedFiles with
  | nil =>
      simp only [Agrees, files] at h
      exact .inl ⟨rfl, h⟩
  | cons file rest =>
      cases rest with
      | nil =>
          simp only [Agrees, files] at h
          exact .inr ⟨file, rfl, h⟩
      | cons => simp only [Agrees, files] at h

theorem agrees_single {file : ClientFile} (files : c.openedFiles = [file]) (isOpen : opened = true)
    (named : file.name = name) (same : bareList file.permissions = bareList tokens) :
    c.Agrees name opened tokens := by
  simp only [Agrees, files]
  exact ⟨isOpen, named, same⟩

/-- Only the open files matter. -/
theorem Agrees.congr (h : c.Agrees name opened tokens) (files : c'.openedFiles = c.openedFiles) :
    c'.Agrees name opened tokens := by
  rw [Agrees, files]
  exact h

/-- The file an index names, in a client that agrees. -/
theorem Agrees.at (h : c.Agrees name opened tokens) {i : Nat} {file : ClientFile}
    (found : c.openedFiles[i]? = some file) :
    i = 0 ∧ c.openedFiles = [file] ∧ opened = true ∧ file.name = name ∧
      bareList file.permissions = bareList tokens := by
  rcases h.cases with ⟨files, -⟩ | ⟨only, files, rest⟩
  · rw [files] at found
    cases found
  · rw [files] at found
    cases i with
    | zero =>
        obtain rfl := Option.some.inj found
        exact ⟨rfl, files, rest⟩
    | succ i => cases found

theorem Agrees.setFile (h : c.Agrees name opened tokens) {i : Nat} {file file' : ClientFile} {tokens' : List Permission}
    (found : c.openedFiles[i]? = some file) (named : file'.name = file.name)
    (same : bareList file.permissions = bareList tokens → bareList file'.permissions = bareList tokens') :
    (c.setFile i file').Agrees name opened tokens' := by
  obtain ⟨rfl, files, isOpen, name_eq, tokens_eq⟩ := h.at found
  have files' : (c.setFile 0 file').openedFiles = [file'] := by
    rw [PFSClient.setFile, files]
    rfl
  exact agrees_single files' isOpen (named.trans name_eq) (same tokens_eq)

/-- A revocation does to the client's list what the manager does to its own. -/
theorem Agrees.revoke (h : c.Agrees name opened tokens) {bytes bytes' : FileBytes} {start stop : Nat}
    (revoked : c.revokePermission bytes name start stop = some (c', bytes')) :
    c'.Agrees name opened (PFS.revokePermission start stop tokens) := by
  unfold PFSClient.revokePermission at revoked
  split at revoked
  · next missing =>
      obtain ⟨rfl, -⟩ := Prod.mk.inj (Option.some.inj revoked)
      rcases h.cases with ⟨files, closed⟩ | ⟨file, files, -, named, -⟩
      · rw [Agrees, files]
        exact closed
      · rw [files] at missing
        simp [named] at missing
  · next i found =>
      simp only [Option.bind_eq_bind] at revoked
      obtain ⟨file, at_i, revoked⟩ := Option.bind_eq_some_iff.mp revoked
      obtain ⟨-, revoked⟩ := Option.ite_none_left_eq_some.mp revoked
      obtain ⟨⟨cache, flushed⟩, -, revoked⟩ := Option.bind_eq_some_iff.mp revoked
      obtain ⟨rfl, -⟩ := Prod.mk.inj (Option.some.inj revoked)
      refine Agrees.setFile (c := { c with cache := cache }) (h.congr rfl) at_i rfl (fun same => ?_)
      rw [← revokePermission_bare, same, revokePermission_bare]

theorem Agrees.readBytes (h : c.Agrees name opened tokens) {bytes : FileBytes} {i filedes offset nbyte : Nat}
    {buffer : Nat → UInt8} (done : c.readBytes bytes i filedes offset nbyte = some (c', buffer)) :
    c'.Agrees name opened tokens := by
  simp only [PFSClient.readBytes, Option.bind_eq_bind] at done
  obtain ⟨⟨cache, buffer'⟩, -, done⟩ := Option.bind_eq_some_iff.mp done
  obtain ⟨file, at_i, done⟩ := Option.bind_eq_some_iff.mp done
  obtain ⟨rfl, -⟩ := Prod.mk.inj (Option.some.inj done)
  refine Agrees.setFile (c := { c with cache := cache }) (h.congr rfl) at_i rfl (fun same => ?_)
  rw [bareList_unlockPermission, same]

theorem Agrees.writeBytes (h : c.Agrees name opened tokens) {bytes : FileBytes} {i filedes offset nbyte : Nat}
    {data : Nat → UInt8} (done : c.writeBytes bytes i filedes offset nbyte data = some c') :
    c'.Agrees name opened tokens := by
  simp only [PFSClient.writeBytes, Option.bind_eq_bind] at done
  obtain ⟨cache, -, done⟩ := Option.bind_eq_some_iff.mp done
  obtain ⟨file, at_i, done⟩ := Option.bind_eq_some_iff.mp done
  obtain rfl := Option.some.inj done
  refine Agrees.setFile (c := { c with cache := cache }) (h.congr rfl) at_i rfl (fun same => ?_)
  rw [bareList_unlockPermission, same]

end PFSClient

namespace MMFile

/-- A request reaches each peer with a conflict once. -/
theorem conflicting_nodup (f : MMFile Peer) (peer : Peer) (start stop : Nat) (iswrite : Bool) :
    (f.conflicting peer start stop iswrite).Nodup := by
  have keys : (f.clientPermissions.entries.map Sigma.fst).Nodup := f.clientPermissions.nodupKeys
  refine List.Nodup.sublist ?_ keys
  rw [conflicting, others, List.filter_filter]
  exact List.Sublist.map _ List.filter_sublist

end MMFile

namespace World

variable {w w' : World Peer}

/-- Everybody agrees with the manager. -/
def Agree (w : World Peer) : Prop :=
  ∀ q, (w.clients q).Agrees w.manager.name (w.manager.isOpenedBy q) (w.manager.tokens q)

/-- One client has changed, in agreement with the manager. -/
theorem Agree.setClient (h : w.Agree) {peer : Peer} {c : PFSClient}
    (own : c.Agrees w.manager.name (w.manager.isOpenedBy peer) (w.manager.tokens peer)) :
    (w.setClient peer c).Agree := by
  intro q
  by_cases same : q = peer
  · subst same
    simp only [World.setClient, Function.update_self]
    exact own
  · simp only [World.setClient, Function.update_of_ne same]
    exact h q

/-- While revocations are under way, the clients still to be served have the
    lists from before. -/
theorem revokeAll_agrees {start stop : Nat} {order : List Peer} (distinct : order.Nodup)
    (before others : Peer → List Permission)
    (pending : ∀ q ∈ order, (w.clients q).Agrees w.manager.name (w.manager.isOpenedBy q) (before q))
    (served : ∀ q, q ∉ order → (w.clients q).Agrees w.manager.name (w.manager.isOpenedBy q) (others q))
    (after : ∀ q ∈ order, others q = revokePermission start stop (before q))
    (done : revokeAll start stop order w = some w') :
    w'.manager = w.manager ∧
      ∀ q, (w'.clients q).Agrees w.manager.name (w.manager.isOpenedBy q) (others q) := by
  induction order generalizing w with
  | nil =>
      obtain rfl := Option.some.inj done
      exact ⟨rfl, fun q => served q (List.not_mem_nil)⟩
  | cons peer rest ih =>
      simp only [revokeAll, Option.bind_eq_bind] at done
      obtain ⟨⟨c, bytes⟩, revoked, done⟩ := Option.bind_eq_some_iff.mp done
      obtain ⟨absent, distinct⟩ := List.nodup_cons.mp distinct
      have own := (pending peer List.mem_cons_self).revoke revoked
      rw [← after peer List.mem_cons_self] at own
      refine ih (w := World.setClient { w with bytes := bytes } peer c) distinct ?_ ?_ ?_ done
      · intro q member
        have other : q ≠ peer := by rintro rfl; exact absent member
        simp only [World.setClient, Function.update_of_ne other]
        exact pending q (List.mem_cons_of_mem _ member)
      · intro q outside
        by_cases same : q = peer
        · subst same
          simp only [World.setClient, Function.update_self]
          exact own
        · simp only [World.setClient, Function.update_of_ne same]
          exact served q (by simp [same, outside])
      · exact fun q member => after q (List.mem_cons_of_mem _ member)

/-- After a request has been served and its revocations executed, everybody
    agrees but the client that asked, which has not seen the reply yet. -/
theorem served_agrees (h : w.Agree) {peer : Peer} {start stop : Nat} {iswrite : Bool} {order : List Peer}
    {manager : MMFile Peer} {grant : Grant Peer}
    (asked : w.manager.waitAndGetPermissionFor peer start stop iswrite = some (manager, grant))
    (perm : order.Perm grant.revoked) (revoked : revokeAll start stop order { w with manager := manager } = some w') :
    w'.manager = manager ∧
      (∀ q, q ≠ peer → (w'.clients q).Agrees manager.name (manager.isOpenedBy q) (manager.tokens q)) ∧
      (w'.clients peer).Agrees manager.name (manager.isOpenedBy peer) (w.manager.tokens peer) := by
  obtain ⟨-, conflicting, -, rest, opened⟩ := MMFile.waitAndGetPermissionFor_spec asked
  have named := MMFile.waitAndGetPermissionFor_name asked
  have member : ∀ q, q ∈ order ↔ q ≠ peer ∧ Conflicts (w.manager.tokens q) start stop iswrite := by
    intro q
    rw [perm.mem_iff, conflicting]
    exact MMFile.mem_conflicting
  have distinct : order.Nodup := by
    rw [perm.nodup_iff, conflicting]
    exact MMFile.conflicting_nodup _ _ _ _ _
  obtain ⟨same, agrees⟩ := revokeAll_agrees (w := { w with manager := manager }) distinct
    w.manager.tokens (fun q => if q = peer then w.manager.tokens peer else manager.tokens q)
    (by
      intro q _
      simp only [named, opened]
      exact h q)
    (by
      intro q outside
      simp only [named, opened]
      by_cases same : q = peer
      · subst same
        rw [if_pos rfl]
        exact h q
      · rw [if_neg same, rest q same, MMFile.tokensAfter,
          if_neg (fun clash => outside ((member q).mpr ⟨same, clash⟩))]
        exact h q)
    (by
      intro q inside
      obtain ⟨other, clash⟩ := (member q).mp inside
      rw [if_neg other, rest q other, MMFile.tokensAfter, if_pos clash])
    revoked
  refine ⟨same, ?_, ?_⟩
  · intro q other
    have own := agrees q
    rw [if_neg other] at own
    exact own
  · have own := agrees peer
    rw [if_pos rfl] at own
    exact own

/-- `acquirePermission` finds the token, or it gets it from the manager. -/
theorem acquirePermission_cases {peer : Peer} {filedes start stop : Nat} {write : Bool} {order : List Peer}
    {result : Option Nat} (done : w.acquirePermission peer filedes start stop write order = some (w', result)) :
    (result = none ∧ w' = w) ∨ ∃ i file, result = some i ∧ (w.clients peer).foundAt filedes = some i ∧
      (w.clients peer).openedFiles[i]? = some file ∧
      ((hasPermission start stop write file.permissions = true ∧ w' = w) ∨
        (hasPermission start stop write file.permissions = false ∧ ∃ manager grant w₂ file₂ permissions,
          w.manager.waitAndGetPermissionFor peer start stop write = some (manager, grant) ∧
          order.Perm grant.revoked ∧ revokeAll start stop order { w with manager := manager } = some w₂ ∧
          (w₂.clients peer).openedFiles[i]? = some file₂ ∧
          addPermission grant.start grant.stop write file₂.permissions true = some permissions ∧
          w' = w₂.setClient peer ((w₂.clients peer).setFile i { file₂ with permissions := permissions }))) := by
  unfold acquirePermission at done
  split at done
  · obtain ⟨rfl, rfl⟩ := Prod.mk.inj (Option.some.inj done)
    exact .inl ⟨rfl, rfl⟩
  · next i found =>
      simp only [Option.bind_eq_bind] at done
      obtain ⟨file, at_i, done⟩ := Option.bind_eq_some_iff.mp done
      split at done
      · next has =>
          obtain ⟨rfl, rfl⟩ := Prod.mk.inj (Option.some.inj done)
          exact .inr ⟨i, file, rfl, found, at_i, .inl ⟨has, rfl⟩⟩
      · next misses =>
          obtain ⟨⟨w₂, reply⟩, served, done⟩ := Option.bind_eq_some_iff.mp done
          unfold getPermission at served
          split at served
          · simp only [Option.bind_eq_bind] at served
            obtain ⟨⟨manager, grant⟩, asked, served⟩ := Option.bind_eq_some_iff.mp served
            obtain ⟨perm, served⟩ := Option.ite_none_right_eq_some.mp served
            obtain ⟨w₃, revoked, served⟩ := Option.bind_eq_some_iff.mp served
            obtain ⟨rfl, rfl⟩ := Prod.mk.inj (Option.some.inj served)
            obtain ⟨file₂, at_i₂, done⟩ := Option.bind_eq_some_iff.mp done
            obtain ⟨permissions, added, done⟩ := Option.bind_eq_some_iff.mp done
            obtain ⟨rfl, rfl⟩ := Prod.mk.inj (Option.some.inj done)
            exact .inr ⟨i, file, rfl, found, at_i, .inr ⟨by simpa using misses, manager, grant, w₃, file₂,
              permissions, asked, perm, revoked, at_i₂, added, rfl⟩⟩
          · obtain ⟨rfl, rfl⟩ := Prod.mk.inj (Option.some.inj served)
            obtain ⟨rfl, rfl⟩ := Prod.mk.inj (Option.some.inj done)
            exact .inl ⟨rfl, rfl⟩

theorem readFile_cases {peer : Peer} {filedes offset nbyte : Nat} {order : List Peer} {result : Option (Nat → UInt8)}
    (done : w.readFile peer filedes offset nbyte order = some (w', result)) :
    ∃ w₁ acquired, w.acquirePermission peer filedes offset (offset + nbyte) false order = some (w₁, acquired) ∧
      ((acquired = none ∧ w' = w₁ ∧ result = none) ∨ ∃ i c buffer, acquired = some i ∧
        (w₁.clients peer).readBytes w₁.bytes i filedes offset nbyte = some (c, buffer) ∧
        w' = w₁.setClient peer c ∧ result = some fun k => buffer (offset + k)) := by
  simp only [readFile, Option.bind_eq_bind] at done
  obtain ⟨⟨w₁, acquired⟩, acquiring, done⟩ := Option.bind_eq_some_iff.mp done
  refine ⟨w₁, acquired, acquiring, ?_⟩
  cases acquired with
  | none =>
      obtain ⟨rfl, rfl⟩ := Prod.mk.inj (Option.some.inj done)
      exact .inl ⟨rfl, rfl, rfl⟩
  | some i =>
      obtain ⟨⟨c, buffer⟩, read, done⟩ := Option.bind_eq_some_iff.mp done
      obtain ⟨rfl, rfl⟩ := Prod.mk.inj (Option.some.inj done)
      exact .inr ⟨i, c, buffer, rfl, read, rfl, rfl⟩

theorem writeFile_cases {peer : Peer} {filedes offset nbyte : Nat} {data : Nat → UInt8} {order : List Peer}
    {wrote : Bool} (done : w.writeFile peer filedes offset nbyte data order = some (w', wrote)) :
    ∃ w₁ acquired, w.acquirePermission peer filedes offset (offset + nbyte) true order = some (w₁, acquired) ∧
      ((acquired = none ∧ w' = w₁ ∧ wrote = false) ∨ ∃ i c, acquired = some i ∧
        (w₁.clients peer).writeBytes w₁.bytes i filedes offset nbyte data = some c ∧
        w' = w₁.setClient peer c ∧ wrote = true) := by
  simp only [writeFile, Option.bind_eq_bind] at done
  obtain ⟨⟨w₁, acquired⟩, acquiring, done⟩ := Option.bind_eq_some_iff.mp done
  refine ⟨w₁, acquired, acquiring, ?_⟩
  cases acquired with
  | none =>
      obtain ⟨rfl, rfl⟩ := Prod.mk.inj (Option.some.inj done)
      exact .inl ⟨rfl, rfl, rfl⟩
  | some i =>
      obtain ⟨c, written, done⟩ := Option.bind_eq_some_iff.mp done
      obtain ⟨rfl, rfl⟩ := Prod.mk.inj (Option.some.inj done)
      exact .inr ⟨i, c, rfl, written, rfl, rfl⟩

/-- `closeFile` takes a file off the list if the manager had the file open for the
    client.  The manager's file has another size and time at most. -/
theorem closeFile_cases {peer : Peer} {filedes now : Nat} (done : w.closeFile peer filedes now = some w') :
    ∃ i file cache bytes, ∃ manager : MMFile Peer, (w.clients peer).openedFiles[i]? = some file ∧
      evictTokens (w.clients peer) file.descriptor file.permissions (w.clients peer).cache w.bytes =
        some (cache, bytes) ∧
      manager.name = w.manager.name ∧ manager.clientPermissions = w.manager.clientPermissions ∧
      w' = setClient { w with manager := (manager.close peer).1, bytes := bytes } peer
        { w.clients peer with
          cache := cache
          openedFiles := if (manager.close peer).2 then (w.clients peer).openedFiles.eraseIdx i
            else (w.clients peer).openedFiles } := by
  simp only [closeFile, Option.bind_eq_bind] at done
  obtain ⟨file, at_i, done⟩ := Option.bind_eq_some_iff.mp done
  obtain ⟨⟨cache, bytes⟩, evicted, done⟩ := Option.bind_eq_some_iff.mp done
  refine ⟨_, file, cache, bytes, if file.hasModified then { w.manager with
    lastModifiedTime := now, size := max file.size w.manager.size } else w.manager, at_i, evicted, ?_, ?_, ?_⟩
  · split <;> rfl
  · split <;> rfl
  · split at done
    · next manager closed =>
        obtain rfl := Option.some.inj done
        rw [closed]
        rfl
    · next manager closed =>
        obtain rfl := Option.some.inj done
        rw [closed]
        rfl

theorem flush_cases {peer : Peer} (done : w.flush peer = some w') :
    ∃ bytes, (w.clients peer).flushed w.bytes (w.clients peer).cache.flushIteration.2 = some bytes ∧
      w' = setClient { w with bytes := bytes } peer
        { w.clients peer with cache := (w.clients peer).cache.flushIteration.1 } := by
  simp only [flush, Option.bind_eq_bind] at done
  obtain ⟨bytes, flushed, done⟩ := Option.bind_eq_some_iff.mp done
  obtain rfl := Option.some.inj done
  exact ⟨bytes, flushed, rfl⟩

theorem harvest_cases {peer : Peer} (done : w.harvest peer = some w') :
    ∃ cache block bytes, (w.clients peer).cache.harvestIteration = some (cache, block) ∧
      (w.clients peer).flushed w.bytes block = some bytes ∧
      w' = setClient { w with bytes := bytes } peer { w.clients peer with cache := cache } := by
  simp only [harvest, Option.bind_eq_bind] at done
  obtain ⟨⟨cache, block⟩, harvested, done⟩ := Option.bind_eq_some_iff.mp done
  obtain ⟨bytes, flushed, done⟩ := Option.bind_eq_some_iff.mp done
  obtain rfl := Option.some.inj done
  exact ⟨cache, block, bytes, harvested, flushed, rfl⟩

theorem acquirePermission_agree (h : w.Agree) {peer : Peer} {filedes start stop : Nat} {write : Bool}
    {order : List Peer} {result : Option Nat}
    (done : w.acquirePermission peer filedes start stop write order = some (w', result)) : w'.Agree := by
  rcases acquirePermission_cases done with ⟨-, rfl⟩ | ⟨i, file, -, -, -, ⟨-, rfl⟩ | slow⟩
  · exact h
  · exact h
  · obtain ⟨-, manager, grant, w₂, file₂, permissions, asked, perm, revoked, at_i, added, rfl⟩ := slow
    obtain ⟨-, -, managerAdded, -⟩ := MMFile.waitAndGetPermissionFor_spec asked
    obtain ⟨same, others, own⟩ := served_agrees h asked perm revoked
    intro q
    simp only [World.setClient, same]
    by_cases here : q = peer
    · subst here
      simp only [Function.update_self]
      refine own.setFile at_i rfl (fun before => ?_)
      have left := addPermission_bare added
      have right := addPermission_bare managerAdded
      rw [before, right] at left
      exact (Option.some.inj left).symm
    · simp only [Function.update_of_ne here]
      exact others q here

theorem readFile_agree (h : w.Agree) {peer : Peer} {filedes offset nbyte : Nat} {order : List Peer}
    {result : Option (Nat → UInt8)} (done : w.readFile peer filedes offset nbyte order = some (w', result)) :
    w'.Agree := by
  obtain ⟨w₁, acquired, acquiring, shape⟩ := readFile_cases done
  have agree := acquirePermission_agree h acquiring
  rcases shape with ⟨-, rfl, -⟩ | ⟨i, c, buffer, -, read, rfl, -⟩
  · exact agree
  · exact agree.setClient ((agree peer).readBytes read)

theorem writeFile_agree (h : w.Agree) {peer : Peer} {filedes offset nbyte : Nat} {data : Nat → UInt8}
    {order : List Peer} {result : Bool}
    (done : w.writeFile peer filedes offset nbyte data order = some (w', result)) : w'.Agree := by
  obtain ⟨w₁, acquired, acquiring, shape⟩ := writeFile_cases done
  have agree := acquirePermission_agree h acquiring
  rcases shape with ⟨-, rfl, -⟩ | ⟨i, c, -, written, rfl, -⟩
  · exact agree
  · exact agree.setClient ((agree peer).writeBytes written)

theorem openFile_agree (h : w.Agree) (peer : Peer) : (w.openFile peer).1.Agree := by
  simp only [openFile]
  cases result : w.manager.open peer with
  | mk manager isNew =>
      cases isNew with
      | false => exact h
      | true =>
          have wasClosed : w.manager.isOpenedBy peer = false := by
            by_contra opened
            rw [MMFile.open, if_pos (by simpa using opened)] at result
            cases result
          have named : manager.name = w.manager.name := by
            rw [MMFile.open, if_neg (by simp [wasClosed])] at result
            obtain ⟨rfl, -⟩ := Prod.mk.inj result
            rfl
          have tokens : ∀ q, manager.tokens q = w.manager.tokens q := by
            intro q
            rw [← MMFile.tokens_open w.manager peer q, result]
          have opened : ∀ q, manager.isOpenedBy q = (w.manager.isOpenedBy q || decide (q = peer)) := by
            intro q
            rw [← MMFile.isOpenedBy_open w.manager peer q, result]
          intro q
          by_cases same : q = peer
          · subst same
            simp only [World.setClient, Function.update_self, named, tokens, opened, decide_true, Bool.or_true]
            rcases (h q).cases with ⟨files, -⟩ | ⟨file, files, isOpen, -⟩
            · have empty : w.manager.tokens q = [] :=
                MMFile.tokens_of_absent (by simpa [MMFile.isOpenedBy] using wasClosed)
              simp only [PFSClient.Agrees, files, List.nil_append, empty]
              exact ⟨trivial, trivial, trivial⟩
            · rw [wasClosed] at isOpen
              cases isOpen
          · simp only [World.setClient, Function.update_of_ne same, named, tokens, opened, decide_eq_false same,
              Bool.or_false]
            exact h q

theorem closeFile_agree (h : w.Agree) {peer : Peer} {filedes now : Nat}
    (done : w.closeFile peer filedes now = some w') : w'.Agree := by
  obtain ⟨i, file, cache, bytes, m, at_i, -, named, table, rfl⟩ := closeFile_cases done
  obtain ⟨rfl, files, isOpen, -⟩ := (h peer).at at_i
  have opened : m.isOpenedBy peer = true := by rw [MMFile.isOpenedBy, table]; exact isOpen
  have closing : m.close peer = ({ m with clientPermissions := m.clientPermissions.erase peer }, true) := by
    rw [MMFile.close, if_pos opened]
  have tokens : ∀ q, q ≠ peer → (m.close peer).1.tokens q = w.manager.tokens q := by
    intro q other
    rw [MMFile.tokens_close, if_neg other, MMFile.tokens, table, MMFile.tokens]
  have stays : ∀ q, (m.close peer).1.isOpenedBy q = (w.manager.isOpenedBy q && !decide (q = peer)) := by
    intro q
    rw [MMFile.isOpenedBy_close, MMFile.isOpenedBy, table, MMFile.isOpenedBy]
  rw [closing] at tokens stays ⊢
  intro q
  by_cases same : q = peer
  · subst same
    simp only [World.setClient, Function.update_self, stays, decide_true, Bool.not_true, Bool.and_false,
      PFSClient.Agrees, files, List.eraseIdx_cons_zero, if_true]
  · simp only [World.setClient, Function.update_of_ne same, stays, tokens q same, decide_eq_false same, Bool.not_false,
      Bool.and_true]
    rw [named]
    exact h q

theorem step_agree (h : w.Agree) (step : machine.Step w w') : w'.Agree := by
  obtain ⟨call, -, ran⟩ := step
  cases call with
  | openFile peer =>
      obtain rfl := Option.some.inj ran
      exact openFile_agree h peer
  | readFile peer filedes offset nbyte order =>
      obtain ⟨⟨_, result⟩, done, rfl⟩ := Option.map_eq_some_iff.mp ran
      exact readFile_agree h done
  | writeFile peer filedes offset nbyte data order =>
      obtain ⟨⟨_, result⟩, done, rfl⟩ := Option.map_eq_some_iff.mp ran
      exact writeFile_agree h done
  | closeFile peer filedes now => exact closeFile_agree h ran
  | flush peer =>
      obtain ⟨bytes, -, rfl⟩ := flush_cases ran
      exact Agree.setClient (w := { w with bytes := bytes }) h ((h peer).congr rfl)
  | harvest peer =>
      obtain ⟨cache, block, bytes, -, -, rfl⟩ := harvest_cases ran
      exact Agree.setClient (w := { w with bytes := bytes }) h ((h peer).congr rfl)

theorem initial_agree (h : w.Initial) : w.Agree := by
  intro q
  rw [h.2 q]
  simp only [PFSClient.Agrees, MMFile.isOpenedBy, h.1, AList.lookup_empty, Option.isSome_none]

/-- After every call, the manager has an entry for exactly the clients with the
    file open, and each of these clients has the tokens the manager has for it,
    one by one. -/
theorem reachable_agree {w : World Peer} (reach : Reachable Initial machine.Step w) (peer : Peer) :
    (w.manager.isOpenedBy peer = true ↔ ∃ file ∈ (w.clients peer).openedFiles, file.name = w.manager.name) ∧
      ∀ file ∈ (w.clients peer).openedFiles, file.name = w.manager.name →
        bareList file.permissions = bareList (w.manager.tokens peer) := by
  have agree : w.Agree := reach.invariant Agree (fun _ => initial_agree) (fun _ _ h => step_agree h)
  rcases (agree peer).cases with ⟨files, closed⟩ | ⟨file, files, isOpen, named, same⟩
  · simp [files, closed]
  · simp [files, isOpen, named, same]

/-- A file without clients. -/
def blank : World Nat := { manager := { name := "f", stripWidth := 1 } }

/-- Client 1 writes two bytes, client 2 reads one of them. -/
def writerAndReader : Option (World Nat) :=
  machine.run blank [.openFile 1, .openFile 2, .writeFile 1 1 0 2 (fun _ => 7) [], .readFile 2 1 1 1 [1]]

theorem reachable_agree_writerAndReader :
    (writerAndReader.get rfl).manager.tokens 2 = [⟨1, 2, false, false, []⟩] ∧
      ∀ file ∈ ((writerAndReader.get rfl).clients 2).openedFiles, file.name = "f" →
        bareList file.permissions = [⟨1, 2, false, false, []⟩] := by
  have reach : Reachable Initial machine.Step (writerAndReader.get rfl) :=
    machine.run_reachable (Reachable.init ⟨rfl, fun _ => rfl⟩) (Option.some_get _).symm
  exact ⟨rfl, (reachable_agree reach 2).2⟩

end World

end PFS
