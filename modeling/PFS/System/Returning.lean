import PFS.NormalForm
import PFS.System.Lifetime

/-! # Which calls return

A call returns if it gets its token, if the servers give the blocks that are not in the cache,
and if there is room for them.  With large offsets it also has to keep to the bytes that a token
can cover and to the addresses that are not those of other bytes.
-/

namespace PFS

open Lib

/-! ## Tokens -/

namespace PFSClient

variable {c : PFSClient} {name : String} {opened : Bool} {tokens : List Permission}

theorem foundAt_getElem {filedes i : Nat} (found : c.foundAt filedes = some i) :
    ∃ file, c.openedFiles[i]? = some file := by
  obtain ⟨inside, -⟩ := List.findIdx?_eq_some_iff_getElem.mp found
  exact ⟨_, List.getElem?_eq_getElem inside⟩

/-- No token of the client that overlaps a range is locked. -/
def Revocable (c : PFSClient) (start stop : Nat) : Prop :=
  ∀ file ∈ c.openedFiles, ∀ p ∈ file.permissions, p.isShared start stop = true → p.locked = false

/-- Revocations wait for locks and for nothing else. -/
theorem Agrees.revokePermission_returns (h : c.Agrees name opened tokens) (wf : c.cache.WF) (bytes : FileBytes)
    (start stop : Nat) : (c.revokePermission bytes name start stop).isSome = true ↔ c.Revocable start stop := by
  rcases h.cases with ⟨files, -⟩ | ⟨file, files, -, named, -⟩
  · simp [PFSClient.revokePermission, Revocable, files]
  · have opened : c.openedFiles.any (fun other => other.descriptor = file.descriptor) = true := by simp [files]
    obtain ⟨evicted, answers⟩ := evictBlocks_answers opened wf (blocksFrom start stop) bytes
    have index : c.openedFiles.findIdx? (fun file => file.name = name) = some 0 := by simp [files, named]
    have at_0 : c.openedFiles[0]? = some file := by rw [files]; rfl
    have locks : file.permissions.any (fun p => p.isShared start stop && p.locked) = true ↔ ¬ c.Revocable start stop := by
      simp [Revocable, files, and_assoc]
    simp only [PFSClient.revokePermission, index, at_0, answers, Option.bind_eq_bind, Option.bind_some]
    by_cases waits : file.permissions.any (fun p => p.isShared start stop && p.locked) = true
    · rw [if_pos waits]
      exact iff_of_false Bool.false_ne_true (locks.mp waits)
    · rw [if_neg waits]
      exact iff_of_true rfl (not_not.mp fun waiting => waits (locks.mpr waiting))

end PFSClient

variable {Peer : Type} [DecidableEq Peer]

namespace World

variable {w w' : World Peer}

theorem revokeAll_returns (start stop : Nat) {order : List Peer} (distinct : order.Nodup) {opened : Peer → Bool}
    {tokens : Peer → List Permission} (agree : ∀ q, (w.clients q).Agrees w.manager.name (opened q) (tokens q))
    (wf : ∀ q, (w.clients q).cache.WF) :
    (revokeAll start stop order w).isSome = true ↔ ∀ q ∈ order, (w.clients q).Revocable start stop := by
  induction order generalizing w tokens with
  | nil => simp [revokeAll]
  | cons peer rest ih =>
      obtain ⟨absent, distinct⟩ := List.nodup_cons.mp distinct
      have first := (agree peer).revokePermission_returns (wf peer) w.bytes start stop
      rw [revokeAll, List.forall_mem_cons, ← first]
      cases revoked : (w.clients peer).revokePermission w.bytes w.manager.name start stop with
      | none => simp
      | some r =>
          obtain ⟨c, bytes⟩ := r
          have agree' : ∀ q, (((setClient { w with bytes := bytes } peer c).clients q)).Agrees w.manager.name (opened q)
              (Function.update tokens peer (PFS.revokePermission start stop (tokens peer)) q) := by
            intro q
            by_cases here : q = peer
            · subst here
              rw [setClient_self, Function.update_self]
              exact (agree q).revoke revoked
            · rw [setClient_other _ c here, Function.update_of_ne here]
              exact agree q
          have wf' : ∀ q, ((setClient { w with bytes := bytes } peer c).clients q).cache.WF := by
            intro q
            by_cases here : q = peer
            · subst here
              rw [setClient_self]
              exact (PFSClient.revokePermission_spent (wf q) revoked).wf
            · rw [setClient_other _ c here]
              exact wf q
          have others : (∀ q ∈ rest, ((setClient { w with bytes := bytes } peer c).clients q).Revocable start stop) ↔
              ∀ q ∈ rest, (w.clients q).Revocable start stop := by
            refine forall₂_congr fun q member => ?_
            have other : q ≠ peer := by
              rintro rfl
              exact absent member
            rw [setClient_other _ c other]
          simp only [Option.bind_eq_bind, Option.bind_some, Option.isSome_some, true_and]
          rw [ih (w := setClient { w with bytes := bytes } peer c) distinct agree' wf', others]

/-- The manager's answer to a request comes, and the client can add the token: no token in the way is
    locked, and for a read none of the write tokens that `addPermission` keeps in the granted range. -/
structure Obtains (w : World Peer) (peer : Peer) (start stop : Nat) (write : Bool) (l : List Permission) : Prop where
  revocable : ∀ q ∈ w.manager.conflicting peer start stop write, (w.clients q).Revocable start stop
  unlocked : write = false → ∀ sc, scan (w.manager.grantRange peer start stop write).1
    (w.manager.grantRange peer start stop write).2 l = some sc → ∀ p ∈ sc.writePermits, p.locked = false

theorem acquirePermission_returns (h : w.Stocked) {peer : Peer} {filedes start stop i : Nat} {write : Bool}
    {file : ClientFile} (found : (w.clients peer).foundAt filedes = some i)
    (at_i : (w.clients peer).openedFiles[i]? = some file) {order : List Peer}
    (arrive : hasPermission start stop write file.permissions = false →
      order.Perm (w.manager.conflicting peer start stop write)) :
    (w.acquirePermission peer filedes start stop write order).isSome = true ↔
      hasPermission start stop write file.permissions = true ∨ w.Obtains peer start stop write file.permissions := by
  cases has : hasPermission start stop write file.permissions with
  | true => simp [acquirePermission, found, at_i, has]
  | false =>
      have arrive := arrive has
      have distinct : order.Nodup := arrive.nodup_iff.mpr (MMFile.conflicting_nodup _ _ _ _ _)
      have outside : peer ∉ order := by
        rw [arrive.mem_iff, MMFile.mem_conflicting]
        exact fun clash => clash.1 rfl
      obtain ⟨-, -, opened, -⟩ := (h.agree peer).at at_i
      obtain ⟨⟨manager, grant⟩, asked⟩ := MMFile.waitAndGetPermissionFor_answers opened start stop write
      obtain ⟨granted, revoked, -⟩ := MMFile.waitAndGetPermissionFor_spec asked
      have named := MMFile.waitAndGetPermissionFor_name asked
      have perm : order.Perm grant.revoked := revoked ▸ arrive
      have serves := revokeAll_returns (w := { w with manager := manager }) start stop distinct
        (fun q => by rw [named]; exact h.agree q) h.wf
      have adds := addPermission_returns_iff grant.start grant.stop write true file.permissions
      have obtains : w.Obtains peer start stop write file.permissions ↔
          (revokeAll start stop order { w with manager := manager }).isSome = true ∧
            ∃ l', addPermission grant.start grant.stop write file.permissions true = some l' := by
        rw [serves, adds]
        constructor
        · intro obtains
          refine ⟨fun q member => obtains.revocable q (arrive.mem_iff.mp member), fun reads _ => ?_⟩
          have unlocked := obtains.unlocked reads
          rw [granted] at unlocked
          exact unlocked
        · rintro ⟨revocable, unlocked⟩
          refine ⟨fun q member => revocable q (arrive.mem_iff.mpr member), fun reads => ?_⟩
          rw [granted]
          exact unlocked reads rfl
      rw [obtains]
      simp only [acquirePermission, found, at_i, has, Option.bind_eq_bind, Option.bind_some, getPermission, if_pos opened, asked,
        if_pos perm, Bool.false_eq_true, if_false, false_or]
      cases done : revokeAll start stop order { w with manager := manager } with
      | none => simp
      | some w₂ =>
          obtain ⟨-, spared⟩ := revokeAll_spent (w := { w with manager := manager }) h.wf done
          have same : w₂.clients peer = w.clients peer := spared peer outside
          cases added : addPermission grant.start grant.stop write file.permissions true with
          | none => simp [same, at_i, added]
          | some l' => simp [same, at_i, added]

end World

/-! ## The loops -/

namespace PFSClient

variable {c : Cache} (filedes : Nat) (fetch : Nat → Option (Nat → UInt8))

theorem blockAddr32_small {offset : Nat} (small : offset < uint32Size) : blockAddr32 offset = blockOf offset := by
  rw [blockAddr32_eq, Nat.mod_eq_of_lt ((blockOf_le offset).trans_lt small)]

theorem readPiece_loads (wf : c.WF) {offset : Nat} (small : offset < uint32Size) :
    c.Loads filedes (fun a => (fetch a).isSome) [blockOf offset] ((readPiece fetch filedes offset c).map Prod.fst) := by
  obtain ⟨wf₁, contents, answer⟩ := Cache.readBlock_spec wf filedes (blockOf offset)
  rw [readPiece, blockAddr32_small small]
  cases found : c.find filedes (blockOf offset) with
  | some block =>
      rw [found, Option.map_some] at answer
      rw [show c.readBlock filedes (blockOf offset) = (_, some block.data) from Prod.ext rfl answer]
      exact Cache.Loads.found found wf₁ (c.readBlock_sameFree filedes (blockOf offset)).2 fun b => by rw [contents]
  | none =>
      rw [Cache.readBlock_missing found]
      cases taken : fetch (blockOf offset) with
      | none => exact Cache.Loads.refused found (by rw [taken, Option.isSome_none])
      | some data =>
          simp only [Option.bind_eq_bind, Option.bind_some, Option.map_bind]
          have loads : c.Loads filedes (fun a => (fetch a).isSome) [blockOf offset]
              ((c.addBlock filedes (blockOf offset) data).map id) :=
            Cache.Loads.fetched wf found (blockOf_aligned offset) (by rw [taken, Option.isSome_some]) data
              fun c' wf' => ⟨wf', rfl, fun _ => rfl⟩
          rw [Option.map_id] at loads
          simpa [Function.comp_def] using loads

theorem readPieces_loads {ps : List (Nat × Nat)} (wf : c.WF) (small : ∀ piece ∈ ps, piece.1 < uint32Size)
    (distinct : (blocksOf ps).Nodup) (buffer : List UInt8) (accesses : List Access) :
    c.Loads filedes (fun a => (fetch a).isSome) (blocksOf ps)
      ((readPieces fetch filedes ps c buffer accesses).map Prod.fst) := by
  induction ps generalizing c buffer accesses with
  | nil => exact Cache.Loads.nil wf
  | cons piece rest ih =>
      obtain ⟨offset, size⟩ := piece
      obtain ⟨absent, distinct⟩ := List.nodup_cons.mp distinct
      obtain ⟨here, later⟩ := List.forall_mem_cons.mp small
      simp only [readPieces, Option.bind_eq_bind, Option.map_bind]
      exact Cache.Loads.cons Prod.fst absent (readPiece_loads filedes fetch wf here) fun r wf₁ => ih wf₁ later distinct _ _

theorem writePiece_loads (wf : c.WF) {offset size : Nat} (one : OneBlock (offset, size)) (small : offset < uint32Size)
    (data : Nat → UInt8) :
    c.Loads filedes (fun a => (fetch a).isSome) [blockOf offset] (writePiece fetch filedes data offset size c) := by
  obtain ⟨-, answer, -⟩ := Cache.write_spec wf filedes offset (fun i => data (offset + i)) one.1
  rw [writePiece, Nat.mod_eq_of_lt small, blockAddr32_small small]
  cases found : c.find filedes (blockOf offset) with
  | some block =>
      obtain ⟨wf₁, units, same⟩ := write_keeps wf filedes one fun i => data (offset + i)
      rw [found, Option.isSome_some] at answer
      rw [show c.write filedes offset size (fun i => data (offset + i)) = (_, true) from Prod.ext rfl answer]
      exact Cache.Loads.found found wf₁ units same
  | none =>
      rw [Cache.write_missing found]
      cases taken : fetch (blockOf offset) with
      | none => exact Cache.Loads.refused found (by rw [taken, Option.isSome_none])
      | some cacheData =>
          have loads : c.Loads filedes (fun a => (fetch a).isSome) [blockOf offset]
              ((c.addBlock filedes (blockOf offset) cacheData).map fun c' =>
                (c'.write filedes offset size fun i => data (offset + i)).1) :=
            Cache.Loads.fetched wf found (blockOf_aligned offset) (by rw [taken, Option.isSome_some]) cacheData
              fun c' wf' => write_keeps wf' filedes one fun i => data (offset + i)
          rw [Option.map_eq_bind] at loads
          exact loads

theorem writePieces_loads {ps : List (Nat × Nat)} (wf : c.WF) (one : ∀ piece ∈ ps, OneBlock piece)
    (small : ∀ piece ∈ ps, piece.1 < uint32Size) (distinct : (blocksOf ps).Nodup) (data : Nat → UInt8)
    (accesses : List Access) :
    c.Loads filedes (fun a => (fetch a).isSome) (blocksOf ps)
      ((writePieces fetch filedes data ps c accesses).map Prod.fst) := by
  induction ps generalizing c accesses with
  | nil => exact Cache.Loads.nil wf
  | cons piece rest ih =>
      obtain ⟨offset, size⟩ := piece
      obtain ⟨absent, distinct⟩ := List.nodup_cons.mp distinct
      obtain ⟨fits, fit⟩ := List.forall_mem_cons.mp one
      obtain ⟨here, later⟩ := List.forall_mem_cons.mp small
      simp only [writePieces, Option.bind_eq_bind, Option.map_bind]
      refine Cache.Loads.cons id absent ?_ fun r wf₁ => ih wf₁ fit later distinct _
      rw [Option.map_id]
      exact writePiece_loads filedes fetch wf fits here data

end PFSClient

/-! ## The calls -/

namespace World

variable {w w' : World Peer}

/-- Getting a token changes no more of the file than its tokens. -/
theorem acquirePermission_file (h : w.Stocked) {peer : Peer} {filedes start stop i : Nat} {write : Bool}
    {order : List Peer} {file : ClientFile} (at_i : (w.clients peer).openedFiles[i]? = some file)
    (done : w.acquirePermission peer filedes start stop write order = some (w', some i)) :
    ∃ permissions, (w'.clients peer).openedFiles[i]? = some { file with permissions := permissions } := by
  rcases acquirePermission_cases done with ⟨nothing, -⟩ | ⟨j, other, same, -, at_j, ⟨-, rfl⟩ | slow⟩
  · cases nothing
  · exact ⟨file.permissions, at_i⟩
  · obtain ⟨-, manager, grant, w₂, file₂, permissions, asked, perm, revoked, at_i₂, -, rfl⟩ := slow
    obtain rfl := Option.some.inj same
    obtain ⟨-, conflicting, -⟩ := MMFile.waitAndGetPermissionFor_spec asked
    have outside : peer ∉ order := by
      rw [perm.mem_iff, conflicting, MMFile.mem_conflicting]
      exact fun clash => clash.1 rfl
    rw [(revokeAll_spent (w := { w with manager := manager }) h.wf revoked).2 peer outside] at at_i₂
    obtain rfl := Option.some.inj (at_i.symm.trans at_i₂)
    refine ⟨permissions, ?_⟩
    rw [setClient_self, (revokeAll_spent (w := { w with manager := manager }) h.wf revoked).2 peer outside]
    exact List.getElem?_set_self (List.getElem?_eq_some_iff.mp at_i).1

/-- What a call to an open file needs to return: its token, room for the blocks that are not in
    the cache, and servers that give them. -/
structure Completes (w : World Peer) (peer : Peer) (filedes : Nat) (file : ClientFile) (call : OffsetCall) : Prop where
  token : hasPermission call.offset (call.offset + call.nbyte) call.write file.permissions = true ∨
    w.Obtains peer call.offset (call.offset + call.nbyte) call.write file.permissions
  room : 2 * (w.clients peer).cache.missing filedes (PFSClient.blocksOf (pieces call.offset call.nbyte)) ≤
    (w.clients peer).cache.freeBlockSemaphore
  served : (w.clients peer).cache.Obtainable filedes (PFSClient.accepts file.stripWidth)
    (PFSClient.blocksOf (pieces call.offset call.nbyte))

theorem getStoredBlock_isSome (stored : Nat → Nat → UInt8) (stripWidth : Nat) :
    (fun a => (PFSClient.getStoredBlock stored stripWidth a).isSome) = PFSClient.accepts stripWidth := by
  funext a
  rw [PFSClient.getStoredBlock]
  cases PFSClient.accepts stripWidth a <;> rfl

/-- A call that ends before 2^32 returns exactly if it can be completed. -/
theorem offsetCall_returns (h : w.Stocked) {peer : Peer} {filedes i : Nat} {file : ClientFile}
    (found : (w.clients peer).foundAt filedes = some i) (at_i : (w.clients peer).openedFiles[i]? = some file)
    {call : OffsetCall} (small : call.offset + call.nbyte < uint32Size) {order : List Peer}
    (arrive : hasPermission call.offset (call.offset + call.nbyte) call.write file.permissions = false →
      order.Perm (w.manager.conflicting peer call.offset (call.offset + call.nbyte) call.write))
    (stored : Nat → Nat → UInt8) :
    (w.offsetCall stored peer filedes order call).isSome = true ↔ w.Completes peer filedes file call := by
  have token := acquirePermission_returns h found at_i arrive
  rw [offsetCall, Nat.mod_eq_of_lt (Nat.lt_of_le_of_lt (Nat.le_add_right _ _) small), Nat.mod_eq_of_lt small]
  cases acquiring : w.acquirePermission peer filedes call.offset (call.offset + call.nbyte) call.write order with
  | none =>
      rw [acquiring, Option.isSome_none] at token
      exact iff_of_false Bool.false_ne_true fun completes => Bool.false_ne_true (token.mpr completes.token)
  | some r =>
      obtain ⟨w₁, acquired⟩ := r
      rw [acquiring, Option.isSome_some] at token
      obtain ⟨spent, own, same⟩ := acquirePermission_spent h acquiring
      obtain rfl : acquired = some i := same.trans found
      obtain ⟨permissions, at_i₁⟩ := acquirePermission_file h at_i acquiring
      have below : ∀ piece ∈ pieces call.offset call.nbyte, piece.1 < uint32Size :=
        fun piece member => (PFSClient.piece_inside piece member).2.trans small
      have complete : w.Completes peer filedes file call ↔
          2 * (w₁.clients peer).cache.missing filedes (PFSClient.blocksOf (pieces call.offset call.nbyte)) ≤
              (w₁.clients peer).cache.freeBlockSemaphore ∧
            (w₁.clients peer).cache.Obtainable filedes (PFSClient.accepts file.stripWidth)
              (PFSClient.blocksOf (pieces call.offset call.nbyte)) := by
        rw [own]
        constructor
        · intro completes
          exact ⟨completes.room, completes.served⟩
        · rintro ⟨room, served⟩
          exact ⟨token.mp rfl, room, served⟩
      rw [complete]
      cases call with
      | readFile offset nbyte =>
          have loads := PFSClient.readPieces_loads filedes (PFSClient.getStoredBlock stored file.stripWidth) (spent peer).wf
            below (PFSClient.pieces_nodup offset nbyte) [] []
          rw [getStoredBlock_isSome] at loads
          refine Iff.trans ?_ loads.returns
          simp only [Option.isSome_map, Option.bind_eq_bind, Option.bind_some, at_i₁, OffsetCall.offset, OffsetCall.nbyte]
          cases PFSClient.readPieces (PFSClient.getStoredBlock stored file.stripWidth) filedes (pieces offset nbyte)
              (w₁.clients peer).cache [] [] with
          | none => rfl
          | some r => rfl
      | writeFile offset nbyte data =>
          have loads := PFSClient.writePieces_loads filedes (PFSClient.getStoredBlock stored file.stripWidth) (spent peer).wf
            (PFSClient.pieces_oneBlock offset nbyte) below (PFSClient.pieces_nodup offset nbyte)
            (fun b => data (b - offset)) []
          rw [getStoredBlock_isSome] at loads
          refine Iff.trans ?_ loads.returns
          simp only [Option.isSome_map, Option.bind_eq_bind, Option.bind_some, at_i₁, OffsetCall.offset, OffsetCall.nbyte]
          cases PFSClient.writePieces (PFSClient.getStoredBlock stored file.stripWidth) filedes (fun b => data (b - offset))
              (pieces offset nbyte) (w₁.clients peer).cache [] with
          | none => rfl
          | some r => rfl

/-- Client 1 has the file open. -/
def opened : World Nat := (blank.openFile 1).1

theorem opened_reachable : Reachable Initial machine.Step opened := by
  have start : Reachable Initial machine.Step blank := Reachable.init ⟨rfl, fun _ => rfl⟩
  exact start.tail ⟨.openFile 1, trivial, rfl⟩

/-- Strips with nothing but zeros. -/
def zeros : Nat → Nat → UInt8 := fun _ _ => 0

/-- A call whose token the client has returns exactly while its blocks fit in what is left of the half
    of the cache that can ever be fetched, and the servers give those that have to be fetched. -/
theorem held_returns_iff {w w' : World Peer} (start : w.Initial) {calls : List (Call Peer)}
    (ran : machine.run w calls = some w') {q : Peer} {filedes i : Nat} {file : ClientFile}
    (found : (w'.clients q).foundAt filedes = some i) (at_i : (w'.clients q).openedFiles[i]? = some file)
    (call : OffsetCall) (small : call.offset + call.nbyte < uint32Size)
    (held : hasPermission call.offset (call.offset + call.nbyte) call.write file.permissions = true)
    (stored : Nat → Nat → UInt8) (order : List Peer) :
    (w'.offsetCall stored q filedes order call).isSome = true ↔
      fetchedIn q w calls +
          (w'.clients q).cache.missing filedes (PFSClient.blocksOf (pieces call.offset call.nbyte)) ≤ blockCount / 2 ∧
        (w'.clients q).cache.Obtainable filedes (PFSClient.accepts file.stripWidth)
          (PFSClient.blocksOf (pieces call.offset call.nbyte)) := by
  obtain ⟨after, -, left⟩ := (Stocked.initial start).run ran q
  have first : (w.clients q).cache.freeBlockSemaphore = blockCount := by
    rw [start.2 q]
    rfl
  have large : blockCount = 2048 := rfl
  have units : 2 * (w'.clients q).cache.missing filedes (PFSClient.blocksOf (pieces call.offset call.nbyte)) ≤
      (w'.clients q).cache.freeBlockSemaphore ↔ fetchedIn q w calls +
        (w'.clients q).cache.missing filedes (PFSClient.blocksOf (pieces call.offset call.nbyte)) ≤ blockCount / 2 := by
    omega
  rw [offsetCall_returns after found at_i small (fun lacks => absurd (held.symm.trans lacks) Bool.noConfusion) stored, ← units]
  constructor
  · intro completes
    exact ⟨completes.room, completes.served⟩
  · rintro ⟨room, served⟩
    exact ⟨.inl held, room, served⟩

theorem held_returns_iff_writer : ∃ w' : World Nat, machine.run blank [.openFile 1, .writeFile 1 1 0 2 (fun _ => 7) []] =
    some w' ∧ (w'.offsetCall zeros 1 1 [] (.readFile 5 2000)).isSome = true := by
  obtain ⟨w', ran, found, files, few, served⟩ : ∃ w' : World Nat,
      machine.run blank [.openFile 1, .writeFile 1 1 0 2 (fun _ => 7) []] = some w' ∧
      (w'.clients 1).foundAt 1 = some 0 ∧
      ((w'.clients 1).openedFiles[0]?.map fun file => (hasPermission 5 2005 false file.permissions, file.stripWidth)) =
        some (true, 1) ∧
      fetchedIn 1 blank [.openFile 1, .writeFile 1 1 0 2 (fun _ => 7) []] +
        (w'.clients 1).cache.missing 1 (PFSClient.blocksOf (pieces 5 2000)) ≤ blockCount / 2 ∧
      (w'.clients 1).cache.Obtainable 1 (PFSClient.accepts 1) (PFSClient.blocksOf (pieces 5 2000)) :=
    ⟨_, rfl, rfl, rfl, by decide +kernel, by decide +kernel⟩
  obtain ⟨file, at_i, same⟩ := Option.map_eq_some_iff.mp files
  obtain ⟨held, width⟩ := Prod.mk.inj same
  have returns := (held_returns_iff ⟨rfl, fun _ => rfl⟩ ran found at_i (.readFile 5 2000) (by decide) held zeros []).mpr
    ⟨few, by rw [width]; exact served⟩
  exact ⟨w', ran, returns⟩

/-- In a state reached with ranges that end at or before `INT_MAX`, a call fails, or it returns
    having run under tokens for its bytes and used their places, exactly if the file is not open,
    or the call can be completed and ends at or before `INT_MAX`, or before 2^32 while another
    client holds a token. -/
theorem faithful_iff {w : World Peer} (reach : Reachable Initial machine.Step w) {peer : Peer} {filedes : Nat}
    {call : OffsetCall} (nonempty : 1 ≤ call.nbyte) {order : List Peer}
    (arrive : order.Perm (w.manager.conflicting peer (call.offset % uint32Size)
      ((call.offset + call.nbyte) % uint32Size) call.write)) (stored : Nat → Nat → UInt8) :
    (∃ w' outcome, w.offsetCall stored peer filedes order call = some (w', outcome) ∧
        (outcome.code < 0 ∨ outcome.Faithful call)) ↔
      (w.clients peer).foundAt filedes = none ∨ ∃ i file, (w.clients peer).foundAt filedes = some i ∧
        (w.clients peer).openedFiles[i]? = some file ∧ w.Completes peer filedes file call ∧
          (call.offset + call.nbyte ≤ intMax ∨
            call.offset + call.nbyte < uint32Size ∧ ∃ q, q ≠ peer ∧ w.manager.tokens q ≠ []) := by
  have stocked : w.Stocked := reach.invariant Stocked (fun _ => Stocked.initial) (fun _ _ h => h.step)
  have small : w.Small := reach.invariant Small (fun _ => initial_small) (fun _ _ h => h.step)
  constructor
  · rintro ⟨w', outcome, returned, right⟩
    obtain ⟨w₁, acquired, acquiring, ⟨rfl, -⟩ | ⟨i, file₁, rfl, at_i₁, code, tokens, -⟩⟩ := offsetCall_cases returned
    · exact .inl (acquirePermission_refused stocked.agree acquiring)
    · obtain ⟨found, l, bounded, held⟩ := acquirePermission_tokens stocked.agree small acquiring at_i₁
      obtain ⟨file, at_i⟩ := PFSClient.foundAt_getElem found
      have faithful : outcome.Faithful call := right.resolve_left (by omega)
      have bounds : call.offset + call.nbyte ≤ intMax ∨
          call.offset + call.nbyte < uint32Size ∧ ∃ q, q ≠ peer ∧ w.manager.tokens q ≠ [] := by
        refine or_iff_not_imp_left.mpr fun large => ?_
        have granted := faithful.covered (call.offset + call.nbyte - 1) (by omega) (by omega)
        rw [tokens] at granted
        obtain ⟨reaches, others⟩ := held.reaches bounded (by omega) granted
        have below : (call.offset + call.nbyte) % uint32Size < uint32Size := Nat.mod_lt _ (by decide)
        exact ⟨by omega, others⟩
      have below : call.offset + call.nbyte < uint32Size := by
        rcases bounds with low | ⟨below, -⟩
        · exact low.trans_lt (by decide)
        · exact below
      rw [Nat.mod_eq_of_lt ((Nat.le_add_right _ _).trans_lt below), Nat.mod_eq_of_lt below] at arrive
      have completes := (offsetCall_returns stocked found at_i below (fun _ => arrive) stored).mp
        (by rw [returned, Option.isSome_some])
      exact .inr ⟨i, file, found, at_i, completes, bounds⟩
  · rintro (missing | ⟨i, file, found, at_i, completes, bounds⟩)
    · refine ⟨w, w.refusal peer filedes, ?_, .inl ?_⟩
      · simp only [offsetCall, acquirePermission, missing, Option.bind_eq_bind, Option.bind_some]
      · rw [refusal, missing]
        decide
    · obtain ⟨below, fits⟩ : call.offset + call.nbyte < uint32Size ∧
          (call.offset + call.nbyte ≤ intMax ∨ ∃ q, q ≠ peer ∧ w.manager.tokens q ≠ []) := by
        rcases bounds with low | ⟨below, others⟩
        · exact ⟨low.trans_lt (by decide), .inl low⟩
        · exact ⟨below, .inr others⟩
      have start : call.offset % uint32Size = call.offset := Nat.mod_eq_of_lt ((Nat.le_add_right _ _).trans_lt below)
      have stop : (call.offset + call.nbyte) % uint32Size = call.offset + call.nbyte := Nat.mod_eq_of_lt below
      rw [start, stop] at arrive
      obtain ⟨⟨w', outcome⟩, returned⟩ := Option.isSome_iff_exists.mp
        ((offsetCall_returns stocked found at_i below (fun _ => arrive) stored).mpr completes)
      refine ⟨w', outcome, returned, .inr ?_⟩
      obtain ⟨w₁, acquired, acquiring, ⟨rfl, -⟩ | ⟨j, file₁, rfl, at_i₁, code, tokens, accesses⟩⟩ := offsetCall_cases returned
      · rw [acquirePermission_refused stocked.agree acquiring] at found
        cases found
      · obtain ⟨-, l, bounded, held⟩ := acquirePermission_tokens stocked.agree small acquiring at_i₁
        rw [start, stop] at held
        refine ⟨code, fun b low high => ?_, ?_⟩
        · rw [tokens]
          exact held.covers bounded fits low high
        · rw [accesses]
          exact served_own (Nat.le_of_lt below)

theorem faithful_iff_stored : ∃ w' outcome,
    opened.offsetCall zeros 1 1 [] (.writeFile 100 3 fun _ => 7) = some (w', outcome) ∧
      (outcome.code < 0 ∨ outcome.Faithful (.writeFile 100 3 fun _ => 7)) := by
  refine (faithful_iff opened_reachable (by decide) .nil zeros).mpr ?_
  refine .inr ⟨0, _, rfl, rfl, ⟨.inr ⟨?_, ?_⟩, ?_, ?_⟩, .inl ?_⟩
  · intro q member
    cases member
  · rintro ⟨⟩
  · decide +kernel
  · decide +kernel
  · decide

/-- It writes a byte at offset 2^32, and reads the byte at offset 0. -/
def far : World Nat × Outcome := (opened.offsetCall zeros 1 1 [] (.writeFile (2 ^ 32) 1 fun _ => 7)).get rfl

def near : World Nat × Outcome := (far.1.offsetCall zeros 1 1 [] (.readFile 0 1)).get rfl

/-- The byte written at 2^32 is the one read at 0, without a token for it; a write of the byte
    at `INT_MAX` does not return. -/
theorem far_aliases : Reachable Initial machine.Step opened ∧
    (far.2.code = 1 ∧ served far.2.accesses = [(0, 0)] ∧ ¬ Grants far.2.tokens true (2 ^ 32)) ∧
    (near.2.code = 1 ∧ served near.2.accesses = [(0, 0)] ∧ near.2.data = [7]) ∧
    opened.offsetCall zeros 1 1 [] (.writeFile intMax 1 fun _ => 7) = none :=
  ⟨opened_reachable, ⟨rfl, rfl, by decide⟩, ⟨rfl, rfl, rfl⟩, rfl⟩

end World

end PFS
