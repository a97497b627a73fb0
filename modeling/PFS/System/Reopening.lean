import PFS.Lib.UpToDate
import PFS.System.Clients
import PFS.System.Session

/-! # Sessions in which files are closed and opened again

A client that closes the file writes back what it has, and the manager forgets its
tokens.  So a byte can be nobody's, and the next client that asks may be granted
the whole file, with whatever blocks it has.  As long as no grant meets a slip of
`addPermission` and none covers a stale copy, reads return what was written last,
also across closings; and the file servers have every latest byte once nobody has
the file open.
-/

namespace PFS

open Lib

variable {Peer : Type} [DecidableEq Peer]

/-- A request gives tokens to the client that asks, in the range it is granted. -/
theorem MMFile.cover_after {f f' : MMFile Peer} {peer q : Peer} {start stop b : Nat} {iswrite : Bool}
    {grant : Grant Peer} (asked : f.waitAndGetPermissionFor peer start stop iswrite = some (f', grant))
    (held : f'.cover q false b) : f.cover q false b ∨ (q = peer ∧ grant.start ≤ b ∧ b < grant.stop) := by
  obtain ⟨-, -, added, rest, -⟩ := waitAndGetPermissionFor_spec asked
  by_cases same : q = peer
  · subst same
    exact (addPermission_le added held).imp id fun granted => ⟨rfl, granted.1, granted.2.1⟩
  · rw [cover, rest q same] at held
    exact .inl (tokensAfter_le held)

/-- A peer leaves, and its tokens are forgotten. -/
theorem MMFile.Orderly.closed {f f' : MMFile Peer} (h : f.Orderly) {peer : Peer}
    (tokens : ∀ q, f'.tokens q = if q = peer then [] else f.tokens q) : f'.Orderly where
  ordered q := by
    rw [tokens]
    split
    · exact .nil
    · exact h.ordered q
  small q := by
    rw [tokens]
    split
    · exact .nil
    · exact h.small q
  exclusive p q distinct := by
    rw [tokens, tokens]
    split
    · intro b; simp
    · split
      · intro b; simp
      · exact h.exclusive p q distinct

namespace World

variable {w w' : World Peer} {latest : Nat → Option UInt8}

/-- A call that needs no grant, or one whose grant covers no stale copies but those
    it writes itself. -/
def FreshGrant (w : World Peer) (latest : Nat → Option UInt8) (peer : Peer) (filedes start stop : Nat) (write : Bool) :
    Prop :=
  w.holds peer filedes start stop write = true ∨
    ∀ b < (w.manager.grantRange peer start stop write).2, (w.manager.grantRange peer start stop write).1 ≤ b →
      w.stale latest peer b → write = true ∧ start ≤ b ∧ b < stop

instance (w : World Peer) (latest : Nat → Option UInt8) (peer : Peer) (filedes start stop : Nat) (write : Bool) :
    Decidable (w.FreshGrant latest peer filedes start stop write) :=
  inferInstanceAs (Decidable (_ ∨ ∀ b < _, _))

/-- Nothing written has a copy at the client. -/
theorem FreshGrant.of_nothing {peer : Peer} (nothing : ∀ b, latest b = none ∨ (w.clients peer).copies b = none)
    (filedes start stop : Nat) (write : Bool) : w.FreshGrant latest peer filedes start stop write := by
  refine .inr fun b _ _ isStale => ?_
  obtain ⟨written, -, copy⟩ := isStale
  rcases nothing b with none | none
  · rw [none] at written
    cases written
  · rw [none] at copy
    cases copy

/-! ## Getting a token -/

/-- The caller drops the stale copies in `T`; `w'` is the system after the revocations
    of the request. -/
theorem served_upToDate (h : w.Steady) {peer : Peer} {start stop : Nat} {write : Bool} {order : List Peer}
    {manager : MMFile Peer} {grant : Grant Peer} (range : start ≤ stop) (smallStop : stop ≤ intMax)
    (clean : GrantClean (w.manager.tokens peer) (w.manager.grantRange peer start stop write).1
      (w.manager.grantRange peer start stop write).2 write)
    (asked : w.manager.waitAndGetPermissionFor peer start stop write = some (manager, grant))
    (perm : order.Perm grant.revoked) (revoked : revokeAll start stop order { w with manager := manager } = some w')
    (upToDate : (w.replicas w.manager.cover latest).UpToDate) {T : Set Nat}
    (fresh : ∀ b, grant.start ≤ b → b < grant.stop → w.stale latest peer b → b ∈ T) :
    ((w'.replicas manager.cover latest).evict peer T).UpToDate := by
  obtain ⟨evicted, own, gone⟩ := served_evicted h asked perm revoked
  have before := (evicted.closed Replicas.UpToDate _ _ (fun s p A h => h.evict p A) upToDate).evict peer T
  refine before.move (h.orderly.moves (s := (w'.replicas w.manager.cover latest).evict peer T)
    range smallStop clean asked rfl ?_) ?_
  · intro q inside b low
    have other : q ≠ peer := (MMFile.mem_conflicting.mp inside).1
    simp only [Replicas.evict, replicas, Function.update_of_ne other]
    exact gone q inside b low
  · intro q b x c held written copy
    rcases MMFile.cover_after asked held with before | ⟨rfl, low, high⟩
    · exact .inl before
    · simp only [Replicas.evict, replicas, Function.update_self, own] at copy
      obtain ⟨outside, copy⟩ := Copies.drop_eq_some.mp copy
      by_cases readable : w.manager.cover q false b
      · exact .inl readable
      · have written : latest b = some x := written
        refine (outside (fresh b low high ⟨?_, readable, ?_⟩)).elim
        · rw [written]; rfl
        · rw [copy]; rfl

theorem acquirePermission_upToDate (h : w.Steady) {peer : Peer} {filedes start stop i : Nat} {write : Bool}
    {order : List Peer} (range : start ≤ stop) (smallStop : stop ≤ intMax)
    (clean : w.CleanGrant peer filedes start stop write) (fresh : w.FreshGrant latest peer filedes start stop write)
    (done : w.acquirePermission peer filedes start stop write order = some (w', some i))
    (upToDate : (w.replicas w.manager.cover latest).UpToDate) :
    ((w'.replicas w'.manager.cover latest).evict peer
      {b | write = true ∧ b ∈ bytesIn start stop ∧ ¬ w.manager.cover peer false b}).UpToDate := by
  have got := acquirePermission_acquired h range smallStop clean done
  rcases acquirePermission_cases done with ⟨missing, -⟩ | ⟨j, file, result, found, at_j, fast | slow⟩
  · cases missing
  · obtain ⟨-, rfl⟩ := fast
    exact upToDate.evict peer _
  · obtain ⟨misses, manager, grant, w₂, file₂, permissions, asked, perm, revoked, -, -, rfl⟩ := slow
    have slowPath : ¬ w.holds peer filedes start stop write = true := by
      simp only [holds, found, at_j, Option.any_some, misses]
      exact Bool.false_ne_true
    have managerSame : w₂.manager = manager := (served_agrees h.agree asked perm revoked).1
    obtain ⟨-, own, -⟩ := served_evicted h asked perm revoked
    obtain ⟨granted, -⟩ := MMFile.waitAndGetPermissionFor_spec asked
    have fresh := fresh.resolve_left slowPath
    rw [granted] at fresh
    have copies := got.copies
    rw [setClient_self, ← own] at copies
    rw [replicas_same copies]
    simp only [setClient, managerSame]
    refine served_upToDate h range smallStop (clean.resolve_left slowPath) asked perm revoked upToDate ?_
    intro b low high isStale
    obtain ⟨writes, inside⟩ := fresh b high low isStale
    exact ⟨writes, inside, isStale.2.1⟩

/-! ## The calls -/

theorem readFile_upToDate (h : w.Steady) {peer : Peer} {filedes offset nbyte : Nat} {order : List Peer}
    {result : Option (Nat → UInt8)} (smallStop : offset + nbyte ≤ intMax)
    (clean : w.CleanGrant peer filedes offset (offset + nbyte) false)
    (fresh : w.FreshGrant latest peer filedes offset (offset + nbyte) false)
    (done : w.readFile peer filedes offset nbyte order = some (w', result))
    (upToDate : (w.replicas w.manager.cover latest).UpToDate) :
    (w'.replicas w'.manager.cover latest).UpToDate ∧
      ∀ buffer, result = some buffer → ∀ k x, k < nbyte → latest (offset + k) = some x → buffer k = x := by
  obtain ⟨w₂, acquired, acquiring, ⟨rfl, rfl, rfl⟩ | ⟨i, c, buffer, rfl, read, rfl, rfl⟩⟩ := readFile_cases done
  · obtain rfl := acquirePermission_none acquiring
    refine ⟨upToDate, fun buffer nothing => ?_⟩
    cases nothing
  · have range : offset ≤ offset + nbyte := Nat.le_add_right _ _
    have got := acquirePermission_acquired h range smallStop clean acquiring
    obtain ⟨-, ⟨A, loaded⟩, values⟩ := PFSClient.readBytes_copies (got.steady.agree peer) (got.steady.sound peer)
      got.found read
    have acquired := acquirePermission_upToDate h range smallStop clean fresh acquiring upToDate
    have nothing : {b | false = true ∧ b ∈ bytesIn offset (offset + nbyte) ∧ ¬ w.manager.cover peer false b} =
        (∅ : Set Nat) := by
      ext b
      simp
    rw [nothing, Replicas.evict_empty] at acquired
    have step : (w₂.setClient peer c).replicas w₂.manager.cover latest =
        (w₂.replicas w₂.manager.cover latest).load peer A := by
      rw [show w₂.setClient peer c = setClient { w₂ with bytes := w₂.bytes } peer c from rfl, replicas_setClient, loaded]
      rfl
    have after := acquired.load peer A
    rw [← step] at after
    refine ⟨after, ?_⟩
    intro buffer' same k x inside written
    obtain rfl := Option.some.inj same
    have here : offset + k ∈ bytesIn offset (offset + nbyte) := ⟨by omega, by omega⟩
    obtain ⟨d, copy⟩ := values _ here
    refine after.current peer (offset + k) x (buffer (offset + k), d) (got.covered _ here) written ?_
    simp only [replicas, setClient_self]
    exact copy

theorem writeFile_upToDate (h : w.Steady) {peer : Peer} {filedes offset nbyte : Nat} {data : Nat → UInt8}
    {order : List Peer} {wrote : Bool} (smallStop : offset + nbyte ≤ intMax)
    (clean : w.CleanGrant peer filedes offset (offset + nbyte) true)
    (fresh : w.FreshGrant latest peer filedes offset (offset + nbyte) true)
    (done : w.writeFile peer filedes offset nbyte data order = some (w', wrote))
    (upToDate : (w.replicas w.manager.cover latest).UpToDate) :
    (w'.replicas w'.manager.cover (latestAfter latest offset nbyte data wrote)).UpToDate := by
  obtain ⟨w₂, acquired, acquiring, ⟨rfl, rfl, rfl⟩ | ⟨i, c, rfl, written, rfl, rfl⟩⟩ := writeFile_cases done
  · obtain rfl := acquirePermission_none acquiring
    have same : latestAfter latest offset nbyte data false = latest := by
      funext b
      simp [latestAfter]
    rw [same]
    exact upToDate
  · have range : offset ≤ offset + nbyte := Nat.le_add_right _ _
    have got := acquirePermission_acquired h range smallStop clean acquiring
    obtain ⟨-, A, stored⟩ := PFSClient.writeBytes_copies (got.steady.agree peer) (got.steady.sound peer)
      got.found written
    have step : (w₂.setClient peer c).replicas w₂.manager.cover (latestAfter latest offset nbyte data true) =
        ((w₂.replicas w₂.manager.cover latest).load peer A).put peer (bytesIn offset (offset + nbyte))
          (fun b => data (b - offset)) := by
      rw [show w₂.setClient peer c = setClient { w₂ with bytes := w₂.bytes } peer c from rfl, replicas_setClient,
        stored]
      simp only [Replicas.put, Replicas.load, Function.update_self, Function.update_idem, replicas]
      congr 1
      funext b
      simp only [latestAfter, true_and, mem_bytesIn]
    have acquired := acquirePermission_upToDate h range smallStop clean fresh acquiring upToDate
    have after := (acquired.load peer A).put (A := bytesIn offset (offset + nbyte)) (fun b => data (b - offset)) got.covered
    rw [Replicas.evict_load_put (fun b inside => inside.2.1), ← step] at after
    · exact after
    · rintro b ⟨-, -, uncovered⟩ dirty
      simp only [replicas, got.copies] at dirty
      exact uncovered (upToDate.readable peer b (upToDate.guarded peer b dirty))

omit [DecidableEq Peer] in
/-- The copies of a client are in blocks of its tokens. -/
theorem Tidy.drop_tokens (tidy : w.Tidy) {q : Peer} {file : ClientFile} (files : (w.clients q).openedFiles = [file]) :
    (w.clients q).copies.drop (bytesOf (PFSClient.tokenBlocks file.permissions)) = fun _ => none := by
  funext b
  rw [Copies.drop]
  split
  · rfl
  · next outside =>
      rw [PFSClient.copies_single files, Cache.byte, Option.map_eq_none_iff]
      cases cached : (w.clients q).cache.find file.descriptor (blockOf b) with
      | none => rfl
      | some block =>
          obtain ⟨other, member, -, b', here, granted⟩ := (tidy q).held file.descriptor (blockOf b) (by
            simp only [client, cached, Option.isSome_some])
          have is : other ∈ (w.clients q).openedFiles := member
          rw [files, List.mem_singleton] at is
          subst is
          refine (outside ?_).elim
          rw [bytesOf, Set.mem_ofPred_eq, ← here]
          exact PFSClient.mem_tokenBlocks granted

/-- A closing writes back everything and gives up the tokens. -/
theorem closeFile_replicas (h : w.Steady) (tidy : w.Tidy) {peer : Peer} {filedes now : Nat}
    (done : w.closeFile peer filedes now = some w') :
    (∀ q, w'.manager.tokens q = if q = peer then [] else w.manager.tokens q) ∧ ∃ A,
      (∀ b, (w.clients peer).copies.drop A b = none) ∧ ∀ latest, w'.replicas w'.manager.cover latest =
        ((w.replicas w.manager.cover latest).evict peer A).move w'.manager.cover := by
  obtain ⟨i, file, cache, bytes, m, at_i, evicted, -, table, rfl⟩ := closeFile_cases done
  obtain ⟨rfl, files, isOpen, -⟩ := (h.agree peer).at at_i
  have closes : (m.close peer).2 = true := by
    rw [MMFile.close, MMFile.isOpenedBy, table]
    exact congrArg Prod.snd (if_pos isOpen)
  have gone := tidy.drop_tokens files
  rw [PFSClient.evictTokens_eq] at evicted
  obtain ⟨-, -, stored⟩ := PFSClient.evictBlocks_bytes ((h.sound peer).single files) evicted
  refine ⟨?_, _, congrFun gone, ?_⟩
  · intro q
    simp only [setClient, MMFile.tokens_close]
    rw [MMFile.tokens, table, MMFile.tokens]
  · intro latest
    refine (replicas_setClient { w with manager := (m.close peer).1 } peer _ bytes).trans ?_
    rw [PFSClient.copies_closed (by rw [closes, files]; rfl)]
    rw [← PFSClient.copies_single files] at stored
    simp only [Replicas.move, Replicas.evict, replicas, gone, stored]

/-- What a client does not hold any more it need not hold: it has no copies. -/
theorem closeFile_upToDate (h : w.Steady) (tidy : w.Tidy) {peer : Peer} {filedes now : Nat}
    (done : w.closeFile peer filedes now = some w') (upToDate : (w.replicas w.manager.cover latest).UpToDate) :
    (w'.replicas w'.manager.cover latest).UpToDate := by
  obtain ⟨tokens, A, gone, replicas'⟩ := closeFile_replicas h tidy done
  have fewer : ∀ q m b, w'.manager.cover q m b → w.manager.cover q m b := by
    intro q m b held
    rw [MMFile.cover, tokens] at held
    split at held
    · exact (Grants.nil held).elim
    · exact held
  rw [replicas']
  refine (upToDate.evict peer A).lose fewer (fun _ _ held => held.read) fun q b dirty held => ?_
  by_cases same : q = peer
  · subst same
    obtain ⟨x, copy⟩ := dirty
    simp only [Replicas.evict, replicas, Function.update_self, gone] at copy
    cases copy
  · rw [MMFile.cover, tokens, if_neg same]
    exact held

/-- A client can close its file: the flushes find it. -/
theorem closeFile_answers (tidy : w.Tidy) {peer : Peer} {file : ClientFile}
    (files : (w.clients peer).openedFiles = [file]) (now : Nat) : ∃ w', w.closeFile peer file.descriptor now = some w' := by
  have member : file ∈ (w.client peer).client.openedFiles := by
    rw [client, files]
    exact List.mem_singleton_self file
  obtain ⟨cache, bytes, evicted, -⟩ := (tidy peer).emptied member
  have index : (w.clients peer).foundAt file.descriptor = some 0 := by
    simp [PFSClient.foundAt, files]
  have at_0 : (w.clients peer).openedFiles[0]? = some file := by
    rw [files]
    rfl
  simp only [client] at evicted
  simp only [closeFile, index, if_true, at_0, evicted, Option.bind_eq_bind, Option.bind_some]
  split
  · exact ⟨_, rfl⟩
  · exact ⟨_, rfl⟩

theorem closeFile_opened {peer : Peer} {filedes now : Nat} (done : w.closeFile peer filedes now = some w')
    (q : Peer) : w'.manager.isOpenedBy q = (w.manager.isOpenedBy q && !decide (q = peer)) := by
  obtain ⟨i, file, cache, bytes, m, at_i, evicted, -, table, rfl⟩ := closeFile_cases done
  simp only [setClient, MMFile.isOpenedBy_close]
  rw [MMFile.isOpenedBy, table, MMFile.isOpenedBy]

theorem closeFile_steady (h : w.Steady) (tidy : w.Tidy) {peer : Peer} {filedes now : Nat}
    (done : w.closeFile peer filedes now = some w') : w'.Steady := by
  obtain ⟨tokens, -⟩ := closeFile_replicas h tidy done
  have after : w'.Tidy := tidy.exec h (.closeFile peer filedes now) trivial trivial done
  exact ⟨closeFile_agree h.agree done, fun q => (after q).sound, h.orderly.closed tokens⟩

end World

namespace Session

open World (Call)

variable {s s' : Session Peer}

/-- The grant a call needs, if it needs one, covers no stale copies. -/
def FreshCall (s : Session Peer) : Call Peer → Prop
  | .readFile peer filedes offset nbyte _ => s.world.FreshGrant s.latest peer filedes offset (offset + nbyte) false
  | .writeFile peer filedes offset nbyte _ _ => s.world.FreshGrant s.latest peer filedes offset (offset + nbyte) true
  | _ => True

instance (s : Session Peer) : (call : Call Peer) → Decidable (s.FreshCall call)
  | .readFile _ _ _ _ _ => inferInstanceAs (Decidable (World.FreshGrant _ _ _ _ _ _ _))
  | .writeFile _ _ _ _ _ _ => inferInstanceAs (Decidable (World.FreshGrant _ _ _ _ _ _ _))
  | .openFile _ | .closeFile _ _ _ | .flush _ | .harvest _ => isTrue trivial

/-- Sessions with closings, without slips and stale copies. -/
def reopening : Machine (Session Peer) (Call Peer) :=
  ⟨fun s call => World.machine.allowed s.world call ∧ s.world.CleanCall call ∧ s.FreshCall call, exec⟩

/-- The invariant of these sessions. -/
structure Settled (s : Session Peer) : Prop where
  steady : s.world.Steady
  tidy : s.world.Tidy
  upToDate : (s.world.replicas s.world.manager.cover s.latest).UpToDate

theorem initial_settled (h : s.Initial) : s.Settled where
  steady := World.initial_steady h.1
  tidy := World.initial_tidy h.1
  upToDate := by
    have coherent := (initial_inv h).coherent
    exact ⟨coherent.toGuarded, coherent.current, coherent.stored⟩

/-- A call of the session is one of the system. -/
theorem exec_world {call : Call Peer} (done : s.exec call = some s') : s.world.exec call = some s'.world := by
  cases call with
  | writeFile peer filedes offset nbyte data order =>
      obtain ⟨⟨w, wrote⟩, written, rfl⟩ := Option.map_eq_some_iff.mp done
      exact Option.map_eq_some_iff.mpr ⟨_, written, rfl⟩
  | openFile peer =>
      obtain rfl := Option.some.inj done
      rfl
  | readFile | closeFile | flush | harvest =>
      obtain ⟨w, ran, rfl⟩ := Option.map_eq_some_iff.mp done
      exact ran

theorem step_settled (h : s.Settled) (step : reopening.Step s s') : s'.Settled := by
  obtain ⟨call, ⟨range, clean, fresh⟩, ran⟩ := step
  have tidy := h.tidy.exec h.steady _ range clean (exec_world ran)
  cases call with
  | openFile peer =>
      obtain rfl := Option.some.inj ran
      obtain ⟨keeps, same⟩ := World.openFile_keeps h.steady peer
      refine ⟨keeps.steady, tidy, ?_⟩
      simp only [same]
      exact h.upToDate
  | readFile peer filedes offset nbyte order =>
      obtain ⟨w, inWorld, rfl⟩ := Option.map_eq_some_iff.mp ran
      obtain ⟨⟨_, result⟩, done, rfl⟩ := Option.map_eq_some_iff.mp inWorld
      obtain ⟨keeps, -⟩ := World.readFile_keeps h.steady range.2 clean done
      exact ⟨keeps.steady, tidy, (World.readFile_upToDate h.steady range.2 clean fresh done h.upToDate).1⟩
  | writeFile peer filedes offset nbyte data order =>
      obtain ⟨⟨w, wrote⟩, done, rfl⟩ := Option.map_eq_some_iff.mp ran
      obtain ⟨keeps, -⟩ := World.writeFile_keeps h.steady range.2 clean done
      exact ⟨keeps.steady, tidy, World.writeFile_upToDate h.steady range.2 clean fresh done h.upToDate⟩
  | closeFile peer filedes now =>
      obtain ⟨w, done, rfl⟩ := Option.map_eq_some_iff.mp ran
      exact ⟨World.closeFile_steady h.steady h.tidy done, tidy,
        World.closeFile_upToDate h.steady h.tidy done h.upToDate⟩
  | flush peer =>
      obtain ⟨w, done, rfl⟩ := Option.map_eq_some_iff.mp ran
      obtain ⟨keeps, A, same⟩ := World.flush_keeps h.steady done
      refine ⟨keeps.steady, tidy, ?_⟩
      simp only [same]
      exact h.upToDate.clean peer A
  | harvest peer =>
      obtain ⟨w, done, rfl⟩ := Option.map_eq_some_iff.mp ran
      obtain ⟨keeps, A, same⟩ := World.harvest_keeps h.steady done
      refine ⟨keeps.steady, tidy, ?_⟩
      simp only [same]
      exact h.upToDate.evict peer A

theorem reachable_settled (reach : Reachable Initial reopening.Step s) : s.Settled :=
  reach.invariant Settled (fun _ => initial_settled) (fun _ _ => step_settled)

/-- Once nobody has the file open, the file servers have what was written. -/
theorem Settled.at_rest (h : s.Settled) (closed : ∀ q, s.world.manager.isOpenedBy q = false) {b : Nat} {x : UInt8}
    (written : s.latest b = some x) : s.world.bytes b = x := by
  refine h.upToDate.at_rest (fun q held => ?_) written
  have empty : s.world.manager.tokens q = [] :=
    MMFile.tokens_of_absent (by simpa [MMFile.isOpenedBy] using closed q)
  simp only [World.replicas, MMFile.cover, empty] at held
  exact Grants.nil held

theorem reachable_closeFile (reach : Reachable Initial reopening.Step s) {peer : Peer} {filedes now : Nat}
    {w : World Peer} (closes : s.world.closeFile peer filedes now = some w) :
    Reachable Initial reopening.Step { s with world := w } :=
  reach.tail ⟨.closeFile peer filedes now, ⟨trivial, trivial, trivial⟩, Option.map_eq_some_iff.mpr ⟨w, closes, rfl⟩⟩

/-- Also in sessions in which clients close the file and open it again, as long as
    the grants meet no slip of `addPermission` and cover no stale copies, a read
    returns, for every byte that has been written, the byte of the latest
    `writeFile`. -/
theorem reopening_read (reach : Reachable Initial reopening.Step s) {peer : Peer} {filedes offset nbyte : Nat}
    {order : List Peer} {w : World Peer} {buffer : Nat → UInt8}
    (allowed : reopening.allowed s (.readFile peer filedes offset nbyte order))
    (read : s.world.readFile peer filedes offset nbyte order = some (w, some buffer)) {k : Nat} {x : UInt8}
    (inside : k < nbyte) (written : s.latest (offset + k) = some x) : buffer k = x := by
  have inv := reachable_settled reach
  obtain ⟨range, clean, fresh⟩ := allowed
  obtain ⟨-, reads⟩ := World.readFile_upToDate inv.steady range.2 clean fresh read inv.upToDate
  exact reads buffer rfl k x inside written

/-- Client 2 reads; client 1 writes two bytes, for which client 2 gives up these, and
    closes the file. -/
def reopened : Option (Session Nat) :=
  (exec ⟨World.blank, fun _ => none⟩ (.openFile 1)).bind fun s => (s.exec (.openFile 2)).bind fun s =>
    (s.exec (.readFile 2 1 5000 1 [])).bind fun s => (s.exec (.writeFile 1 1 0 2 (fun _ => 7) [2])).bind fun s =>
      s.exec (.closeFile 1 1 0)

theorem reopening_read_reopened : ∃ w buffer,
    (reopened.get rfl).world.readFile 2 1 0 2 [] = some (w, some buffer) ∧ buffer 1 = 7 := by
  have start : Reachable Initial reopening.Step ⟨World.blank, fun _ => none⟩ :=
    Reachable.init ⟨⟨rfl, fun _ => rfl⟩, rfl⟩
  have opened₁ := start.tail ⟨.openFile 1, ⟨trivial, trivial, trivial⟩, rfl⟩
  have opened₂ := opened₁.tail ⟨.openFile 2, ⟨trivial, trivial, trivial⟩, rfl⟩
  have read := opened₂.tail ⟨.readFile 2 1 5000 1 [], ⟨by decide, by decide, World.FreshGrant.of_nothing
    (fun _ => .inl rfl) _ _ _ _⟩, rfl⟩
  have written := read.tail ⟨.writeFile 1 1 0 2 (fun _ => 7) [2], ⟨by decide, by decide, World.FreshGrant.of_nothing
    (fun _ => .inl rfl) _ _ _ _⟩, rfl⟩
  have reach : Reachable Initial reopening.Step (reopened.get rfl) :=
    written.tail ⟨.closeFile 1 1 0, ⟨trivial, trivial, trivial⟩, rfl⟩
  have fresh : (reopened.get rfl).world.FreshGrant (reopened.get rfl).latest 2 1 0 2 false := by
    refine World.FreshGrant.of_nothing (fun b => ?_) _ _ _ _
    match b with
    | 0 => exact .inr rfl
    | 1 => exact .inr rfl
    | _ + 2 => exact .inl rfl
  have allowed : reopening.allowed (reopened.get rfl) (.readFile 2 1 0 2 []) := ⟨by decide, by decide, fresh⟩
  obtain ⟨w, buffer, read⟩ : ∃ w buffer, (reopened.get rfl).world.readFile 2 1 0 2 [] = some (w, some buffer) :=
    ⟨_, _, rfl⟩
  exact ⟨w, buffer, read, reopening_read reach allowed read (by decide) rfl⟩

/-- Once nobody has the file open, the file servers have every latest byte, and no
    client has a copy. -/
theorem reopening_at_rest (reach : Reachable Initial reopening.Step s)
    (closed : ∀ q, s.world.manager.isOpenedBy q = false) :
    (∀ b x, s.latest b = some x → s.world.bytes b = x) ∧
      ∀ q fileDes a, (s.world.clients q).cache.find fileDes a = none := by
  have inv := reachable_settled reach
  constructor
  · exact fun b x written => inv.at_rest closed written
  · intro q fileDes a
    rcases (inv.steady.agree q).cases with ⟨files, -⟩ | ⟨file, -, isOpen, -⟩
    · rw [Option.eq_none_iff_forall_ne_some]
      intro block found
      have known := (inv.steady.sound q).known _ _ _ found
      rw [files] at known
      cases known
    · rw [closed q] at isOpen
      cases isOpen

/-- Client 1 writes two bytes. -/
def writtenOnce : Option (Session Nat) :=
  (exec ⟨World.blank, fun _ => none⟩ (.openFile 1)).bind fun s => s.exec (.writeFile 1 1 0 2 (fun _ => 7) [])

/-- It closes the file, and the file servers have the bytes. -/
theorem reopening_at_rest_writtenOnce : ∃ s : Session Nat, Reachable Initial reopening.Step s ∧
    (writtenOnce.get rfl).world.closeFile 1 1 0 = some s.world ∧ s.world.bytes 1 = 7 := by
  have start : Reachable Initial reopening.Step ⟨World.blank, fun _ => none⟩ :=
    Reachable.init ⟨⟨rfl, fun _ => rfl⟩, rfl⟩
  have opened := start.tail ⟨.openFile 1, ⟨trivial, trivial, trivial⟩, rfl⟩
  have written : Reachable Initial reopening.Step (writtenOnce.get rfl) :=
    opened.tail ⟨.writeFile 1 1 0 2 (fun _ => 7) [], ⟨by decide, by decide, World.FreshGrant.of_nothing
      (fun _ => .inl rfl) _ _ _ _⟩, rfl⟩
  obtain ⟨file, files, descriptor⟩ : ∃ file, ((writtenOnce.get rfl).world.clients 1).openedFiles = [file] ∧
      file.descriptor = 1 := ⟨_, rfl, rfl⟩
  obtain ⟨w, closes⟩ := World.closeFile_answers (reachable_settled written).tidy files 0
  rw [descriptor] at closes
  have reach := reachable_closeFile written closes
  have latest : (writtenOnce.get rfl).latest 1 = some 7 := rfl
  refine ⟨_, reach, closes, (reopening_at_rest reach fun q => ?_).1 1 7 latest⟩
  rw [World.closeFile_opened closes]
  by_cases same : q = 1
  · simp [same]
  · have keys : (writtenOnce.get rfl).world.manager.clientPermissions.keys = [1] := rfl
    have absent : q ∉ (writtenOnce.get rfl).world.manager.clientPermissions := by
      rw [AList.mem_keys, keys, List.mem_singleton]
      exact same
    rw [MMFile.isOpenedBy, AList.lookup_eq_none.mpr absent]
    rfl

end Session

end PFS
