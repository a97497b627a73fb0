import PFS.System.Copies

/-! # Tokens guard the caches

Calls of clients that share a file, one after the other.  As long as no grant
meets a slip of `addPermission`, every dirty byte is covered by a write token.
As long as, besides, no read is granted bytes of which the client has an old
copy, every read returns what was written last.
-/

namespace PFS

open Lib

variable {Peer : Type} [DecidableEq Peer]

namespace World

variable {w w' : World Peer} {cover : Peer → Bool → Nat → Prop} {latest : Nat → Option UInt8}

/-- The system as copies of a store. -/
def replicas (w : World Peer) (cover : Peer → Bool → Nat → Prop) (latest : Nat → Option UInt8) :
    Replicas Peer Nat UInt8 := ⟨cover, fun q => (w.clients q).copies, w.bytes, latest⟩

theorem replicas_setClient (w : World Peer) (peer : Peer) (c : PFSClient) (bytes : FileBytes) :
    (setClient { w with bytes := bytes } peer c).replicas cover latest =
      ⟨cover, Function.update (fun q => (w.clients q).copies) peer c.copies, bytes, latest⟩ := by
  have same : (fun q => ((setClient { w with bytes := bytes } peer c).clients q).copies) =
      Function.update (fun q => (w.clients q).copies) peer c.copies := by
    funext q
    by_cases same : q = peer
    · subst same
      simp only [setClient, Function.update_self]
    · simp only [setClient, Function.update_of_ne same]
  rw [replicas, same]
  rfl

/-- A client changes nothing about its copies. -/
theorem replicas_same {peer : Peer} {c : PFSClient} (copies : c.copies = (w.clients peer).copies) :
    (w.setClient peer c).replicas cover latest = w.replicas cover latest := by
  have changed : (w.setClient peer c).replicas cover latest =
      ⟨cover, Function.update (fun q => (w.clients q).copies) peer c.copies, w.bytes, latest⟩ :=
    replicas_setClient w peer c w.bytes
  rw [changed, copies, Function.update_eq_self]
  rfl

/-- The tokens agree, the caches are sound and the manager's table is orderly. -/
structure Steady (w : World Peer) : Prop where
  agree : w.Agree
  sound : ∀ q, (w.clients q).Sound
  orderly : w.manager.Orderly

theorem sound_setClient {peer : Peer} {c : PFSClient} (sound : ∀ q, (w.clients q).Sound) (own : c.Sound) :
    ∀ q, ((w.setClient peer c).clients q).Sound := by
  intro q
  by_cases same : q = peer
  · subst same
    simp only [setClient, Function.update_self]
    exact own
  · simp only [setClient, Function.update_of_ne same]
    exact sound q

/-! ## Getting a token -/

/-- What the revocations of a request do to the caches. -/
structure Evicted (start stop : Nat) (order : List Peer) (w w' : World Peer) : Prop where
  sound : ∀ q, (w'.clients q).Sound
  spared : ∀ q, q ∉ order → w'.clients q = w.clients q
  gone : ∀ q ∈ order, ∀ b ∈ bytesIn start stop, (w'.clients q).copies b = none
  closed : ∀ (P : Replicas Peer Nat UInt8 → Prop) cover latest, (∀ s p A, P s → P (s.evict p A)) →
    P (w.replicas cover latest) → P (w'.replicas cover latest)

theorem revokeAll_evicted {start stop : Nat} {order : List Peer} (distinct : order.Nodup)
    (agrees : ∀ q, ∃ opened tokens, (w.clients q).Agrees w.manager.name opened tokens)
    (sound : ∀ q, (w.clients q).Sound) (done : revokeAll start stop order w = some w') :
    Evicted start stop order w w' := by
  induction order generalizing w with
  | nil =>
      obtain rfl := Option.some.inj done
      exact ⟨sound, fun _ _ => rfl, nofun, fun _ _ _ _ => id⟩
  | cons peer rest ih =>
      simp only [revokeAll, Option.bind_eq_bind] at done
      obtain ⟨⟨c, bytes⟩, revoked, done⟩ := Option.bind_eq_some_iff.mp done
      obtain ⟨absent, distinct⟩ := List.nodup_cons.mp distinct
      obtain ⟨opened, tokens, agree⟩ := agrees peer
      obtain ⟨soundAfter, copies, store⟩ := PFSClient.revokePermission_copies agree (sound peer) revoked
      have evicted := ih (w := setClient { w with bytes := bytes } peer c) distinct
        (by
          intro q
          by_cases same : q = peer
          · subst same
            simp only [setClient, Function.update_self]
            exact ⟨opened, _, agree.revoke revoked⟩
          · simp only [setClient, Function.update_of_ne same]
            exact agrees q)
        (sound_setClient (w := { w with bytes := bytes }) sound soundAfter) done
      refine ⟨evicted.sound, ?_, ?_, ?_⟩
      · intro q outside
        rw [List.mem_cons, not_or] at outside
        rw [evicted.spared q outside.2]
        simp only [setClient, Function.update_of_ne outside.1]
      · intro q member b inside
        rcases List.mem_cons.mp member with rfl | member
        · rw [evicted.spared q absent]
          simp only [setClient, Function.update_self]
          rw [copies, Copies.drop, if_pos (PFSClient.bytesIn_blocksFrom inside)]
        · exact evicted.gone q member b inside
      · intro P cover latest keeps before
        apply evicted.closed P cover latest keeps
        have step : (setClient { w with bytes := bytes } peer c).replicas cover latest =
            (w.replicas cover latest).evict peer (bytesOf (blocksFrom start stop)) := by
          rw [replicas_setClient, copies, store]
          rfl
        rw [step]
        exact keeps _ _ _ before

/-- The client finds the token in its own list. -/
def holds (w : World Peer) (peer : Peer) (filedes start stop : Nat) (write : Bool) : Bool :=
  match (w.clients peer).foundAt filedes with
  | none => false
  | some i => (w.clients peer).openedFiles[i]?.any fun file => hasPermission start stop write file.permissions

/-- A call that needs no grant, or one that meets no slip of `addPermission`. -/
def CleanGrant (w : World Peer) (peer : Peer) (filedes start stop : Nat) (write : Bool) : Prop :=
  w.holds peer filedes start stop write = true ∨
    GrantClean (w.manager.tokens peer) (w.manager.grantRange peer start stop write).1
      (w.manager.grantRange peer start stop write).2 write

instance (w : World Peer) (peer : Peer) (filedes start stop : Nat) (write : Bool) :
    Decidable (w.CleanGrant peer filedes start stop write) := inferInstanceAs (Decidable (_ ∨ _))

/-- What a client has when `acquirePermission` returns. -/
structure Acquired (w w' : World Peer) (peer : Peer) (filedes start stop : Nat) (write : Bool) (i : Nat) : Prop where
  steady : w'.Steady
  found : (w'.clients peer).foundAt filedes = some i
  covered : ∀ b ∈ bytesIn start stop, w'.manager.cover peer write b
  copies : (w'.clients peer).copies = (w.clients peer).copies
  guarded : ∀ latest, (w.replicas w.manager.cover latest).Guarded → (w'.replicas w'.manager.cover latest).Guarded
  coherent : ∀ latest, (w.replicas w.manager.cover latest).Coherent → ∀ T : Set Nat,
    (w.holds peer filedes start stop write = true ∨ ∀ b ∈ bytesIn start stop, ¬ w.manager.cover peer false b →
      (latest b).isSome → b ∈ T ∨ (w.clients peer).copies b = none) →
    ((w'.replicas w'.manager.cover latest).evict peer T).Coherent

/-- The peers that a request takes tokens from lose their copies, the caller keeps its own. -/
theorem served_evicted (h : w.Steady) {peer : Peer} {start stop : Nat} {write : Bool} {order : List Peer}
    {manager : MMFile Peer} {grant : Grant Peer}
    (asked : w.manager.waitAndGetPermissionFor peer start stop write = some (manager, grant))
    (perm : order.Perm grant.revoked) (revoked : revokeAll start stop order { w with manager := manager } = some w') :
    Evicted start stop order { w with manager := manager } w' ∧ w'.clients peer = w.clients peer ∧
      ∀ q ∈ w.manager.conflicting peer start stop write, ∀ b ∈ bytesIn start stop, (w'.clients q).copies b = none := by
  obtain ⟨-, conflicting, -⟩ := MMFile.waitAndGetPermissionFor_spec asked
  have named := MMFile.waitAndGetPermissionFor_name asked
  have member : ∀ q, q ∈ order ↔ q ∈ w.manager.conflicting peer start stop write := by
    intro q
    rw [perm.mem_iff, conflicting]
  have distinct : order.Nodup := by
    rw [perm.nodup_iff, conflicting]
    exact MMFile.conflicting_nodup _ _ _ _ _
  have evicted := revokeAll_evicted (w := { w with manager := manager }) distinct
    (fun q => ⟨_, _, by simp only [named]; exact h.agree q⟩) h.sound revoked
  refine ⟨evicted, evicted.spared peer fun inside => ?_, fun q inside => evicted.gone q ((member q).mpr inside)⟩
  exact (MMFile.mem_conflicting.mp ((member peer).mp inside)).1 rfl

/-- The caller drops the stale ones among the copies it is granted; `w'` is the system
    after the revocations of the request. -/
theorem served_coherent (h : w.Steady) {peer : Peer} {start stop : Nat} {write : Bool} {order : List Peer}
    {manager : MMFile Peer} {grant : Grant Peer} (range : start ≤ stop) (smallStop : stop ≤ intMax)
    (clean : GrantClean (w.manager.tokens peer) (w.manager.grantRange peer start stop write).1
      (w.manager.grantRange peer start stop write).2 write)
    (asked : w.manager.waitAndGetPermissionFor peer start stop write = some (manager, grant))
    (perm : order.Perm grant.revoked) (revoked : revokeAll start stop order { w with manager := manager } = some w')
    {latest : Nat → Option UInt8} (coherent : (w.replicas w.manager.cover latest).Coherent) {T : Set Nat}
    (fresh : ∀ b ∈ bytesIn start stop, ¬ w.manager.cover peer false b → (latest b).isSome →
      b ∈ T ∨ (w.clients peer).copies b = none) :
    ((w'.replicas manager.cover latest).evict peer T).Coherent := by
  obtain ⟨evicted, own, gone⟩ := served_evicted h asked perm revoked
  have coherent' := (evicted.closed Replicas.Coherent _ _ (fun s p A h => h.evict p A) coherent).evict peer T
  refine coherent'.move (h.orderly.movesFresh (s := (w'.replicas w.manager.cover latest).evict peer T)
    range smallStop clean asked rfl ?_ coherent' ?_)
  · intro q inside b low
    have other : q ≠ peer := (MMFile.mem_conflicting.mp inside).1
    simp only [Replicas.evict, replicas, Function.update_of_ne other]
    exact gone q inside b low
  · intro b inside uncovered written
    simp only [Replicas.evict, replicas, Function.update_self, Copies.drop]
    split
    · rfl
    · next outside =>
        rw [own]
        exact (fresh b inside uncovered written).resolve_left outside

theorem acquirePermission_acquired (h : w.Steady) {peer : Peer} {filedes start stop i : Nat} {write : Bool}
    {order : List Peer} (range : start ≤ stop) (smallStop : stop ≤ intMax)
    (clean : w.CleanGrant peer filedes start stop write)
    (done : w.acquirePermission peer filedes start stop write order = some (w', some i)) :
    Acquired w w' peer filedes start stop write i := by
  have agree' := acquirePermission_agree h.agree done
  rcases acquirePermission_cases done with ⟨missing, -⟩ | ⟨j, file, result, found, at_j, fast | slow⟩
  · cases missing
  · obtain ⟨has, rfl⟩ := fast
    obtain rfl := Option.some.inj result
    obtain ⟨-, -, -, -, same⟩ := (h.agree peer).at at_j
    refine ⟨h, found, ?_, rfl, fun _ => id, fun latest coherent T _ => coherent.evict peer T⟩
    intro b inside
    have own := hasPermission_covers has inside.1 inside.2
    rw [← grants_bareList, same, grants_bareList] at own
    exact own
  · obtain ⟨misses, manager, grant, w₂, file₂, permissions, asked, perm, revoked, at_j₂, -, rfl⟩ := slow
    obtain rfl := Option.some.inj result
    have slowPath : ¬ w.holds peer filedes start stop write = true := by
      simp only [holds, found, at_j, Option.any_some, misses]
      exact Bool.false_ne_true
    have clean := clean.resolve_left slowPath
    obtain ⟨evicted, own, gone⟩ := served_evicted h asked perm revoked
    obtain ⟨rfl, file', files, named'⟩ := (h.agree peer).found found
    have managerSame : w₂.manager = manager := (served_agrees h.agree asked perm revoked).1
    obtain rfl : file₂ = file' := by
      rw [own, files] at at_j₂
      exact (Option.some.inj at_j₂).symm
    have files₂ : (w₂.clients peer).openedFiles = [file₂] := by rw [own]; exact files
    have files' : ((w₂.clients peer).setFile 0 { file₂ with permissions := permissions }).openedFiles =
        [{ file₂ with permissions := permissions }] := PFSClient.setFile_single files₂
    obtain ⟨sound, copies⟩ := PFSClient.Sound.update { file₂ with permissions := permissions } files₂
      ((evicted.sound peer).single files₂) rfl
    rw [← PFSClient.copies_single files₂] at copies
    have same : ∀ cover latest, (w₂.setClient peer
        ((w₂.clients peer).setFile 0 { file₂ with permissions := permissions })).replicas cover latest =
        w₂.replicas cover latest := fun cover latest => replicas_same copies
    refine ⟨⟨agree', sound_setClient evicted.sound sound, ?_⟩, ?_, ?_, ?_, ?_, ?_⟩
    · simp only [setClient, managerSame]
      exact h.orderly.serve range smallStop clean asked
    · simp only [setClient, Function.update_self]
      rw [PFSClient.foundAt, files', ← found, PFSClient.foundAt, files]
      rfl
    · intro b inside
      simp only [setClient, managerSame]
      exact MMFile.gets range smallStop asked inside
    · simp only [setClient, Function.update_self]
      exact copies.trans (by rw [own])
    · intro latest guarded
      have guarded₂ := evicted.closed Replicas.Guarded _ _ (fun s p A h => h.evict p A) guarded
      rw [same]
      simp only [setClient, managerSame]
      exact guarded₂.move (h.orderly.moves (s := w₂.replicas w.manager.cover latest) range smallStop clean asked rfl gone)
    · intro latest coherent T fresh
      rw [same]
      simp only [setClient, managerSame]
      exact served_coherent h range smallStop clean asked perm revoked coherent (fresh.resolve_left slowPath)

/-! ## The calls -/

/-- What one call does to a system whose tokens guard its caches. -/
structure Keeps (w w' : World Peer) : Prop where
  steady : w'.Steady
  guarded : ∀ latest, (w.replicas w.manager.cover latest).Guarded → (w'.replicas w'.manager.cover latest).Guarded

/-- Copies that the client could not read before the call and that were written
    since it got them. -/
def stale (w : World Peer) (latest : Nat → Option UInt8) (peer : Peer) (b : Nat) : Prop :=
  (latest b).isSome ∧ ¬ Grants (w.manager.tokens peer) false b ∧ ((w.clients peer).copies b).isSome

instance (w : World Peer) (latest : Nat → Option UInt8) (peer : Peer) (b : Nat) :
    Decidable (w.stale latest peer b) := inferInstanceAs (Decidable (_ ∧ _ ∧ _))

/-- A read that needs no grant, or that is granted no stale copies. -/
def FreshRead (w : World Peer) (latest : Nat → Option UInt8) (peer : Peer) (filedes offset nbyte : Nat) : Prop :=
  w.holds peer filedes offset (offset + nbyte) false = true ∨ ∀ k, k < nbyte → ¬ w.stale latest peer (offset + k)

instance (w : World Peer) (latest : Nat → Option UInt8) (peer : Peer) (filedes offset nbyte : Nat) :
    Decidable (w.FreshRead latest peer filedes offset nbyte) :=
  inferInstanceAs (Decidable (_ ∨ ∀ k, k < nbyte → _))

theorem acquirePermission_none {peer : Peer} {filedes start stop : Nat} {write : Bool} {order : List Peer}
    (done : w.acquirePermission peer filedes start stop write order = some (w', none)) : w' = w := by
  rcases acquirePermission_cases done with ⟨-, same⟩ | ⟨i, file, result, -⟩
  · exact same
  · cases result

theorem readFile_keeps (h : w.Steady) {peer : Peer} {filedes offset nbyte : Nat} {order : List Peer}
    {result : Option (Nat → UInt8)} (smallStop : offset + nbyte ≤ intMax)
    (clean : w.CleanGrant peer filedes offset (offset + nbyte) false)
    (done : w.readFile peer filedes offset nbyte order = some (w', result)) :
    Keeps w w' ∧ ∀ latest, (w.replicas w.manager.cover latest).Coherent →
      w.FreshRead latest peer filedes offset nbyte → (w'.replicas w'.manager.cover latest).Coherent ∧
        ∀ buffer, result = some buffer → ∀ k x, k < nbyte → latest (offset + k) = some x → buffer k = x := by
  obtain ⟨w₂, acquired, acquiring, ⟨rfl, rfl, rfl⟩ | ⟨i, c, buffer, rfl, read, rfl, rfl⟩⟩ := readFile_cases done
  · obtain rfl := acquirePermission_none acquiring
    refine ⟨⟨h, fun _ => id⟩, fun latest coherent _ => ⟨coherent, ?_⟩⟩
    intro buffer nothing
    cases nothing
  · have got := acquirePermission_acquired h (Nat.le_add_right _ _) smallStop clean acquiring
    obtain ⟨sound, ⟨A, loaded⟩, values⟩ := PFSClient.readBytes_copies (got.steady.agree peer) (got.steady.sound peer)
      got.found read
    have step : ∀ latest, (w₂.setClient peer c).replicas w₂.manager.cover latest =
        (w₂.replicas w₂.manager.cover latest).load peer A := by
      intro latest
      rw [show w₂.setClient peer c = setClient { w₂ with bytes := w₂.bytes } peer c from rfl, replicas_setClient, loaded]
      rfl
    refine ⟨⟨⟨?_, sound_setClient got.steady.sound sound, got.steady.orderly⟩, ?_⟩, ?_⟩
    · exact got.steady.agree.setClient ((got.steady.agree peer).readBytes read)
    · intro latest guarded
      have after := (got.guarded latest guarded).load peer A
      rw [← step] at after
      exact after
    · intro latest coherent fresh
      have acquired := got.coherent latest coherent ∅ (by
        refine fresh.imp id (fun none b inside uncovered written => .inr ?_)
        have position : offset + (b - offset) = b := Nat.add_sub_cancel' inside.1
        have clear := none (b - offset) (by have := inside.2; omega)
        rw [position] at clear
        rw [← Option.not_isSome_iff_eq_none]
        exact fun present => clear ⟨written, uncovered, present⟩)
      rw [Replicas.evict_empty] at acquired
      have after := acquired.load peer A
      rw [← step] at after
      refine ⟨after, ?_⟩
      intro buffer' same k x inside written
      obtain rfl := Option.some.inj same
      have here : offset + k ∈ bytesIn offset (offset + nbyte) := ⟨by omega, by omega⟩
      obtain ⟨d, copy⟩ := values _ here
      refine after.current peer (offset + k) x (buffer (offset + k), d) (got.covered _ here) written ?_
      simp only [replicas, setClient, Function.update_self]
      exact copy

theorem writeFile_keeps (h : w.Steady) {peer : Peer} {filedes offset nbyte : Nat} {data : Nat → UInt8}
    {order : List Peer} {wrote : Bool} (smallStop : offset + nbyte ≤ intMax)
    (clean : w.CleanGrant peer filedes offset (offset + nbyte) true)
    (done : w.writeFile peer filedes offset nbyte data order = some (w', wrote)) :
    Keeps w w' ∧ ∀ latest, (w.replicas w.manager.cover latest).Coherent →
      (w'.replicas w'.manager.cover (latestAfter latest offset nbyte data wrote)).Coherent := by
  obtain ⟨w₂, acquired, acquiring, ⟨rfl, rfl, rfl⟩ | ⟨i, c, rfl, written, rfl, rfl⟩⟩ := writeFile_cases done
  · obtain rfl := acquirePermission_none acquiring
    refine ⟨⟨h, fun _ => id⟩, fun latest coherent => ?_⟩
    have same : latestAfter latest offset nbyte data false = latest := by
      funext b
      simp [latestAfter]
    rw [same]
    exact coherent
  · have got := acquirePermission_acquired h (Nat.le_add_right _ _) smallStop clean acquiring
    obtain ⟨sound, A, stored⟩ := PFSClient.writeBytes_copies (got.steady.agree peer) (got.steady.sound peer)
      got.found written
    have step : ∀ latest, (w₂.setClient peer c).replicas w₂.manager.cover
        (latestAfter latest offset nbyte data true) =
        ((w₂.replicas w₂.manager.cover latest).load peer A).put peer (bytesIn offset (offset + nbyte))
          (fun b => data (b - offset)) := by
      intro latest
      rw [show w₂.setClient peer c = setClient { w₂ with bytes := w₂.bytes } peer c from rfl, replicas_setClient,
        stored]
      simp only [Replicas.put, Replicas.load, Function.update_self, Function.update_idem, replicas]
      congr 1
      funext b
      simp only [latestAfter, true_and, mem_bytesIn]
    refine ⟨⟨⟨?_, sound_setClient got.steady.sound sound, got.steady.orderly⟩, ?_⟩, ?_⟩
    · exact got.steady.agree.setClient ((got.steady.agree peer).writeBytes written)
    · intro latest guarded
      have after := ((got.guarded latest guarded).load peer A).put (fun b => data (b - offset)) got.covered
      rw [← step] at after
      exact after.forget latest
    · intro latest coherent
      have acquired := got.coherent latest coherent
        {b | b ∈ bytesIn offset (offset + nbyte) ∧ ¬ w.manager.cover peer false b}
        (.inr fun b inside uncovered _ => .inl ⟨inside, uncovered⟩)
      have after := (acquired.load peer A).put (fun b => data (b - offset)) got.covered
      rw [Replicas.evict_load_put (fun b inside => inside.1), ← step] at after
      · exact after
      · rintro b ⟨-, uncovered⟩ dirty
        simp only [replicas, got.copies] at dirty
        exact uncovered (coherent.readable peer b (coherent.guarded peer b dirty))

/-- A client that opens the file has no copies yet. -/
theorem openFile_keeps (h : w.Steady) (peer : Peer) : Keeps w (w.openFile peer).1 ∧ ∀ latest,
    (w.openFile peer).1.replicas (w.openFile peer).1.manager.cover latest = w.replicas w.manager.cover latest := by
  have agree := openFile_agree h.agree peer
  cases opening : w.manager.open peer with
  | mk manager isNew =>
      cases isNew with
      | false =>
          have same : (w.openFile peer).1 = w := by simp only [openFile, opening]
          rw [same]
          exact ⟨⟨h, fun _ => id⟩, fun _ => rfl⟩
      | true =>
          have tokens : ∀ q, manager.tokens q = w.manager.tokens q := by
            intro q
            rw [← MMFile.tokens_open w.manager peer q, opening]
          have covers : manager.cover = w.manager.cover := by
            funext q m b
            rw [MMFile.cover, tokens, MMFile.cover]
          have files : (w.clients peer).openedFiles = [] := by
            rcases (h.agree peer).cases with ⟨files, -⟩ | ⟨-, -, isOpen, -⟩
            · exact files
            · rw [MMFile.open, if_pos isOpen] at opening
              cases opening
          have nothing : ∀ fileDes a, (w.clients peer).cache.find fileDes a = none := by
            intro fileDes a
            rw [Option.eq_none_iff_forall_ne_some]
            intro block found
            have known := (h.sound peer).known _ _ _ found
            rw [files] at known
            cases known
          have opened : ∃ file, (w.openFile peer).1 = setClient { w with manager := manager } peer
              { w.clients peer with
                openedFiles := (w.clients peer).openedFiles ++ [file]
                descriptorCount := (w.clients peer).descriptorCount + 1 } := by
            simp only [openFile, opening]
            exact ⟨_, rfl⟩
          obtain ⟨file, opened⟩ := opened
          rw [opened] at agree ⊢
          have same : ∀ latest, (setClient { w with manager := manager } peer
              { w.clients peer with
                openedFiles := (w.clients peer).openedFiles ++ [file]
                descriptorCount := (w.clients peer).descriptorCount + 1 }).replicas manager.cover latest =
              w.replicas w.manager.cover latest := by
            intro latest
            rw [replicas_same, covers]
            · rfl
            · funext b
              simp only [PFSClient.copies, files, List.nil_append, List.head?_cons, List.head?_nil, Option.bind_some,
                Option.bind_none, Cache.byte, nothing, Option.map_none]
          refine ⟨⟨⟨agree, ?_, h.orderly.congr tokens⟩, ?_⟩, same⟩
          · apply sound_setClient (w := { w with manager := manager }) h.sound
            refine ⟨(h.sound peer).wf, ?_, ?_⟩
            all_goals
              intro fileDes a block found
              rw [nothing] at found
              cases found
          · intro latest guarded
            rw [← same] at guarded
            exact guarded

theorem flush_keeps (h : w.Steady) {peer : Peer} (done : w.flush peer = some w') :
    Keeps w w' ∧ ∃ A, ∀ latest, w'.replicas w'.manager.cover latest =
      (w.replicas w.manager.cover latest).clean peer A := by
  obtain ⟨bytes, flushed, rfl⟩ := flush_cases done
  obtain ⟨sound, A, copies, store⟩ := PFSClient.flushIteration_copies (h.agree peer) (h.sound peer) flushed
  have step : ∀ latest, (setClient { w with bytes := bytes } peer
      { w.clients peer with cache := (w.clients peer).cache.flushIteration.1 }).replicas w.manager.cover latest =
      (w.replicas w.manager.cover latest).clean peer A := by
    intro latest
    rw [replicas_setClient, copies, store]
    rfl
  refine ⟨⟨⟨?_, sound_setClient (w := { w with bytes := bytes }) h.sound sound, h.orderly⟩, ?_⟩, A, step⟩
  · exact Agree.setClient (w := { w with bytes := bytes }) h.agree ((h.agree peer).congr rfl)
  · intro latest guarded
    have after := guarded.clean peer A
    rw [← step] at after
    exact after

theorem harvest_keeps (h : w.Steady) {peer : Peer} (done : w.harvest peer = some w') :
    Keeps w w' ∧ ∃ A, ∀ latest, w'.replicas w'.manager.cover latest =
      (w.replicas w.manager.cover latest).evict peer A := by
  obtain ⟨cache, block, bytes, harvested, flushed, rfl⟩ := harvest_cases done
  obtain ⟨sound, A, copies, store⟩ :=
    PFSClient.harvestIteration_copies (h.agree peer) (h.sound peer) harvested flushed
  have step : ∀ latest, (setClient { w with bytes := bytes } peer
      { w.clients peer with cache := cache }).replicas w.manager.cover latest =
      (w.replicas w.manager.cover latest).evict peer A := by
    intro latest
    rw [replicas_setClient, copies, store]
    rfl
  refine ⟨⟨⟨?_, sound_setClient (w := { w with bytes := bytes }) h.sound sound, h.orderly⟩, ?_⟩, A, step⟩
  · exact Agree.setClient (w := { w with bytes := bytes }) h.agree ((h.agree peer).congr rfl)
  · intro latest guarded
    have after := guarded.evict peer A
    rw [← step] at after
    exact after

/-! ## Runs -/

/-- Clients share the file: nobody closes it. -/
def Call.shares : Call Peer → Bool
  | .closeFile _ _ _ => false
  | _ => true

def sharing : Machine (World Peer) (Call Peer) :=
  ⟨fun w call => machine.allowed w call ∧ call.shares = true, exec⟩

instance (w : World Peer) (call : Call Peer) : Decidable (sharing.allowed w call) :=
  inferInstanceAs (Decidable (_ ∧ _))

/-- The grant a call needs, if it needs one, meets no slip of `addPermission`. -/
def CleanCall (w : World Peer) : Call Peer → Prop
  | .readFile peer filedes offset nbyte _ => w.CleanGrant peer filedes offset (offset + nbyte) false
  | .writeFile peer filedes offset nbyte _ _ => w.CleanGrant peer filedes offset (offset + nbyte) true
  | _ => True

instance (w : World Peer) : (call : Call Peer) → Decidable (w.CleanCall call)
  | .readFile _ _ _ _ _ => inferInstanceAs (Decidable (CleanGrant _ _ _ _ _ _))
  | .writeFile _ _ _ _ _ _ => inferInstanceAs (Decidable (CleanGrant _ _ _ _ _ _))
  | .openFile _ | .closeFile _ _ _ | .flush _ | .harvest _ => isTrue trivial

def cleanSharing : Machine (World Peer) (Call Peer) :=
  ⟨fun w call => sharing.allowed w call ∧ w.CleanCall call, exec⟩

instance (w : World Peer) (call : Call Peer) : Decidable (cleanSharing.allowed w call) :=
  inferInstanceAs (Decidable (_ ∧ _))

theorem initial_steady (h : w.Initial) : w.Steady where
  agree := initial_agree h
  sound q := by
    rw [h.2 q]
    exact Cache.init_sound _
  orderly := by
    have empty : ∀ q, w.manager.tokens q = [] := by
      intro q
      rw [MMFile.tokens, h.1]
      rfl
    refine ⟨fun q => ?_, fun q => ?_, MMFile.fresh_exclusive h.1⟩
    · rw [empty]; exact .nil
    · rw [empty]; exact .nil

omit [DecidableEq Peer] in
theorem initial_copies (h : w.Initial) (q : Peer) : (w.clients q).copies = fun _ => none := by
  rw [h.2 q]
  exact PFSClient.copies_closed rfl

/-- Nothing is dirty or written yet. -/
theorem initial_coherent (h : w.Initial) : (w.replicas w.manager.cover fun _ => none).Coherent where
  readable q b held := held.read
  exclusive p q b distinct held other := ((initial_steady h).orderly.exclusive p q distinct b).1 held other
  guarded q b dirty := by
    obtain ⟨x, copy⟩ := dirty
    simp only [replicas, initial_copies h] at copy
    cases copy
  current p a x c _ written := by cases written
  stored a x written := by cases written
  owned a x written := by cases written

theorem step_keeps (h : w.Steady) (step : cleanSharing.Step w w') : Keeps w w' := by
  obtain ⟨call, ⟨⟨range, shares⟩, clean⟩, ran⟩ := step
  cases call with
  | openFile peer =>
      obtain rfl := Option.some.inj ran
      exact (openFile_keeps h peer).1
  | readFile peer filedes offset nbyte order =>
      obtain ⟨⟨_, result⟩, done, rfl⟩ := Option.map_eq_some_iff.mp ran
      exact (readFile_keeps h range.2 clean done).1
  | writeFile peer filedes offset nbyte data order =>
      obtain ⟨⟨_, result⟩, done, rfl⟩ := Option.map_eq_some_iff.mp ran
      exact (writeFile_keeps h range.2 clean done).1
  | closeFile peer filedes now => cases shares
  | flush peer => exact (flush_keeps h ran).1
  | harvest peer => exact (harvest_keeps h ran).1

/-- In every run whose grants meet no slip of `addPermission`, every byte marked
    dirty in a client's cache is covered by a write token the manager has for the
    client. -/
theorem reachable_guarded {w : World Peer} (reach : Reachable Initial cleanSharing.Step w) {peer : Peer}
    {fileDes a i : Nat} {block : CacheBlock} (cached : (w.clients peer).cache.find fileDes a = some block)
    (inside : i < pfsBlockSizeInBytes) (dirty : block.dirty i = true) :
    ∃ p ∈ w.manager.tokens peer, p.write = true ∧ p.Covers (a + i) := by
  obtain ⟨steady, guarded⟩ := reach.invariant
    (fun w => w.Steady ∧ (w.replicas w.manager.cover fun _ => none).Guarded)
    (fun w first => ⟨initial_steady first, (initial_coherent first).toGuarded⟩)
    (fun w w' h step => ⟨(step_keeps h.1 step).steady, (step_keeps h.1 step).guarded _ h.2⟩)
  obtain ⟨file, files, rfl⟩ := (steady.sound peer).file (steady.agree peer) cached
  have here : blockOf (a + i) = a := by
    rw [blockOf_eq_iff ((steady.sound peer).aligned _ _ _ cached)]
    omega
  have copy : (w.clients peer).copies (a + i) = some (block.data i, true) := by
    rw [PFSClient.copies_single files, Cache.byte, here, cached, Option.map_some, Nat.add_sub_cancel_left, dirty]
  obtain ⟨p, member, mode, covers⟩ := guarded.guarded peer (a + i) ⟨_, copy⟩
  exact ⟨p, member, mode rfl, covers⟩

/-- Client 1 writes two bytes, client 2 writes one of them again. -/
def rewritten : Option (World Nat) :=
  cleanSharing.run blank [.openFile 1, .openFile 2, .writeFile 1 1 0 2 (fun _ => 7) [],
    .writeFile 2 1 1 1 (fun _ => 8) [1]]

theorem reachable_guarded_rewritten :
    ∃ block, ((rewritten.get rfl).clients 2).cache.find 1 0 = some block ∧ block.dirty 1 = true ∧
      ∃ p ∈ (rewritten.get rfl).manager.tokens 2, p.write = true ∧ p.Covers (0 + 1) := by
  have reach : Reachable Initial cleanSharing.Step (rewritten.get rfl) :=
    cleanSharing.run_reachable (Reachable.init ⟨rfl, fun _ => rfl⟩) (Option.some_get _).symm
  have cached : ((rewritten.get rfl).clients 2).cache.find 1 0 =
      some ((((rewritten.get rfl).clients 2).cache.find 1 0).get rfl) := (Option.some_get _).symm
  exact ⟨_, cached, rfl, reachable_guarded reach cached (by decide) rfl⟩

/-- Client 1 has two read tokens, of bytes 0 and 2048 to 5119, and writes bytes 0
    to 4095: its second token ends the list, so it stays, behind a write token that
    overlaps it.  When client 2 then writes byte 2048, the write token is cut there
    and only the read token goes on. -/
def lostToken : Option (World Nat) :=
  sharing.run blank [.openFile 1, .openFile 2, .writeFile 2 1 0 1 (fun _ => 7) [], .readFile 1 1 0 1 [2],
    .readFile 1 1 2048 3072 [2], .writeFile 1 1 0 4096 (fun _ => 8) [2], .writeFile 2 1 2048 1 (fun _ => 9) [1]]

theorem not_guarded_lostToken :
    ¬ ∀ w : World Nat, Reachable Initial sharing.Step w → ∀ (peer fileDes a i : Nat) (block : CacheBlock),
      (w.clients peer).cache.find fileDes a = some block → i < pfsBlockSizeInBytes → block.dirty i = true →
        ∃ p ∈ w.manager.tokens peer, p.write = true ∧ p.Covers (a + i) := by
  intro guarded
  have reach : Reachable Initial sharing.Step (lostToken.get rfl) :=
    sharing.run_reachable (Reachable.init ⟨rfl, fun _ => rfl⟩) (Option.some_get _).symm
  have cached : ((lostToken.get rfl).clients 1).cache.find 1 3072 =
      some ((((lostToken.get rfl).clients 1).cache.find 1 3072).get rfl) := (Option.some_get _).symm
  have covered := guarded (lostToken.get rfl) reach 1 1 3072 0 _ cached (by decide) rfl
  revert covered
  decide

end World

end PFS
