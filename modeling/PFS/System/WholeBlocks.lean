import PFS.System.Reopening

/-! # Clients that read and write whole blocks

Caches hold blocks and tokens cover bytes, which is how a client comes by copies
it has no token for.  When every range is one of whole blocks, so is what the
tokens cover, and a client has no copy that it may not read.  Then no grant covers
a stale copy, and reads return what was written last without further conditions.
-/

namespace PFS

open Lib

variable {Peer : Type} [DecidableEq Peer]

namespace MMFile

/-- Below the end of the `int` range, the tokens cover whole blocks. -/
def BlockClosed (f : MMFile Peer) : Prop :=
  ∀ q b b', f.cover q false b → blockOf b' = blockOf b → b' < intMax → f.cover q false b'

variable {f f' : MMFile Peer} {peer : Peer} {start stop : Nat} {iswrite : Bool} {grant : Grant Peer}

/-- What the other peers hold after a request: what they held, less the range if
    the request takes it from them. -/
theorem cover_other (h : f.Orderly) (range : start ≤ stop) (smallStop : stop ≤ intMax)
    (clean : GrantClean (f.tokens peer) (f.grantRange peer start stop iswrite).1
      (f.grantRange peer start stop iswrite).2 iswrite)
    (asked : f.waitAndGetPermissionFor peer start stop iswrite = some (f', grant)) {q : Peer} (other : q ≠ peer)
    {b : Nat} : f'.cover q false b ↔
      f.cover q false b ∧ ¬ (q ∈ f.conflicting peer start stop iswrite ∧ b ∈ bytesIn start stop) := by
  constructor
  · intro held
    obtain ⟨-, -, -, rest, -⟩ := waitAndGetPermissionFor_spec asked
    rw [cover, rest q other] at held
    refine ⟨tokensAfter_le held, ?_⟩
    rintro ⟨clash, inside⟩
    rw [tokensAfter, if_pos (mem_conflicting.mp clash).2] at held
    exact revokePermission_clears held inside
  · rintro ⟨held, outside⟩
    exact h.keeps range smallStop clean asked (fun clash inside => outside ⟨clash, inside⟩) held

/-- What the peer that asks holds after the request: what it held, and the grant. -/
theorem cover_self (h : f.Orderly) (range : start ≤ stop) (smallStop : stop ≤ intMax)
    (clean : GrantClean (f.tokens peer) (f.grantRange peer start stop iswrite).1
      (f.grantRange peer start stop iswrite).2 iswrite)
    (asked : f.waitAndGetPermissionFor peer start stop iswrite = some (f', grant)) {b : Nat} :
    f'.cover peer false b ↔ f.cover peer false b ∨ (grant.start ≤ b ∧ b < grant.stop) := by
  constructor
  · intro held
    exact (cover_after asked held).imp id fun granted => granted.2
  · rintro (held | ⟨low, high⟩)
    · refine h.keeps range smallStop clean asked (fun clash => ?_) held
      exact ((mem_conflicting.mp clash).1 rfl).elim
    · exact (gets_grant range smallStop asked low high).read

theorem mem_range_of_blockOf {start stop b b' : Nat} (low : start % pfsBlockSizeInBytes = 0)
    (high : stop % pfsBlockSizeInBytes = 0) (same : blockOf b' = blockOf b) (inside : b ∈ bytesIn start stop) :
    b' ∈ bytesIn start stop := by
  obtain ⟨first, last⟩ := inside
  simp only [blockOf, pfsBlockSizeInBytes] at low high same
  constructor
  · omega
  · omega

/-- A request for whole blocks keeps the table one of whole blocks. -/
theorem BlockClosed.serve (closed : f.BlockClosed) (h : f.Orderly) (range : start ≤ stop) (smallStop : stop ≤ intMax)
    (clean : GrantClean (f.tokens peer) (f.grantRange peer start stop iswrite).1
      (f.grantRange peer start stop iswrite).2 iswrite)
    (asked : f.waitAndGetPermissionFor peer start stop iswrite = some (f', grant))
    (low : start % pfsBlockSizeInBytes = 0) (high : stop % pfsBlockSizeInBytes = 0) : f'.BlockClosed := by
  intro q b b' held same small
  by_cases here : q = peer
  · subst here
    rw [cover_self h range smallStop clean asked] at held ⊢
    rcases held with held | granted
    · exact .inl (closed q b b' held same small)
    · obtain ⟨is, -⟩ := waitAndGetPermissionFor_spec asked
      right
      rcases grantRange_cases f q start stop iswrite with exactly | ⟨whole, -⟩
      · obtain ⟨startEq, stopEq⟩ := Prod.mk.inj (is.symm.trans exactly)
        rw [startEq, stopEq] at granted ⊢
        exact mem_range_of_blockOf low high same granted
      · obtain ⟨startEq, stopEq⟩ := Prod.mk.inj (is.symm.trans whole)
        rw [startEq, stopEq]
        exact ⟨Nat.zero_le _, small⟩
  · rw [cover_other h range smallStop clean asked here] at held ⊢
    obtain ⟨held, outside⟩ := held
    refine ⟨closed q b b' held same small, ?_⟩
    rintro ⟨clash, inside⟩
    exact outside ⟨clash, mem_range_of_blockOf low high same.symm inside⟩

end MMFile

namespace World

variable {w w' : World Peer}

/-- Reads and writes of whole blocks. -/
def Call.Whole : Call Peer → Prop
  | .readFile _ _ offset nbyte _ | .writeFile _ _ offset nbyte _ _ =>
      offset % pfsBlockSizeInBytes = 0 ∧ nbyte % pfsBlockSizeInBytes = 0
  | _ => True

instance : (call : Call Peer) → Decidable call.Whole
  | .readFile _ _ _ _ _ => inferInstanceAs (Decidable (_ ∧ _))
  | .writeFile _ _ _ _ _ _ => inferInstanceAs (Decidable (_ ∧ _))
  | .openFile _ | .closeFile _ _ _ | .flush _ | .harvest _ => isTrue trivial

/-- A request that is not made leaves the table alone. -/
theorem acquirePermission_blockClosed (h : w.Steady) (closed : w.manager.BlockClosed) {peer : Peer}
    {filedes offset nbyte : Nat} {write : Bool} {order : List Peer} {acquired : Option Nat}
    (smallStop : offset + nbyte ≤ intMax) (clean : w.CleanGrant peer filedes offset (offset + nbyte) write)
    (whole : offset % pfsBlockSizeInBytes = 0 ∧ nbyte % pfsBlockSizeInBytes = 0)
    (done : w.acquirePermission peer filedes offset (offset + nbyte) write order = some (w', acquired)) :
    w'.manager.BlockClosed := by
  rcases acquirePermission_cases done with ⟨-, rfl⟩ | ⟨j, file, -, found, at_j, ⟨-, rfl⟩ | slow⟩
  · exact closed
  · exact closed
  · obtain ⟨misses, manager, grant, w₂, file₂, permissions, asked, perm, revoked, -, -, rfl⟩ := slow
    have slowPath : ¬ w.holds peer filedes offset (offset + nbyte) write = true := by
      simp only [holds, found, at_j, Option.any_some, misses]
      exact Bool.false_ne_true
    have managerSame : w₂.manager = manager := (served_agrees h.agree asked perm revoked).1
    simp only [setClient, managerSame]
    refine closed.serve h.orderly (Nat.le_add_right _ _) smallStop (clean.resolve_left slowPath) asked whole.1 ?_
    rw [Nat.add_mod, whole.1, whole.2]
    rfl

theorem exec_blockClosed (h : w.Steady) (tidy : w.Tidy) (closed : w.manager.BlockClosed) {call : Call Peer}
    (allowed : machine.allowed w call) (clean : w.CleanCall call) (whole : call.Whole) (done : w.exec call = some w') :
    w'.manager.BlockClosed := by
  cases call with
  | openFile peer =>
      obtain rfl := Option.some.inj done
      have covers : (w.openFile peer).1.manager.cover = w.manager.cover :=
        congrArg Replicas.cover ((openFile_keeps h peer).2 fun _ => none)
      rw [MMFile.BlockClosed, covers]
      exact closed
  | readFile peer filedes offset nbyte order =>
      obtain ⟨⟨_, result⟩, read, rfl⟩ := Option.map_eq_some_iff.mp done
      obtain ⟨w₁, acquired, acquiring, shape⟩ := readFile_cases read
      have after := acquirePermission_blockClosed h closed allowed.2 clean whole acquiring
      rcases shape with ⟨-, rfl, -⟩ | ⟨i, c, buffer, -, -, rfl, -⟩
      · exact after
      · exact after
  | writeFile peer filedes offset nbyte data order =>
      obtain ⟨⟨_, result⟩, written, rfl⟩ := Option.map_eq_some_iff.mp done
      obtain ⟨w₁, acquired, acquiring, shape⟩ := writeFile_cases written
      have after := acquirePermission_blockClosed h closed allowed.2 clean whole acquiring
      rcases shape with ⟨-, rfl, -⟩ | ⟨i, c, -, -, rfl, -⟩
      · exact after
      · exact after
  | closeFile peer filedes now =>
      obtain ⟨tokens, -⟩ := closeFile_replicas h tidy done
      intro q b b' held
      rw [MMFile.cover, tokens] at held ⊢
      by_cases same : q = peer
      · rw [if_pos same] at held
        exact (Grants.nil held).elim
      · rw [if_neg same] at held ⊢
        exact closed q b b' held
  | flush peer =>
      obtain ⟨bytes, -, rfl⟩ := flush_cases done
      exact closed
  | harvest peer =>
      obtain ⟨cache, block, bytes, -, -, rfl⟩ := harvest_cases done
      exact closed

/-- A client has no copy of a byte that it may not read. -/
theorem not_stale (agree : w.Agree) (tidy : w.Tidy) (closed : w.manager.BlockClosed) {latest : Nat → Option UInt8}
    {peer : Peer} {b : Nat} (small : b < intMax) : ¬ w.stale latest peer b := by
  rintro ⟨-, unreadable, copy⟩
  obtain ⟨b', same, held⟩ := tidy.token agree copy
  exact unreadable (closed peer b' b held same.symm small)

theorem freshGrant_of_blockClosed (agree : w.Agree) (tidy : w.Tidy) (closed : w.manager.BlockClosed)
    {latest : Nat → Option UInt8} {peer : Peer} {filedes start stop : Nat} {write : Bool} (range : start ≤ stop)
    (smallStop : stop ≤ intMax) : w.FreshGrant latest peer filedes start stop write := by
  obtain ⟨-, -, smallEnd, -⟩ := MMFile.grantRange_le w.manager peer write range smallStop
  exact .inr fun b high _ isStale => (not_stale agree tidy closed (by omega) isStale).elim

end World

namespace Session

open World (Call)

variable {s s' : Session Peer}

/-- Sessions of whole blocks, without slips. -/
def wholeBlocks : Machine (Session Peer) (Call Peer) :=
  ⟨fun s call => World.machine.allowed s.world call ∧ s.world.CleanCall call ∧ call.Whole, exec⟩

instance (s : Session Peer) (call : Call Peer) : Decidable (wholeBlocks.allowed s call) :=
  inferInstanceAs (Decidable (_ ∧ _ ∧ _))

/-- No call of whole blocks is granted stale copies. -/
theorem freshCall (h : s.Settled) (closed : s.world.manager.BlockClosed) {call : Call Peer}
    (allowed : World.machine.allowed s.world call) : s.FreshCall call := by
  cases call with
  | readFile peer filedes offset nbyte order =>
      exact World.freshGrant_of_blockClosed h.steady.agree h.tidy closed (Nat.le_add_right _ _) allowed.2
  | writeFile peer filedes offset nbyte data order =>
      exact World.freshGrant_of_blockClosed h.steady.agree h.tidy closed (Nat.le_add_right _ _) allowed.2
  | openFile | closeFile | flush | harvest => trivial

theorem wholeBlocks_settled (reach : Reachable Initial wholeBlocks.Step s) :
    s.Settled ∧ s.world.manager.BlockClosed := by
  refine reach.invariant (fun s => s.Settled ∧ s.world.manager.BlockClosed) ?_ ?_
  · intro s start
    refine ⟨initial_settled start, fun q b b' held => ?_⟩
    rw [MMFile.cover, MMFile.tokens, start.1.1] at held
    exact (Grants.nil held).elim
  · rintro s t ⟨settled, closed⟩ ⟨call, ⟨allowed, clean, whole⟩, ran⟩
    exact ⟨step_settled settled ⟨call, ⟨allowed, clean, freshCall settled closed allowed⟩, ran⟩,
      World.exec_blockClosed settled.steady settled.tidy closed allowed clean whole (exec_world ran)⟩

/-- In every session of whole blocks whose grants meet no slip of `addPermission`,
    clients that come and go included, a read returns, for every byte that has been
    written, the byte of the latest `writeFile`. -/
theorem wholeBlocks_read (reach : Reachable Initial wholeBlocks.Step s) {peer : Peer} {filedes offset nbyte : Nat}
    {order : List Peer} {w : World Peer} {buffer : Nat → UInt8}
    (allowed : wholeBlocks.allowed s (.readFile peer filedes offset nbyte order))
    (read : s.world.readFile peer filedes offset nbyte order = some (w, some buffer)) {k : Nat} {x : UInt8}
    (inside : k < nbyte) (written : s.latest (offset + k) = some x) : buffer k = x := by
  obtain ⟨settled, closed⟩ := wholeBlocks_settled reach
  obtain ⟨range, clean, -⟩ := allowed
  have fresh : s.FreshCall (.readFile peer filedes offset nbyte order) := freshCall settled closed range
  obtain ⟨-, reads⟩ := World.readFile_upToDate settled.steady range.2 clean fresh read settled.upToDate
  exact reads buffer rfl k x inside written

/-- Client 2 reads a block, client 1 writes it and leaves. -/
def wroteAndLeft : Option (Session Nat) :=
  wholeBlocks.run ⟨World.blank, fun _ => none⟩ [.openFile 1, .openFile 2, .readFile 2 1 0 1024 [],
    .writeFile 1 1 0 1024 (fun _ => 7) [2], .closeFile 1 1 0]

theorem wholeBlocks_read_wroteAndLeft : ∃ w buffer,
    (wroteAndLeft.get rfl).world.readFile 2 1 0 1024 [] = some (w, some buffer) ∧ buffer 1 = 7 := by
  have reach : Reachable Initial wholeBlocks.Step (wroteAndLeft.get rfl) :=
    wholeBlocks.run_reachable (Reachable.init ⟨⟨rfl, fun _ => rfl⟩, rfl⟩) (Option.some_get _).symm
  obtain ⟨w, buffer, read⟩ : ∃ w buffer,
      (wroteAndLeft.get rfl).world.readFile 2 1 0 1024 [] = some (w, some buffer) := ⟨_, _, rfl⟩
  exact ⟨w, buffer, read, wholeBlocks_read reach (by decide) read (by decide) rfl⟩

end Session

end PFS
