import PFS.Client.CacheContents
import PFS.Lib.Reachable

/-! # Cache maintenance is invisible

The view a client has of its open files: the cached byte if its block is in the
cache, else the file servers' byte.  Evicting, harvesting and flushing blocks
moves bytes between the two without changing the view, and `Cache::write`
changes it exactly where it says.  The servers' bytes are kept by descriptor;
`written` remembers which bytes have ever been written.
-/

namespace PFS

open Lib

/-- A client's cache and the file servers, as seen by one application. -/
structure FileView where
  cache : Cache
  store : Nat → Nat → UInt8
  written : Nat → Nat → Bool

namespace FileView

/-- The view of byte `b` of descriptor `fileDes`. -/
def view (s : FileView) (fileDes b : Nat) : UInt8 :=
  match s.cache.find fileDes (blockOf b) with
  | some block => block.data (b - blockOf b)
  | none => s.store fileDes b

/-- `PFSClient::flush`, for the block an operation has flushed, if any.  Its assertions are
    left out: cached blocks are of open files, and the file servers take them. -/
def flush (store : Nat → Nat → UInt8) : Option CacheBlock → Nat → Nat → UInt8
  | none => store
  | some block => Function.update store block.fdes (writeBlock (store block.fdes) block)

/-- A whole operation on the cache. -/
inductive Op where
  | readBlock (fileDes blockAddr : Nat)
  | write (fileDes offset size : Nat) (data : Nat → UInt8)
  | addBlock (fileDes blockAddr : Nat) (data : Nat → UInt8)
  | evictBlock (fileDes blockAddr : Nat)
  | harvest
  | flush

/-- A write stays inside one block; `addBlock` is for an absent block, with the
    data just fetched from the server, which is arbitrary where nothing has
    been written. -/
def allowed (s : FileView) : Op → Prop
  | .write _ offset size _ => 0 < size ∧ offset % pfsBlockSizeInBytes + size ≤ pfsBlockSizeInBytes
  | .addBlock fileDes blockAddr data => s.cache.find fileDes blockAddr = none ∧
      ∀ i, i < pfsBlockSizeInBytes → s.written fileDes (blockAddr + i) = true →
        data i = s.store fileDes (blockAddr + i)
  | _ => True

def exec (s : FileView) : Op → Option FileView
  | .readBlock fileDes blockAddr => some { s with cache := (s.cache.readBlock fileDes blockAddr).1 }
  | .write fileDes offset size data =>
      some { s with
        cache := (s.cache.write fileDes offset size data).1
        written := fun fileDes' b =>
          if (s.cache.write fileDes offset size data).2 ∧ fileDes' = fileDes ∧ offset ≤ b ∧ b < offset + size then true
          else s.written fileDes' b }
  | .addBlock fileDes blockAddr data => (s.cache.addBlock fileDes blockAddr data).map fun c => { s with cache := c }
  | .evictBlock fileDes blockAddr =>
      some { s with
        cache := (s.cache.evictBlock fileDes blockAddr).1
        store := flush s.store (s.cache.evictBlock fileDes blockAddr).2 }
  | .harvest => s.cache.harvestIteration.map fun r => { s with cache := r.1, store := flush s.store r.2 }
  | .flush => some { s with
      cache := s.cache.flushIteration.1, store := flush s.store s.cache.flushIteration.2 }

def machine : Machine FileView Op := ⟨allowed, exec⟩

/-- An empty cache; the servers may have anything. -/
def Initial (s : FileView) : Prop := s.cache = Cache.init

/-- Every cached byte that is not dirty and has ever been written is the servers' byte. -/
def Settled (s : FileView) : Prop :=
  ∀ fileDes b block, s.cache.find fileDes (blockOf b) = some block → block.dirty (b - blockOf b) = false →
    s.written fileDes b = true → block.data (b - blockOf b) = s.store fileDes b

/-- The invariant. -/
structure Inv (s : FileView) : Prop where
  wf : s.cache.WF
  aligned : ∀ fileDes a block, s.cache.find fileDes a = some block → a % pfsBlockSizeInBytes = 0
  settled : s.Settled

theorem flush_some {store : Nat → Nat → UInt8} {block : CacheBlock}
    (aligned : block.addr % pfsBlockSizeInBytes = 0) (fileDes b : Nat) : flush store (some block) fileDes b =
      if fileDes = block.fdes ∧ blockOf b = block.addr ∧ block.dirty (b - blockOf b) = true then
        block.data (b - blockOf b) else store fileDes b := by
  rw [flush]
  by_cases same : fileDes = block.fdes
  · subst same
    rw [Function.update_self, writeBlock_at aligned]
    simp only [true_and]
  · rw [Function.update_of_ne same, if_neg (fun h => same h.1)]

/-- A clean block has nothing to write back. -/
theorem flush_writtenBack {store : Nat → Nat → UInt8} {block : CacheBlock}
    (aligned : block.addr % pfsBlockSizeInBytes = 0) (mask : block.clean = true → ∀ i, block.dirty i = false) :
    flush store (Cache.writtenBack block) = flush store (some block) := by
  rw [Cache.writtenBack]
  split
  · next clean =>
      funext fileDes b
      rw [flush_some aligned, if_neg (fun h => by simp [mask clean] at h)]
      rfl
  · rfl

namespace Inv

variable {s : FileView}

/-- Only what can be found in the cache matters. -/
theorem congr (h : Inv s) (s' : FileView) (wf : s'.cache.WF) (contents : s'.cache.find = s.cache.find)
    (store : s'.store = s.store) (written : s'.written = s.written) :
    Inv s' ∧ ∀ fileDes b, s'.view fileDes b = s.view fileDes b := by
  refine ⟨⟨wf, ?_, ?_⟩, ?_⟩
  · rw [contents]
    exact h.aligned
  · rw [Settled, contents, store, written]
    exact h.settled
  · intro fileDes b
    rw [view, view, contents, store]

/-- After a block has been flushed, the servers have every written byte of it. -/
theorem flushed (h : Inv s) {fileDes b : Nat} {block : CacheBlock}
    (found : s.cache.find fileDes (blockOf b) = some block) (written : s.written fileDes b = true) :
    flush s.store (some block) fileDes b = block.data (b - blockOf b) := by
  obtain ⟨fdes, addr, -⟩ := h.wf.block found
  rw [flush_some (by rw [addr]; exact blockOf_aligned b)]
  split
  · rfl
  · next clean =>
      refine (h.settled fileDes b block found ?_ written).symm
      rw [← Bool.not_eq_true]
      exact fun dirty => clean ⟨fdes.symm, addr.symm, dirty⟩

/-- Flushing a block does not touch the bytes of other blocks. -/
theorem flushed_other (h : Inv s) {fileDes a fileDes' b : Nat} {block : CacheBlock}
    (found : s.cache.find fileDes a = some block) (other : ¬ (fileDes' = fileDes ∧ blockOf b = a)) :
    flush s.store (some block) fileDes' b = s.store fileDes' b := by
  obtain ⟨fdes, addr, -⟩ := h.wf.block found
  rw [flush_some (by rw [addr]; exact h.aligned _ _ _ found), if_neg]
  rw [fdes, addr]
  exact fun same => other ⟨same.1, same.2.1⟩

/-- One block changes. -/
theorem aligned_set (h : Inv s) {c : Cache} {fileDes a : Nat} {value : Option CacheBlock}
    (aligned : a % pfsBlockSizeInBytes = 0) (contents : c.find = Cache.set s.cache.find fileDes a value) :
    ∀ fileDes' a' block, c.find fileDes' a' = some block → a' % pfsBlockSizeInBytes = 0 := by
  intro fileDes' a' block found
  rw [contents, Cache.set] at found
  split at found
  · next key => rw [key.2]; exact aligned
  · exact h.aligned _ _ _ found

/-- A block that leaves the cache, after it has been written back. -/
theorem drop (h : Inv s) {s' : FileView} {fileDes a : Nat} {block : CacheBlock}
    (found : s.cache.find fileDes a = some block) (wf : s'.cache.WF)
    (contents : s'.cache.find = Cache.set s.cache.find fileDes a none)
    (store : s'.store = flush s.store (Cache.writtenBack block)) (written : s'.written = s.written) :
    Inv s' ∧ ∀ fileDes b, s.written fileDes b = true → s'.view fileDes b = s.view fileDes b := by
  obtain ⟨fdes, addr, mask⟩ := h.wf.block found
  rw [flush_writtenBack (by rw [addr]; exact h.aligned _ _ _ found) mask] at store
  constructor
  · refine ⟨wf, h.aligned_set (h.aligned _ _ _ found) contents, ?_⟩
    intro fileDes' b block' found' clean here
    rw [contents, Cache.set] at found'
    split at found'
    · cases found'
    · next other =>
        rw [written] at here
        rw [store, h.flushed_other found other]
        exact h.settled fileDes' b block' found' clean here
  · intro fileDes' b here
    simp only [view, contents, Cache.set]
    split
    · next block' found' =>
        split at found'
        · cases found'
        · next other => rw [found']
    · next missing =>
        split at missing
        · next key =>
            obtain ⟨rfl, rfl⟩ := key
            rw [found, store]
            exact h.flushed found here
        · next other =>
            rw [missing, store]
            exact h.flushed_other found other

/-- A block that stays in the cache, after it has been flushed. -/
theorem clean (h : Inv s) {s' : FileView} {fileDes a : Nat} {block : CacheBlock}
    (found : s.cache.find fileDes a = some block) (wf : s'.cache.WF)
    (contents : s'.cache.find = Cache.set s.cache.find fileDes a (some block.resetDirty))
    (store : s'.store = flush s.store (some block)) (written : s'.written = s.written) :
    Inv s' ∧ ∀ fileDes b, s.written fileDes b = true → s'.view fileDes b = s.view fileDes b := by
  constructor
  · refine ⟨wf, h.aligned_set (h.aligned _ _ _ found) contents, ?_⟩
    intro fileDes' b block' found' clean here
    rw [contents, Cache.set] at found'
    rw [written] at here
    split at found'
    · next key =>
        obtain ⟨rfl, rfl⟩ := key
        obtain rfl := Option.some.inj found'
        rw [store]
        exact (h.flushed found here).symm
    · next other =>
        rw [store, h.flushed_other found other]
        exact h.settled fileDes' b block' found' clean here
  · intro fileDes' b here
    simp only [view, contents, Cache.set]
    by_cases key : fileDes' = fileDes ∧ blockOf b = a
    · obtain ⟨rfl, rfl⟩ := key
      rw [if_pos ⟨rfl, rfl⟩, found]
      rfl
    · rw [if_neg key]
      cases found' : s.cache.find fileDes' (blockOf b) with
      | some block' => rfl
      | none =>
          rw [store]
          exact h.flushed_other found key

theorem evictBlock (h : Inv s) {fileDes a : Nat} {s' : FileView} (ran : s.exec (.evictBlock fileDes a) = some s') :
    Inv s' ∧ ∀ fileDes b, s.written fileDes b = true → s'.view fileDes b = s.view fileDes b := by
  obtain rfl := Option.some.inj ran
  obtain ⟨wf, contents, flushed⟩ := Cache.evictBlock_spec h.wf fileDes a
  cases found : s.cache.find fileDes a with
  | some block =>
      rw [found] at flushed
      exact h.drop found wf contents (by simp only [flushed, Option.bind_some]) rfl
  | none =>
      rw [Cache.set_same found] at contents
      rw [found, Option.bind_none] at flushed
      obtain ⟨inv, same⟩ := h.congr { s with cache := (s.cache.evictBlock fileDes a).1 } wf contents rfl rfl
      rw [flushed]
      exact ⟨inv, fun fileDes' b _ => same fileDes' b⟩

theorem harvest (h : Inv s) {s' : FileView} (ran : s.exec .harvest = some s') :
    Inv s' ∧ ∀ fileDes b, s.written fileDes b = true → s'.view fileDes b = s.view fileDes b := by
  obtain ⟨⟨c, flushed⟩, harvested, rfl⟩ := Option.map_eq_some_iff.mp ran
  obtain ⟨wf, fileDes, a, block, found, contents, rfl, -⟩ := Cache.harvestIteration_spec h.wf harvested
  exact h.drop found wf contents rfl rfl

theorem flush (h : Inv s) {s' : FileView} (ran : s.exec .flush = some s') :
    Inv s' ∧ ∀ fileDes b, s.written fileDes b = true → s'.view fileDes b = s.view fileDes b := by
  obtain rfl := Option.some.inj ran
  obtain ⟨wf, nothing | ⟨fileDes, a, block, found, flushed, contents⟩⟩ := Cache.flushIteration_spec h.wf
  · rw [nothing]
    exact ⟨h, fun _ _ _ => rfl⟩
  · exact h.clean found wf contents (by simp only [flushed]) rfl

theorem blockOf_inside {offset size b : Nat} (fits : offset % pfsBlockSizeInBytes + size ≤ pfsBlockSizeInBytes)
    (low : offset ≤ b) (high : b < offset + size) : blockOf b = blockOf offset := by
  simp only [blockOf, pfsBlockSizeInBytes] at fits ⊢
  omega

theorem write (h : Inv s) {fileDes offset size : Nat} {data : Nat → UInt8} {s' : FileView} (nonempty : 0 < size)
    (fits : offset % pfsBlockSizeInBytes + size ≤ pfsBlockSizeInBytes)
    (ran : s.exec (.write fileDes offset size data) = some s') : Inv s' ∧
      ((s.cache.write fileDes offset size data).2 = true →
        ∀ b, offset ≤ b → b < offset + size → s'.view fileDes b = data (b - offset)) ∧
      ∀ fileDes' b, ¬ (fileDes' = fileDes ∧ offset ≤ b ∧ b < offset + size) →
        s'.view fileDes' b = s.view fileDes' b := by
  obtain rfl := Option.some.inj ran
  obtain ⟨wf, answer, contents⟩ := Cache.write_spec h.wf fileDes offset data nonempty
  cases found : s.cache.find fileDes (blockOf offset) with
  | none =>
      rw [found, Option.map_none, Cache.set_same found] at contents
      rw [found, Option.isSome_none] at answer
      obtain ⟨inv, view⟩ := h.congr { s with cache := (s.cache.write fileDes offset size data).1 } wf contents rfl rfl
      simp only [answer, Bool.false_eq_true, false_and, if_false]
      exact ⟨inv, nofun, fun fileDes' b _ => view fileDes' b⟩
  | some block =>
      rw [found, Option.map_some] at contents
      rw [found, Option.isSome_some] at answer
      refine ⟨⟨wf, h.aligned_set (blockOf_aligned offset) contents, ?_⟩, ?_, ?_⟩
      · intro fileDes' b block' found' clean here
        simp only [contents, Cache.set] at found'
        split at found'
        · next key =>
            obtain ⟨rfl, same⟩ := key
            obtain rfl := Option.some.inj found'
            simp only [Cache.patch_dirty same] at clean
            split at clean
            · cases clean
            · next outside =>
                simp only [Cache.patch_data same, answer, true_and, if_neg outside] at here ⊢
                exact h.settled fileDes' b block (by rw [same]; exact found) clean here
        · next other =>
            refine h.settled fileDes' b block' found' clean ?_
            simp only at here
            rw [if_neg] at here
            · exact here
            · rintro ⟨-, rfl, low, high⟩
              exact other ⟨rfl, blockOf_inside fits low high⟩
      · intro _ b low high
        have same := blockOf_inside fits low high
        simp only [view, contents, Cache.set, same, and_self, if_true]
        rw [← same, Cache.patch_data same, if_pos ⟨low, high⟩]
      · intro fileDes' b other
        simp only [view, contents, Cache.set]
        by_cases key : fileDes' = fileDes ∧ blockOf b = blockOf offset
        · obtain ⟨rfl, same⟩ := key
          rw [if_pos ⟨rfl, same⟩]
          simp only [Cache.patch_data same, if_neg (fun inside => other ⟨rfl, inside⟩)]
          rw [same, found]
        · rw [if_neg key]

theorem addBlock (h : Inv s) {fileDes a : Nat} {data : Nat → UInt8} {s' : FileView}
    (absent : s.cache.find fileDes a = none)
    (fetched : ∀ i, i < pfsBlockSizeInBytes → s.written fileDes (a + i) = true → data i = s.store fileDes (a + i))
    (ran : s.exec (.addBlock fileDes a data) = some s') : Inv s' := by
  obtain ⟨c, added, rfl⟩ := Option.map_eq_some_iff.mp ran
  obtain ⟨wf, aligned, contents⟩ := Cache.addBlock_spec h.wf absent added
  refine ⟨wf, h.aligned_set aligned contents, ?_⟩
  intro fileDes' b block' found' clean here
  simp only [contents, Cache.set] at found'
  split at found'
  · next key =>
      obtain ⟨rfl, rfl⟩ := key
      obtain rfl := Option.some.inj found'
      have back : blockOf b + (b - blockOf b) = b := Nat.add_sub_cancel' (blockOf_le b)
      have small : b - blockOf b < pfsBlockSizeInBytes := by
        have := lt_blockOf_add b
        omega
      have same := fetched (b - blockOf b) small (by rw [back]; exact here)
      rw [back] at same
      exact same
  · exact h.settled fileDes' b block' found' clean here

theorem step (h : Inv s) {s' : FileView} (step : machine.Step s s') : Inv s' := by
  obtain ⟨op, allowed, ran⟩ := step
  cases op with
  | readBlock fileDes a =>
      obtain rfl := Option.some.inj ran
      obtain ⟨wf, same, -⟩ := Cache.readBlock_spec h.wf fileDes a
      exact (h.congr { s with cache := (s.cache.readBlock fileDes a).1 } wf same rfl rfl).1
  | write fileDes offset size data => exact (h.write allowed.1 allowed.2 ran).1
  | addBlock fileDes a data => exact h.addBlock allowed.1 allowed.2 ran
  | evictBlock fileDes a => exact (h.evictBlock ran).1
  | harvest => exact (h.harvest ran).1
  | flush => exact (h.flush ran).1

theorem initial (h : Initial s) : Inv s := by
  refine ⟨by rw [h]; exact Cache.init_wf, ?_, ?_⟩
  · intro fileDes a block found
    rw [h, Cache.init_find] at found
    cases found
  · intro fileDes b block found
    rw [h, Cache.init_find] at found
    cases found

end Inv

/-- In every reachable state: what is cached and not dirty agrees with the
    servers; evicting, harvesting and flushing leave the view of every written
    byte as it was; and a write that finds its block changes the view of exactly
    the bytes it was given. -/
theorem reachable_view {s : FileView} (reach : Reachable Initial machine.Step s) :
    s.Settled ∧
    (∀ op s', (∃ fileDes a, op = .evictBlock fileDes a) ∨ op = .harvest ∨ op = .flush → s.exec op = some s' →
      ∀ fileDes b, s.written fileDes b = true → s'.view fileDes b = s.view fileDes b) ∧
    ∀ fileDes offset size data s', 0 < size → offset % pfsBlockSizeInBytes + size ≤ pfsBlockSizeInBytes →
      (s.cache.write fileDes offset size data).2 = true → s.exec (.write fileDes offset size data) = some s' →
      (∀ b, offset ≤ b → b < offset + size → s'.view fileDes b = data (b - offset)) ∧
      ∀ fileDes' b, ¬ (fileDes' = fileDes ∧ offset ≤ b ∧ b < offset + size) → s.written fileDes' b = true →
        s'.view fileDes' b = s.view fileDes' b := by
  have inv := reach.invariant Inv (fun _ => Inv.initial) (fun _ _ inv => inv.step)
  refine ⟨inv.settled, ?_, ?_⟩
  · rintro op s' (⟨fileDes, a, rfl⟩ | rfl | rfl) ran
    · exact (inv.evictBlock ran).2
    · exact (inv.harvest ran).2
    · exact (inv.flush ran).2
  · intro fileDes offset size data s' nonempty fits done ran
    obtain ⟨-, own, others⟩ := inv.write nonempty fits ran
    exact ⟨own done, fun fileDes' b other _ => others fileDes' b other⟩

/-- Nothing has been written or cached yet. -/
def blank : FileView := ⟨Cache.init, fun _ _ => 0, fun _ _ => false⟩

/-- Block 0 of descriptor 3 is fetched and two of its bytes are written. -/
def fetchedBlock : FileView := (blank.exec (.addBlock 3 0 (fun _ => 0))).get rfl

def patchedBlock : FileView := (fetchedBlock.exec (.write 3 5 2 (fun _ => 9))).get rfl

theorem reachable_view_patchedBlock :
    patchedBlock.view 3 5 = 9 ∧ patchedBlock.written 3 5 = true ∧
      ∀ s', patchedBlock.exec .harvest = some s' → s'.view 3 5 = 9 := by
  have start : Reachable Initial machine.Step blank := Reachable.init rfl
  have fetchedReach : Reachable Initial machine.Step fetchedBlock :=
    start.tail ⟨.addBlock 3 0 (fun _ => 0), ⟨Cache.init_find 3 0, fun _ _ _ => rfl⟩, (Option.some_get _).symm⟩
  have reach : Reachable Initial machine.Step patchedBlock :=
    fetchedReach.tail ⟨.write 3 5 2 (fun _ => 9), ⟨by decide, by decide⟩, (Option.some_get _).symm⟩
  have nine : patchedBlock.view 3 5 = 9 :=
    ((reachable_view fetchedReach).2.2 3 5 2 (fun _ => 9) patchedBlock (by decide) (by decide) rfl
      (Option.some_get _).symm).1 5 (by decide) (by decide)
  refine ⟨nine, rfl, fun s' harvested => ?_⟩
  rw [(reachable_view reach).2.1 .harvest s' (.inr (.inl rfl)) harvested 3 5 rfl, nine]

end FileView

end PFS
