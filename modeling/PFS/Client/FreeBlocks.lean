import PFS.Client.CacheContents
import PFS.Client.CacheThreads

/-! # Counting the free blocks

What the steps of the threads do to the free-block counter and to the free-block
semaphore.  `addBlock` takes two units of the semaphore for one node and nobody gives a
unit back, so the semaphore agrees with the free list only until the first block is
added.  And the harvester decides to evict under one lock and evicts under another: it
finds a victim unless a thread takes the last block out in between.
-/

namespace PFS

open Lib

namespace Cache

/-- The nodes from one on along the free list, which has at most `blockCount`. -/
def freeFrom (c : Cache) : Nat → Option NodeId → List NodeId
  | 0, _ => []
  | _ + 1, none => []
  | fuel + 1, some node => node :: c.freeFrom fuel (c.freeNode node).next

/-- The nodes in the free list. -/
def freeList (c : Cache) : List NodeId := c.freeFrom blockCount c.freeListHead

theorem freeFrom_eq {c : Cache} : ∀ (xs : List NodeId) (before : Option NodeId) (fuel : Nat),
    Linked c.freeNode before xs none → xs.length ≤ fuel → c.freeFrom fuel xs.head? = xs := by
  intro xs
  induction xs with
  | nil => intro before fuel _ _; cases fuel <;> rfl
  | cons n rest ih =>
      intro before fuel linked enough
      obtain ⟨-, next, tail⟩ := linked
      rw [Option.or_none] at next
      cases fuel with
      | zero => cases enough
      | succ fuel => rw [List.head?_cons, freeFrom, next, ih (some n) fuel tail (Nat.le_of_succ_le_succ enough)]

/-- The counter and the semaphore of the free blocks are left alone. -/
def SameFree (c c' : Cache) : Prop :=
  c'.freeBlockCount = c.freeBlockCount ∧ c'.freeBlockSemaphore = c.freeBlockSemaphore

theorem readBlock_sameFree (c : Cache) (fileDes blockAddr : Nat) : c.SameFree (c.readBlock fileDes blockAddr).1 := by
  unfold readBlock
  split
  · exact ⟨rfl, rfl⟩
  · dsimp only
    split <;> exact ⟨rfl, rfl⟩

theorem write_sameFree (c : Cache) (fileDes offset size : Nat) (data : Nat → UInt8) :
    c.SameFree (c.write fileDes offset size data).1 := by
  unfold write
  split
  · exact ⟨rfl, rfl⟩
  · dsimp only
    split <;> exact ⟨rfl, rfl⟩

theorem unlinkBlock_sameFree {c : Cache} {fileDes blockAddr : Nat} {t : Taken}
    (unlinked : c.unlinkBlock fileDes blockAddr = some t) : c.SameFree t.cache := by
  obtain ⟨node, -, rfl⟩ := Option.map_eq_some_iff.mp unlinked
  dsimp only
  split <;> exact ⟨rfl, rfl⟩

theorem release_sameFree (c : Cache) (node : NodeId) : c.SameFree (c.release node).cache := by
  unfold release
  dsimp only
  split <;> exact ⟨rfl, rfl⟩

theorem harvest_sameFree {c : Cache} {t : Taken} (harvested : c.harvest = some t) : c.SameFree t.cache := by
  unfold harvest at harvested
  split at harvested
  · next node c' popped =>
      obtain rfl := Option.some.inj harvested
      obtain ⟨r, -, same⟩ := Option.map_eq_some_iff.mp popped
      obtain ⟨-, rfl⟩ := Prod.mk.inj same
      exact release_sameFree _ _
  · obtain ⟨⟨node, c'⟩, popped, rfl⟩ := Option.map_eq_some_iff.mp harvested
    obtain ⟨r, -, same⟩ := Option.map_eq_some_iff.mp popped
    obtain ⟨-, rfl⟩ := Prod.mk.inj same
    exact release_sameFree _ _

theorem flushIteration_sameFree (c : Cache) : c.SameFree c.flushIteration.1 := by
  unfold flushIteration
  split
  · exact ⟨rfl, rfl⟩
  · next node c' popped =>
      obtain ⟨r, -, same⟩ := Option.map_eq_some_iff.mp popped
      obtain ⟨-, rfl⟩ := Prod.mk.inj same
      exact ⟨rfl, rfl⟩

end Cache

theorem Rep.freeList_eq {c : Cache} {L : Layout} (h : Rep c L) : c.freeList = L.free := by
  have short : L.free.length ≤ blockCount := by
    have whole := h.partition.length_eq
    omega
  rw [Cache.freeList, h.free.head]
  exact Cache.freeFrom_eq L.free none blockCount h.free.linked short

/-! ## What a step does to the counts -/

namespace AppThread

/-- The `sem_wait`s of the current `addBlock` that are still to come. -/
def pending : AppThread → Nat
  | waiting _ _ _ waited => 2 - waited
  | _ => 0

/-- The blocks the thread is about to insert. -/
def adding : AppThread → Nat
  | waiting _ _ _ _ | taken _ _ _ _ | filled _ _ _ => 1
  | _ => 0

end AppThread

/-- Whether the step is the start of `addBlock`. -/
def CacheEvent.adds : CacheEvent → Nat
  | addBlock _ => 1
  | _ => 0

namespace CacheThreads

/-- The blocks that are not in the cache: free, or in the hands of a thread. -/
def busy (s : CacheThreads) : Nat := s.cache.freeBlockCount + s.held.length

/-- The blocks in the cache. -/
def cached (s : CacheThreads) : Nat := blockCount - s.busy

/-- The step is an `evictBlock` of another thread that finds its block. -/
def TakesOut (s : CacheThreads) : CacheEvent → Prop
  | .evict fileDes blockAddr | .revoke fileDes blockAddr => (s.cache.lookup fileDes blockAddr).isSome = true
  | _ => False

instance (s : CacheThreads) : (event : CacheEvent) → Decidable (s.TakesOut event)
  | .evict _ _ | .revoke _ _ => inferInstanceAs (Decidable (_ = true))
  | .readBlock _ _ | .write _ _ _ _ | .evicted | .addBlock _ | .waitFree | .takeFree | .fill | .insert
  | .revoked | .wake | .check | .harvest | .harvested | .flush => isFalse id

/-- The semaphore loses two units for each block that is added, and the blocks in the
    cache become at most one more for it; they become fewer only when a thread takes one
    out or the harvester does. -/
structure Counts (s s' : CacheThreads) (event : CacheEvent) : Prop where
  units : s'.cache.freeBlockSemaphore + s.app.pending + 2 * event.adds = s.cache.freeBlockSemaphore + s'.app.pending
  more : s.busy + s'.app.adding ≤ s'.busy + s.app.adding + event.adds
  fewer : s'.busy ≤ s.busy ∨ (s'.busy = s.busy + 1 ∧ (s.TakesOut event ∨ ∃ n, s'.harvester = .holding n))

theorem busy_eq (s : CacheThreads) : s.busy =
    s.cache.freeBlockCount + s.app.node.length + s.revoker.toList.length + s.harvester.node.length := by
  simp only [busy, held, List.length_append, Nat.add_assoc]

namespace Counts

variable {s s' : CacheThreads} {event : CacheEvent}

/-- A step that leaves the counters alone and moves no node. -/
theorem still (free : s.cache.SameFree s'.cache) (busy : s'.busy = s.busy)
    (pending : s'.app.pending = s.app.pending) (adding : s'.app.adding = s.app.adding) (adds : event.adds = 0) :
    Counts s s' event := by
  refine ⟨?_, ?_, .inl (Nat.le_of_eq busy)⟩
  · rw [free.2, pending, adds, Nat.mul_zero, Nat.add_zero]
  · rw [busy, adding, adds]
    exact Nat.le_refl _

theorem ready {app : AppThread} (ready : appReady app = true) :
    app.node = [] ∧ app.pending = 0 ∧ app.adding = 0 := by
  cases app with
  | idle | missed => exact ⟨rfl, rfl, rfl⟩
  | waiting | taken | filled | evicting => cases ready

/-- A call of the application thread that is over at once. -/
theorem call {c : Cache} {app : AppThread} (before : appReady s.app = true) (after : appReady app = true)
    (free : s.cache.SameFree c) (adds : event.adds = 0) : Counts s { s with cache := c, app := app } event := by
  obtain ⟨node, pending, adding⟩ := ready before
  obtain ⟨node', pending', adding'⟩ := ready after
  refine still free ?_ (pending'.trans pending.symm) (adding'.trans adding.symm) adds
  rw [busy_eq, busy_eq, node, free.1]
  simp only [node']

theorem readBlock {fileDes blockAddr : Nat} (ran : s.exec (.readBlock fileDes blockAddr) = some s') :
    Counts s s' (.readBlock fileDes blockAddr) := by
  simp only [exec, Option.ite_none_right_eq_some] at ran
  obtain ⟨before, ran⟩ := ran
  have free := s.cache.readBlock_sameFree fileDes blockAddr
  split at ran
  · next result =>
      rw [result] at free
      obtain rfl := Option.some.inj ran
      exact call before rfl free rfl
  · next result =>
      rw [result] at free
      obtain rfl := Option.some.inj ran
      exact call before rfl free rfl

theorem write {fileDes offset size : Nat} {data : Nat → UInt8}
    (ran : s.exec (.write fileDes offset size data) = some s') : Counts s s' (.write fileDes offset size data) := by
  simp only [exec, Option.ite_none_right_eq_some] at ran
  obtain ⟨before, ran⟩ := ran
  have free := s.cache.write_sameFree fileDes offset size data
  split at ran
  · next result =>
      rw [result] at free
      obtain rfl := Option.some.inj ran
      exact call before rfl free rfl
  · next result =>
      rw [result] at free
      obtain rfl := Option.some.inj ran
      exact call before rfl free rfl

/-- A node leaves the cache. -/
theorem out (free : s.cache.SameFree s'.cache) (busy : s'.busy = s.busy + 1) (pending : s'.app.pending = s.app.pending)
    (adding : s'.app.adding = s.app.adding) (adds : event.adds = 0)
    (taken : s.TakesOut event ∨ ∃ n, s'.harvester = .holding n) : Counts s s' event := by
  refine ⟨?_, ?_, .inr ⟨busy, taken⟩⟩
  · rw [free.2, pending, adds, Nat.mul_zero, Nat.add_zero]
  · rw [busy, adding, adds]
    omega

/-- A node goes to the free list. -/
theorem back {node : NodeId} (cache : s'.cache = (s.cache.addToFreeList node).1)
    (hands : s.held.length = s'.held.length + 1) (pending : s'.app.pending = s.app.pending)
    (adding : s'.app.adding = s.app.adding) (adds : event.adds = 0) : Counts s s' event := by
  have busy : s'.busy = s.busy := by
    simp only [CacheThreads.busy, cache, Cache.addToFreeList, hands]
    omega
  refine ⟨?_, ?_, .inl (Nat.le_of_eq busy)⟩
  · rw [cache, pending, adds]
    rfl
  · rw [busy, adding, adds]
    exact Nat.le_refl _

theorem takesOut_of_unlinked {fileDes blockAddr : Nat} {t : Cache.Taken}
    (unlinked : s.cache.unlinkBlock fileDes blockAddr = some t) :
    (s.cache.lookup fileDes blockAddr).isSome = true := by
  obtain ⟨n, found, -⟩ := Option.map_eq_some_iff.mp unlinked
  exact Option.isSome_iff_exists.mpr ⟨n, found⟩

theorem evicting_busy {t : Cache.Taken} (before : appReady s.app = true) (free : s.cache.SameFree t.cache) :
    CacheThreads.busy { s with cache := t.cache, app := .evicting t.node } = s.busy + 1 := by
  rw [busy_eq, busy_eq, (ready before).1, free.1]
  simp only [AppThread.node, List.length_singleton, List.length_nil]
  omega

theorem revoking_busy {t : Cache.Taken} (idle : s.revoker = none) (free : s.cache.SameFree t.cache) :
    CacheThreads.busy { s with cache := t.cache, revoker := some t.node } = s.busy + 1 := by
  rw [busy_eq, busy_eq, idle, free.1]
  simp only [Option.toList_some, Option.toList_none, List.length_singleton, List.length_nil]
  omega

theorem evict {fileDes blockAddr : Nat} (ran : s.exec (.evict fileDes blockAddr) = some s') :
    Counts s s' (.evict fileDes blockAddr) := by
  simp only [exec, Option.ite_none_right_eq_some] at ran
  obtain ⟨before, ran⟩ := ran
  split at ran
  · obtain rfl := Option.some.inj ran
    exact call before rfl ⟨rfl, rfl⟩ rfl
  · next t unlinked =>
      obtain rfl := Option.some.inj ran
      obtain ⟨-, pending, adding⟩ := ready before
      have free := Cache.unlinkBlock_sameFree unlinked
      exact out free (evicting_busy before free) pending.symm adding.symm rfl (.inl (takesOut_of_unlinked unlinked))

theorem evicted (ran : s.exec .evicted = some s') : Counts s s' .evicted := by
  simp only [exec] at ran
  split at ran
  · next node app =>
      obtain rfl := Option.some.inj ran
      refine back rfl ?_ (by rw [app]; rfl) (by rw [app]; rfl) rfl
      simp only [held, app, AppThread.node, List.length_append, List.length_singleton, List.length_nil]
      omega
  · cases ran

theorem addBlock {data : Nat → UInt8} (ran : s.exec (.addBlock data) = some s') : Counts s s' (.addBlock data) := by
  simp only [exec] at ran
  split at ran
  · next fileDes blockAddr app =>
      obtain ⟨-, ran⟩ := Option.ite_none_right_eq_some.mp ran
      obtain rfl := Option.some.inj ran
      have busy : CacheThreads.busy { s with app := .waiting fileDes blockAddr data 0 } = s.busy := by
        rw [busy_eq, busy_eq, app]
        rfl
      refine ⟨?_, ?_, .inl (Nat.le_of_eq busy)⟩
      · rw [app]
        rfl
      · rw [busy, app]
        exact Nat.le_refl _
  · cases ran

theorem waitFree (ran : s.exec .waitFree = some s') : Counts s s' .waitFree := by
  simp only [exec] at ran
  split at ran
  · next fileDes blockAddr data waited app =>
      obtain ⟨less, ran⟩ := Option.ite_none_right_eq_some.mp ran
      obtain ⟨c, granted, rfl⟩ := Option.map_eq_some_iff.mp ran
      obtain ⟨positive, granted⟩ := Option.ite_none_left_eq_some.mp granted
      obtain rfl := Option.some.inj granted
      refine ⟨?_, ?_, .inl ?_⟩
      · simp only [app, AppThread.pending, CacheEvent.adds]
        omega
      · rw [busy_eq, busy_eq, app]
        exact Nat.le_refl _
      · rw [busy_eq, busy_eq, app]
        exact Nat.le_refl _
  · cases ran

theorem takeFree {L : Layout} (h : Consistent s L) (ran : s.exec .takeFree = some s') : Counts s s' .takeFree := by
  simp only [exec] at ran
  split at ran
  · next fileDes blockAddr data waited app =>
      obtain ⟨both, ran⟩ := Option.ite_none_right_eq_some.mp ran
      obtain ⟨⟨node, c⟩, popped, rfl⟩ := Option.map_eq_some_iff.mp ran
      have positive : 0 < s.cache.freeBlockCount := by
        have enough := h.units
        have : blockCount = 2048 := rfl
        rw [h.rep.free.count]
        omega
      obtain ⟨first, -, popped⟩ := Option.bind_eq_some_iff.mp popped
      obtain ⟨second, -, popped⟩ := Option.bind_eq_some_iff.mp popped
      obtain ⟨rfl, rfl⟩ := Prod.mk.inj (Option.some.inj popped)
      refine ⟨?_, ?_, .inl ?_⟩
      · simp only [app, AppThread.pending, CacheEvent.adds]
        omega
      · simp only [busy_eq, app, AppThread.node, AppThread.adding, CacheEvent.adds, List.length_singleton, List.length_nil]
        omega
      · simp only [busy_eq, app, AppThread.node, List.length_singleton, List.length_nil]
        omega
  · cases ran

theorem fill (ran : s.exec .fill = some s') : Counts s s' .fill := by
  simp only [exec] at ran
  split at ran
  · next fileDes blockAddr data node app =>
      obtain rfl := Option.some.inj ran
      refine still ⟨rfl, rfl⟩ ?_ (by rw [app]; rfl) (by rw [app]; rfl) rfl
      rw [busy_eq, busy_eq, app]
      rfl
  · cases ran

theorem insert (ran : s.exec .insert = some s') : Counts s s' .insert := by
  simp only [exec] at ran
  split at ran
  · next fileDes blockAddr node app =>
      obtain rfl := Option.some.inj ran
      have busy : s.busy = CacheThreads.busy { s with cache := s.cache.insertNode node, app := .idle } + 1 := by
        simp only [busy_eq, app, AppThread.node, Cache.insertNode, Cache.addToHashmap, Cache.addToRecencyList,
          List.length_singleton, List.length_nil]
        omega
      refine ⟨?_, ?_, .inl (by omega)⟩
      · rw [app]
        rfl
      · rw [busy, app]
        exact Nat.le_refl _
  · cases ran

theorem revoke {fileDes blockAddr : Nat} (ran : s.exec (.revoke fileDes blockAddr) = some s') :
    Counts s s' (.revoke fileDes blockAddr) := by
  simp only [exec] at ran
  split at ran
  · next idle =>
      split at ran
      · obtain rfl := Option.some.inj ran
        exact still ⟨rfl, rfl⟩ rfl rfl rfl rfl
      · next t unlinked =>
          obtain rfl := Option.some.inj ran
          have free := Cache.unlinkBlock_sameFree unlinked
          exact out free (revoking_busy idle free) rfl rfl rfl (.inl (takesOut_of_unlinked unlinked))
  · cases ran

theorem revoked (ran : s.exec .revoked = some s') : Counts s s' .revoked := by
  simp only [exec] at ran
  split at ran
  · next node holding =>
      obtain rfl := Option.some.inj ran
      refine back rfl ?_ rfl rfl rfl
      simp only [held, holding, Option.toList_some, Option.toList_none, List.length_append, List.length_singleton,
        List.length_nil]
      omega
  · cases ran

theorem wake (ran : s.exec .wake = some s') : Counts s s' .wake := by
  simp only [exec] at ran
  split at ran
  · next sleeping =>
      obtain ⟨-, ran⟩ := Option.ite_none_left_eq_some.mp ran
      obtain rfl := Option.some.inj ran
      refine still ⟨rfl, rfl⟩ ?_ rfl rfl rfl
      rw [busy_eq, busy_eq, sleeping]
      rfl
  · cases ran

theorem check (ran : s.exec .check = some s') : Counts s s' .check := by
  simp only [exec] at ran
  split at ran
  · next woken =>
      obtain rfl := Option.some.inj ran
      refine still ⟨rfl, rfl⟩ ?_ rfl rfl rfl
      rw [busy_eq, busy_eq, woken]
      split <;> rfl
  · cases ran

theorem harvest (ran : s.exec .harvest = some s') : Counts s s' .harvest := by
  simp only [exec] at ran
  split at ran
  · next scanning =>
      obtain ⟨t, harvested, rfl⟩ := Option.map_eq_some_iff.mp ran
      have free := Cache.harvest_sameFree harvested
      refine out free ?_ rfl rfl rfl (.inr ⟨t.node, rfl⟩)
      rw [busy_eq, busy_eq, scanning, free.1]
      rfl
  · cases ran

theorem harvested (ran : s.exec .harvested = some s') : Counts s s' .harvested := by
  simp only [exec] at ran
  split at ran
  · next node holding =>
      obtain rfl := Option.some.inj ran
      have empty : (if (s.cache.addToFreeList node).2 then Harvester.scanning else Harvester.sleeping).node = [] := by
        split <;> rfl
      refine back rfl ?_ rfl rfl rfl
      rw [held, held, empty, holding]
      simp only [Harvester.node, List.length_append, List.length_singleton, List.length_nil]
  · cases ran

theorem flush (ran : s.exec .flush = some s') : Counts s s' .flush := by
  obtain rfl := Option.some.inj ran
  have free := s.cache.flushIteration_sameFree
  refine still free ?_ rfl rfl rfl
  rw [busy_eq, busy_eq, free.1]

/-- What any step does to the counts. -/
theorem step {L : Layout} (h : Consistent s L) (ran : s.exec event = some s') : Counts s s' event := by
  cases event with
  | readBlock fileDes blockAddr => exact readBlock ran
  | write fileDes offset size data => exact write ran
  | evict fileDes blockAddr => exact evict ran
  | evicted => exact evicted ran
  | addBlock data => exact addBlock ran
  | waitFree => exact waitFree ran
  | takeFree => exact takeFree h ran
  | fill => exact fill ran
  | insert => exact insert ran
  | revoke fileDes blockAddr => exact revoke ran
  | revoked => exact revoked ran
  | wake => exact wake ran
  | check => exact check ran
  | harvest => exact harvest ran
  | harvested => exact harvested ran
  | flush => exact flush ran

end Counts

/-! ## Filling and emptying the cache -/

/-- The application thread misses a block and adds it. -/
def addSteps (fileDes blockAddr : Nat) : List CacheEvent :=
  [.readBlock fileDes blockAddr, .addBlock (fun _ => 0), .waitFree, .waitFree, .takeFree, .fill, .insert]

/-- The first `n` blocks of descriptor 1 are added. -/
def adds (n : Nat) : List CacheEvent := (List.range n).flatMap fun i => addSteps 1 (i * pfsBlockSizeInBytes)

/-- The blocks of descriptor 1 are evicted. -/
def evictions (n : Nat) : List CacheEvent :=
  (List.range n).flatMap fun i => [.evict 1 (i * pfsBlockSizeInBytes), .evicted]

theorem run_addSteps {c c' : Cache} {fileDes blockAddr : Nat} (absent : c.find fileDes blockAddr = none)
    (added : c.addBlock fileDes blockAddr (fun _ => 0) = some c') :
    machine.run { cache := c } (addSteps fileDes blockAddr) = some { cache := c' } := by
  obtain ⟨aligned, added⟩ := Option.ite_none_left_eq_some.mp added
  obtain ⟨c₁, first, added⟩ := Option.bind_eq_some_iff.mp added
  obtain ⟨c₂, second, added⟩ := Option.bind_eq_some_iff.mp added
  obtain ⟨⟨node, c₃⟩, popped, added⟩ := Option.bind_eq_some_iff.mp added
  obtain rfl := Option.some.inj added
  have aligned : blockAddr % pfsBlockSizeInBytes = 0 := not_not.mp aligned
  have one : 0 + 1 < 2 := by decide
  simp only [addSteps, Machine.run, machine, allowed, exec, appReady, Cache.readBlock_missing absent, aligned, first,
    second, popped, if_true, Option.bind_some, Option.map_some, Nat.zero_lt_succ, one]
  rfl

theorem run_evictions {c : Cache} {fileDes blockAddr : Nat} {harvester : Harvester}
    (present : (c.find fileDes blockAddr).isSome = true) :
    machine.run { cache := c, harvester } [.evict fileDes blockAddr, .evicted] =
      some { cache := (c.evictBlock fileDes blockAddr).1, harvester } := by
  obtain ⟨node, found⟩ : ∃ node, c.lookup fileDes blockAddr = some node := by
    rw [← Option.isSome_iff_exists]
    rwa [Cache.find, Option.isSome_map] at present
  obtain ⟨t, unlinked⟩ : ∃ t, c.unlinkBlock fileDes blockAddr = some t := ⟨_, by rw [Cache.unlinkBlock, found]; rfl⟩
  simp only [Machine.run, machine, allowed, exec, appReady, Cache.evictBlock, unlinked, if_true, Option.bind_some]
  rfl

/-- `addBlock` of an absent block, while the semaphore has the two units it takes. -/
theorem addBlock_counts {c : Cache} (wf : c.WF) (fileDes : Nat) {blockAddr : Nat}
    (aligned : blockAddr % pfsBlockSizeInBytes = 0) (units : 2 ≤ c.freeBlockSemaphore) (data : Nat → UInt8) :
    ∃ c', c.addBlock fileDes blockAddr data = some c' ∧ c'.freeBlockSemaphore + 2 = c.freeBlockSemaphore ∧
      c'.freeBlockCount + 1 = c.freeBlockCount ∧
      (c'.freeBlockCount ≤ harvestLow → c'.harvesterSemaphore ≠ 0) := by
  obtain ⟨L, rep, -, enough⟩ := wf
  have several : 2 ≤ L.free.length := by
    have : blockCount = 2048 := rfl
    omega
  obtain ⟨n, m, rest, free⟩ : ∃ n m rest, L.free = n :: m :: rest := by
    match L.free, several with
    | n :: m :: rest, _ => exact ⟨n, m, rest, rfl⟩
  have count : c.freeBlockCount = L.free.length := rep.free.count
  have rep₂ := rep.semaphores (c.freeBlockSemaphore - 1 - 1) c.harvesterSemaphore
  obtain ⟨c₃, popped, -, -, -, sem⟩ := rep₂.popFree free
  obtain ⟨count₃, harvester₃⟩ : c₃.freeBlockCount = c.freeBlockCount - 1 ∧
      c₃.harvesterSemaphore =
        if c.freeBlockCount - 1 ≤ harvestLow then c.harvesterSemaphore + 1 else c.harvesterSemaphore := by
    obtain ⟨first, -, popped⟩ := Option.bind_eq_some_iff.mp popped
    obtain ⟨second, -, popped⟩ := Option.bind_eq_some_iff.mp popped
    obtain ⟨-, rfl⟩ := Prod.mk.inj (Option.some.inj popped)
    exact ⟨rfl, rfl⟩
  have units₁ : c.freeBlockSemaphore ≠ 0 := by omega
  have units₂ : c.freeBlockSemaphore - 1 ≠ 0 := by omega
  refine ⟨(c₃.fillNode n fileDes blockAddr data).insertNode n, ?_, ?_, ?_, ?_⟩
  · simp only [Cache.addBlock, Cache.waitFree, aligned, units₁, units₂, popped, ne_eq, not_true_eq_false, if_false,
      Option.bind_eq_bind, Option.bind_some]
  · have same : ((c₃.fillNode n fileDes blockAddr data).insertNode n).freeBlockSemaphore =
        c.freeBlockSemaphore - 1 - 1 := sem
    omega
  · have same : ((c₃.fillNode n fileDes blockAddr data).insertNode n).freeBlockCount = c.freeBlockCount - 1 := count₃
    omega
  · intro low
    have same : ((c₃.fillNode n fileDes blockAddr data).insertNode n).freeBlockCount = c.freeBlockCount - 1 := count₃
    have harvester : ((c₃.fillNode n fileDes blockAddr data).insertNode n).harvesterSemaphore =
        c.harvesterSemaphore + 1 := by
      refine harvester₃.trans (if_pos ?_)
      rwa [same] at low
    omega

/-- The cache with the first blocks of descriptor 1 from `low` on. -/
structure HasBlocks (c : Cache) (low high : Nat) : Prop where
  wf : c.WF
  blocks : ∀ fd a, (c.find fd a).isSome = true ↔ fd = 1 ∧ ∃ i, low ≤ i ∧ i < high ∧ a = i * pfsBlockSizeInBytes

/-- After `n` additions; the semaphore lets 1024 of them through. -/
theorem run_adds {n : Nat} (few : 2 * n ≤ blockCount) : ∃ c, machine.run { cache := Cache.init } (adds n) =
      some { cache := c } ∧ HasBlocks c 0 n ∧ c.freeBlockSemaphore + 2 * n = blockCount ∧
      c.freeBlockCount + n = blockCount ∧
      (0 < n → c.freeBlockCount ≤ harvestLow → c.harvesterSemaphore ≠ 0) := by
  induction n with
  | zero =>
      refine ⟨Cache.init, rfl, ⟨Cache.init_wf, fun fd a => ?_⟩, rfl, rfl, fun none => absurd none (Nat.lt_irrefl 0)⟩
      rw [Cache.init_find]
      refine iff_of_false Bool.false_ne_true ?_
      rintro ⟨-, i, -, less, -⟩
      cases less
  | succ n ih =>
      obtain ⟨c, ran, has, units, count, -⟩ := ih (by omega)
      have absent : c.find 1 (n * pfsBlockSizeInBytes) = none := by
        rw [← Option.not_isSome_iff_eq_none, has.blocks]
        rintro ⟨-, i, -, less, same⟩
        simp only [pfsBlockSizeInBytes] at same
        omega
      obtain ⟨c', added, units', count', wakes⟩ := addBlock_counts has.wf 1 (Nat.mul_mod_left n pfsBlockSizeInBytes)
        (by omega) (fun _ => 0)
      obtain ⟨wf', -, contents⟩ := Cache.addBlock_spec has.wf absent added
      refine ⟨c', ?_, ⟨wf', fun fd a => ?_⟩, by omega, by omega, fun _ => wakes⟩
      · rw [adds, List.range_succ, List.flatMap_append, List.flatMap_singleton, Machine.run_append]
        rw [adds] at ran
        rw [ran, Option.bind_some]
        exact run_addSteps absent added
      · rw [contents, Cache.set]
        split
        · next key =>
            refine iff_of_true rfl ⟨key.1, n, Nat.zero_le n, Nat.lt_succ_self n, key.2⟩
        · next other =>
            rw [has.blocks]
            constructor
            · rintro ⟨mine, i, low, less, here⟩
              exact ⟨mine, i, low, by omega, here⟩
            · rintro ⟨mine, i, low, less, here⟩
              refine ⟨mine, i, low, ?_, here⟩
              have different : i ≠ n := by
                rintro rfl
                exact other ⟨mine, here⟩
              omega

/-- After the first `n` of them have been evicted. -/
theorem run_evicts {c : Cache} (harvester : Harvester) {n high : Nat} (has : HasBlocks c 0 high) (less : n ≤ high) :
    ∃ c', machine.run { cache := c, harvester } (evictions n) = some { cache := c', harvester } ∧
      HasBlocks c' n high := by
  induction n with
  | zero => exact ⟨c, rfl, has⟩
  | succ n ih =>
      obtain ⟨c₁, ran, has₁⟩ := ih (by omega)
      have present : (c₁.find 1 (n * pfsBlockSizeInBytes)).isSome = true :=
        (has₁.blocks _ _).mpr ⟨rfl, n, Nat.le_refl n, less, rfl⟩
      obtain ⟨wf, contents, -⟩ := Cache.evictBlock_spec has₁.wf 1 (n * pfsBlockSizeInBytes)
      refine ⟨_, ?_, wf, fun fd a => ?_⟩
      · rw [evictions, List.range_succ, List.flatMap_append, List.flatMap_singleton, Machine.run_append]
        rw [evictions] at ran
        rw [ran, Option.bind_some]
        exact run_evictions present
      · rw [contents, Cache.set]
        split
        · next key =>
            refine iff_of_false Bool.false_ne_true ?_
            rintro ⟨-, i, low, -, here⟩
            have same := key.2
            simp only [pfsBlockSizeInBytes] at here same
            omega
        · next other =>
            rw [has₁.blocks]
            constructor
            · rintro ⟨mine, i, low, less', here⟩
              refine ⟨mine, i, ?_, less', here⟩
              have different : i ≠ n := by
                rintro rfl
                exact other ⟨mine, here⟩
              omega
            · rintro ⟨mine, i, low, less', here⟩
              exact ⟨mine, i, by omega, less', here⟩

/-! ## The harvester's victim -/

/-- The cached blocks of a consistent state are those in the two lists. -/
theorem Consistent.cached_eq {s : CacheThreads} {L : Layout} (h : Consistent s L) :
    s.cached = L.recency.length + L.dirty.length := by
  have whole := h.rep.partition.length_eq
  rw [cached, busy, h.rep.free.count, ← h.held]
  omega

theorem hands_le (s : CacheThreads) : s.app.node.length ≤ 1 ∧ s.revoker.toList.length ≤ 1 := by
  constructor
  · cases s.app with
    | idle | missed | waiting => exact Nat.zero_le 1
    | taken | filled | evicting => exact Nat.le_refl 1
  · cases s.revoker with
    | none => exact Nat.zero_le 1
    | some _ => exact Nat.le_refl 1

/-- No thread takes the last cached block out while the harvester, having decided to
    evict, has not yet done it. -/
def LeavesOne (s : CacheThreads) (event : CacheEvent) : Prop :=
  s.TakesOut event → s.harvester = .scanning → 1 < s.cached

/-- The runs in which every step leaves the harvester a block. -/
def leaving : Machine CacheThreads CacheEvent := ⟨fun s event => allowed s event ∧ s.LeavesOne event, exec⟩

/-- The step is one of the harvester. -/
def ofHarvester : CacheEvent → Bool
  | .wake | .check | .harvest | .harvested => true
  | _ => false

theorem exec_harvester {s s' : CacheThreads} {event : CacheEvent} (ran : s.exec event = some s')
    (other : ofHarvester event = false) : s'.harvester = s.harvester := by
  cases event with
  | wake | check | harvest | harvested => cases other
  | readBlock | write | evict | evicted | addBlock | waitFree | takeFree | fill | insert | revoke | revoked | flush =>
      simp only [exec] at ran
      grind [Option.map_eq_some_iff]

/-- The harvester decides to evict only while few blocks are free. -/
theorem scanning_after {s s' : CacheThreads} {event : CacheEvent} (ran : s.exec event = some s')
    (scanning : s'.harvester = .scanning) : s.harvester = .scanning ∨ s'.busy < harvestHigh + 2 := by
  by_cases mine : ofHarvester event = false
  · left
    rw [← exec_harvester ran mine]
    exact scanning
  · right
    obtain ⟨app, revoker⟩ := s'.hands_le
    have none : s'.harvester.node.length = 0 := by rw [scanning]; rfl
    cases event with
    | wake =>
        simp only [exec] at ran
        split at ran
        · obtain ⟨-, ran⟩ := Option.ite_none_left_eq_some.mp ran
          obtain rfl := Option.some.inj ran
          cases scanning
        · cases ran
    | check =>
        simp only [exec] at ran
        split at ran
        · obtain rfl := Option.some.inj ran
          simp only [ite_eq_left_iff, reduceCtorEq, imp_false, not_not] at scanning
          rw [busy_eq]
          simp only at app revoker none ⊢
          omega
        · cases ran
    | harvest =>
        simp only [exec] at ran
        split at ran
        · obtain ⟨t, -, rfl⟩ := Option.map_eq_some_iff.mp ran
          cases scanning
        · cases ran
    | harvested =>
        simp only [exec] at ran
        split at ran
        · obtain rfl := Option.some.inj ran
          simp only [ite_eq_left_iff, reduceCtorEq, imp_false, not_not] at scanning
          have few := of_decide_eq_true scanning
          rw [busy_eq]
          simp only [Cache.addToFreeList] at app revoker none few ⊢
          omega
        · cases ran
    | readBlock | write | evict | evicted | addBlock | waitFree | takeFree | fill | insert | revoke | revoked | flush =>
        exact absurd rfl mine

/-- The invariant. -/
def Ready (s : CacheThreads) : Prop := (∃ L, Consistent s L) ∧ (s.harvester = .scanning → 0 < s.cached)

theorem Ready.step {s s' : CacheThreads} (ready : s.Ready) (step : leaving.Step s s') : s'.Ready := by
  obtain ⟨event, ⟨allowed, leaves⟩, ran⟩ := step
  obtain ⟨⟨L, h⟩, before⟩ := ready
  obtain ⟨L', h'⟩ := h.step ⟨event, allowed, ran⟩
  refine ⟨⟨L', h'⟩, fun scanning => ?_⟩
  have small : blockCount = 2048 := rfl
  have high : harvestHigh = 2020 := rfl
  rcases scanning_after ran scanning with early | few
  · have left := before early
    rcases (Counts.step h ran).fewer with fewer | ⟨one, out | ⟨n, holding⟩⟩
    · simp only [cached] at left ⊢
      omega
    · have more := leaves out early
      simp only [cached] at more ⊢
      omega
    · rw [scanning] at holding
      cases holding
  · simp only [cached]
    omega

/-- In a run that leaves the harvester a block, it finds a victim whenever it is about
    to evict. -/
theorem scanning_finds {s : CacheThreads} (reach : Reachable Initial leaving.Step s)
    (scanning : s.harvester = .scanning) :
    (s.cache.recencyList.back ≠ none ∨ s.cache.dirtyList.back ≠ none) ∧ ∃ t, s.cache.harvest = some t := by
  obtain ⟨⟨L, h⟩, left⟩ := reach.invariant Ready
    (fun s first => ⟨⟨_, Consistent.initial first⟩, by rw [first]; exact fun scanning => nomatch scanning⟩)
    (fun _ _ ready step => ready.step step)
  have nonempty := left scanning
  rw [h.cached_eq] at nonempty
  obtain ⟨n, victim⟩ : ∃ n, L.victim = some n := by
    rw [← Option.isSome_iff_exists, Layout.victim, Option.isSome_or, Bool.or_eq_true, List.getLast?_isSome,
      List.getLast?_isSome]
    by_contra empty
    push Not at empty
    rw [empty.1, empty.2] at nonempty
    cases nonempty
  obtain ⟨t, harvested, -⟩ := h.rep.harvest victim
  refine ⟨?_, t, harvested⟩
  rw [h.rep.recency.back, h.rep.dirty.back]
  rcases Option.or_eq_some_iff.mp victim with last | ⟨-, last⟩
  · left
    rw [last]
    exact Option.some_ne_none n
  · right
    rw [last]
    exact Option.some_ne_none n

theorem harvest_none {c : Cache} {L : Layout} (rep : Rep c L) (nothing : ∀ n, ¬ L.Cached n) : c.harvest = none := by
  cases harvested : c.harvest with
  | none => rfl
  | some t =>
      obtain ⟨n, victim⟩ := rep.victim_of_harvest harvested
      exact (nothing n (Rep.victim_cached victim)).elim

theorem takesOut_busy {s s' : CacheThreads} {event : CacheEvent} (ran : s.exec event = some s')
    (out : s.TakesOut event) : s'.busy = s.busy + 1 := by
  cases event with
  | evict fileDes blockAddr =>
      obtain ⟨n, found⟩ := Option.isSome_iff_exists.mp out
      simp only [exec, Option.ite_none_right_eq_some] at ran
      obtain ⟨before, ran⟩ := ran
      split at ran
      · next missing =>
          rw [Cache.unlinkBlock, found] at missing
          cases missing
      · next t unlinked =>
          obtain rfl := Option.some.inj ran
          exact Counts.evicting_busy before (Cache.unlinkBlock_sameFree unlinked)
  | revoke fileDes blockAddr =>
      obtain ⟨n, found⟩ := Option.isSome_iff_exists.mp out
      simp only [exec] at ran
      split at ran
      · next idle =>
          split at ran
          · next missing =>
              rw [Cache.unlinkBlock, found] at missing
              cases missing
          · next t unlinked =>
              obtain rfl := Option.some.inj ran
              exact Counts.revoking_busy idle (Cache.unlinkBlock_sameFree unlinked)
      · cases ran
  | readBlock | write | evicted | addBlock | waitFree | takeFree | fill | insert | revoked | wake | check | harvest
  | harvested | flush => exact out.elim

/-- A step that does not leave the harvester a block leaves it without a victim. -/
theorem not_leavesOne {s s' : CacheThreads} {event : CacheEvent} {L : Layout} (h : Consistent s L)
    (step : allowed s event) (ran : s.exec event = some s') (takes : ¬ s.LeavesOne event) :
    s'.harvester = .scanning ∧ s'.cache.harvest = none := by
  unfold LeavesOne at takes
  push Not at takes
  obtain ⟨out, scanning, last⟩ := takes
  obtain ⟨L', h'⟩ := h.step ⟨event, step, ran⟩
  have kept : s'.harvester = .scanning := by
    rw [← scanning]
    apply exec_harvester ran
    cases event with
    | evict | revoke => rfl
    | readBlock | write | evicted | addBlock | waitFree | takeFree | fill | insert | revoked | wake | check | harvest
    | harvested | flush => exact out.elim
  have empty : L'.recency.length + L'.dirty.length = 0 := by
    have more := takesOut_busy ran out
    rw [← h'.cached_eq]
    simp only [cached] at last ⊢
    omega
  refine ⟨kept, harvest_none h'.rep ?_⟩
  rintro n (member | member)
  · have := List.length_pos_of_mem member
    omega
  · have := List.length_pos_of_mem member
    omega

/-- A run that takes nothing out leaves the harvester a block. -/
theorem reachable_leaving {s s' : CacheThreads} {events : List CacheEvent}
    (keeps : ∀ event ∈ events, ∀ s : CacheThreads, ¬ s.TakesOut event) (reach : Reachable Initial leaving.Step s)
    (ran : machine.run s events = some s') : Reachable Initial leaving.Step s' := by
  induction events generalizing s with
  | nil =>
      obtain rfl := Option.some.inj ran
      exact reach
  | cons event rest ih =>
      obtain ⟨allowed, s₁, first, ran⟩ := machine.run_cons.mp ran
      have leaves : s.LeavesOne event := fun out => absurd out (keeps event List.mem_cons_self s)
      exact ih (fun event member => keeps event (List.mem_cons_of_mem _ member))
        (reach.tail ⟨event, ⟨allowed, leaves⟩, first⟩) ran

theorem adds_keeps {n : Nat} : ∀ event ∈ adds n, ∀ s : CacheThreads, ¬ s.TakesOut event := by
  intro event member s
  obtain ⟨i, -, member⟩ := List.mem_flatMap.mp member
  simp only [addSteps, List.mem_cons, List.not_mem_nil, or_false] at member
  rcases member with rfl | rfl | rfl | rfl | rfl | rfl | rfl
  all_goals exact id

/-- The harvester is woken by the addition of a block and decides to evict. -/
theorem run_decides : ∃ c, machine.run { cache := Cache.init } (adds 48 ++ [.wake, .check]) =
    some { cache := c, harvester := .scanning } ∧ HasBlocks c 0 48 := by
  obtain ⟨c, ran, has, -, count, wakes⟩ := run_adds (n := 48) (by decide)
  have large : blockCount = 2048 := rfl
  have low : harvestLow = 2000 := rfl
  have high : harvestHigh = 2020 := rfl
  have woken : c.harvesterSemaphore ≠ 0 := wakes (by decide) (by omega)
  have few : c.freeBlockCount < harvestHigh := by omega
  obtain ⟨wf, contents⟩ := Cache.harvesterSemaphore_spec has.wf (c.harvesterSemaphore - 1)
  refine ⟨{ c with harvesterSemaphore := c.harvesterSemaphore - 1 }, ?_, wf, ?_⟩
  · rw [Machine.run_append, ran, Option.bind_some]
    simp only [Machine.run, machine, allowed, exec, woken, few, if_true, if_false, Option.bind_some]
  · rw [contents]
    exact has.blocks

theorem scanning_finds_filled : ∃ s, machine.run { cache := Cache.init } (adds 48 ++ [.wake, .check]) = some s ∧
    s.harvester = .scanning ∧ ∃ t, s.cache.harvest = some t := by
  obtain ⟨c, ran, -⟩ := run_decides
  have keeps : ∀ event ∈ adds 48 ++ [.wake, .check], ∀ s : CacheThreads, ¬ s.TakesOut event := by
    intro event member s
    rcases List.mem_append.mp member with member | member
    · exact adds_keeps event member s
    · simp only [List.mem_cons, List.not_mem_nil, or_false] at member
      rcases member with rfl | rfl
      all_goals exact id
  exact ⟨_, ran, rfl, (scanning_finds (reachable_leaving keeps (Reachable.init rfl) ran) rfl).2⟩

/-- The application thread closes the file between the decision and the eviction: the
    harvester is about to evict and there is nothing to evict. -/
theorem scanning_overtaken : ∃ s,
    machine.run { cache := Cache.init } (adds 48 ++ [.wake, .check] ++ evictions 48) = some s ∧
      s.harvester = .scanning ∧ s.cache.recencyList.back = none ∧ s.cache.dirtyList.back = none ∧
      s.cache.harvest = none := by
  obtain ⟨c, ran, has⟩ := run_decides
  obtain ⟨c', ran', has'⟩ := run_evicts .scanning has (Nat.le_refl 48)
  obtain ⟨L, rep, -⟩ := has'.wf
  have nothing : ∀ n, ¬ L.Cached n := by
    intro n cached
    have found : c'.find (c'.block n).fdes (c'.block n).addr = some (c'.block n) :=
      rep.find_eq_some.mpr ⟨n, cached, rfl, rfl, rfl⟩
    obtain ⟨-, i, low, high, -⟩ := (has'.blocks _ _).mp (by rw [found]; rfl)
    omega
  have recency : L.recency = [] := List.eq_nil_iff_forall_not_mem.mpr fun n member => nothing n (.inl member)
  have dirty : L.dirty = [] := List.eq_nil_iff_forall_not_mem.mpr fun n member => nothing n (.inr member)
  refine ⟨{ cache := c', harvester := .scanning }, ?_, rfl, ?_, ?_, ?_⟩
  · rw [Machine.run_append, ran, Option.bind_some]
    exact ran'
  · rw [rep.recency.back, recency]
    rfl
  · rw [rep.dirty.back, dirty]
    rfl
  · exact harvest_none rep nothing

/-! ## The semaphore -/

/-- The number of `addBlock`s in a run. -/
def addsIn : List CacheEvent → Nat
  | [] => 0
  | event :: rest => event.adds + addsIn rest

theorem addsIn_eq_zero {events : List CacheEvent} : addsIn events = 0 ↔ ∀ data, .addBlock data ∉ events := by
  induction events with
  | nil => exact iff_of_true rfl fun _ => List.not_mem_nil
  | cons event rest ih =>
      have here : event.adds = 0 ↔ ∀ data, event ≠ .addBlock data := by
        cases event with
        | addBlock data => exact iff_of_false (Nat.one_ne_zero) fun other => other data rfl
        | readBlock | write | evict | evicted | waitFree | takeFree | fill | insert | revoke | revoked | wake | check
        | harvest | harvested | flush => exact iff_of_true rfl fun _ same => by cases same
      rw [addsIn, Nat.add_eq_zero_iff, here, ih, ← forall_and]
      simp only [List.mem_cons, not_or, ne_comm]

/-- No thread is in the middle of `addBlock`, `evictBlock` or a harvester iteration. -/
def Quiescent (s : CacheThreads) : Prop := appReady s.app = true ∧ s.revoker = none ∧ s.harvester.node = []

instance (s : CacheThreads) : Decidable s.Quiescent := inferInstanceAs (Decidable (_ ∧ _ ∧ _))

theorem Quiescent.busy_eq {s : CacheThreads} (quiescent : s.Quiescent) : s.busy = s.cache.freeBlockCount := by
  obtain ⟨ready, revoker, harvester⟩ := quiescent
  rw [CacheThreads.busy_eq, (Counts.ready ready).1, revoker, harvester]
  rfl

/-- What a run does to the counts. -/
theorem counts_run {s s' : CacheThreads} {events : List CacheEvent} (h : ∃ L, Consistent s L)
    (ran : machine.run s events = some s') : (∃ L, Consistent s' L) ∧
    s'.cache.freeBlockSemaphore + s.app.pending + 2 * addsIn events = s.cache.freeBlockSemaphore + s'.app.pending ∧
      s.busy + s'.app.adding ≤ s'.busy + s.app.adding + addsIn events := by
  induction events generalizing s with
  | nil =>
      obtain rfl := Option.some.inj ran
      exact ⟨h, by rw [addsIn, Nat.mul_zero, Nat.add_zero], Nat.le_refl _⟩
  | cons event rest ih =>
      obtain ⟨allowed, s₁, first, ran⟩ := machine.run_cons.mp ran
      obtain ⟨L, h⟩ := h
      obtain ⟨units, more, -⟩ := Counts.step h first
      obtain ⟨last, units', more'⟩ := ih (h.step ⟨event, allowed, first⟩) ran
      refine ⟨last, ?_, ?_⟩
      · rw [addsIn]
        omega
      · rw [addsIn]
        omega

/-- After a run, with no thread in the middle of an operation, the semaphore has the
    number of free blocks, and keeps `addBlock` waiting only when there is none, exactly
    when no block has been added in the run. -/
theorem semaphore_eq_iff {s : CacheThreads} {events : List CacheEvent}
    (ran : machine.run { cache := Cache.init } events = some s) (quiescent : s.Quiescent) :
    (s.cache.freeBlockSemaphore = s.cache.freeList.length ∧ (s.cache.waitFree = none → s.cache.freeList = [])) ↔
      ∀ data, .addBlock data ∉ events := by
  obtain ⟨⟨L, h⟩, units, more⟩ := counts_run ⟨_, Consistent.initial rfl⟩ ran
  obtain ⟨-, pending, adding⟩ := Counts.ready quiescent.1
  have whole := h.rep.partition.length_eq
  have free : s.busy = L.free.length := quiescent.busy_eq.trans h.rep.free.count
  have start : CacheThreads.busy { cache := Cache.init } = blockCount := rfl
  have units : s.cache.freeBlockSemaphore + 2 * addsIn events = blockCount := by
    rw [pending] at units
    exact units
  have more : blockCount ≤ L.free.length + addsIn events := by
    rw [start, adding, free] at more
    exact more
  rw [← addsIn_eq_zero, h.rep.freeList_eq]
  constructor
  · rintro ⟨same, -⟩
    omega
  · intro none
    refine ⟨by omega, fun blocked => ?_⟩
    have empty : s.cache.freeBlockSemaphore = 0 := by
      by_contra positive
      rw [Cache.waitFree, if_neg positive] at blocked
      cases blocked
    have large : blockCount = 2048 := rfl
    omega

theorem semaphore_eq_iff_missed : ∃ s, machine.run { cache := Cache.init } [.readBlock 3 0, .evict 3 0] = some s ∧
    s.Quiescent ∧ s.cache.freeBlockSemaphore = s.cache.freeList.length := by
  have ran : machine.run { cache := Cache.init } [.readBlock 3 0, .evict 3 0] = some { cache := Cache.init } := rfl
  have quiescent : CacheThreads.Quiescent { cache := Cache.init } := ⟨rfl, rfl, rfl⟩
  have none : ∀ data, .addBlock data ∉ [CacheEvent.readBlock 3 0, .evict 3 0] := by
    intro data member
    simp at member
  exact ⟨_, ran, quiescent, ((semaphore_eq_iff ran quiescent).mpr none).1⟩

/-- After 1024 additions the next one waits for the semaphore, with 1024 blocks free. -/
theorem semaphore_drained : ∃ s, machine.run { cache := Cache.init } (adds 1024) = some s ∧ s.Quiescent ∧
    s.cache.freeBlockSemaphore = 0 ∧ s.cache.waitFree = none ∧ s.cache.freeList.length = 1024 := by
  obtain ⟨c, ran, has, units, count, -⟩ := run_adds (n := 1024) (by decide)
  have large : blockCount = 2048 := rfl
  obtain ⟨L, rep, -⟩ := has.wf
  have empty : c.freeBlockSemaphore = 0 := by omega
  refine ⟨_, ran, ⟨rfl, rfl, rfl⟩, empty, ?_, ?_⟩
  · rw [Cache.waitFree, if_pos empty]
  · rw [rep.freeList_eq, ← rep.free.count]
    omega

end CacheThreads

end PFS
