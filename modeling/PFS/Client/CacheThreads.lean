import PFS.Client.CacheSteps
import PFS.Lib.Reachable

/-! # The threads of the client cache

An application thread, a revoking thread, the harvester and the flusher, each as
the position it is at between two critical sections.  Whatever the interleaving,
the cache is laid out properly, with the nodes on their way in the hands of
exactly one thread.
-/

namespace PFS

open Lib

/-- The application thread. -/
inductive AppThread where
  | idle
  /-- A lookup of this key has just failed. -/
  | missed (fileDes blockAddr : Nat)
  /-- In `addBlock`, after this many of its two `sem_wait`s. -/
  | waiting (fileDes blockAddr : Nat) (data : Nat → UInt8) (waited : Nat)
  /-- In `addBlock`, with a node from the free list. -/
  | taken (fileDes blockAddr : Nat) (data : Nat → UInt8) (node : NodeId)
  /-- In `addBlock`, the node filled. -/
  | filled (fileDes blockAddr : Nat) (node : NodeId)
  /-- In `evictBlock`, the node unlinked. -/
  | evicting (node : NodeId)

/-- The harvester. -/
inductive Harvester where
  | sleeping
  | woken
  | scanning
  | holding (node : NodeId)

structure CacheThreads where
  cache : Cache
  app : AppThread := .idle
  /-- The node the revoking thread has unlinked in `evictBlock`. -/
  revoker : Option NodeId := none
  harvester : Harvester := .sleeping

/-- A step of one of the threads. -/
inductive CacheEvent where
  | readBlock (fileDes blockAddr : Nat)
  | write (fileDes offset size : Nat) (data : Nat → UInt8)
  | evict (fileDes blockAddr : Nat)
  | evicted
  | addBlock (data : Nat → UInt8)
  | waitFree
  | takeFree
  | fill
  | insert
  | revoke (fileDes blockAddr : Nat)
  | revoked
  | wake
  | check
  | harvest
  | harvested
  | flush

namespace AppThread

/-- The node in the hands of the thread. -/
def node : AppThread → List NodeId
  | taken _ _ _ n | filled _ _ n | evicting n => [n]
  | _ => []

/-- The key the thread is about to add. -/
def key : AppThread → Option (Nat × Nat)
  | missed fileDes blockAddr | waiting fileDes blockAddr _ _ | taken fileDes blockAddr _ _
  | filled fileDes blockAddr _ => some (fileDes, blockAddr)
  | _ => none

/-- Units of `freeBlockSemaphore` the thread has got and not yet used. -/
def units : AppThread → Nat
  | waiting _ _ _ waited => waited
  | _ => 0

end AppThread

def Harvester.node : Harvester → List NodeId
  | holding n => [n]
  | _ => []

namespace CacheThreads

/-- The nodes in the hands of the threads. -/
def held (s : CacheThreads) : List NodeId := s.app.node ++ s.revoker.toList ++ s.harvester.node

/-- What the callers promise: a write has at least one byte and stays inside its block. -/
def allowed (_ : CacheThreads) : CacheEvent → Prop
  | .write _ offset size _ => 0 < size ∧ offset % pfsBlockSizeInBytes + size ≤ pfsBlockSizeInBytes
  | _ => True

/-- An application call starts when the previous one is over. -/
def appReady : AppThread → Bool
  | .idle | .missed _ _ => true
  | _ => false

/-- The state after a step; `none` when its thread is not there or cannot go on. -/
def exec (s : CacheThreads) : CacheEvent → Option CacheThreads
  | .readBlock fileDes blockAddr =>
      if appReady s.app then
        match s.cache.readBlock fileDes blockAddr with
        | (cache, some _) => some { s with cache := cache, app := .idle }
        | (cache, none) => some { s with cache := cache, app := .missed fileDes blockAddr }
      else none
  | .write fileDes offset size data =>
      if appReady s.app then
        match s.cache.write fileDes offset size data with
        | (cache, true) => some { s with cache := cache, app := .idle }
        | (cache, false) => some { s with cache := cache, app := .missed fileDes (blockOf offset) }
      else none
  | .evict fileDes blockAddr =>
      if appReady s.app then
        match s.cache.unlinkBlock fileDes blockAddr with
        | none => some { s with app := .idle }
        | some taken => some { s with cache := taken.cache, app := .evicting taken.node }
      else none
  | .evicted =>
      match s.app with
      | .evicting node => some { s with cache := (s.cache.addToFreeList node).1, app := .idle }
      | _ => none
  | .addBlock data =>
      match s.app with
      | .missed fileDes blockAddr =>
          if blockAddr % pfsBlockSizeInBytes = 0 then some { s with app := .waiting fileDes blockAddr data 0 } else none
      | _ => none
  | .waitFree =>
      match s.app with
      | .waiting fileDes blockAddr data waited =>
          if waited < 2 then s.cache.waitFree.map fun cache =>
            { s with cache := cache, app := .waiting fileDes blockAddr data (waited + 1) }
          else none
      | _ => none
  | .takeFree =>
      match s.app with
      | .waiting fileDes blockAddr data waited =>
          if waited = 2 then s.cache.popFree.map fun r =>
            { s with cache := r.2, app := .taken fileDes blockAddr data r.1 }
          else none
      | _ => none
  | .fill =>
      match s.app with
      | .taken fileDes blockAddr data node =>
          some { s with cache := s.cache.fillNode node fileDes blockAddr data, app := .filled fileDes blockAddr node }
      | _ => none
  | .insert =>
      match s.app with
      | .filled _ _ node => some { s with cache := s.cache.insertNode node, app := .idle }
      | _ => none
  | .revoke fileDes blockAddr =>
      match s.revoker with
      | none =>
          match s.cache.unlinkBlock fileDes blockAddr with
          | none => some s
          | some taken => some { s with cache := taken.cache, revoker := some taken.node }
      | some _ => none
  | .revoked =>
      match s.revoker with
      | some node => some { s with cache := (s.cache.addToFreeList node).1, revoker := none }
      | none => none
  | .wake =>
      match s.harvester with
      | .sleeping =>
          if s.cache.harvesterSemaphore = 0 then none
          else some { s with
            cache := { s.cache with harvesterSemaphore := s.cache.harvesterSemaphore - 1 }, harvester := .woken }
      | _ => none
  | .check =>
      match s.harvester with
      | .woken => some { s with harvester := if s.cache.freeBlockCount < harvestHigh then .scanning else .sleeping }
      | _ => none
  | .harvest =>
      match s.harvester with
      | .scanning => s.cache.harvest.map fun taken =>
          { s with cache := taken.cache, harvester := .holding taken.node }
      | _ => none
  | .harvested =>
      match s.harvester with
      | .holding node =>
          some { s with
            cache := (s.cache.addToFreeList node).1
            harvester := if (s.cache.addToFreeList node).2 then .scanning else .sleeping }
      | _ => none
  | .flush => some { s with cache := s.cache.flushIteration.1 }

def machine : Machine CacheThreads CacheEvent := ⟨allowed, exec⟩

/-- A cache just made, its threads just started. -/
def Initial (s : CacheThreads) : Prop := s = { cache := Cache.init }

/-- The invariant of the threads: the cache is laid out as `L` with the threads'
    nodes held, the key that is about to be added is absent and its node is
    filled in, and there are more free nodes than the semaphore lets through. -/
structure Consistent (s : CacheThreads) (L : Layout) : Prop where
  rep : Rep s.cache L
  held : L.held = s.held
  units : s.cache.freeBlockSemaphore + s.app.units + blockCount ≤ 2 * L.free.length
  absent : ∀ k, s.app.key = some k → s.cache.lookup k.1 k.2 = none
  filled : ∀ fileDes blockAddr n, s.app = .filled fileDes blockAddr n →
    (s.cache.block n).fdes = fileDes ∧ (s.cache.block n).addr = blockAddr ∧ (s.cache.block n).valid = true ∧
    ((s.cache.block n).clean = true ∧ ∀ i, (s.cache.block n).dirty i = false) ∧
    s.cache.bucketId n = hashPFS fileDes blockAddr

namespace Consistent

variable {s : CacheThreads} {L : Layout}

/-- A step that adds no node and leaves the application thread and its node alone. -/
theorem shift (h : Consistent s L) {s' : CacheThreads} {L' : Layout} (app : s'.app = s.app) (rep : Rep s'.cache L')
    (held : L'.held = s'.held) (sem : s'.cache.freeBlockSemaphore = s.cache.freeBlockSemaphore)
    (more : L.free.length ≤ L'.free.length)
    (sub : ∀ n, L'.Cached n → L.Cached n ∧ (s'.cache.block n).fdes = (s.cache.block n).fdes ∧
      (s'.cache.block n).addr = (s.cache.block n).addr)
    (same : ∀ n ∈ s.app.node, s'.cache.block n = s.cache.block n ∧ s'.cache.bucketId n = s.cache.bucketId n) :
    Consistent s' L' where
  rep := rep
  held := held
  units := by
    have enough := h.units
    rw [sem, app]
    omega
  absent k pending := h.rep.lookup_none_mono rep sub (h.absent k (by rwa [app] at pending))
  filled fileDes blockAddr n here := by
    rw [app] at here
    have inside : n ∈ s.app.node := by rw [here]; exact List.mem_singleton_self n
    rw [(same n inside).1, (same n inside).2]
    exact h.filled fileDes blockAddr n here

/-- The application thread has finished a call. -/
theorem idle (rep : Rep s.cache L) (held : L.held = s.held)
    (units : s.cache.freeBlockSemaphore + blockCount ≤ 2 * L.free.length) (app : s.app = .idle ∨ ∃ n, s.app = .evicting n) :
    Consistent s L := by
  refine ⟨rep, held, ?_, ?_, ?_⟩
  · rcases app with app | ⟨n, app⟩ <;> rw [app] <;> exact units
  · rcases app with app | ⟨n, app⟩ <;> rw [app] <;> nofun
  · rcases app with app | ⟨n, app⟩ <;> rw [app] <;> nofun

theorem ready_node (ready : appReady s.app = true) : s.app.node = [] ∧ s.app.units = 0 := by
  cases app : s.app with
  | idle | missed => exact ⟨rfl, rfl⟩
  | waiting | taken | filled | evicting => rw [app] at ready; cases ready

theorem held_ready (ready : appReady s.app = true) : s.held = s.revoker.toList ++ s.harvester.node := by
  rw [CacheThreads.held, (ready_node ready).1, List.nil_append]

theorem cached_away (h : Consistent s L) {n m : NodeId} (cached : L.Cached n) (member : m ∈ s.held) : m ≠ n := by
  rintro rfl
  rw [← h.held] at member
  exact (h.rep.partition.of_held member).1 cached

theorem app_held {n : NodeId} (member : n ∈ s.app.node) : n ∈ s.held :=
  List.mem_append_left _ (List.mem_append_left _ member)

/-! ## Calls of the application thread -/

theorem units_ready (h : Consistent s L) (ready : appReady s.app = true) :
    s.cache.freeBlockSemaphore + blockCount ≤ 2 * L.free.length := by
  have enough := h.units
  rw [(ready_node ready).2] at enough
  omega

/-- A lookup that fails leaves its key behind. -/
theorem miss (h : Consistent s L) {fileDes blockAddr : Nat} (ready : appReady s.app = true)
    (absent : s.cache.lookup fileDes blockAddr = none) :
    Consistent { s with app := .missed fileDes blockAddr } L := by
  refine ⟨h.rep, ?_, h.units_ready ready, ?_, nofun⟩
  · exact h.held.trans (held_ready ready)
  · rintro _ ⟨⟩
    exact absent

/-- A call that found its block. -/
theorem hit (h : Consistent s L) {c : Cache} {L' : Layout} (ready : appReady s.app = true) (rep : Rep c L')
    (held : L'.held = L.held) (free : L'.free = L.free) (sem : c.freeBlockSemaphore = s.cache.freeBlockSemaphore) :
    Consistent { s with cache := c, app := .idle } L' := by
  apply idle rep
  · exact held.trans (h.held.trans (held_ready ready))
  · rw [free, show Cache.freeBlockSemaphore _ = s.cache.freeBlockSemaphore from sem]
    exact h.units_ready ready
  · exact .inl rfl

theorem readBlock (h : Consistent s L) {fileDes blockAddr : Nat} {s' : CacheThreads}
    (ran : s.exec (.readBlock fileDes blockAddr) = some s') : ∃ L', Consistent s' L' := by
  simp only [exec, Option.ite_none_right_eq_some] at ran
  obtain ⟨ready, ran⟩ := ran
  cases found : s.cache.lookup fileDes blockAddr with
  | none =>
      simp only [Cache.readBlock, found] at ran
      obtain rfl := Option.some.inj ran
      exact ⟨L, h.miss ready found⟩
  | some n =>
      simp only [Cache.readBlock, found] at ran
      obtain rfl := Option.some.inj ran
      rcases (h.rep.lookup_eq_some.mp found).1 with inside | inside
      · rw [if_pos (h.rep.blocks.clean n inside).1]
        exact ⟨_, h.hit ready (h.rep.touch_recency inside) rfl rfl rfl⟩
      · rw [if_neg (by simp [(h.rep.blocks.unclean n inside).1])]
        exact ⟨_, h.hit ready (h.rep.touch_dirty inside) rfl rfl rfl⟩

theorem write (h : Consistent s L) {fileDes offset size : Nat} {data : Nat → UInt8} {s' : CacheThreads}
    (nonempty : 0 < size) (ran : s.exec (.write fileDes offset size data) = some s') : ∃ L', Consistent s' L' := by
  simp only [exec, Option.ite_none_right_eq_some] at ran
  obtain ⟨ready, ran⟩ := ran
  cases found : s.cache.lookup fileDes (blockOf offset) with
  | none =>
      simp only [Cache.write, found] at ran
      obtain rfl := Option.some.inj ran
      exact ⟨L, h.miss ready found⟩
  | some n =>
      have rep := h.rep.write found nonempty data
      have sem := Cache.write_units s.cache fileDes offset size data
      cases result : s.cache.write fileDes offset size data with
      | mk c' answer =>
          have answered : answer = true := by
            rw [← show (s.cache.write fileDes offset size data).2 = answer from congrArg Prod.snd result, Cache.write, found]
          subst answered
          rw [result] at ran rep sem
          obtain rfl := Option.some.inj ran
          exact ⟨_, h.hit ready rep rfl rfl sem⟩

theorem evict (h : Consistent s L) {fileDes blockAddr : Nat} {s' : CacheThreads}
    (ran : s.exec (.evict fileDes blockAddr) = some s') : ∃ L', Consistent s' L' := by
  simp only [exec, Option.ite_none_right_eq_some] at ran
  obtain ⟨ready, ran⟩ := ran
  cases found : s.cache.lookup fileDes blockAddr with
  | none =>
      simp only [Cache.unlinkBlock, found, Option.map_none] at ran
      obtain rfl := Option.some.inj ran
      exact ⟨L, h.hit ready h.rep rfl rfl rfl⟩
  | some n =>
      obtain ⟨t, unlinked, takes⟩ := h.rep.unlinkBlock found
      rw [unlinked] at ran
      obtain rfl := Option.some.inj ran
      refine ⟨_, idle takes.rep ?_ ?_ (.inr ⟨_, rfl⟩)⟩
      · rw [Layout.take, h.held, held_ready ready, CacheThreads.held, takes.node]
        rfl
      · rw [show Cache.freeBlockSemaphore _ = s.cache.freeBlockSemaphore from takes.units]
        exact h.units_ready ready

theorem evicted (h : Consistent s L) {s' : CacheThreads} (ran : s.exec .evicted = some s') :
    ∃ L', Consistent s' L' := by
  simp only [exec] at ran
  split at ran
  · next n app =>
      obtain rfl := Option.some.inj ran
      have first : L.held = n :: (s.revoker.toList ++ s.harvester.node) := by
        rw [h.held, CacheThreads.held, app]
        rfl
      have rep := h.rep.addToFreeList (n := n) (by rw [first]; exact List.mem_cons_self)
      refine ⟨_, idle rep ?_ ?_ (.inl rfl)⟩
      · simp only [first, List.erase_cons_head]
        rfl
      · have enough := h.units
        rw [app] at enough
        simp only [AppThread.units] at enough
        simp only [Cache.addToFreeList, List.length_cons]
        omega
  · cases ran

theorem addBlock (h : Consistent s L) {data : Nat → UInt8} {s' : CacheThreads}
    (ran : s.exec (.addBlock data) = some s') : ∃ L', Consistent s' L' := by
  simp only [exec] at ran
  split at ran
  · next fileDes blockAddr app =>
      obtain ⟨-, ran⟩ := Option.ite_none_right_eq_some.mp ran
      obtain rfl := Option.some.inj ran
      refine ⟨L, h.rep, ?_, ?_, ?_, nofun⟩
      · rw [h.held, CacheThreads.held, CacheThreads.held, app]
        rfl
      · exact h.units_ready (by rw [app]; rfl)
      · rintro _ ⟨⟩
        exact h.absent (fileDes, blockAddr) (by rw [app]; rfl)
  · cases ran

theorem waitFree (h : Consistent s L) {s' : CacheThreads} (ran : s.exec .waitFree = some s') :
    ∃ L', Consistent s' L' := by
  simp only [exec] at ran
  split at ran
  · next fileDes blockAddr data waited app =>
      obtain ⟨-, ran⟩ := Option.ite_none_right_eq_some.mp ran
      obtain ⟨c, granted, rfl⟩ := Option.map_eq_some_iff.mp ran
      simp only [Cache.waitFree] at granted
      obtain ⟨positive, granted⟩ := Option.ite_none_left_eq_some.mp granted
      obtain rfl := Option.some.inj granted
      have rep := h.rep.semaphores (s.cache.freeBlockSemaphore - 1) s.cache.harvesterSemaphore
      refine ⟨L, rep, ?_, ?_, ?_, nofun⟩
      · rw [h.held, CacheThreads.held, CacheThreads.held, app]
        rfl
      · have enough := h.units
        rw [app] at enough
        simp only [AppThread.units] at enough ⊢
        omega
      · rintro _ ⟨⟩
        exact h.rep.lookup_none_mono rep (fun n cached => ⟨cached, rfl, rfl⟩)
          (h.absent (fileDes, blockAddr) (by rw [app]; rfl))
  · cases ran

/-- A thread that got past the semaphore finds at least two free nodes. -/
theorem takeFree (h : Consistent s L) {s' : CacheThreads} (ran : s.exec .takeFree = some s') :
    ∃ L', Consistent s' L' := by
  simp only [exec] at ran
  split at ran
  · next fileDes blockAddr data waited app =>
      obtain ⟨both, ran⟩ := Option.ite_none_right_eq_some.mp ran
      have enough := h.units
      rw [app] at enough
      simp only [AppThread.units, both] at enough
      have several : 2 ≤ L.free.length := by
        have : blockCount = 2048 := rfl
        omega
      obtain ⟨n, m, rest, free⟩ : ∃ n m rest, L.free = n :: m :: rest := by
        match L.free, several with
        | n :: m :: rest, _ => exact ⟨n, m, rest, rfl⟩
      obtain ⟨c, popped, rep, block, ids, sem⟩ := h.rep.popFree free
      rw [popped] at ran
      obtain rfl := Option.some.inj ran
      refine ⟨_, rep, ?_, ?_, ?_, nofun⟩
      · simp only [h.held, CacheThreads.held, app]
        rfl
      · rw [free] at enough
        simp only [List.length_cons] at enough ⊢
        rw [show Cache.freeBlockSemaphore _ = s.cache.freeBlockSemaphore from sem]
        simp only [AppThread.units]
        omega
      · rintro _ ⟨⟩
        refine h.rep.lookup_none_mono rep (fun k cached => ⟨cached, ?_, ?_⟩)
          (h.absent (fileDes, blockAddr) (by rw [app]; rfl))
        · rw [block]
        · rw [block]
  · cases ran

theorem fill (h : Consistent s L) {s' : CacheThreads} (ran : s.exec .fill = some s') : ∃ L', Consistent s' L' := by
  simp only [exec] at ran
  split at ran
  · next fileDes blockAddr data n app =>
      obtain rfl := Option.some.inj ran
      have member : n ∈ L.held := by
        rw [h.held]
        exact app_held (by rw [app]; exact List.mem_singleton_self n)
      have rep := h.rep.fillNode member fileDes blockAddr data
      refine ⟨L, rep, ?_, ?_, ?_, ?_⟩
      · rw [h.held, CacheThreads.held, CacheThreads.held, app]
        rfl
      · have enough := h.units
        rw [app] at enough
        exact enough
      · rintro _ ⟨⟩
        refine h.rep.lookup_none_mono rep (fun m cached => ⟨cached, ?_⟩)
          (h.absent (fileDes, blockAddr) (by rw [app]; rfl))
        have other : m ≠ n := by
          rintro rfl
          exact (h.rep.partition.of_held member).1 cached
        simp [Cache.fillNode, Function.update_of_ne other]
      · rintro _ _ _ ⟨⟩
        simp [Cache.fillNode, CacheBlock.reset]
  · cases ran

theorem insert (h : Consistent s L) {s' : CacheThreads} (ran : s.exec .insert = some s') :
    ∃ L', Consistent s' L' := by
  simp only [exec] at ran
  split at ran
  · next fileDes blockAddr n app =>
      obtain rfl := Option.some.inj ran
      obtain ⟨fdes, addr, valid, clean, bucket⟩ := h.filled fileDes blockAddr n app
      have first : L.held = n :: (s.revoker.toList ++ s.harvester.node) := by
        rw [h.held, CacheThreads.held, app]
        rfl
      have absent := h.absent (fileDes, blockAddr) (by rw [app]; rfl)
      have rep := h.rep.insertNode (n := n) (by rw [first]; exact List.mem_cons_self) (by rw [bucket, fdes, addr])
        valid clean (by rw [fdes, addr]; exact absent)
      refine ⟨_, idle rep ?_ ?_ (.inl rfl)⟩
      · simp only [first, List.erase_cons_head]
        rfl
      · have enough := h.units
        rw [app] at enough
        exact enough
  · cases ran

/-! ## The other threads -/

/-- Another thread takes a node out of the cache. -/
theorem take (h : Consistent s L) {n : NodeId} {t : Cache.Taken} (cached : L.Cached n)
    (takes : Rep.Takes s.cache L n t) {s' : CacheThreads} (app : s'.app = s.app) (cache : s'.cache = t.cache)
    (held : s'.held.Perm (n :: s.held)) : ∃ L', Consistent s' L' := by
  have rep : Rep s'.cache { L.take (s.cache.bucketId n) n with held := s'.held } := by
    rw [cache]
    apply takes.rep.reheld
    rw [Layout.take, h.held]
    exact held
  refine ⟨_, h.shift app rep rfl ?_ (Nat.le_refl _) ?_ ?_⟩
  · rw [cache]; exact takes.units
  · intro m here
    obtain ⟨other, before⟩ := (h.rep.take_cached (s.cache.bucketId n) n m).mp here
    rw [cache, takes.blocks m other]
    exact ⟨before, rfl, rfl⟩
  · intro m member
    have other := h.cached_away cached (app_held member)
    rw [cache]
    exact ⟨takes.blocks m other, takes.ids m other⟩

/-- Another thread gives a node back. -/
theorem giveBack (h : Consistent s L) {n : NodeId} (member : n ∈ s.held) {s' : CacheThreads} (app : s'.app = s.app)
    (cache : s'.cache = (s.cache.addToFreeList n).1) (held : (n :: s'.held).Perm s.held) : ∃ L', Consistent s' L' := by
  have inside : n ∈ L.held := by rw [h.held]; exact member
  have rep : Rep s'.cache { L with free := n :: L.free, held := s'.held } := by
    rw [cache]
    apply (h.rep.addToFreeList inside).reheld
    rw [h.held]
    exact (List.perm_cons n).mp (held.trans (List.perm_cons_erase member))
  refine ⟨_, h.shift app rep rfl ?_ (by simp) ?_ ?_⟩
  · rw [cache]; rfl
  · intro m here
    rw [cache]
    exact ⟨here, rfl, rfl⟩
  · intro m _
    rw [cache]
    exact ⟨rfl, rfl⟩

theorem revoke (h : Consistent s L) {fileDes blockAddr : Nat} {s' : CacheThreads}
    (ran : s.exec (.revoke fileDes blockAddr) = some s') : ∃ L', Consistent s' L' := by
  simp only [exec] at ran
  split at ran
  · next idle =>
      cases found : s.cache.lookup fileDes blockAddr with
      | none =>
          simp only [Cache.unlinkBlock, found, Option.map_none] at ran
          obtain rfl := Option.some.inj ran
          exact ⟨L, h⟩
      | some n =>
          obtain ⟨t, unlinked, takes⟩ := h.rep.unlinkBlock found
          rw [unlinked] at ran
          obtain rfl := Option.some.inj ran
          refine h.take (h.rep.lookup_eq_some.mp found).1 takes rfl rfl ?_
          simp only [CacheThreads.held, idle, takes.node, Option.toList_some, Option.toList_none, List.append_nil,
            List.append_assoc, List.singleton_append]
          exact List.perm_middle
  · cases ran

theorem revoked (h : Consistent s L) {s' : CacheThreads} (ran : s.exec .revoked = some s') :
    ∃ L', Consistent s' L' := by
  simp only [exec] at ran
  split at ran
  · next n holding =>
      obtain rfl := Option.some.inj ran
      refine h.giveBack (n := n) ?_ rfl rfl ?_
      · simp [CacheThreads.held, holding]
      · simp only [CacheThreads.held, holding, Option.toList_some, Option.toList_none, List.append_nil, List.append_assoc,
          List.singleton_append]
        exact List.perm_middle.symm
  · cases ran

theorem wake (h : Consistent s L) {s' : CacheThreads} (ran : s.exec .wake = some s') : ∃ L', Consistent s' L' := by
  simp only [exec] at ran
  split at ran
  · next sleeping =>
      obtain ⟨-, ran⟩ := Option.ite_none_left_eq_some.mp ran
      obtain rfl := Option.some.inj ran
      refine ⟨L, h.shift rfl (h.rep.semaphores s.cache.freeBlockSemaphore (s.cache.harvesterSemaphore - 1)) ?_ rfl
        (Nat.le_refl _) (fun n cached => ⟨cached, rfl, rfl⟩) (fun _ _ => ⟨rfl, rfl⟩)⟩
      rw [h.held, CacheThreads.held, CacheThreads.held, sleeping]
      rfl
  · cases ran

theorem check (h : Consistent s L) {s' : CacheThreads} (ran : s.exec .check = some s') : ∃ L', Consistent s' L' := by
  simp only [exec] at ran
  split at ran
  · next woken =>
      obtain rfl := Option.some.inj ran
      refine ⟨L, h.shift rfl h.rep ?_ rfl (Nat.le_refl _) (fun n cached => ⟨cached, rfl, rfl⟩) (fun _ _ => ⟨rfl, rfl⟩)⟩
      rw [h.held, CacheThreads.held, CacheThreads.held, woken]
      split <;> rfl
  · cases ran

theorem harvest (h : Consistent s L) {s' : CacheThreads} (ran : s.exec .harvest = some s') :
    ∃ L', Consistent s' L' := by
  simp only [exec] at ran
  split at ran
  · next scanning =>
      obtain ⟨t, taken, rfl⟩ := Option.map_eq_some_iff.mp ran
      obtain ⟨n, victim⟩ := h.rep.victim_of_harvest taken
      obtain ⟨t', taken', takes⟩ := h.rep.harvest victim
      obtain rfl := Option.some.inj (taken'.symm.trans taken)
      refine h.take (Rep.victim_cached victim) takes rfl rfl ?_
      simp only [CacheThreads.held, scanning, Harvester.node, takes.node, List.append_nil]
      exact List.perm_append_comm
  · cases ran

theorem harvested (h : Consistent s L) {s' : CacheThreads} (ran : s.exec .harvested = some s') :
    ∃ L', Consistent s' L' := by
  simp only [exec] at ran
  split at ran
  · next n holding =>
      obtain rfl := Option.some.inj ran
      refine h.giveBack (n := n) ?_ rfl rfl ?_
      · simp [CacheThreads.held, holding, Harvester.node]
      · have empty : (if (s.cache.addToFreeList n).2 then Harvester.scanning else Harvester.sleeping).node = [] := by
          split <;> rfl
        rw [CacheThreads.held, CacheThreads.held, empty, holding, List.append_nil]
        exact (List.perm_append_singleton n _).symm
  · cases ran

theorem flush (h : Consistent s L) {s' : CacheThreads} (ran : s.exec .flush = some s') : ∃ L', Consistent s' L' := by
  obtain rfl := Option.some.inj ran
  cases last : L.dirty.getLast? with
  | none =>
      rw [h.rep.flushIteration_empty (List.getLast?_eq_none_iff.mp last)]
      exact ⟨L, h⟩
  | some n =>
      obtain ⟨xs, cut⟩ := List.getLast?_eq_some_iff.mp last
      obtain ⟨c, flushed, rep, block, ids, sem⟩ := h.rep.flushIteration cut
      rw [flushed]
      have inside : L.Cached n := .inr (List.mem_of_getLast? last)
      refine ⟨_, h.shift rfl rep h.held sem (Nat.le_refl _) ?_ ?_⟩
      · intro m here
        refine ⟨?_, ?_⟩
        · rcases here with here | here
          · rcases List.mem_cons.mp here with rfl | here
            · exact inside
            · exact .inl here
          · exact .inr (by rw [cut]; exact List.mem_append_left _ here)
        · rw [block]
          by_cases same : m = n
          · subst same
            rw [Function.update_self]
            exact ⟨rfl, rfl⟩
          · rw [Function.update_of_ne same]
            exact ⟨rfl, rfl⟩
      · intro m member
        rw [block, ids, Function.update_of_ne (h.cached_away inside (app_held member))]
        exact ⟨rfl, rfl⟩

theorem step (h : Consistent s L) {s' : CacheThreads} (step : machine.Step s s') : ∃ L', Consistent s' L' := by
  obtain ⟨event, allowed, ran⟩ := step
  cases event with
  | readBlock fileDes blockAddr => exact h.readBlock ran
  | write fileDes offset size data => exact h.write allowed.1 ran
  | evict fileDes blockAddr => exact h.evict ran
  | evicted => exact h.evicted ran
  | addBlock data => exact h.addBlock ran
  | waitFree => exact h.waitFree ran
  | takeFree => exact h.takeFree ran
  | fill => exact h.fill ran
  | insert => exact h.insert ran
  | revoke fileDes blockAddr => exact h.revoke ran
  | revoked => exact h.revoked ran
  | wake => exact h.wake ran
  | check => exact h.check ran
  | harvest => exact h.harvest ran
  | harvested => exact h.harvested ran
  | flush => exact h.flush ran

theorem initial (h : Initial s) : Consistent s Layout.init := by
  obtain rfl := h
  refine idle Rep.init rfl ?_ (.inl rfl)
  rw [Layout.init, List.length_reverse, List.length_range, Nat.two_mul]
  exact Nat.le_refl _

end Consistent

/-- In every reachable state the cache is laid out properly, and the nodes in
    none of its lists are those in the hands of the threads. -/
theorem reachable_rep {s : CacheThreads} (reach : Reachable Initial machine.Step s) :
    ∃ L, Rep s.cache L ∧ L.held = s.held := by
  obtain ⟨L, h⟩ := reach.invariant (fun s => ∃ L, Consistent s L) (fun _ first => ⟨_, Consistent.initial first⟩)
    (fun _ _ ⟨_, h⟩ step => h.step step)
  exact ⟨L, h.rep, h.held⟩

instance (s : CacheThreads) : (event : CacheEvent) → Decidable (machine.allowed s event)
  | .write _ _ _ _ => inferInstanceAs (Decidable (_ ∧ _))
  | .readBlock _ _ | .evict _ _ | .evicted | .addBlock _ | .waitFree | .takeFree | .fill | .insert | .revoke _ _
  | .revoked | .wake | .check | .harvest | .harvested | .flush => isTrue trivial

/-- The application thread misses block 0 of descriptor 3 and takes a free node for it. -/
def taking : Option CacheThreads :=
  machine.run { cache := Cache.init } [.readBlock 3 0, .addBlock (fun _ => 7), .waitFree, .waitFree, .takeFree]

theorem reachable_rep_taking : (taking.get rfl).held = [2047] ∧
    ∃ L, Rep (taking.get rfl).cache L ∧ L.held = [2047] := by
  have reach : Reachable Initial machine.Step (taking.get rfl) :=
    machine.run_reachable (Reachable.init rfl) (Option.some_get _).symm
  exact ⟨rfl, reachable_rep reach⟩

end CacheThreads

end PFS
