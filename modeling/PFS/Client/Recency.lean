import PFS.Client.FreeBlocks
import PFS.Lib.Recency

/-! # The order of evictions

The harvester takes the back of the recency list, and that of the dirty list when there is
no clean block, to evict by the LRU policy.  Every use of a block moves it to the front of
its list.  The flusher also puts the block it has written at the front of the recency list,
the least recently used one of the dirty blocks, in front of clean blocks used since.
-/

namespace PFS

open Lib

/-- The cache with the time of the last use of each block. -/
structure UsedCache where
  cache : Cache := Cache.init
  lastUse : Nat → Nat → Nat := fun _ _ => 0
  clock : Nat := 0

namespace UsedCache

/-- The operations of the cache and an iteration of each of its threads. -/
inductive Op where
  | addBlock (fileDes blockAddr : Nat) (data : Nat → UInt8)
  | readBlock (fileDes blockAddr : Nat)
  | write (fileDes offset size : Nat) (data : Nat → UInt8)
  | evictBlock (fileDes blockAddr : Nat)
  | flush
  | harvest

/-- The cache after an operation that has used a block. -/
def used (s : UsedCache) (fileDes blockAddr : Nat) (cache : Cache) : UsedCache where
  cache := cache
  lastUse := fun fd a => if fd = fileDes ∧ a = blockAddr then s.clock + 1 else s.lastUse fd a
  clock := s.clock + 1

/-- A block is used when it is added and when it is read or written in the cache. -/
def exec (s : UsedCache) : Op → Option UsedCache
  | .addBlock fileDes blockAddr data => (s.cache.addBlock fileDes blockAddr data).map (s.used fileDes blockAddr)
  | .readBlock fileDes blockAddr =>
      match s.cache.readBlock fileDes blockAddr with
      | (cache, some _) => some (s.used fileDes blockAddr cache)
      | (cache, none) => some { s with cache := cache }
  | .write fileDes offset size data =>
      match s.cache.write fileDes offset size data with
      | (cache, true) => some (s.used fileDes (blockOf offset) cache)
      | (cache, false) => some { s with cache := cache }
  | .evictBlock fileDes blockAddr => some { s with cache := (s.cache.evictBlock fileDes blockAddr).1 }
  | .flush => some { s with cache := s.cache.flushIteration.1 }
  | .harvest => s.cache.harvestIteration.map fun r => { s with cache := r.1 }

/-- `readFile` and `writeFile` add a block that they have not found, and write at least
    one byte. -/
def allowed (s : UsedCache) : Op → Prop
  | .addBlock fileDes blockAddr _ => s.cache.lookup fileDes blockAddr = none
  | .write _ _ size _ => 0 < size
  | _ => True

def machine : Machine UsedCache Op := ⟨allowed, exec⟩

instance (s : UsedCache) : (op : Op) → Decidable (machine.allowed s op)
  | .addBlock _ _ _ => inferInstanceAs (Decidable (_ = none))
  | .write _ _ _ _ => inferInstanceAs (Decidable (_ < _))
  | .readBlock _ _ | .evictBlock _ _ | .flush | .harvest => isTrue trivial

def Initial (s : UsedCache) : Prop := s = {}

/-- The last use of the block in a node. -/
def use (s : UsedCache) (n : NodeId) : Nat := s.lastUse (s.cache.block n).fdes (s.cache.block n).addr

/-! ## Least recently used -/

/-- The block `b` has been used before all the other blocks in the cache that `among` is
    about. -/
def Oldest (s : UsedCache) (fileDes blockAddr : Nat) (among : CacheBlock → Prop) : Prop :=
  ∀ fd a b, s.cache.find fd a = some b → among b → (fd ≠ fileDes ∨ a ≠ blockAddr) →
    s.lastUse fileDes blockAddr < s.lastUse fd a

/-- What the harvester evicts is the oldest of the clean blocks, or the oldest of the
    dirty ones if there is no clean block. -/
def EvictsOldest (s : UsedCache) : Prop :=
  ∀ cache flushed, s.cache.harvestIteration = some (cache, flushed) →
    ∃ fileDes blockAddr block, s.cache.find fileDes blockAddr = some block ∧
      cache.find = Cache.set s.cache.find fileDes blockAddr none ∧
      ((block.clean = true ∧ s.Oldest fileDes blockAddr fun b => b.clean = true) ∨
        (block.clean = false ∧ (∀ fd a b, s.cache.find fd a = some b → b.clean = false) ∧
          s.Oldest fileDes blockAddr fun b => b.clean = false))

/-- The clean blocks have been used before the block that the flusher takes, the one at
    the back of the dirty list. -/
def FlushesNewest (s : UsedCache) : Prop :=
  ∀ n, s.cache.dirtyList.back = some n →
    ∀ fd a b, s.cache.find fd a = some b → b.clean = true → s.lastUse fd a < s.use n

def Spares (s : UsedCache) : Op → Prop
  | .flush => s.FlushesNewest
  | _ => True

/-- Runs in which no iteration of the flusher puts a block in front of newer ones. -/
def sparing : Machine UsedCache Op := ⟨fun s op => allowed s op ∧ s.Spares op, exec⟩

/-! ## The lists in order -/

/-- Both lists are in the order of the last uses. -/
structure InOrder (s : UsedCache) (L : Layout) : Prop where
  rep : Rep s.cache L
  held : L.held = []
  units : s.cache.freeBlockSemaphore + blockCount ≤ 2 * L.free.length
  past : ∀ n, L.Cached n → s.use n ≤ s.clock
  clean : NewestFirst s.use L.recency
  dirty : NewestFirst s.use L.dirty

variable {s s' : UsedCache} {L L' : Layout} {n m : NodeId}

theorem used_self {fileDes blockAddr : Nat} {cache : Cache} (fdes : (cache.block n).fdes = fileDes)
    (addr : (cache.block n).addr = blockAddr) : (s.used fileDes blockAddr cache).use n = s.clock + 1 :=
  if_pos ⟨fdes, addr⟩

theorem used_of_ne {fileDes blockAddr : Nat} {cache : Cache}
    (other : ¬ ((s.cache.block m).fdes = fileDes ∧ (s.cache.block m).addr = blockAddr))
    (fdes : (cache.block m).fdes = (s.cache.block m).fdes) (addr : (cache.block m).addr = (s.cache.block m).addr) :
    (s.used fileDes blockAddr cache).use m = s.use m := by
  simp only [use, used, fdes, addr, if_neg other]

/-- Taking a node out of the cache is no use of the others. -/
theorem takes_use {t : Cache.Taken} (takes : Rep.Takes s.cache L n t) (other : m ≠ n) :
    { s with cache := (t.cache.addToFreeList t.node).1 }.use m = s.use m := by
  have old : (t.cache.addToFreeList t.node).1.block m = s.cache.block m := takes.blocks m other
  simp only [use, old]

namespace InOrder

theorem initial : InOrder {} Layout.init := by
  refine ⟨Rep.init, rfl, ?_, ?_, NewestFirst.nil, NewestFirst.nil⟩
  · rw [Layout.init, List.length_reverse, List.length_range, Nat.two_mul]
    exact Nat.le_refl _
  · rintro n (inside | inside)
    · cases inside
    · cases inside

/-- A node is used: it goes to the front of one of the lists and leaves the other. -/
theorem front (h : InOrder s L) (rep : Rep s'.cache L') (held : L'.held = [])
    (units : s'.cache.freeBlockSemaphore + blockCount ≤ 2 * L'.free.length) (now : s'.use n = s'.clock)
    (later : s.clock < s'.clock) (same : ∀ m, L.Cached m → m ≠ n → s'.use m = s.use m)
    (recency : L'.recency = L.recency.erase n ∨ L'.recency = n :: L.recency.erase n)
    (dirty : L'.dirty = L.dirty.erase n ∨ L'.dirty = n :: L.dirty.erase n) : InOrder s' L' := by
  have old : ∀ m, L.Cached m → m ≠ n → s'.use m < s'.clock := by
    intro m cached other
    rw [same m cached other]
    exact Nat.lt_of_le_of_lt (h.past m cached) later
  have list : ∀ xs xs' : List NodeId, xs.Nodup → (∀ m ∈ xs, L.Cached m) → NewestFirst s.use xs →
      (xs' = xs.erase n ∨ xs' = n :: xs.erase n) → NewestFirst s'.use xs' ∧ ∀ m ∈ xs', s'.use m ≤ s'.clock := by
    intro xs xs' distinct inside order shape
    have touched : NewestFirst s'.use (n :: xs.erase n) := by
      apply order.touch distinct
      · intro m member other
        rw [now]
        exact old m (inside m member) other
      · exact fun m member other => same m (inside m member) other
    have past : ∀ m ∈ n :: xs.erase n, s'.use m ≤ s'.clock := by
      intro m member
      rcases List.mem_cons.mp member with rfl | member
      · exact Nat.le_of_eq now
      · obtain ⟨other, member⟩ := distinct.mem_erase_iff.mp member
        exact Nat.le_of_lt (old m (inside m member) other)
    rcases shape with rfl | rfl
    · exact ⟨touched.sublist (List.sublist_cons_self _ _), fun m member => past m (List.mem_cons_of_mem n member)⟩
    · exact ⟨touched, past⟩
  obtain ⟨clean, cleanPast⟩ := list _ _ h.rep.recency.distinct (fun m => .inl) h.clean recency
  obtain ⟨unclean, dirtyPast⟩ := list _ _ h.rep.dirty.distinct (fun m => .inr) h.dirty dirty
  exact ⟨rep, held, units, fun m cached => cached.elim (cleanPast m) (dirtyPast m), clean, unclean⟩

/-- Nodes leave the lists. -/
theorem fewer (h : InOrder s L) (rep : Rep s'.cache L') (held : L'.held = [])
    (units : s'.cache.freeBlockSemaphore + blockCount ≤ 2 * L'.free.length) (clock : s'.clock = s.clock)
    (recency : L'.recency.Sublist L.recency) (dirty : L'.dirty.Sublist L.dirty)
    (same : ∀ m, L'.Cached m → s'.use m = s.use m) : InOrder s' L' := by
  refine ⟨rep, held, units, ?_, (h.clean.sublist recency).congr fun m member => same m (.inl member),
    (h.dirty.sublist dirty).congr fun m member => same m (.inr member)⟩
  intro m cached
  rw [clock, same m cached]
  exact h.past m (cached.imp (recency.subset ·) (dirty.subset ·))

theorem addBlock (h : InOrder s L) {fileDes blockAddr : Nat} {data : Nat → UInt8}
    (absent : s.cache.lookup fileDes blockAddr = none) {cache : Cache}
    (added : s.cache.addBlock fileDes blockAddr data = some cache) :
    ∃ L', InOrder (s.used fileDes blockAddr cache) L' := by
  have missing := h.rep.lookup_eq_none.mp absent
  obtain ⟨n, L', rep, outside, recency, dirty, held, units, block, -⟩ :=
    Cache.addBlock_rep h.rep h.units (Option.map_eq_none_iff.mpr absent) added
  have clean : n ∉ L.recency := fun inside => outside (.inl inside)
  have unclean : n ∉ L.dirty := fun inside => outside (.inr inside)
  have new : cache.block n = Cache.fetched fileDes blockAddr data := by rw [block, Function.update_self]
  refine ⟨L', h.front rep (held.trans h.held) units (n := n) (used_self (by rw [new]; rfl) (by rw [new]; rfl))
    (Nat.lt_succ_self _) ?_ (.inr ?_) (.inl ?_)⟩
  · intro m cached other
    have old : cache.block m = s.cache.block m := by rw [block, Function.update_of_ne other]
    exact used_of_ne (missing m cached) (by rw [old]) (by rw [old])
  · rw [recency, List.erase_of_not_mem clean]
  · rw [dirty, List.erase_of_not_mem unclean]

/-- The other cached nodes have other keys. -/
theorem other_key (h : InOrder s L) {fileDes blockAddr : Nat} (found : s.cache.lookup fileDes blockAddr = some n)
    (cached : L.Cached m) (other : m ≠ n) :
    ¬ ((s.cache.block m).fdes = fileDes ∧ (s.cache.block m).addr = blockAddr) := by
  rintro ⟨rfl, rfl⟩
  obtain ⟨here, fdes, addr⟩ := h.rep.lookup_eq_some.mp found
  exact other (h.rep.blocks.unique m n cached here fdes.symm addr.symm)

theorem readBlock (h : InOrder s L) {fileDes blockAddr : Nat} (found : s.cache.lookup fileDes blockAddr = some n) :
    ∃ L', InOrder (s.used fileDes blockAddr (s.cache.readBlock fileDes blockAddr).1) L' := by
  obtain ⟨cached, fdes, addr⟩ := h.rep.lookup_eq_some.mp found
  simp only [Cache.readBlock, found]
  rcases cached with inside | inside
  · have outside := (h.rep.partition.of_recency inside).1
    rw [if_pos (h.rep.blocks.clean n inside).1]
    refine ⟨_, h.front (h.rep.touch_recency inside) h.held h.units (n := n) (used_self fdes addr) (Nat.lt_succ_self _)
      ?_ (.inr rfl) (.inl ?_)⟩
    · exact fun m cached other => used_of_ne (h.other_key found cached other) rfl rfl
    · rw [List.erase_of_not_mem outside]
  · have outside := (h.rep.partition.of_dirty inside).1
    rw [if_neg (by simp [(h.rep.blocks.unclean n inside).1])]
    refine ⟨_, h.front (h.rep.touch_dirty inside) h.held h.units (n := n) (used_self fdes addr) (Nat.lt_succ_self _)
      ?_ (.inl ?_) (.inr rfl)⟩
    · exact fun m cached other => used_of_ne (h.other_key found cached other) rfl rfl
    · rw [List.erase_of_not_mem outside]

theorem write (h : InOrder s L) {fileDes offset size : Nat} (data : Nat → UInt8)
    (found : s.cache.lookup fileDes (blockOf offset) = some n) (nonempty : 0 < size) :
    ∃ L', InOrder (s.used fileDes (blockOf offset) (s.cache.write fileDes offset size data).1) L' := by
  obtain ⟨-, fdes, addr⟩ := h.rep.lookup_eq_some.mp found
  have block : (s.cache.write fileDes offset size data).1.block = Function.update s.cache.block n
      { Cache.patch (s.cache.block n) (offset % pfsBlockSizeInBytes) size data with clean := false } := by
    simp only [Cache.write, found]
    rfl
  have units : (s.cache.write fileDes offset size data).1.freeBlockSemaphore + blockCount ≤ 2 * L.free.length := by
    rw [Cache.write_units]
    exact h.units
  refine ⟨_, h.front (h.rep.write found nonempty data) h.held units (n := n) (used_self ?_ ?_) (Nat.lt_succ_self _) ?_
    (.inl rfl) (.inr rfl)⟩
  · rw [block, Function.update_self]
    exact fdes
  · rw [block, Function.update_self]
    exact addr
  · intro m cached other
    have old : (s.cache.write fileDes offset size data).1.block m = s.cache.block m := by
      rw [block, Function.update_of_ne other]
    exact used_of_ne (h.other_key found cached other) (by rw [old]) (by rw [old])

/-- A node is taken out of the cache. -/
theorem taken (h : InOrder s L) {t : Cache.Taken} (takes : Rep.Takes s.cache L n t) :
    InOrder { s with cache := (t.cache.addToFreeList t.node).1 }
      { L.take (s.cache.bucketId n) n with free := n :: L.free, held := L.held } := by
  have units : (t.cache.addToFreeList t.node).1.freeBlockSemaphore + blockCount ≤ 2 * (n :: L.free).length := by
    have sem : (t.cache.addToFreeList t.node).1.freeBlockSemaphore = s.cache.freeBlockSemaphore := takes.units
    have before := h.units
    rw [sem, List.length_cons]
    omega
  refine h.fewer takes.released h.held units rfl List.erase_sublist List.erase_sublist ?_
  intro m cached
  exact takes_use takes ((h.rep.take_cached (s.cache.bucketId n) n m).mp cached).1

theorem evictBlock (h : InOrder s L) (fileDes blockAddr : Nat) :
    ∃ L', InOrder { s with cache := (s.cache.evictBlock fileDes blockAddr).1 } L' := by
  cases found : s.cache.lookup fileDes blockAddr with
  | none =>
      have answer : s.cache.evictBlock fileDes blockAddr = (s.cache, none) := by
        simp only [Cache.evictBlock, Cache.unlinkBlock, found, Option.map_none]
      rw [answer]
      exact ⟨L, h⟩
  | some n =>
      obtain ⟨t, unlinked, takes⟩ := h.rep.unlinkBlock found
      simp only [Cache.evictBlock, unlinked]
      exact ⟨_, h.taken takes⟩

theorem harvest (h : InOrder s L) {cache : Cache} {flushed : Option CacheBlock}
    (harvested : s.cache.harvestIteration = some (cache, flushed)) : ∃ L', InOrder { s with cache := cache } L' := by
  obtain ⟨t, taken, result⟩ := Option.map_eq_some_iff.mp harvested
  obtain ⟨n, victim⟩ := h.rep.victim_of_harvest taken
  obtain ⟨t', taken', takes⟩ := h.rep.harvest victim
  obtain rfl := Option.some.inj (taken'.symm.trans taken)
  obtain ⟨rfl, -⟩ := Prod.mk.inj result
  exact ⟨_, h.taken takes⟩

end InOrder

/-- The flusher takes the back of the dirty list and leaves the times as they are. -/
theorem flush_cut (rep : Rep s.cache L) {xs : List NodeId} (cut : L.dirty = xs ++ [n]) :
    ∃ cache, s.exec .flush = some { s with cache := cache } ∧
      Rep cache { L with recency := n :: L.recency, dirty := xs } ∧
      cache.freeBlockSemaphore = s.cache.freeBlockSemaphore ∧ ∀ m, { s with cache := cache }.use m = s.use m := by
  obtain ⟨cache, flushed, rep', block, -, sem⟩ := rep.flushIteration cut
  refine ⟨cache, by rw [exec, flushed], rep', sem, ?_⟩
  intro m
  simp only [use, block]
  by_cases here : m = n
  · subst here
    rw [Function.update_self]
    rfl
  · rw [Function.update_of_ne here]

theorem InOrder.flush (h : InOrder s L) (newest : s.FlushesNewest) (done : s.exec .flush = some s') :
    ∃ L', InOrder s' L' := by
  cases last : L.dirty.getLast? with
  | none =>
      rw [exec, h.rep.flushIteration_empty (List.getLast?_eq_none_iff.mp last)] at done
      obtain rfl := Option.some.inj done
      exact ⟨L, h⟩
  | some n =>
      obtain ⟨xs, cut⟩ := List.getLast?_eq_some_iff.mp last
      obtain ⟨cache, ran, rep, sem, same⟩ := flush_cut h.rep cut
      obtain rfl := Option.some.inj (done.symm.trans ran)
      have inside : n ∈ L.dirty := List.mem_of_getLast? last
      refine ⟨_, rep, h.held, by rw [sem]; exact h.units, ?_, ?_, ?_⟩
      · intro m cached
        rw [same]
        rcases cached with cached | cached
        · rcases List.mem_cons.mp cached with rfl | cached
          · exact h.past m (.inr inside)
          · exact h.past m (.inl cached)
        · exact h.past m (.inr (by rw [cut]; exact List.mem_append_left _ cached))
      · refine (h.clean.congr fun m _ => same m).cons ?_
        intro m member
        rw [same, same]
        exact newest n (h.rep.dirty.back.trans last) _ _ _
          (h.rep.find_eq_some.mpr ⟨m, .inl member, rfl, rfl, rfl⟩) (h.rep.blocks.clean m member).1
      · refine NewestFirst.congr (h.dirty.sublist ?_) fun m _ => same m
        rw [cut]
        exact List.sublist_append_left _ _

theorem InOrder.step (h : InOrder s L) (step : sparing.Step s s') : ∃ L', InOrder s' L' := by
  obtain ⟨op, ⟨call, spares⟩, done⟩ := step
  cases op with
  | addBlock fileDes blockAddr data =>
      obtain ⟨cache, added, rfl⟩ := Option.map_eq_some_iff.mp done
      exact h.addBlock call added
  | readBlock fileDes blockAddr =>
      cases found : s.cache.lookup fileDes blockAddr with
      | none =>
          simp only [sparing, exec, Cache.readBlock_missing (Option.map_eq_none_iff.mpr found)] at done
          obtain rfl := Option.some.inj done
          exact ⟨L, h⟩
      | some n =>
          have order := h.readBlock found
          simp only [sparing, exec, Cache.readBlock, found] at done order
          obtain rfl := Option.some.inj done
          exact order
  | write fileDes offset size data =>
      cases found : s.cache.lookup fileDes (blockOf offset) with
      | none =>
          simp only [sparing, exec, Cache.write_missing (Option.map_eq_none_iff.mpr found)] at done
          obtain rfl := Option.some.inj done
          exact ⟨L, h⟩
      | some n =>
          have order := h.write data found call
          simp only [sparing, exec, Cache.write, found] at done order
          obtain rfl := Option.some.inj done
          exact order
  | evictBlock fileDes blockAddr =>
      obtain rfl := Option.some.inj done
      exact h.evictBlock fileDes blockAddr
  | flush => exact h.flush spares done
  | harvest =>
      obtain ⟨r, harvested, rfl⟩ := Option.map_eq_some_iff.mp done
      exact h.harvest harvested

/-! ## The victim -/

/-- A node is older than others: so is its block. -/
theorem oldest_of_nodes (rep : Rep s.cache L) {among : CacheBlock → Prop}
    (older : ∀ m, L.Cached m → among (s.cache.block m) → m ≠ n → s.use n < s.use m) :
    s.Oldest (s.cache.block n).fdes (s.cache.block n).addr among := by
  intro fd a b found kind other
  obtain ⟨m, cached, rfl, rfl, rfl⟩ := rep.find_eq_some.mp found
  refine older m cached kind ?_
  rintro rfl
  exact other.elim (· rfl) (· rfl)

/-- The harvester takes its victim and nothing else. -/
theorem harvest_victim (rep : Rep s.cache L) (victim : L.victim = some n) :
    ∃ t, s.cache.harvestIteration = some ((t.cache.addToFreeList t.node).1, t.flushed) ∧ Rep.Takes s.cache L n t ∧
      (t.cache.addToFreeList t.node).1.find =
        Cache.set s.cache.find (s.cache.block n).fdes (s.cache.block n).addr none := by
  obtain ⟨t, taken, takes⟩ := rep.harvest victim
  obtain ⟨-, -, -, -, contents⟩ := Cache.taken_rep rep (Rep.victim_cached victim) takes
  refine ⟨t, ?_, takes, contents⟩
  rw [Cache.harvestIteration, taken, Option.map_some]

theorem InOrder.evictsOldest (h : InOrder s L) : s.EvictsOldest := by
  intro cache flushed harvested
  obtain ⟨_, taken, -⟩ := Option.map_eq_some_iff.mp harvested
  obtain ⟨n, victim⟩ := h.rep.victim_of_harvest taken
  have cached := Rep.victim_cached victim
  obtain ⟨t, result, -, contents⟩ := harvest_victim h.rep victim
  obtain ⟨rfl, -⟩ := Prod.mk.inj (Option.some.inj (harvested.symm.trans result))
  refine ⟨_, _, s.cache.block n, h.rep.find_eq_some.mpr ⟨n, cached, rfl, rfl, rfl⟩, contents, ?_⟩
  rcases Option.or_eq_some_iff.mp victim with last | ⟨empty, last⟩
  · refine .inl ⟨(h.rep.blocks.clean n (List.mem_of_getLast? last)).1, oldest_of_nodes h.rep ?_⟩
    intro m here clean other
    exact h.clean.last_lt last ((h.rep.mem_recency_iff here).mp clean) other
  · have allDirty : ∀ m, L.Cached m → m ∈ L.dirty := by
      rintro m (inside | inside)
      · rw [List.getLast?_eq_none_iff.mp empty] at inside
        cases inside
      · exact inside
    refine .inr ⟨(h.rep.blocks.unclean n (allDirty n cached)).1, ?_, oldest_of_nodes h.rep ?_⟩
    · intro fd a b found
      obtain ⟨m, here, rfl, -, -⟩ := h.rep.find_eq_some.mp found
      exact (h.rep.blocks.unclean m (allDirty m here)).1
    · exact fun m here _ other => h.dirty.last_lt last (allDirty m here) other

/-! ## Out of order -/

/-- The last node of the recency list is the oldest if the harvester evicts the oldest
    block. -/
theorem EvictsOldest.last_lt (evicts : s.EvictsOldest) (rep : Rep s.cache L) (last : L.recency.getLast? = some n)
    (inside : m ∈ L.recency) (other : m ≠ n) : s.use n < s.use m := by
  have clean : n ∈ L.recency := List.mem_of_getLast? last
  have present := rep.find_eq_some.mpr ⟨n, .inl clean, rfl, rfl, rfl⟩
  obtain ⟨t, result, -, contents⟩ := harvest_victim rep (by rw [Layout.victim, last, Option.some_or])
  obtain ⟨fileDes, blockAddr, block, found, contents', oldest⟩ := evicts _ _ result
  have key : fileDes = (s.cache.block n).fdes ∧ blockAddr = (s.cache.block n).addr := by
    by_contra differ
    have gone : Cache.set s.cache.find fileDes blockAddr none fileDes blockAddr = none := if_pos ⟨rfl, rfl⟩
    rw [← contents', contents, Cache.set_of_ne differ, found] at gone
    cases gone
  obtain ⟨rfl, rfl⟩ := key
  obtain rfl := Option.some.inj (found.symm.trans present)
  rcases oldest with ⟨-, oldest⟩ | ⟨unclean, -⟩
  · refine oldest _ _ _ (rep.find_eq_some.mpr ⟨m, .inl inside, rfl, rfl, rfl⟩) (rep.blocks.clean m inside).1 ?_
    by_contra same
    simp only [not_or, not_not] at same
    exact other (rep.blocks.unique m n (.inl inside) (.inl clean) same.1 same.2)
  · rw [(rep.blocks.clean n clean).1] at unclean
    cases unclean

/-- A node stands in front of newer ones: once those behind them are evicted, a newer one
    is next. -/
theorem harvests_newer {front : List NodeId} (nonempty : front ≠ []) (back : List NodeId) : ∀ {s : UsedCache} {L : Layout},
    Rep s.cache L → L.recency = n :: (front ++ back) → (∀ m ∈ front, s.use n ≤ s.use m) →
      ∃ t, machine.run s (List.replicate back.length .harvest) = some t ∧ ¬ t.EvictsOldest := by
  induction back using List.reverseRecOn with
  | nil =>
      intro s L rep recency newer
      refine ⟨s, rfl, fun evicts => ?_⟩
      obtain ⟨m, last⟩ := Option.ne_none_iff_exists'.mp fun none => nonempty (List.getLast?_eq_none_iff.mp none)
      have inside := List.mem_of_getLast? last
      have distinct := rep.recency.distinct
      rw [recency, List.append_nil] at distinct
      have other : n ≠ m := by
        rintro rfl
        exact (List.nodup_cons.mp distinct).1 inside
      have last' : L.recency.getLast? = some m := by
        rw [recency, List.append_nil, List.getLast?_cons, last]
        rfl
      have older := evicts.last_lt rep last' (by rw [recency]; exact List.mem_cons_self) other
      have younger := newer m inside
      omega
  | append_singleton back m ih =>
      intro s L rep recency newer
      have shape : L.recency = (n :: (front ++ back)) ++ [m] := by
        rw [recency, List.cons_append, List.append_assoc]
      have last : L.recency.getLast? = some m := by rw [shape, List.getLast?_concat]
      obtain ⟨t, result, takes, -⟩ := harvest_victim rep (by rw [Layout.victim, last, Option.some_or])
      have erased : L.recency.erase m = n :: (front ++ back) := by
        have distinct := rep.recency.distinct
        rw [shape] at distinct ⊢
        exact Rep.erase_last distinct
      have newer' : ∀ k ∈ front, { s with cache := (t.cache.addToFreeList t.node).1 }.use n ≤
          { s with cache := (t.cache.addToFreeList t.node).1 }.use k := by
        intro k inside
        have away : m ∉ n :: (front ++ back) := by
          rw [← erased]
          exact rep.recency.distinct.not_mem_erase
        simp only [List.mem_cons, List.mem_append, not_or] at away
        rw [takes_use takes (Ne.symm away.1), takes_use takes (fun same => away.2.1 (same ▸ inside))]
        exact newer k inside
      obtain ⟨t', ran, breaks⟩ := ih takes.released erased newer'
      refine ⟨t', ?_, breaks⟩
      have step : s.exec .harvest = some { s with cache := (t.cache.addToFreeList t.node).1 } := by
        rw [exec, result, Option.map_some]
      rw [List.length_append, List.length_singleton, List.replicate_succ]
      exact machine.run_cons.mpr ⟨trivial, _, step, ran⟩

/-- An iteration of the flusher that puts a block in front of newer ones, and enough of
    the harvester. -/
theorem InOrder.breaks (h : InOrder s L) (broken : ¬ s.FlushesNewest) :
    ∃ k t, machine.run s (.flush :: List.replicate k .harvest) = some t ∧ ¬ t.EvictsOldest := by
  simp only [FlushesNewest, not_forall] at broken
  obtain ⟨n, last, fd, a, b, found, clean, newer⟩ := broken
  obtain ⟨m, cached, rfl, rfl, rfl⟩ := h.rep.find_eq_some.mp found
  have inside := (h.rep.mem_recency_iff cached).mp clean
  obtain ⟨xs, cut⟩ := List.getLast?_eq_some_iff.mp (h.rep.dirty.back.symm.trans last)
  obtain ⟨front, back, split, since, before⟩ := h.clean.split_at (s.use n)
  have nonempty : front ≠ [] := by
    rintro rfl
    rw [split] at inside
    exact newer (before m inside)
  obtain ⟨cache, flushed, rep, -, same⟩ := flush_cut h.rep cut
  have since' : ∀ k ∈ front, { s with cache := cache }.use n ≤ { s with cache := cache }.use k := by
    intro k member
    rw [same, same]
    exact since k member
  obtain ⟨t, ran, breaks⟩ := harvests_newer nonempty back rep (congrArg (n :: ·) split) since'
  refine ⟨back.length, t, ?_, breaks⟩
  exact machine.run_cons.mpr ⟨trivial, _, flushed, ran⟩

theorem InOrder.harvests {k : Nat} (h : InOrder s L) (ran : machine.run s (List.replicate k .harvest) = some s') :
    ∃ L', InOrder s' L' := by
  induction k generalizing s L with
  | zero =>
      obtain rfl := Option.some.inj ran
      exact ⟨L, h⟩
  | succ k ih =>
      rw [List.replicate_succ] at ran
      obtain ⟨-, t, first, ran⟩ := machine.run_cons.mp ran
      obtain ⟨L', h'⟩ := h.step ⟨.harvest, ⟨trivial, trivial⟩, first⟩
      exact ih h' ran

/-! ## Runs -/

theorem reachable_inOrder (reach : Reachable Initial sparing.Step s) : ∃ L, InOrder s L := by
  refine reach.invariant (fun s => ∃ L, InOrder s L) ?_ ?_
  · rintro s rfl
    exact ⟨_, .initial⟩
  · rintro s t ⟨L, h⟩ step
    exact h.step step

/-- In every run in which the flusher takes no block that has been used before a clean
    one, the harvester evicts the least recently used block; and an iteration of the
    flusher that takes such a block is followed, after some of the harvester, by one that
    does not. -/
theorem reachable_evictsOldest (reach : Reachable Initial sparing.Step s) :
    s.EvictsOldest ∧
      (s.FlushesNewest ↔
        ∀ k t, machine.run s (.flush :: List.replicate k .harvest) = some t → t.EvictsOldest) := by
  obtain ⟨L, h⟩ := reachable_inOrder reach
  refine ⟨h.evictsOldest, ?_, ?_⟩
  · intro newest k t ran
    obtain ⟨-, s₁, flushed, ran⟩ := machine.run_cons.mp ran
    obtain ⟨L₁, h₁⟩ := h.flush newest flushed
    obtain ⟨L', h'⟩ := h₁.harvests ran
    exact h'.evictsOldest
  · intro all
    by_contra broken
    obtain ⟨k, t, ran, breaks⟩ := h.breaks broken
    exact breaks (all k t ran)

/-- Two blocks of a file. -/
def firstBlock : UsedCache := (machine.run {} [.addBlock 1 0 fun _ => 0]).get rfl

def twoBlocks : UsedCache := (machine.run firstBlock [.addBlock 1 1024 fun _ => 0]).get rfl

theorem reachable_evictsOldest_two : twoBlocks.EvictsOldest ∧
    ∃ cache flushed, twoBlocks.cache.harvestIteration = some (cache, flushed) ∧ (cache.find 1 0).isNone = true := by
  have first : sparing.Step {} firstBlock := ⟨.addBlock 1 0 fun _ => 0, ⟨rfl, trivial⟩, rfl⟩
  have second : sparing.Step firstBlock twoBlocks := ⟨.addBlock 1 1024 fun _ => 0, ⟨rfl, trivial⟩, rfl⟩
  have start : Reachable Initial sparing.Step {} := Reachable.init rfl
  have reach := (start.tail first).tail second
  exact ⟨(reachable_evictsOldest reach).1, _, _, rfl, rfl⟩

/-! ## A flushed block in front of newer ones -/

/-- A block is added and written, and `k` more are added. -/
def filling (k : Nat) : List Op :=
  [.addBlock 1 0 fun _ => 0, .write 1 0 1 fun _ => 1] ++
    (List.range k).map fun i => .addBlock 1 ((i + 1) * pfsBlockSizeInBytes) fun _ => 0

/-- The first block is dirty, and the `k` blocks after it are clean and newer. -/
structure Filled (s : UsedCache) (k : Nat) : Prop where
  order : ∃ L, InOrder s L
  first : ∃ block, s.cache.find 1 0 = some block ∧ block.clean = false
  others : ∀ fd a b, s.cache.find fd a = some b → ¬ (fd = 1 ∧ a = 0) →
    (∃ i, 0 < i ∧ i ≤ k ∧ a = i * pfsBlockSizeInBytes) ∧ b.clean = true ∧ s.lastUse 1 0 < s.lastUse fd a
  last : 0 < k → (s.cache.find 1 (k * pfsBlockSizeInBytes)).isSome = true
  recent : s.lastUse 1 0 ≤ s.clock
  units : s.cache.freeBlockSemaphore + 2 * (k + 1) = blockCount
  count : s.cache.freeBlockCount + (k + 1) = blockCount
  wakes : s.cache.freeBlockCount ≤ harvestLow → s.cache.harvesterSemaphore ≠ 0

theorem InOrder.wf (h : InOrder s L) : s.cache.WF := ⟨L, h.rep, h.held, h.units⟩

theorem exec_write_hit {fileDes offset size : Nat} {data : Nat → UInt8} (wf : s.cache.WF) (nonempty : 0 < size)
    (present : (s.cache.find fileDes (blockOf offset)).isSome = true) :
    s.exec (.write fileDes offset size data) =
      some (s.used fileDes (blockOf offset) (s.cache.write fileDes offset size data).1) := by
  have hit : (s.cache.write fileDes offset size data).2 = true :=
    (Cache.write_spec wf fileDes offset data nonempty).2.1.trans present
  have pair : s.cache.write fileDes offset size data = ((s.cache.write fileDes offset size data).1, true) :=
    Prod.ext rfl hit
  rw [exec, pair]

theorem run_filling_zero : ∃ s, machine.run {} (filling 0) = some s ∧ Filled s 0 := by
  obtain ⟨c, added, units, count, -⟩ := CacheThreads.addBlock_counts Cache.init_wf 1 (Nat.zero_mod _)
    (show 2 ≤ blockCount by decide) (fun _ => 0)
  have absent := Cache.init_find 1 0
  obtain ⟨wf, -, contents⟩ := Cache.addBlock_spec Cache.init_wf absent added
  obtain ⟨L, order⟩ := InOrder.initial.addBlock (Option.map_eq_none_iff.mp absent) added
  have present : c.find 1 (blockOf 0) = some (Cache.fetched 1 0 fun _ => 0) := by
    rw [contents]
    rfl
  obtain ⟨n, found, -⟩ := Option.map_eq_some_iff.mp present
  have order' := order.write (fun _ => 1) found Nat.one_pos
  obtain ⟨-, -, contents'⟩ := Cache.write_spec wf 1 0 (fun _ => 1) Nat.one_pos
  obtain ⟨sameCount, sameUnits⟩ := c.write_sameFree 1 0 1 fun _ => 1
  have large : blockCount = 2048 := rfl
  have low : harvestLow = 2000 := rfl
  have full : Cache.init.freeBlockSemaphore = blockCount ∧ Cache.init.freeBlockCount = blockCount := ⟨rfl, rfl⟩
  refine ⟨_, machine.run_cons.mpr ⟨Option.map_eq_none_iff.mp absent, _, ?_, machine.run_cons.mpr ⟨Nat.one_pos, _,
    exec_write_hit wf Nat.one_pos ?_, rfl⟩⟩, ⟨order', ?_, ?_, nofun, Nat.le_refl 2, ?_, ?_, ?_⟩⟩
  · exact Option.map_eq_some_iff.mpr ⟨c, added, rfl⟩
  · exact Option.isSome_of_eq_some present
  · refine ⟨{ Cache.patch (Cache.fetched 1 0 fun _ => 0) 0 1 (fun _ => 1) with clean := false }, ?_, rfl⟩
    show (c.write 1 0 1 fun _ => 1).1.find 1 0 = _
    rw [contents', present]
    rfl
  · intro fd a b here other
    have here : (c.write 1 0 1 fun _ => 1).1.find fd a = some b := here
    rw [contents', show blockOf 0 = 0 from rfl, Cache.set_of_ne other, contents, Cache.set_of_ne other,
      Cache.init_find] at here
    cases here
  · show (c.write 1 0 1 fun _ => 1).1.freeBlockSemaphore + 2 = blockCount
    omega
  · show (c.write 1 0 1 fun _ => 1).1.freeBlockCount + 1 = blockCount
    omega
  · intro few
    have few : (c.write 1 0 1 fun _ => 1).1.freeBlockCount ≤ harvestLow := few
    omega

theorem used_lastUse {fileDes blockAddr fd a : Nat} {cache : Cache} (other : ¬ (fd = fileDes ∧ a = blockAddr)) :
    (s.used fileDes blockAddr cache).lastUse fd a = s.lastUse fd a := by
  simp only [used, if_neg other]

/-- One more block. -/
theorem Filled.addBlock {k : Nat} (filled : Filled s k) (few : 2 * (k + 1 + 1) ≤ blockCount) :
    ∃ cache, s.cache.find 1 ((k + 1) * pfsBlockSizeInBytes) = none ∧
      s.cache.addBlock 1 ((k + 1) * pfsBlockSizeInBytes) (fun _ => 0) = some cache ∧
      Filled (s.used 1 ((k + 1) * pfsBlockSizeInBytes) cache) (k + 1) := by
  obtain ⟨L, order⟩ := filled.order
  have zero : ¬ ((1 : Nat) = 1 ∧ (0 : Nat) = (k + 1) * pfsBlockSizeInBytes) := by
    simp only [pfsBlockSizeInBytes]
    omega
  have absent : s.cache.find 1 ((k + 1) * pfsBlockSizeInBytes) = none := by
    cases found : s.cache.find 1 ((k + 1) * pfsBlockSizeInBytes) with
    | none => rfl
    | some b =>
        obtain ⟨⟨i, -, less, same⟩, -⟩ := filled.others _ _ b found fun key => zero ⟨rfl, key.2.symm⟩
        simp only [pfsBlockSizeInBytes] at same
        omega
  have units := filled.units
  have count := filled.count
  obtain ⟨c, added, units', count', wakes⟩ := CacheThreads.addBlock_counts order.wf 1
    (Nat.mul_mod_left (k + 1) pfsBlockSizeInBytes) (by omega) (fun _ => 0)
  obtain ⟨-, -, contents⟩ := Cache.addBlock_spec order.wf absent added
  refine ⟨c, absent, added, order.addBlock (Option.map_eq_none_iff.mp absent) added, ?_, ?_, ?_, ?_, ?_, ?_, wakes⟩
  · obtain ⟨block, found, unclean⟩ := filled.first
    refine ⟨block, ?_, unclean⟩
    show c.find 1 0 = some block
    rw [contents, Cache.set_of_ne zero, found]
  · intro fd a b here other
    have found : c.find fd a = some b := here
    rw [contents, Cache.set] at found
    rw [used_lastUse zero]
    split at found
    · next key =>
        obtain ⟨rfl, rfl⟩ := key
        obtain rfl := Option.some.inj found
        have now : (s.used 1 ((k + 1) * pfsBlockSizeInBytes) c).lastUse 1 ((k + 1) * pfsBlockSizeInBytes) =
            s.clock + 1 := by simp only [used, and_self, if_true]
        rw [now]
        exact ⟨⟨k + 1, Nat.succ_pos k, Nat.le_refl _, rfl⟩, rfl, Nat.lt_succ_of_le filled.recent⟩
    · next key =>
        obtain ⟨⟨i, positive, less, place⟩, clean, newer⟩ := filled.others fd a b found other
        rw [used_lastUse key]
        exact ⟨⟨i, positive, Nat.le_succ_of_le less, place⟩, clean, newer⟩
  · intro _
    show (c.find 1 ((k + 1) * pfsBlockSizeInBytes)).isSome = true
    rw [contents, Cache.set_self]
    rfl
  · rw [used_lastUse zero]
    exact Nat.le_succ_of_le filled.recent
  · show c.freeBlockSemaphore + 2 * (k + 1 + 1) = blockCount
    omega
  · show c.freeBlockCount + (k + 1 + 1) = blockCount
    omega

theorem run_filling {k : Nat} (few : 2 * (k + 1) ≤ blockCount) :
    ∃ s, machine.run {} (filling k) = some s ∧ Filled s k := by
  induction k with
  | zero => exact run_filling_zero
  | succ k ih =>
      obtain ⟨s, ran, filled⟩ := ih (by omega)
      obtain ⟨cache, absent, added, filled'⟩ := filled.addBlock few
      refine ⟨_, ?_, filled'⟩
      rw [filling, List.range_succ, List.map_append, ← List.append_assoc]
      refine machine.run_snoc.mpr ⟨s, ran, Option.map_eq_none_iff.mp absent, ?_⟩
      exact Option.map_eq_some_iff.mpr ⟨cache, added, rfl⟩

/-- The flusher puts the first block in front of all the others, which are newer. -/
theorem Filled.flushed {k : Nat} (filled : Filled s k) (more : 0 < k) :
    ∃ s', s.exec .flush = some s' ∧ s'.cache = s.cache.flushIteration.1 ∧ ¬ s'.EvictsOldest := by
  obtain ⟨L, order⟩ := filled.order
  obtain ⟨block, first, unclean⟩ := filled.first
  obtain ⟨n, cached, rfl, fdes, addr⟩ := order.rep.find_eq_some.mp first
  have time : s.use n = s.lastUse 1 0 := by rw [use, fdes, addr]
  have clean : ∀ m, L.Cached m → m ≠ n → (s.cache.block m).clean = true ∧ s.use n < s.use m := by
    intro m here other
    obtain ⟨-, clean, newer⟩ := filled.others _ _ _ (order.rep.find_eq_some.mpr ⟨m, here, rfl, rfl, rfl⟩) (by
      rintro ⟨fdes', addr'⟩
      exact other (order.rep.blocks.unique m n here cached (fdes'.trans fdes.symm) (addr'.trans addr.symm)))
    rw [time]
    exact ⟨clean, newer⟩
  have only : ∀ m ∈ L.dirty, m = n := by
    intro m inside
    by_contra other
    have unclean' := (order.rep.blocks.unclean m inside).1
    rw [(clean m (.inr inside) other).1] at unclean'
    cases unclean'
  have dirty : n ∈ L.dirty := cached.resolve_left fun inside => by
    rw [(order.rep.blocks.clean n inside).1] at unclean
    cases unclean
  obtain ⟨d, last⟩ : ∃ d, L.dirty.getLast? = some d :=
    ⟨_, List.getLast?_eq_some_getLast (List.ne_nil_of_mem dirty)⟩
  obtain rfl := only d (List.mem_of_getLast? last)
  obtain ⟨xs, cut⟩ := List.getLast?_eq_some_iff.mp last
  obtain ⟨cache, flushed, rep, -, same⟩ := flush_cut order.rep cut
  have nonempty : L.recency ≠ [] := by
    obtain ⟨b, found⟩ := Option.isSome_iff_exists.mp (filled.last more)
    obtain ⟨m, here, rfl, -, addr'⟩ := order.rep.find_eq_some.mp found
    have other : m ≠ d := by
      rintro rfl
      rw [addr] at addr'
      simp only [pfsBlockSizeInBytes] at addr'
      omega
    exact List.ne_nil_of_mem ((order.rep.mem_recency_iff here).mp (clean m here other).1)
  have newer : ∀ m ∈ L.recency, { s with cache := cache }.use d ≤ { s with cache := cache }.use m := by
    intro m inside
    rw [same, same]
    have other : m ≠ d := fun equal => (order.rep.partition.of_dirty dirty).1 (equal ▸ inside)
    exact Nat.le_of_lt (clean m (.inl inside) other).2
  obtain ⟨t, ran, breaks⟩ := harvests_newer nonempty [] rep (by rw [List.append_nil]) newer
  obtain rfl := Option.some.inj ran
  refine ⟨_, flushed, ?_, breaks⟩
  exact (congrArg UsedCache.cache (Option.some.inj flushed)).symm

/-- The harvester, which has been woken by the last of 48 additions, evicts one of the
    blocks that have been used after the flushed one. -/
theorem filling_flushed : ∃ s, machine.run {} (filling 48 ++ [.flush]) = some s ∧
    s.cache.freeBlockCount ≤ harvestLow ∧ s.cache.harvesterSemaphore ≠ 0 ∧ ¬ s.EvictsOldest := by
  have few : 2 * (48 + 1) ≤ blockCount := by decide
  obtain ⟨s, ran, filled⟩ := run_filling few
  obtain ⟨s', flushed, cache, breaks⟩ := filled.flushed (by decide)
  have large : blockCount = 2048 := rfl
  have low : harvestLow = 2000 := rfl
  have count := filled.count
  have same := s.cache.flushIteration_sameFree.1
  have awake : s.cache.flushIteration.1.harvesterSemaphore = s.cache.harvesterSemaphore := by
    unfold Cache.flushIteration
    split
    · rfl
    · next node c popped =>
        obtain ⟨r, -, same⟩ := Option.map_eq_some_iff.mp popped
        rw [← (Prod.mk.inj same).2]
        rfl
  refine ⟨s', machine.run_snoc.mpr ⟨s, ran, trivial, flushed⟩, ?_, ?_, breaks⟩
  · rw [cache]
    omega
  · rw [cache, awake]
    exact filled.wakes (by omega)

end UsedCache

end PFS
