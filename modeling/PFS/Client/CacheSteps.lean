import PFS.Client.CacheLayout

/-! # The critical sections of the cache keep its representation

For each critical section of `Cache` the layout after it, in terms of the layout
before it.  A node that is on its way from one list to another outside the locks
is `held`.
-/

namespace PFS

open Lib

theorem mem_move {xs : List NodeId} {n : NodeId} (member : n ∈ xs) (m : NodeId) : m ∈ n :: xs.erase n ↔ m ∈ xs :=
  (List.perm_cons_erase member).symm.mem_iff

/-- An erased entry, counted. -/
theorem count_erase_add {xs : List NodeId} {n : NodeId} (member : n ∈ xs) (m : NodeId) :
    (xs.erase n).count m + (if n == m then 1 else 0) = xs.count m := by
  rw [(List.perm_cons_erase member).count_eq m, List.count_cons]

theorem count_concat_add (xs : List NodeId) (n m : NodeId) :
    (xs ++ [n]).count m = xs.count m + (if n == m then 1 else 0) := by
  rw [List.count_append, List.count_cons, List.count_nil, Nat.zero_add]

/-- The layout once node `n` of bucket `b` has been taken out of the cache. -/
def Layout.take (L : Layout) (b : Nat) (n : NodeId) : Layout :=
  { L with
    recency := L.recency.erase n, dirty := L.dirty.erase n, held := n :: L.held
    chain := Function.update L.chain b ((L.chain b).erase n) }

/-- The node the harvester takes: the least recent clean one, else the least
    recent dirty one. -/
def Layout.victim (L : Layout) : Option NodeId := L.recency.getLast?.or L.dirty.getLast?

theorem Cache.write_units (c : Cache) (fileDes offset size : Nat) (data : Nat → UInt8) :
    (c.write fileDes offset size data).1.freeBlockSemaphore = c.freeBlockSemaphore := by
  unfold Cache.write
  split
  · rfl
  · split <;> rfl

namespace BlockRep

variable {c c' : Cache} {L L' : Layout}

/-- Cached blocks keep their keys; what the lists say about them is shown anew. -/
theorem rekey (h : BlockRep c L) (cached : ∀ n, L'.Cached n → L.Cached n)
    (keys : ∀ n, L'.Cached n → (c'.block n).fdes = (c.block n).fdes ∧ (c'.block n).addr = (c.block n).addr ∧
      (c'.block n).valid = (c.block n).valid ∧ c'.bucketId n = c.bucketId n)
    (clean : ∀ n ∈ L'.recency, (c'.block n).clean = true ∧ ∀ i, (c'.block n).dirty i = false)
    (unclean : ∀ n ∈ L'.dirty, (c'.block n).clean = false ∧
      ∃ i, i < pfsBlockSizeInBytes ∧ (c'.block n).dirty i = true) : BlockRep c' L' where
  bucket n here := by
    obtain ⟨fdes, addr, -, ids⟩ := keys n here
    rw [ids, fdes, addr]
    exact h.bucket n (cached n here)
  unique n m here there := by
    obtain ⟨fdes, addr, -, -⟩ := keys n here
    obtain ⟨fdes', addr', -, -⟩ := keys m there
    rw [fdes, addr, fdes', addr']
    exact h.unique n m (cached n here) (cached m there)
  valid n here := by
    rw [(keys n here).2.2.1]
    exact h.valid n (cached n here)
  clean := clean
  unclean := unclean

/-- Blocks are only looked at where the lists name them. -/
theorem subset (h : BlockRep c L) (clean : ∀ n ∈ L'.recency, n ∈ L.recency) (unclean : ∀ n ∈ L'.dirty, n ∈ L.dirty)
    (same : ∀ n, L'.Cached n → c'.block n = c.block n) (ids : ∀ n, L'.Cached n → c'.bucketId n = c.bucketId n) :
    BlockRep c' L' := by
  apply h.rekey (fun n => Or.imp (clean n) (unclean n))
  · intro n here
    rw [same n here]
    exact ⟨rfl, rfl, rfl, ids n here⟩
  · intro n member
    rw [same n (.inl member)]
    exact h.clean n (clean n member)
  · intro n member
    rw [same n (.inr member)]
    exact h.unclean n (unclean n member)

end BlockRep

namespace Rep

variable {c : Cache} {L : Layout}

/-- Who is first among the holders does not matter. -/
theorem reheld (h : Rep c L) {xs : List NodeId} (perm : xs.Perm L.held) : Rep c { L with held := xs } where
  partition m := by
    have one := h.partition m
    rw [← perm.count_eq m] at one
    exact one
  recency := h.recency
  dirty := h.dirty
  hash := h.hash
  free := h.free
  blocks := h.blocks.subset (fun _ => id) (fun _ => id) (fun _ _ => rfl) (fun _ _ => rfl)

/-- The layout says nothing about the semaphores. -/
theorem semaphores (h : Rep c L) (freeBlocks harvester : Nat) :
    Rep { c with freeBlockSemaphore := freeBlocks, harvesterSemaphore := harvester } L :=
  ⟨h.partition, h.recency, h.dirty, h.hash.congr rfl rfl (fun _ => Iff.rfl) (fun _ _ => rfl),
    h.free.congr rfl rfl rfl, h.blocks.subset (fun _ => id) (fun _ => id) (fun _ _ => rfl) (fun _ _ => rfl)⟩

/-- A key that is not cached stays out as long as no node is added. -/
theorem lookup_none_mono (h : Rep c L) {c' : Cache} {L' : Layout} (h' : Rep c' L') {fileDes blockAddr : Nat}
    (sub : ∀ n, L'.Cached n → L.Cached n ∧ (c'.block n).fdes = (c.block n).fdes ∧
      (c'.block n).addr = (c.block n).addr)
    (absent : c.lookup fileDes blockAddr = none) : c'.lookup fileDes blockAddr = none := by
  rw [h'.lookup_eq_none]
  intro n cached key
  obtain ⟨before, fdes, addr⟩ := sub n cached
  rw [fdes, addr] at key
  exact h.lookup_eq_none.mp absent n before key

/-! ## Hits -/

theorem touch_recency (h : Rep c L) {n : NodeId} (member : n ∈ L.recency) :
    Rep ((c.removeFromRecencyList n).addToRecencyList n) { L with recency := n :: L.recency.erase n } where
  partition m := by
    have one := h.partition m
    have moved := count_erase_add member m
    simp only [List.count_cons]
    omega
  recency := (h.recency.unlink member).pushFront h.recency.distinct.not_mem_erase
  dirty := h.dirty
  hash := h.hash.congr rfl rfl (fun m => or_congr (mem_move member m) Iff.rfl) (fun _ _ => rfl)
  free := h.free.congr rfl rfl rfl
  blocks := h.blocks.subset (fun m => (mem_move member m).mp) (fun _ => id) (fun _ _ => rfl) (fun _ _ => rfl)

theorem touch_dirty (h : Rep c L) {n : NodeId} (member : n ∈ L.dirty) :
    Rep ((c.removeFromDirtyList n).addToDirtyList n) { L with dirty := n :: L.dirty.erase n } where
  partition m := by
    have one := h.partition m
    have moved := count_erase_add member m
    simp only [List.count_cons]
    omega
  recency := h.recency
  dirty := (h.dirty.unlink member).pushFront h.dirty.distinct.not_mem_erase
  hash := h.hash.congr rfl rfl (fun m => or_congr Iff.rfl (mem_move member m)) (fun _ _ => rfl)
  free := h.free.congr rfl rfl rfl
  blocks := h.blocks.subset (fun _ => id) (fun m => (mem_move member m).mp) (fun _ _ => rfl) (fun _ _ => rfl)

/-! ## Free nodes -/

/-- A node taken from the free list is in the hands of its thread. -/
theorem popFree (h : Rep c L) {n m : NodeId} {rest : List NodeId} (free : L.free = n :: m :: rest) :
    ∃ c', c.popFree = some (n, c') ∧ Rep c' { L with free := m :: rest, held := n :: L.held } ∧
      c'.block = c.block ∧ c'.bucketId = c.bucketId ∧ c'.freeBlockSemaphore = c.freeBlockSemaphore := by
  have freeRep := h.free
  have distinct := h.partition.free_distinct
  rw [free] at freeRep distinct
  obtain ⟨c', popped, rest', same⟩ := freeRep.pop distinct
  refine ⟨c', popped, ?_, by rw [same], by rw [same], by rw [same]⟩
  constructor
  · intro k
    have one := h.partition k
    rw [free, List.count_cons] at one
    simp only [List.count_cons] at one ⊢
    omega
  · rw [same]; exact h.recency
  · rw [same]; exact h.dirty
  · exact h.hash.congr (by rw [same]) (by rw [same]) (fun _ => Iff.rfl) (fun _ _ => by rw [same])
  · exact rest'
  · exact h.blocks.subset (fun _ => id) (fun _ => id) (fun _ _ => by rw [same]) (fun _ _ => by rw [same])

/-- A held node goes back to the free list. -/
theorem addToFreeList (h : Rep c L) {n : NodeId} (member : n ∈ L.held) :
    Rep (c.addToFreeList n).1 { L with free := n :: L.free, held := L.held.erase n } where
  partition m := by
    have one := h.partition m
    have moved := count_erase_add member m
    simp only [List.count_cons]
    omega
  recency := h.recency
  dirty := h.dirty
  hash := h.hash.congr rfl rfl (fun _ => Iff.rfl) (fun _ _ => rfl)
  free := h.free.push h.partition.free_distinct (h.partition.of_held member).2.1
  blocks := h.blocks.subset (fun _ => id) (fun _ => id) (fun _ _ => rfl) (fun _ _ => rfl)

/-- Filling a held node changes nothing the lists can see. -/
theorem fillNode (h : Rep c L) {n : NodeId} (member : n ∈ L.held) (fileDes blockAddr : Nat) (data : Nat → UInt8) :
    Rep (c.fillNode n fileDes blockAddr data) L := by
  have other : ∀ m, L.Cached m → m ≠ n := by
    rintro m cached rfl
    exact (h.partition.of_held member).1 cached
  have ids : ∀ m, L.Cached m → (c.fillNode n fileDes blockAddr data).bucketId m = c.bucketId m :=
    fun m cached => Function.update_of_ne (other m cached) _ _
  exact ⟨h.partition, h.recency, h.dirty, h.hash.congr rfl rfl (fun _ => Iff.rfl) ids, h.free.congr rfl rfl rfl,
    h.blocks.subset (fun _ => id) (fun _ => id) (fun m cached => Function.update_of_ne (other m cached) _ _) ids⟩

/-! ## Writing -/

/-- The node written to has been in one of the lists. -/
theorem write_cached (h : Rep c L) {n : NodeId} (cached : L.Cached n) (m : NodeId) :
    Layout.Cached { L with recency := L.recency.erase n, dirty := n :: L.dirty.erase n } m ↔ L.Cached m := by
  simp only [Layout.Cached, List.mem_cons, h.recency.distinct.mem_erase_iff, h.dirty.distinct.mem_erase_iff]
  by_cases this : m = n
  · subst this
    have : m ∈ L.recency ∨ m ∈ L.dirty := cached
    simp [this]
  · simp [this]

/-- The node written to is dirty, and nothing changes in the others. -/
theorem write_blocks (h : Rep c L) {n : NodeId} (cached : L.Cached n) {c' : Cache} {offset size : Nat}
    {data : Nat → UInt8} (small : offset < pfsBlockSizeInBytes) (nonempty : 0 < size)
    (block : c'.block = Function.update c.block n { Cache.patch (c.block n) offset size data with clean := false })
    (ids : c'.bucketId = c.bucketId) :
    BlockRep c' { L with recency := L.recency.erase n, dirty := n :: L.dirty.erase n } := by
  apply h.blocks.rekey (fun m => (h.write_cached cached m).mp)
  · intro m _
    rw [block, ids]
    by_cases this : m = n
    · subst this
      rw [Function.update_self]
      exact ⟨rfl, rfl, rfl, rfl⟩
    · rw [Function.update_of_ne this]
      exact ⟨rfl, rfl, rfl, rfl⟩
  · intro m member
    have other : m ≠ n := (h.recency.distinct.mem_erase_iff.mp member).1
    rw [block, Function.update_of_ne other]
    exact h.blocks.clean m (List.mem_of_mem_erase member)
  · intro m member
    rw [block]
    by_cases this : m = n
    · subst this
      rw [Function.update_self]
      refine ⟨rfl, offset, small, ?_⟩
      simp [Cache.patch, nonempty]
    · rw [Function.update_of_ne this]
      have member' : m ∈ L.dirty.erase n := (List.mem_cons.mp member).resolve_left this
      exact h.blocks.unclean m (List.mem_of_mem_erase member')

/-- The node written to goes to the front of the dirty list. -/
theorem write (h : Rep c L) {fileDes offset size : Nat} {n : NodeId}
    (found : c.lookup fileDes (blockOf offset) = some n) (nonempty : 0 < size) (data : Nat → UInt8) :
    Rep (c.write fileDes offset size data).1
      { L with recency := L.recency.erase n, dirty := n :: L.dirty.erase n } := by
  have cached := (h.lookup_eq_some.mp found).1
  have same := h.write_cached cached
  have small : offset % pfsBlockSizeInBytes < pfsBlockSizeInBytes := Nat.mod_lt _ (by decide)
  have blocks : ∀ c' : Cache, c'.block = Function.update c.block n
      { Cache.patch (c.block n) (offset % pfsBlockSizeInBytes) size data with clean := false } →
      c'.bucketId = c.bucketId →
      BlockRep c' { L with recency := L.recency.erase n, dirty := n :: L.dirty.erase n } :=
    fun c' => h.write_blocks cached small nonempty
  simp only [Cache.write, found]
  rcases cached with inside | inside
  · have outside := (h.partition.of_recency inside).1
    rw [if_pos (h.blocks.clean n inside).1]
    constructor
    · intro m
      have one := h.partition m
      have moved := count_erase_add inside m
      simp only [List.count_cons, List.erase_of_not_mem outside]
      omega
    · exact h.recency.unlink inside
    · simp only [List.erase_of_not_mem outside]
      exact h.dirty.pushFront outside
    · exact h.hash.congr rfl rfl same (fun _ _ => rfl)
    · exact h.free.congr rfl rfl rfl
    · exact blocks _ rfl rfl
  · have outside := (h.partition.of_dirty inside).1
    rw [if_neg (by simp [(h.blocks.unclean n inside).1])]
    constructor
    · intro m
      have one := h.partition m
      have moved := count_erase_add inside m
      simp only [List.count_cons, List.erase_of_not_mem outside]
      omega
    · simp only [List.erase_of_not_mem outside]
      exact h.recency
    · exact (h.dirty.unlink inside).pushFront h.dirty.distinct.not_mem_erase
    · exact h.hash.congr rfl rfl same (fun _ _ => rfl)
    · exact h.free.congr rfl rfl rfl
    · exact blocks _ rfl rfl

/-- A filled node whose key is absent enters the cache. -/
theorem insertNode (h : Rep c L) {n : NodeId} (member : n ∈ L.held)
    (bucket : c.bucketId n = hashPFS (c.block n).fdes (c.block n).addr) (valid : (c.block n).valid = true)
    (clean : (c.block n).clean = true ∧ ∀ i, (c.block n).dirty i = false)
    (absent : c.lookup (c.block n).fdes (c.block n).addr = none) :
    Rep (c.insertNode n) { L with
      recency := n :: L.recency, held := L.held.erase n
      chain := Function.update L.chain (c.bucketId n) (n :: L.chain (c.bucketId n)) } := by
  have outside := (h.partition.of_held member).1
  have missing := h.lookup_eq_none.mp absent
  constructor
  · intro m
    have one := h.partition m
    have moved := count_erase_add member m
    simp only [List.count_cons]
    omega
  · exact h.recency.pushFront (fun inside => outside (.inl inside))
  · exact h.dirty
  · refine (h.hash.add outside).congr rfl rfl (fun m => ?_) (fun _ _ => rfl)
    simp only [Layout.Cached, List.mem_cons, or_assoc]
  · exact h.free.congr rfl rfl rfl
  · constructor
    · rintro m ((_ | ⟨_, inside⟩) | inside)
      · exact bucket
      · exact h.blocks.bucket m (.inl inside)
      · exact h.blocks.bucket m (.inr inside)
    · intro m k here there fdes addr
      have split : ∀ j, (j ∈ n :: L.recency ∨ j ∈ L.dirty) → j = n ∨ L.Cached j := by
        intro j
        rw [List.mem_cons, or_assoc]
        exact id
      rcases split m here with rfl | before
      · rcases split k there with rfl | before
        · rfl
        · exact (missing k before ⟨fdes.symm, addr.symm⟩).elim
      · rcases split k there with rfl | before'
        · exact (missing m before ⟨fdes, addr⟩).elim
        · exact h.blocks.unique m k before before' fdes addr
    · rintro m ((_ | ⟨_, inside⟩) | inside)
      · exact valid
      · exact h.blocks.valid m (.inl inside)
      · exact h.blocks.valid m (.inr inside)
    · intro m inside
      rcases List.mem_cons.mp inside with rfl | inside
      · exact clean
      · exact h.blocks.clean m inside
    · exact h.blocks.unclean

/-! ## Taking a node out -/

theorem take_cached (h : Rep c L) (b : Nat) (n m : NodeId) :
    (L.take b n).Cached m ↔ m ≠ n ∧ L.Cached m := by
  simp only [Layout.take, Layout.Cached, h.recency.distinct.mem_erase_iff, h.dirty.distinct.mem_erase_iff, and_or_left]

theorem take_partition (h : Rep c L) (b : Nat) {n : NodeId} (cached : L.Cached n) : (L.take b n).Partition := by
  intro m
  have one := h.partition m
  simp only [Layout.take, List.count_cons]
  rcases cached with inside | inside
  · rw [List.erase_of_not_mem (h.partition.of_recency inside).1]
    have moved := count_erase_add inside m
    omega
  · rw [List.erase_of_not_mem (h.partition.of_dirty inside).1]
    have moved := count_erase_add inside m
    omega

/-- What is left to show of a cache from which `n` has been unlinked. -/
theorem taken (h : Rep c L) {c' : Cache} {n : NodeId} (cached : L.Cached n)
    (recency : c'.recencyList.Holds (L.recency.erase n)) (dirty : c'.dirtyList.Holds (L.dirty.erase n))
    (table : c'.hashTable = (c.removeFromHashmap n).hashTable)
    (nodes : c'.bucketNode = (c.removeFromHashmap n).bucketNode) (free : FreeRep c' L.free)
    (blocks : ∀ m, m ≠ n → c'.block m = c.block m) (ids : ∀ m, m ≠ n → c'.bucketId m = c.bucketId m) :
    Rep c' (L.take (c.bucketId n) n) where
  partition := h.take_partition _ cached
  recency := recency
  dirty := dirty
  hash := (h.hash.remove cached).congr table nodes (h.take_cached _ n) (fun m here => ids m here.1)
  free := free
  blocks := by
    have other : ∀ m, (L.take (c.bucketId n) n).Cached m → m ≠ n := fun m here => ((h.take_cached _ n m).mp here).1
    exact h.blocks.subset (fun m => List.mem_of_mem_erase) (fun m => List.mem_of_mem_erase)
      (fun m here => blocks m (other m here)) (fun m here => ids m (other m here))

theorem resetNode (h : Rep c L) {n : NodeId} (member : n ∈ L.held) : Rep (c.resetNode n) L := by
  have outside := (h.partition.of_held member).1
  have other : ∀ m, L.Cached m → m ≠ n := by
    rintro m cached rfl
    exact outside cached
  have ids : ∀ m, L.Cached m → (c.resetNode n).bucketId m = c.bucketId m :=
    fun m cached => Function.update_of_ne (other m cached) _ _
  refine ⟨h.partition, h.recency.resetLink (fun inside => outside (.inl inside)),
    h.dirty.resetLink (fun inside => outside (.inr inside)),
    h.hash.congr rfl (Link.reset_idle (h.hash.outside n outside)) (fun _ => Iff.rfl) ids, ?_,
    h.blocks.subset (fun _ => id) (fun _ => id) (fun _ _ => rfl) ids⟩
  refine ⟨h.free.linked.congr ?_, h.free.head, ?_, h.free.count⟩
  · intro m inside
    apply Link.reset_ne
    rintro rfl
    exact (h.partition.of_held member).2.1 inside
  · intro m away
    by_cases same : m = n
    · subst same
      show (Link.reset c.freeNode m m).prev = none
      rw [Link.reset_self]
    · show (Link.reset c.freeNode n m).prev = none
      rw [Link.reset_ne same]
      exact h.free.outside m away

/-- What a thread that takes node `n` out of the cache leaves behind. -/
structure Takes (c : Cache) (L : Layout) (n : NodeId) (t : Cache.Taken) : Prop where
  node : t.node = n
  rep : Rep t.cache (L.take (c.bucketId n) n)
  blocks : ∀ m, m ≠ n → t.cache.block m = c.block m
  ids : ∀ m, m ≠ n → t.cache.bucketId m = c.bucketId m
  flushed : t.flushed = if (c.block n).clean then none else some (c.block n)
  units : t.cache.freeBlockSemaphore = c.freeBlockSemaphore

/-- The node is given back to the free list. -/
theorem Takes.released {n : NodeId} {t : Cache.Taken} (takes : Takes c L n t) :
    Rep (t.cache.addToFreeList t.node).1 { L.take (c.bucketId n) n with free := n :: L.free, held := L.held } := by
  have rep := takes.rep.addToFreeList (n := n) List.mem_cons_self
  simp only [Layout.take, List.erase_cons_head] at rep
  rw [takes.node]
  exact rep

/-- The critical section of `evictBlock`. -/
theorem unlinkBlock (h : Rep c L) {fileDes blockAddr : Nat} {n : NodeId}
    (found : c.lookup fileDes blockAddr = some n) :
    ∃ t, c.unlinkBlock fileDes blockAddr = some t ∧ Takes c L n t := by
  have cached := (h.lookup_eq_some.mp found).1
  simp only [Cache.unlinkBlock, found, Option.map_some]
  rcases cached with inside | inside
  · have clean := (h.blocks.clean n inside).1
    simp only [clean, if_true]
    refine ⟨_, rfl, rfl, ?_, fun _ _ => rfl, fun m other => Function.update_of_ne other _ _, by simp [clean], rfl⟩
    refine resetNode (L := L.take (c.bucketId n) n) ?_ (List.mem_cons_self)
    refine h.taken (.inl inside) (h.recency.unlink inside) ?_ rfl rfl (h.free.congr rfl rfl rfl)
      (fun _ _ => rfl) (fun _ _ => rfl)
    rw [List.erase_of_not_mem (h.partition.of_recency inside).1]
    exact h.dirty
  · have unclean := (h.blocks.unclean n inside).1
    simp only [unclean, Bool.false_eq_true, if_false]
    have blocks : ∀ m, m ≠ n → Function.update c.block n (c.block n).resetDirty m = c.block m :=
      fun m other => Function.update_of_ne other _ _
    refine ⟨_, rfl, rfl, ?_, blocks, fun m other => Function.update_of_ne other _ _, by simp [unclean], rfl⟩
    refine resetNode (L := L.take (c.bucketId n) n) ?_ (List.mem_cons_self)
    refine h.taken (.inr inside) ?_ (h.dirty.unlink inside) rfl rfl (h.free.congr rfl rfl rfl) blocks (fun _ _ => rfl)
    rw [List.erase_of_not_mem (h.partition.of_dirty inside).1]
    exact h.recency

theorem victim_cached {n : NodeId} (victim : L.victim = some n) : L.Cached n := by
  rcases Option.or_eq_some_iff.mp victim with last | ⟨-, last⟩
  · exact .inl (List.mem_of_getLast? last)
  · exact .inr (List.mem_of_getLast? last)

theorem erase_last {xs : List NodeId} {n : NodeId} (distinct : (xs ++ [n]).Nodup) : (xs ++ [n]).erase n = xs := by
  have absent : n ∉ xs := fun inside => (List.nodup_append'.mp distinct).2.2 inside (by simp)
  rw [List.erase_append_right _ absent, List.erase_cons_head, List.append_nil]

/-- The critical section of a harvester iteration. -/
theorem harvest (h : Rep c L) {n : NodeId} (victim : L.victim = some n) :
    ∃ t, c.harvest = some t ∧ Takes c L n t := by
  have cached := victim_cached victim
  rcases Option.or_eq_some_iff.mp victim with last | ⟨empty, last⟩
  · have inside := List.mem_of_getLast? last
    have outside := (h.partition.of_recency inside).1
    obtain ⟨xs, cut⟩ := List.getLast?_eq_some_iff.mp last
    have clean := (h.blocks.clean n inside).1
    have holds := h.recency
    rw [cut] at holds
    obtain ⟨l, popped, holds', -⟩ := holds.popBack_concat
    have erased : L.recency.erase n = xs := by rw [cut]; exact erase_last holds.distinct
    simp only [Cache.harvest, Cache.removeRecencyListLRU, popped, Option.map_some, Cache.release, clean, if_true]
    refine ⟨_, rfl, rfl, ?_, fun _ _ => rfl, fun _ _ => rfl, by simp [clean], rfl⟩
    refine h.taken cached ?_ ?_ rfl rfl (h.free.congr rfl rfl rfl) (fun _ _ => rfl) (fun _ _ => rfl)
    · rw [erased]; exact holds'
    · rw [List.erase_of_not_mem outside]; exact h.dirty
  · have inside := List.mem_of_getLast? last
    have outside := (h.partition.of_dirty inside).1
    obtain ⟨xs, cut⟩ := List.getLast?_eq_some_iff.mp last
    have unclean := (h.blocks.unclean n inside).1
    have holds := h.dirty
    rw [cut] at holds
    obtain ⟨l, popped, holds', -⟩ := holds.popBack_concat
    have erased : L.dirty.erase n = xs := by rw [cut]; exact erase_last holds.distinct
    have noClean : c.recencyList.popBack = none := by
      have holds := h.recency
      rw [List.getLast?_eq_none_iff.mp empty] at holds
      exact holds.popBack_empty
    simp only [Cache.harvest, Cache.removeRecencyListLRU, Cache.removeDirtyListLRU, noClean, popped, Option.map_some,
      Option.map_none, Cache.release, unclean, Bool.false_eq_true, if_false]
    have blocks : ∀ m, m ≠ n → Function.update c.block n (c.block n).resetDirty m = c.block m :=
      fun m other => Function.update_of_ne other _ _
    refine ⟨_, rfl, rfl, ?_, blocks, fun _ _ => rfl, by simp [unclean], rfl⟩
    refine h.taken cached ?_ ?_ rfl rfl (h.free.congr rfl rfl rfl) blocks (fun _ _ => rfl)
    · rw [List.erase_of_not_mem outside]; exact h.recency
    · rw [erased]; exact holds'

theorem victim_of_harvest (h : Rep c L) {t : Cache.Taken} (taken : c.harvest = some t) : ∃ n, L.victim = some n := by
  cases victim : L.victim with
  | some n => exact ⟨n, rfl⟩
  | none =>
      obtain ⟨noClean, noDirty⟩ := Option.or_eq_none_iff.mp victim
      have clean := h.recency
      have unclean := h.dirty
      rw [List.getLast?_eq_none_iff.mp noClean] at clean
      rw [List.getLast?_eq_none_iff.mp noDirty] at unclean
      simp only [Cache.harvest, Cache.removeRecencyListLRU, Cache.removeDirtyListLRU, clean.popBack_empty,
        unclean.popBack_empty, Option.map_none] at taken
      cases taken

/-! ## Flushing -/

theorem flushIteration_empty (h : Rep c L) (empty : L.dirty = []) : c.flushIteration = (c, none) := by
  have holds := h.dirty
  rw [empty] at holds
  simp only [Cache.flushIteration, Cache.removeDirtyListLRU, holds.popBack_empty, Option.map_none]

/-- The least recent dirty block is flushed and becomes the most recent clean one. -/
theorem flushIteration (h : Rep c L) {xs : List NodeId} {n : NodeId} (cut : L.dirty = xs ++ [n]) :
    ∃ c', c.flushIteration = (c', some (c.block n)) ∧ Rep c' { L with recency := n :: L.recency, dirty := xs } ∧
      c'.block = Function.update c.block n (c.block n).resetDirty ∧ c'.bucketId = c.bucketId ∧
      c'.freeBlockSemaphore = c.freeBlockSemaphore := by
  have inside : n ∈ L.dirty := by rw [cut]; simp
  have outside := (h.partition.of_dirty inside).1
  have holds := h.dirty
  rw [cut] at holds
  obtain ⟨l, popped, holds', -⟩ := holds.popBack_concat
  have away : n ∉ xs := fun inside => (List.nodup_append'.mp holds.distinct).2.2 inside (by simp)
  have same : ∀ m, Layout.Cached { L with recency := n :: L.recency, dirty := xs } m ↔ L.Cached m := by
    intro m
    simp only [Layout.Cached, cut, List.mem_cons, List.mem_append, List.not_mem_nil, or_false]
    constructor
    · rintro ((rfl | here) | here)
      · exact .inr (.inr rfl)
      · exact .inl here
      · exact .inr (.inl here)
    · rintro (here | here | rfl)
      · exact .inl (.inr here)
      · exact .inr here
      · exact .inl (.inl rfl)
  simp only [Cache.flushIteration, Cache.removeDirtyListLRU, popped, Option.map_some]
  refine ⟨_, rfl, ?_, rfl, rfl, rfl⟩
  constructor
  · intro m
    have one := h.partition m
    rw [cut, count_concat_add] at one
    simp only [List.count_cons]
    omega
  · exact h.recency.pushFront outside
  · exact holds'
  · exact h.hash.congr rfl rfl same (fun _ _ => rfl)
  · exact h.free.congr rfl rfl rfl
  · apply h.blocks.rekey (fun m => (same m).mp)
    · intro m _
      by_cases this : m = n
      · subst this
        simp [Cache.addToRecencyList, CacheBlock.resetDirty]
      · simp [Cache.addToRecencyList, Function.update_of_ne this]
    · intro m member
      by_cases this : m = n
      · subst this
        simp [Cache.addToRecencyList, CacheBlock.resetDirty]
      · have before : m ∈ L.recency := (List.mem_cons.mp member).resolve_left this
        simpa [Cache.addToRecencyList, Function.update_of_ne this] using h.blocks.clean m before
    · intro m member
      have this : m ≠ n := by rintro rfl; exact away member
      have before : m ∈ L.dirty := by rw [cut]; exact List.mem_append_left _ member
      simpa [Cache.addToRecencyList, Function.update_of_ne this] using h.blocks.unclean m before

end Rep

end PFS
