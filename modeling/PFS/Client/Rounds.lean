import PFS.Client.CacheView
import PFS.Client.FreeBlocks
import PFS.System.Offsets

/-! # Whole rounds of the background work

The loops around the iterations of the flusher and the harvester, and the loop of
`Cache::~Cache`, which a client runs when it finishes.  Each comes with fuel, and
`blockCount + 1` is always enough: every iteration takes a block out of a list.  A round
loses no byte, and after a flusher's round or a finish the file servers have what the
client sees.  A finish fails an assertion of `PFSClient::flush` if a dirty block is not of
an open file, or if its server does not take it; the rounds are about clients whose blocks
are of open files, and servers that take them.
-/

namespace PFS

open Lib

/-- `PFSClient::flush` with its assertions: the block is not clean, a file with its
    descriptor is open, and the file server of the block takes it. -/
def FileView.flushOpen (openedFiles : List ClientFile) (store : Nat → Nat → UInt8) (block : CacheBlock) :
    Option (Nat → Nat → UInt8) :=
  if block.clean then none
  else
    (openedFiles.find? fun file => file.descriptor = block.fdes).bind fun file =>
      if PFSClient.accepts file.stripWidth block.addr then some (FileView.flush store (some block)) else none

/-- The loop of `Cache::~Cache`: the file servers' bytes afterwards.  The node is deleted
    once its block is flushed, so it stays out of every list. -/
def Cache.drain (openedFiles : List ClientFile) : Nat → Cache → (Nat → Nat → UInt8) → Option (Nat → Nat → UInt8)
  | 0, _, _ => none
  | fuel + 1, c, store =>
      match c.removeDirtyListLRU with
      | none => some store
      | some (node, c') => (FileView.flushOpen openedFiles store (c'.block node)).bind (drain openedFiles fuel c')

namespace FileView

/-- The inner loop of `cacheFlusher`. -/
def flusherRound : Nat → FileView → Option FileView
  | 0, _ => none
  | fuel + 1, s =>
      match s.cache.removeDirtyListLRU with
      | none => some s
      | some _ => (s.exec .flush).bind (flusherRound fuel)

/-- The inner loop of `cacheHarvester`; it goes on as `addToFreeList` says. -/
def harvesterLoop : Nat → FileView → Option FileView
  | 0, _ => none
  | fuel + 1, s =>
      (s.exec .harvest).bind fun s' =>
        if s'.cache.freeBlockCount < harvestHigh then harvesterLoop fuel s' else some s'

/-- What `cacheHarvester` does when it is woken. -/
def harvesterRound (fuel : Nat) (s : FileView) : Option FileView :=
  if s.cache.freeBlockCount < harvestHigh then harvesterLoop fuel s else some s

/-! ## Finishing -/

/-- The servers' bytes after some blocks have been flushed, the last one first. -/
def flushAll (store : Nat → Nat → UInt8) (block : NodeId → CacheBlock) (xs : List NodeId) : Nat → Nat → UInt8 :=
  xs.foldr (fun n store => flush store (some (block n))) store

/-- The assertions of `flush` about files and servers hold. -/
def Flushable (openedFiles : List ClientFile) (block : CacheBlock) : Prop :=
  ∃ file, (openedFiles.find? fun file => file.descriptor = block.fdes) = some file ∧
    PFSClient.accepts file.stripWidth block.addr = true

theorem flushOpen_eq_some {openedFiles : List ClientFile} {store store' : Nat → Nat → UInt8} {block : CacheBlock}
    (unclean : block.clean = false) : flushOpen openedFiles store block = some store' ↔
      Flushable openedFiles block ∧ flush store (some block) = store' := by
  rw [flushOpen, unclean, if_neg Bool.false_ne_true, Option.bind_eq_some_iff]
  constructor
  · rintro ⟨file, found, taken⟩
    obtain ⟨accepted, same⟩ := Option.ite_none_right_eq_some.mp taken
    exact ⟨⟨file, found, accepted⟩, Option.some.inj same⟩
  · rintro ⟨⟨file, found, accepted⟩, rfl⟩
    exact ⟨file, found, if_pos accepted⟩

/-- The block has this byte, and it is dirty. -/
def DirtyAt (block : CacheBlock) (fileDes b : Nat) : Prop :=
  fileDes = block.fdes ∧ blockOf b = block.addr ∧ block.dirty (b - blockOf b) = true

variable {store : Nat → Nat → UInt8} {block : NodeId → CacheBlock} {xs : List NodeId}

theorem flushAll_clean (aligned : ∀ n ∈ xs, (block n).addr % pfsBlockSizeInBytes = 0) {fileDes b : Nat}
    (clean : ∀ n ∈ xs, ¬ DirtyAt (block n) fileDes b) : flushAll store block xs fileDes b = store fileDes b := by
  induction xs with
  | nil => rfl
  | cons n rest ih =>
      rw [flushAll, List.foldr_cons, flush_some (aligned n List.mem_cons_self)]
      split
      · next dirty => exact (clean n List.mem_cons_self dirty).elim
      · exact ih (fun m member => aligned m (List.mem_cons_of_mem _ member))
          (fun m member => clean m (List.mem_cons_of_mem _ member))

theorem flushAll_dirty (aligned : ∀ n ∈ xs, (block n).addr % pfsBlockSizeInBytes = 0) {n : NodeId} {fileDes b : Nat}
    (member : n ∈ xs) (dirty : DirtyAt (block n) fileDes b)
    (unique : ∀ m ∈ xs, DirtyAt (block m) fileDes b → m = n) :
    flushAll store block xs fileDes b = (block n).data (b - blockOf b) := by
  induction xs with
  | nil => exact (List.not_mem_nil member).elim
  | cons m rest ih =>
      rw [flushAll, List.foldr_cons, flush_some (aligned m List.mem_cons_self)]
      split
      · next here => rw [unique m List.mem_cons_self here]
      · next other =>
          rcases List.mem_cons.mp member with rfl | member
          · exact (other dirty).elim
          · exact ih (fun m member => aligned m (List.mem_cons_of_mem _ member)) member
              (fun m member => unique m (List.mem_cons_of_mem _ member))

/-- The loop flushes the dirty list from its least recent block on. -/
theorem drain_eq_some {openedFiles : List ClientFile} {c : Cache} {fuel : Nat} {store' : Nat → Nat → UInt8}
    (holds : c.dirtyList.Holds xs) (unclean : ∀ n ∈ xs, (c.block n).clean = false) (enough : xs.length < fuel) :
    c.drain openedFiles fuel store = some store' ↔
      (∀ n ∈ xs, Flushable openedFiles (c.block n)) ∧ flushAll store c.block xs = store' := by
  induction xs using List.reverseRecOn generalizing c fuel store with
  | nil =>
      cases fuel with
      | zero => cases enough
      | succ fuel =>
          rw [Cache.drain, Cache.removeDirtyListLRU, holds.popBack_empty, Option.map_none, Option.some_inj]
          exact ⟨fun same => ⟨fun _ member => (List.not_mem_nil member).elim, same⟩, fun done => done.2⟩
  | append_singleton xs n ih =>
      cases fuel with
      | zero => cases enough
      | succ fuel =>
          obtain ⟨l, popped, holds', -⟩ := holds.popBack_concat
          have unclean' : ∀ m ∈ xs, (c.block m).clean = false :=
            fun m member => unclean m (List.mem_append_left _ member)
          have last := unclean n (List.mem_append_right _ List.mem_cons_self)
          rw [List.length_append, List.length_singleton] at enough
          rw [Cache.drain, Cache.removeDirtyListLRU, popped, Option.map_some]
          simp only [Option.bind_eq_some_iff, flushOpen_eq_some last]
          have rest : ∀ store₁, Cache.drain openedFiles fuel { c with dirtyList := l } store₁ = some store' ↔
              (∀ m ∈ xs, Flushable openedFiles (c.block m)) ∧ flushAll store₁ c.block xs = store' :=
            fun store₁ => ih holds' unclean' (by omega)
          simp only [rest, List.forall_mem_append, List.forall_mem_singleton, flushAll, List.foldr_append,
            List.foldr_cons, List.foldr_nil]
          constructor
          · rintro ⟨store₁, ⟨flushable, rfl⟩, others, same⟩
            exact ⟨⟨others, flushable⟩, same⟩
          · rintro ⟨⟨others, flushable⟩, same⟩
            exact ⟨_, ⟨flushable, rfl⟩, others, same⟩

theorem reachable_inv {s : FileView} (reach : Reachable Initial machine.Step s) : Inv s :=
  reach.invariant Inv (fun _ => Inv.initial) (fun _ _ inv => inv.step)

/-- Once every dirty block is flushed, the servers have every written byte. -/
theorem Inv.flushAll_dirty {s : FileView} (h : Inv s) {L : Layout} (rep : Rep s.cache L) {fileDes b : Nat}
    (here : s.written fileDes b = true) : flushAll s.store s.cache.block L.dirty fileDes b = s.view fileDes b := by
  have found : ∀ n ∈ L.dirty, s.cache.find (s.cache.block n).fdes (s.cache.block n).addr = some (s.cache.block n) :=
    fun n member => rep.find_eq_some.mpr ⟨n, .inr member, rfl, rfl, rfl⟩
  have aligned : ∀ n ∈ L.dirty, (s.cache.block n).addr % pfsBlockSizeInBytes = 0 :=
    fun n member => h.aligned _ _ _ (found n member)
  by_cases dirty : ∃ n ∈ L.dirty, DirtyAt (s.cache.block n) fileDes b
  · obtain ⟨n, member, dirty⟩ := dirty
    have unique : ∀ m ∈ L.dirty, DirtyAt (s.cache.block m) fileDes b → m = n := by
      intro m inside same
      exact rep.blocks.unique m n (.inr inside) (.inr member) (same.1.symm.trans dirty.1)
        (same.2.1.symm.trans dirty.2.1)
    have cached := found n member
    rw [← dirty.1, ← dirty.2.1] at cached
    rw [FileView.flushAll_dirty aligned member dirty unique, view, cached]
  · push Not at dirty
    rw [flushAll_clean aligned dirty, view]
    cases cached : s.cache.find fileDes (blockOf b) with
    | none => rfl
    | some copy =>
        refine (h.settled fileDes b copy cached ?_ here).symm
        obtain ⟨n, inside, rfl, fdes, addr⟩ := rep.find_eq_some.mp cached
        rcases inside with inside | inside
        · exact (rep.blocks.clean n inside).2 _
        · have clean := dirty n inside
          simpa only [DirtyAt, fdes, addr, true_and, Bool.not_eq_true] using clean

/-- In every reachable state a client can finish without a failing assertion exactly if each
    of its dirty blocks is of an open file and its server takes it.  Then the loop ends, and
    the servers have every byte ever written as the client saw it. -/
theorem finish_stores {s : FileView} (reach : Reachable Initial machine.Step s) {fuel : Nat} (enough : blockCount < fuel)
    (openedFiles : List ClientFile) :
    ((s.cache.drain openedFiles fuel s.store).isSome = true ↔
      ∀ fileDes a block, s.cache.find fileDes a = some block → block.clean = false → Flushable openedFiles block) ∧
    ∀ store, s.cache.drain openedFiles fuel s.store = some store →
      ∀ fileDes b, s.written fileDes b = true → store fileDes b = s.view fileDes b := by
  have inv := reachable_inv reach
  obtain ⟨L, rep, -⟩ := inv.wf
  have short : L.dirty.length < fuel := by
    have whole := rep.partition.length_eq
    omega
  have ends : ∀ store, s.cache.drain openedFiles fuel s.store = some store ↔
      (∀ n ∈ L.dirty, Flushable openedFiles (s.cache.block n)) ∧ flushAll s.store s.cache.block L.dirty = store :=
    fun store => drain_eq_some rep.dirty (fun n member => (rep.blocks.unclean n member).1) short
  refine ⟨?_, fun store done fileDes b here => ?_⟩
  · simp only [Option.isSome_iff_exists, ends]
    constructor
    · rintro ⟨store, flushable, -⟩ fileDes a block present unclean
      obtain ⟨n, cached, rfl, -⟩ := rep.find_eq_some.mp present
      refine flushable n (cached.resolve_left fun inside => ?_)
      rw [(rep.blocks.clean n inside).1] at unclean
      cases unclean
    · intro flushable
      refine ⟨_, fun n member => ?_, rfl⟩
      exact flushable _ _ _ (rep.find_eq_some.mpr ⟨n, .inr member, rfl, rfl, rfl⟩) (rep.blocks.unclean n member).1
  · obtain ⟨-, rfl⟩ := (ends store).mp done
    exact inv.flushAll_dirty rep here

theorem fetchedBlock_reachable : Reachable Initial machine.Step fetchedBlock := by
  have start : Reachable Initial machine.Step blank := Reachable.init rfl
  exact start.tail ⟨.addBlock 3 0 (fun _ => 0), ⟨Cache.init_find 3 0, fun _ _ _ => rfl⟩, (Option.some_get _).symm⟩

theorem patchedBlock_reachable : Reachable Initial machine.Step patchedBlock :=
  fetchedBlock_reachable.tail ⟨.write 3 5 2 (fun _ => 9), ⟨by decide, by decide⟩, (Option.some_get _).symm⟩

/-- Only block 0 of descriptor 3 is in the cache. -/
theorem patchedBlock_find {fileDes a : Nat} {block : CacheBlock}
    (found : patchedBlock.cache.find fileDes a = some block) : fileDes = 3 ∧ a = 0 := by
  obtain ⟨-, -, contents⟩ := Cache.write_spec (reachable_inv fetchedBlock_reachable).wf 3 5 (fun _ => 9) (show 0 < 2 by decide)
  obtain ⟨-, -, added⟩ := Cache.addBlock_spec Cache.init_wf (Cache.init_find 3 0)
    (show Cache.init.addBlock 3 0 (fun _ => 0) = some fetchedBlock.cache from rfl)
  by_contra other
  have found : (fetchedBlock.cache.write 3 5 2 fun _ => 9).1.find fileDes a = some block := found
  rw [contents, show blockOf 5 = 0 from rfl, Cache.set_of_ne other, added, Cache.set_of_ne other, Cache.init_find] at found
  cases found

theorem finish_stores_patchedBlock :
    ∃ store, patchedBlock.cache.drain [{ descriptor := 3, name := "a", stripWidth := 2 }] 2049 patchedBlock.store =
      some store ∧ store 3 5 = patchedBlock.view 3 5 := by
  obtain ⟨ends, stored⟩ := finish_stores patchedBlock_reachable (by decide : blockCount < 2049)
    [{ descriptor := 3, name := "a", stripWidth := 2 }]
  obtain ⟨store, done⟩ := Option.isSome_iff_exists.mp (ends.mpr fun fileDes a block found unclean => by
    obtain ⟨rfl, rfl⟩ := patchedBlock_find found
    obtain ⟨fdes, addr, -⟩ := (reachable_inv patchedBlock_reachable).wf.block found
    refine ⟨{ descriptor := 3, name := "a", stripWidth := 2 }, ?_, ?_⟩
    · rw [fdes]
      rfl
    · rw [addr]
      decide)
  exact ⟨store, done, stored store done 3 5 rfl⟩

/-! ## A round of the flusher -/

variable {s : FileView}

/-- Nothing is left to flush. -/
theorem Inv.stored (h : Inv s) (clean : ∀ fileDes a block, s.cache.find fileDes a = some block → ∀ i, block.dirty i = false)
    {fileDes b : Nat} (here : s.written fileDes b = true) : s.store fileDes b = s.view fileDes b := by
  rw [view]
  cases cached : s.cache.find fileDes (blockOf b) with
  | none => rfl
  | some copy => exact (h.settled fileDes b copy cached (clean _ _ _ cached _) here).symm

theorem Inv.flusherRound (h : Inv s) {L : Layout} (rep : Rep s.cache L) {fuel : Nat} (enough : L.dirty.length < fuel) :
    ∃ s', s.flusherRound fuel = some s' ∧ Inv s' ∧ (∃ L', Rep s'.cache L' ∧ L'.dirty = []) ∧ s'.written = s.written ∧
      (∀ fileDes a, (s'.cache.find fileDes a).isSome = (s.cache.find fileDes a).isSome) ∧
      ∀ fileDes b, s.written fileDes b = true → s'.view fileDes b = s.view fileDes b := by
  induction fuel generalizing s L with
  | zero => cases enough
  | succ fuel ih =>
      have holds := rep.dirty
      cases dirty : L.dirty using List.reverseRecOn with
      | nil =>
          rw [dirty] at holds
          refine ⟨s, ?_, h, ⟨L, rep, dirty⟩, rfl, fun _ _ => rfl, fun _ _ _ => rfl⟩
          rw [FileView.flusherRound, Cache.removeDirtyListLRU, holds.popBack_empty, Option.map_none]
      | append_singleton xs n =>
          rw [dirty, List.length_append, List.length_singleton] at enough
          rw [dirty] at holds
          obtain ⟨l, popped, -⟩ := holds.popBack_concat
          obtain ⟨c, flushed, rep', -⟩ := rep.flushIteration dirty
          have ran : s.exec .flush = some ⟨c, FileView.flush s.store (some (s.cache.block n)), s.written⟩ := by
            rw [FileView.exec, flushed]
          obtain ⟨inv, same⟩ := h.flush ran
          obtain ⟨s', done, inv', clean, written, keys, view⟩ := ih inv rep' (by simp only; omega)
          refine ⟨s', ?_, inv', clean, written, fun fileDes a => ?_, fun fileDes b here => ?_⟩
          · rw [FileView.flusherRound, Cache.removeDirtyListLRU, popped, Option.map_some]
            simp only [ran, Option.bind_some]
            exact done
          · rw [keys]
            obtain ⟨-, nothing | ⟨fd, addr, block, found, -, contents⟩⟩ := Cache.flushIteration_spec h.wf
            · rw [flushed] at nothing
              cases nothing
            · rw [flushed] at contents
              simp only [contents, Cache.set]
              split
              · next key => rw [key.1, key.2, found, Option.isSome_some, Option.isSome_some]
              · rfl
          · rw [view fileDes b here, same fileDes b here]

/-- In every reachable state a round of the flusher ends with no dirty byte left, with the
    same blocks in the cache and the view unchanged, and with the servers having it.  The
    cached blocks are of open files and the servers take them, as `flush` asserts. -/
theorem flusherRound_stores {s : FileView} (reach : Reachable Initial machine.Step s) {fuel : Nat}
    (enough : blockCount < fuel) : ∃ s', s.flusherRound fuel = some s' ∧
      (∀ fileDes a block, s'.cache.find fileDes a = some block → ∀ i, block.dirty i = false) ∧
      (∀ fileDes a, (s'.cache.find fileDes a).isSome = (s.cache.find fileDes a).isSome) ∧
      ∀ fileDes b, s.written fileDes b = true →
        s'.view fileDes b = s.view fileDes b ∧ s'.store fileDes b = s.view fileDes b := by
  have inv := reachable_inv reach
  obtain ⟨L, rep, -⟩ := inv.wf
  have short : L.dirty.length < fuel := by
    have whole := rep.partition.length_eq
    omega
  obtain ⟨s', done, inv', ⟨L', rep', none⟩, written, keys, view⟩ := inv.flusherRound rep short
  have clean : ∀ fileDes a block, s'.cache.find fileDes a = some block → ∀ i, block.dirty i = false := by
    intro fileDes a block found
    obtain ⟨n, cached, rfl, -⟩ := rep'.find_eq_some.mp found
    rcases cached with member | member
    · exact (rep'.blocks.clean n member).2
    · rw [none] at member
      exact (List.not_mem_nil member).elim
  refine ⟨s', done, clean, keys, fun fileDes b here => ⟨view fileDes b here, ?_⟩⟩
  rw [inv'.stored clean (by rw [written]; exact here), view fileDes b here]

theorem flusherRound_stores_patchedBlock : ∃ s', patchedBlock.flusherRound 2049 = some s' ∧
    s'.store 3 5 = patchedBlock.view 3 5 := by
  obtain ⟨s', done, -, -, stored⟩ := flusherRound_stores patchedBlock_reachable (by decide : blockCount < 2049)
  exact ⟨s', done, (stored 3 5 rfl).2⟩

/-! ## A round of the harvester -/

/-- Some blocks have been taken out of the cache. -/
def Fewer (c c' : Cache) : Prop := ∀ fileDes a, c'.find fileDes a = none ∨ c'.find fileDes a = c.find fileDes a

theorem Fewer.trans {c c₁ c₂ : Cache} (first : Fewer c c₁) (second : Fewer c₁ c₂) : Fewer c c₂ := by
  intro fileDes a
  rcases second fileDes a with gone | kept
  · exact .inl gone
  · rw [kept]
    exact first fileDes a

/-- While few blocks are free there is a victim. -/
theorem Inv.harvests (h : Inv s) (few : s.cache.freeBlockCount < harvestHigh) :
    ∃ s', s.exec .harvest = some s' ∧ Inv s' ∧ s'.written = s.written ∧
      s'.cache.freeBlockCount = s.cache.freeBlockCount + 1 ∧ Fewer s.cache s'.cache ∧
      ∀ fileDes b, s.written fileDes b = true → s'.view fileDes b = s.view fileDes b := by
  obtain ⟨L, rep, held, -⟩ := h.wf
  obtain ⟨n, victim⟩ : ∃ n, L.victim = some n := by
    have whole := rep.partition.length_eq
    rw [rep.free.count] at few
    rw [← Option.isSome_iff_exists, Layout.victim, Option.isSome_or, Bool.or_eq_true, List.getLast?_isSome,
      List.getLast?_isSome]
    by_contra empty
    push Not at empty
    rw [empty.1, empty.2, held] at whole
    have large : blockCount = 2048 := rfl
    have high : harvestHigh = 2020 := rfl
    simp only [List.length_nil] at whole
    omega
  obtain ⟨t, harvested, -⟩ := rep.harvest victim
  have iterated : s.cache.harvestIteration = some ((t.cache.addToFreeList t.node).1, t.flushed) := by
    rw [Cache.harvestIteration, harvested, Option.map_some]
  have ran : s.exec .harvest =
      some { s with cache := (t.cache.addToFreeList t.node).1, store := FileView.flush s.store t.flushed } := by
    rw [FileView.exec, iterated, Option.map_some]
  obtain ⟨inv, view⟩ := h.harvest ran
  obtain ⟨-, fd, addr, block, found, contents, -⟩ := Cache.harvestIteration_spec h.wf iterated
  refine ⟨_, ran, inv, rfl, ?_, ?_, view⟩
  · have free := (Cache.harvest_sameFree harvested).1
    simp only [Cache.addToFreeList, free]
  · intro fileDes a
    simp only [contents, Cache.set]
    split
    · exact .inl rfl
    · exact .inr rfl

theorem Inv.harvesterLoop (h : Inv s) (few : s.cache.freeBlockCount < harvestHigh) {fuel : Nat}
    (enough : harvestHigh ≤ s.cache.freeBlockCount + fuel) : ∃ s', s.harvesterLoop fuel = some s' ∧
      s'.cache.freeBlockCount = harvestHigh ∧ Fewer s.cache s'.cache ∧
      ∀ fileDes b, s.written fileDes b = true → s'.view fileDes b = s.view fileDes b := by
  induction fuel generalizing s with
  | zero => omega
  | succ fuel ih =>
      obtain ⟨s₁, ran, inv, written, free, fewer, view⟩ := h.harvests few
      by_cases more : s₁.cache.freeBlockCount < harvestHigh
      · obtain ⟨s', done, full, fewer', view'⟩ := ih inv more (by omega)
        refine ⟨s', ?_, full, fewer.trans fewer', fun fileDes b here => ?_⟩
        · rw [FileView.harvesterLoop, ran, Option.bind_some, if_pos more, done]
        · rw [view' fileDes b (by rw [written]; exact here), view fileDes b here]
      · refine ⟨s₁, ?_, by omega, fewer, view⟩
        rw [FileView.harvesterLoop, ran, Option.bind_some, if_neg more]

/-- In every reachable state a round of the harvester finds all its victims: it ends with
    `harvestHigh` free blocks, or with what there was if that was more.  It only takes blocks
    out, and the view stays. -/
theorem harvesterRound_fills {s : FileView} (reach : Reachable Initial machine.Step s) {fuel : Nat}
    (enough : harvestHigh ≤ fuel) : ∃ s', s.harvesterRound fuel = some s' ∧
      s'.cache.freeBlockCount = max s.cache.freeBlockCount harvestHigh ∧ Fewer s.cache s'.cache ∧
      ∀ fileDes b, s.written fileDes b = true → s'.view fileDes b = s.view fileDes b := by
  have inv := reachable_inv reach
  unfold harvesterRound
  split
  · next few =>
      obtain ⟨s', done, full, fewer, view⟩ := inv.harvesterLoop few (Nat.le_trans enough (Nat.le_add_left fuel _))
      exact ⟨s', done, by omega, fewer, view⟩
  · next many => exact ⟨s, rfl, by omega, fun _ _ => .inr rfl, fun _ _ _ => rfl⟩

/-- After the first block `k` more are added. -/
structure Filled (s : FileView) (k : Nat) : Prop where
  reach : Reachable Initial machine.Step s
  places : ∀ fd a, (s.cache.find fd a).isSome = true → a ≤ k * pfsBlockSizeInBytes
  units : s.cache.freeBlockSemaphore + 2 * (k + 1) = blockCount
  count : s.cache.freeBlockCount + (k + 1) = blockCount
  written : s.written = patchedBlock.written
  view : s.view 3 5 = patchedBlock.view 3 5

theorem Filled.addBlock {k : Nat} (filled : Filled s k) (few : 2 * (k + 1 + 1) ≤ blockCount) :
    ∃ s', Filled s' (k + 1) := by
  have wf := (reachable_inv filled.reach).wf
  have absent : s.cache.find 3 ((k + 1) * pfsBlockSizeInBytes) = none := by
    rw [← Option.not_isSome_iff_eq_none]
    intro present
    have low := filled.places _ _ present
    simp only [pfsBlockSizeInBytes] at low
    omega
  have units := filled.units
  have count := filled.count
  obtain ⟨c, added, units', count', -⟩ := CacheThreads.addBlock_counts wf 3
    (Nat.mul_mod_left (k + 1) pfsBlockSizeInBytes) (by omega)
    (fun i => s.store 3 ((k + 1) * pfsBlockSizeInBytes + i))
  obtain ⟨-, -, contents⟩ := Cache.addBlock_spec wf absent added
  have other : ¬ ((3 : Nat) = 3 ∧ blockOf 5 = (k + 1) * pfsBlockSizeInBytes) := by
    simp only [blockOf, pfsBlockSizeInBytes]
    omega
  refine ⟨{ s with cache := c }, filled.reach.tail ⟨.addBlock 3 _ _, ⟨absent, fun _ _ _ => rfl⟩,
    Option.map_eq_some_iff.mpr ⟨c, added, rfl⟩⟩, fun fd a present => ?_, ?_, ?_, filled.written, ?_⟩
  · simp only [contents, Cache.set] at present
    split at present
    · next key => rw [key.2]
    · exact (filled.places fd a present).trans (Nat.mul_le_mul_right _ (Nat.le_succ k))
  · simp only
    omega
  · simp only
    omega
  · rw [← filled.view]
    simp only [FileView.view, contents, Cache.set_of_ne other]

theorem exists_filled {k : Nat} (few : 2 * (k + 1) ≤ blockCount) : ∃ s, Filled s k := by
  induction k with
  | zero =>
      refine ⟨patchedBlock, patchedBlock_reachable, fun fd a present => ?_, rfl, rfl, rfl, rfl⟩
      obtain ⟨block, found⟩ := Option.isSome_iff_exists.mp present
      rw [(patchedBlock_find found).2]
      exact Nat.zero_le _
  | succ k ih =>
      obtain ⟨s, filled⟩ := ih (by omega)
      exact filled.addBlock few

/-- A hundred blocks are cached, and the round takes 72 of them out. -/
theorem harvesterRound_fills_filled : ∃ s s', Filled s 99 ∧ s.cache.freeBlockCount = 1948 ∧
    s.harvesterRound 2020 = some s' ∧ s'.cache.freeBlockCount = 2020 ∧ s'.view 3 5 = 9 := by
  obtain ⟨s, filled⟩ := exists_filled (by decide : 2 * (99 + 1) ≤ blockCount)
  have count : s.cache.freeBlockCount = 1948 := Nat.add_right_cancel filled.count
  obtain ⟨s', done, free, -, view⟩ := harvesterRound_fills filled.reach (Nat.le_refl harvestHigh)
  refine ⟨s, s', filled, count, done, ?_, ?_⟩
  · rw [free, count]
    rfl
  · rw [view 3 5 (by rw [filled.written]; rfl), filled.view]
    rfl

end FileView

end PFS
