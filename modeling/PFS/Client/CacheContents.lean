import PFS.Client.CacheSteps

/-! # What is in the cache

`find` is the cache as its callers see it: a partial map from keys to blocks.
`WF` is a cache with no thread in the middle of an operation, and for each
operation run without interruption there is one lemma that says what it does to
the map.
-/

namespace PFS

open Lib

namespace Cache

/-- The block with this key. -/
def find (c : Cache) (fileDes blockAddr : Nat) : Option CacheBlock := (c.lookup fileDes blockAddr).map c.block

/-- A cache between operations. -/
def WF (c : Cache) : Prop :=
  ∃ L, Rep c L ∧ L.held = [] ∧ c.freeBlockSemaphore + blockCount ≤ 2 * L.free.length

/-- The block `addBlock` makes. -/
def fetched (fileDes blockAddr : Nat) (data : Nat → UInt8) : CacheBlock :=
  { fdes := fileDes, addr := blockAddr, valid := true, data := data }

/-- The map `m` with the value at one key replaced. -/
def set (m : Nat → Nat → Option CacheBlock) (fileDes blockAddr : Nat) (value : Option CacheBlock) :
    Nat → Nat → Option CacheBlock :=
  fun fileDes' blockAddr' => if fileDes' = fileDes ∧ blockAddr' = blockAddr then value else m fileDes' blockAddr'

theorem set_self (m : Nat → Nat → Option CacheBlock) (fileDes blockAddr : Nat) (value : Option CacheBlock) :
    set m fileDes blockAddr value fileDes blockAddr = value := if_pos ⟨rfl, rfl⟩

theorem set_of_ne {m : Nat → Nat → Option CacheBlock} {fileDes blockAddr fileDes' blockAddr' : Nat}
    {value : Option CacheBlock} (other : ¬ (fileDes' = fileDes ∧ blockAddr' = blockAddr)) :
    set m fileDes blockAddr value fileDes' blockAddr' = m fileDes' blockAddr' := if_neg other

/-- Replacing a value by itself. -/
theorem set_same {m : Nat → Nat → Option CacheBlock} {fileDes blockAddr : Nat} {value : Option CacheBlock}
    (same : m fileDes blockAddr = value) : set m fileDes blockAddr value = m := by
  funext fileDes' blockAddr'
  rw [set]
  split
  · next key => rw [key.1, key.2, same]
  · rfl

/-- A block leaves the map, and then others of the same file. -/
theorem set_none_cons (m : Nat → Nat → Option CacheBlock) (fileDes first : Nat) (rest : List Nat) (fd a : Nat) :
    (if fd = fileDes ∧ a ∈ rest then none else set m fileDes first none fd a) =
      if fd = fileDes ∧ a ∈ first :: rest then none else m fd a := by
  by_cases mine : fd = fileDes
  · by_cases here : a = first
    · simp [set, mine, here]
    · simp [set, here]
  · simp [set, mine]

end Cache

namespace Rep

variable {c c' : Cache} {L L' : Layout}

theorem find_eq_some (h : Rep c L) {fileDes blockAddr : Nat} {b : CacheBlock} :
    c.find fileDes blockAddr = some b ↔
      ∃ n, L.Cached n ∧ c.block n = b ∧ b.fdes = fileDes ∧ b.addr = blockAddr := by
  rw [Cache.find, Option.map_eq_some_iff]
  constructor
  · rintro ⟨n, found, rfl⟩
    obtain ⟨cached, key⟩ := h.lookup_eq_some.mp found
    exact ⟨n, cached, rfl, key⟩
  · rintro ⟨n, cached, rfl, key⟩
    exact ⟨n, h.lookup_eq_some.mpr ⟨cached, key⟩, rfl⟩

/-- A key whose nodes are the same before and after keeps its block. -/
theorem find_congr (h : Rep c L) (h' : Rep c' L') {fileDes blockAddr : Nat}
    (fwd : ∀ n, L.Cached n → (c.block n).fdes = fileDes → (c.block n).addr = blockAddr →
      L'.Cached n ∧ c'.block n = c.block n)
    (bwd : ∀ n, L'.Cached n → (c'.block n).fdes = fileDes → (c'.block n).addr = blockAddr →
      L.Cached n ∧ c'.block n = c.block n) :
    c'.find fileDes blockAddr = c.find fileDes blockAddr := by
  apply Option.ext
  intro b
  rw [h.find_eq_some, h'.find_eq_some]
  constructor
  · rintro ⟨n, cached, rfl, fdes, addr⟩
    obtain ⟨before, same⟩ := bwd n cached fdes addr
    exact ⟨n, before, same.symm, fdes, addr⟩
  · rintro ⟨n, cached, rfl, fdes, addr⟩
    obtain ⟨after, same⟩ := fwd n cached fdes addr
    exact ⟨n, after, same, fdes, addr⟩

/-- What the flags and the mask of a cached block say. -/
theorem find_block (h : Rep c L) {fileDes blockAddr : Nat} {b : CacheBlock} (found : c.find fileDes blockAddr = some b) :
    b.fdes = fileDes ∧ b.addr = blockAddr ∧ (b.clean = true → ∀ i, b.dirty i = false) := by
  obtain ⟨n, cached, rfl, fdes, addr⟩ := h.find_eq_some.mp found
  exact ⟨fdes, addr, fun clean => (h.blocks.clean n ((h.mem_recency_iff cached).mp clean)).2⟩

theorem find_none (h : Rep c L) {fileDes blockAddr : Nat}
    (absent : ∀ n, L.Cached n → ¬ ((c.block n).fdes = fileDes ∧ (c.block n).addr = blockAddr)) :
    c.find fileDes blockAddr = none := by
  rw [Cache.find, h.lookup_eq_none.mpr absent, Option.map_none]

end Rep

namespace Cache

variable {c : Cache}

theorem init_wf : Cache.init.WF := by
  refine ⟨Layout.init, Rep.init, rfl, ?_⟩
  rw [Layout.init, List.length_reverse, List.length_range, Nat.two_mul]
  exact Nat.le_refl _

theorem init_find (fileDes blockAddr : Nat) : Cache.init.find fileDes blockAddr = none := by
  apply Rep.init.find_none
  rintro n (inside | inside)
  · cases inside
  · cases inside

theorem WF.block (h : c.WF) {fileDes blockAddr : Nat} {b : CacheBlock} (found : c.find fileDes blockAddr = some b) :
    b.fdes = fileDes ∧ b.addr = blockAddr ∧ (b.clean = true → ∀ i, b.dirty i = false) := by
  obtain ⟨L, rep, -⟩ := h
  exact rep.find_block found

/-! ## One lemma an operation -/

theorem readBlock_missing {fileDes blockAddr : Nat} (missing : c.find fileDes blockAddr = none) :
    c.readBlock fileDes blockAddr = (c, none) := by
  have absent : c.lookup fileDes blockAddr = none := Option.map_eq_none_iff.mp missing
  simp only [readBlock, absent]

theorem write_missing {fileDes offset : Nat} (missing : c.find fileDes (blockOf offset) = none) (size : Nat)
    (data : Nat → UInt8) : c.write fileDes offset size data = (c, false) := by
  have absent : c.lookup fileDes (blockOf offset) = none := Option.map_eq_none_iff.mp missing
  simp only [write, absent]

theorem readBlock_spec (h : c.WF) (fileDes blockAddr : Nat) :
    (c.readBlock fileDes blockAddr).1.WF ∧ (c.readBlock fileDes blockAddr).1.find = c.find ∧
      (c.readBlock fileDes blockAddr).2 = (c.find fileDes blockAddr).map CacheBlock.data := by
  obtain ⟨L, rep, held, units⟩ := h
  cases found : c.lookup fileDes blockAddr with
  | none =>
      rw [readBlock_missing (Option.map_eq_none_iff.mpr found), find, found]
      exact ⟨⟨L, rep, held, units⟩, rfl, rfl⟩
  | some n =>
      have answer : (c.readBlock fileDes blockAddr).2 = (c.find fileDes blockAddr).map CacheBlock.data := by
        simp only [readBlock, find, found, Option.map_some]
      refine ⟨?_, ?_, answer⟩
      all_goals simp only [readBlock, found]
      all_goals rcases (rep.lookup_eq_some.mp found).1 with inside | inside
      · rw [if_pos (rep.blocks.clean n inside).1]
        exact ⟨_, rep.touch_recency inside, held, units⟩
      · rw [if_neg (by simp [(rep.blocks.unclean n inside).1])]
        exact ⟨_, rep.touch_dirty inside, held, units⟩
      · rw [if_pos (rep.blocks.clean n inside).1]
        funext fileDes' blockAddr'
        exact rep.find_congr (rep.touch_recency inside)
          (fun m cached _ _ => ⟨cached.imp (mem_move inside m).mpr id, rfl⟩)
          (fun m cached _ _ => ⟨cached.imp (mem_move inside m).mp id, rfl⟩)
      · rw [if_neg (by simp [(rep.blocks.unclean n inside).1])]
        funext fileDes' blockAddr'
        exact rep.find_congr (rep.touch_dirty inside)
          (fun m cached _ _ => ⟨cached.imp id (mem_move inside m).mpr, rfl⟩)
          (fun m cached _ _ => ⟨cached.imp id (mem_move inside m).mp, rfl⟩)

theorem write_spec (h : c.WF) (fileDes offset : Nat) {size : Nat} (data : Nat → UInt8) (nonempty : 0 < size) :
    (c.write fileDes offset size data).1.WF ∧
      (c.write fileDes offset size data).2 = (c.find fileDes (blockOf offset)).isSome ∧
      (c.write fileDes offset size data).1.find = set c.find fileDes (blockOf offset)
        ((c.find fileDes (blockOf offset)).map fun b =>
          { patch b (offset % pfsBlockSizeInBytes) size data with clean := false }) := by
  obtain ⟨L, rep, held, units⟩ := h
  cases found : c.lookup fileDes (blockOf offset) with
  | none =>
      have absent : c.find fileDes (blockOf offset) = none := by rw [find, found, Option.map_none]
      rw [write_missing absent, absent]
      exact ⟨⟨L, rep, held, units⟩, rfl, (set_same absent).symm⟩
  | some n =>
      have rep' := rep.write found nonempty data
      obtain ⟨cached, fdes, addr⟩ := rep.lookup_eq_some.mp found
      have present : c.find fileDes (blockOf offset) = some (c.block n) := by rw [find, found, Option.map_some]
      have blocks : (c.write fileDes offset size data).1.block = Function.update c.block n
          { patch (c.block n) (offset % pfsBlockSizeInBytes) size data with clean := false } := by
        simp only [write, found]
        rfl
      refine ⟨⟨_, rep', held, by rw [write_units]; exact units⟩, ?_, ?_⟩
      · rw [present]
        simp only [write, found, Option.isSome_some]
      · funext fileDes' blockAddr'
        rw [present, Option.map_some, set]
        split
        · next key =>
            obtain ⟨rfl, rfl⟩ := key
            rw [rep'.find_eq_some]
            refine ⟨n, .inr List.mem_cons_self, ?_, fdes, addr⟩
            rw [blocks, Function.update_self]
        · next key =>
            have other : ∀ m, m ≠ n → (c.write fileDes offset size data).1.block m = c.block m := by
              intro m differs
              rw [blocks, Function.update_of_ne differs]
            refine rep.find_congr rep' (fun m here fdes' addr' => ?_) (fun m here fdes' addr' => ?_)
            · have differs : m ≠ n := by
                rintro rfl
                exact key ⟨fdes'.symm.trans fdes, addr'.symm.trans addr⟩
              refine ⟨?_, other m differs⟩
              rcases here with here | here
              · exact .inl ((List.mem_erase_of_ne differs).mpr here)
              · exact .inr (List.mem_cons_of_mem _ ((List.mem_erase_of_ne differs).mpr here))
            · have differs : m ≠ n := by
                rintro rfl
                rw [blocks, Function.update_self] at fdes' addr'
                exact key ⟨fdes'.symm.trans fdes, addr'.symm.trans addr⟩
              refine ⟨?_, other m differs⟩
              rcases here with here | here
              · exact .inl (List.mem_of_mem_erase here)
              · exact .inr (List.mem_of_mem_erase ((List.mem_cons.mp here).resolve_left differs))

/-- `addBlock` of an absent block puts a free node at the front of the recency list. -/
theorem addBlock_rep {L : Layout} (rep : Rep c L) (units : c.freeBlockSemaphore + blockCount ≤ 2 * L.free.length)
    {fileDes blockAddr : Nat} {data : Nat → UInt8} {c' : Cache} (absent : c.find fileDes blockAddr = none)
    (added : c.addBlock fileDes blockAddr data = some c') :
    ∃ n L', Rep c' L' ∧ ¬ L.Cached n ∧ L'.recency = n :: L.recency ∧ L'.dirty = L.dirty ∧ L'.held = L.held ∧
      c'.freeBlockSemaphore + blockCount ≤ 2 * L'.free.length ∧
      c'.block = Function.update c.block n (fetched fileDes blockAddr data) ∧ blockAddr % pfsBlockSizeInBytes = 0 := by
  obtain ⟨aligned, added⟩ := Option.ite_none_left_eq_some.mp added
  simp only [ne_eq, not_not] at aligned
  simp only [Option.bind_eq_bind] at added
  obtain ⟨c₁, first, added⟩ := Option.bind_eq_some_iff.mp added
  obtain ⟨c₂, second, added⟩ := Option.bind_eq_some_iff.mp added
  obtain ⟨some₁, first⟩ := Option.ite_none_left_eq_some.mp first
  obtain rfl := Option.some.inj first
  obtain ⟨some₂, second⟩ := Option.ite_none_left_eq_some.mp second
  obtain rfl := Option.some.inj second
  have rep₂ := rep.semaphores (c.freeBlockSemaphore - 1 - 1) c.harvesterSemaphore
  have several : 2 ≤ L.free.length := by
    have : blockCount = 2048 := rfl
    omega
  obtain ⟨n, m, rest, free⟩ : ∃ n m rest, L.free = n :: m :: rest := by
    match L.free, several with
    | n :: m :: rest, _ => exact ⟨n, m, rest, rfl⟩
  obtain ⟨c₃, popped, rep₃, block₃, ids₃, sem₃⟩ := rep₂.popFree free
  rw [popped] at added
  obtain rfl := Option.some.inj added
  have member : n ∈ n :: L.held := List.mem_cons_self
  have outside : ¬ L.Cached n := (rep.partition.of_free (by rw [free]; exact List.mem_cons_self)).1
  have rep₄ := rep₃.fillNode member fileDes blockAddr data
  have block : (c₃.fillNode n fileDes blockAddr data).block =
      Function.update c.block n (fetched fileDes blockAddr data) := by
    simp only [fillNode, block₃]
    rfl
  have other : ∀ k, L.Cached k → (c₃.fillNode n fileDes blockAddr data).block k = c.block k := by
    intro k cached
    rw [block, Function.update_of_ne]
    rintro rfl
    exact outside cached
  have missing : ∀ k, L.Cached k → ¬ ((c.block k).fdes = fileDes ∧ (c.block k).addr = blockAddr) := by
    apply rep.lookup_eq_none.mp
    exact Option.map_eq_none_iff.mp absent
  have absent₄ : (c₃.fillNode n fileDes blockAddr data).lookup fileDes blockAddr = none := by
    apply rep₄.lookup_eq_none.mpr
    intro k cached
    rw [other k cached]
    exact missing k cached
  have here : (c₃.fillNode n fileDes blockAddr data).block n = fetched fileDes blockAddr data := by
    rw [block, Function.update_self]
  have rep₅ := rep₄.insertNode member (by rw [here]; simp [fillNode, fetched]) (by rw [here]; rfl)
    (by rw [here]; exact ⟨rfl, fun _ => rfl⟩) (by rw [here]; exact absent₄)
  refine ⟨n, _, rep₅, outside, rfl, rfl, List.erase_cons_head n L.held, ?_, block, aligned⟩
  rw [free] at units
  have sem : ((c₃.fillNode n fileDes blockAddr data).insertNode n).freeBlockSemaphore =
      c.freeBlockSemaphore - 1 - 1 := sem₃
  rw [sem]
  simp only [List.length_cons] at units ⊢
  have : c.freeBlockSemaphore - 1 ≠ 0 := some₂
  omega

/-- `addBlock` of an absent block. -/
theorem addBlock_spec (h : c.WF) {fileDes blockAddr : Nat} {data : Nat → UInt8} {c' : Cache}
    (absent : c.find fileDes blockAddr = none) (added : c.addBlock fileDes blockAddr data = some c') :
    c'.WF ∧ blockAddr % pfsBlockSizeInBytes = 0 ∧
      c'.find = set c.find fileDes blockAddr (some (fetched fileDes blockAddr data)) := by
  obtain ⟨L, rep, held, units⟩ := h
  obtain ⟨n, L', rep', outside, recency, dirty, held', units', block, aligned⟩ := addBlock_rep rep units absent added
  have here : c'.block n = fetched fileDes blockAddr data := by rw [block, Function.update_self]
  have other : ∀ k, L.Cached k → c'.block k = c.block k := by
    intro k cached
    rw [block, Function.update_of_ne]
    rintro rfl
    exact outside cached
  have split : ∀ k, L'.Cached k ↔ k = n ∨ L.Cached k := by
    intro k
    rw [Layout.Cached, recency, dirty, List.mem_cons, or_assoc]
    exact Iff.rfl
  refine ⟨⟨L', rep', held'.trans held, units'⟩, aligned, ?_⟩
  funext fileDes' blockAddr'
  rw [set]
  split
  · next key =>
      obtain ⟨rfl, rfl⟩ := key
      exact rep'.find_eq_some.mpr ⟨n, (split n).mpr (.inl rfl), here, rfl, rfl⟩
  · next key =>
      refine rep.find_congr rep' (fun k cached _ _ => ⟨(split k).mpr (.inr cached), other k cached⟩)
        (fun k cached fdes addr => ?_)
      rcases (split k).mp cached with rfl | before
      · rw [here] at fdes addr
        exact (key ⟨fdes.symm, addr.symm⟩).elim
      · exact ⟨before, other k before⟩

/-- A node taken out and given back to the free list. -/
theorem taken_rep {L : Layout} (rep : Rep c L) {n : NodeId} {t : Taken} (cached : L.Cached n)
    (takes : Rep.Takes c L n t) :
    ∃ L', Rep (t.cache.addToFreeList t.node).1 L' ∧ L'.held = L.held ∧ L'.free = n :: L.free ∧
      (t.cache.addToFreeList t.node).1.find = set c.find (c.block n).fdes (c.block n).addr none := by
  have rep'' := takes.released
  obtain ⟨rfl, -, blocks, -, -, -⟩ := takes
  refine ⟨_, rep'', rfl, rfl, ?_⟩
  funext fileDes blockAddr
  rw [set]
  split
  · next key =>
      obtain ⟨rfl, rfl⟩ := key
      apply rep''.find_none
      rintro m here ⟨fdes, addr⟩
      obtain ⟨other, before⟩ := (rep.take_cached (c.bucketId t.node) t.node m).mp here
      have same : (t.cache.addToFreeList t.node).1.block m = c.block m := blocks m other
      rw [same] at fdes addr
      exact other (rep.blocks.unique m t.node before cached fdes addr)
  · next key =>
      refine rep.find_congr rep'' (fun m before fdes addr => ?_) (fun m here _ _ => ?_)
      · have other : m ≠ t.node := by
          rintro rfl
          exact key ⟨fdes.symm, addr.symm⟩
        exact ⟨(rep.take_cached (c.bucketId t.node) t.node m).mpr ⟨other, before⟩, blocks m other⟩
      · obtain ⟨other, before⟩ := (rep.take_cached (c.bucketId t.node) t.node m).mp here
        exact ⟨before, blocks m other⟩

theorem taken_spec {L : Layout} (rep : Rep c L) (held : L.held = [])
    (units : c.freeBlockSemaphore + blockCount ≤ 2 * L.free.length) {n : NodeId} {t : Taken} (cached : L.Cached n)
    (takes : Rep.Takes c L n t) :
    (t.cache.addToFreeList t.node).1.WF ∧
      (t.cache.addToFreeList t.node).1.find = set c.find (c.block n).fdes (c.block n).addr none := by
  obtain ⟨L', rep', held', free, contents⟩ := taken_rep rep cached takes
  refine ⟨⟨L', rep', held'.trans held, ?_⟩, contents⟩
  have sem : (t.cache.addToFreeList t.node).1.freeBlockSemaphore = c.freeBlockSemaphore := takes.units
  rw [sem, free, List.length_cons]
  omega

/-- The block that is flushed when `b` leaves the cache. -/
def writtenBack (b : CacheBlock) : Option CacheBlock := if b.clean then none else some b

/-- `evictBlock`, also while threads hold nodes. -/
theorem evictBlock_rep {L : Layout} (rep : Rep c L) (fileDes blockAddr : Nat) :
    ∃ L', Rep (c.evictBlock fileDes blockAddr).1 L' ∧ L'.held = L.held ∧ L.free.length ≤ L'.free.length ∧
      (c.evictBlock fileDes blockAddr).1.freeBlockSemaphore = c.freeBlockSemaphore ∧
      (c.evictBlock fileDes blockAddr).1.find = set c.find fileDes blockAddr none ∧
      (c.evictBlock fileDes blockAddr).2 = (c.find fileDes blockAddr).bind writtenBack := by
  cases found : c.lookup fileDes blockAddr with
  | none =>
      have answer : c.evictBlock fileDes blockAddr = (c, none) := by
        simp only [evictBlock, unlinkBlock, found, Option.map_none]
      have absent : c.find fileDes blockAddr = none := by rw [find, found, Option.map_none]
      rw [answer, absent]
      exact ⟨L, rep, rfl, Nat.le_refl _, rfl, (set_same absent).symm, rfl⟩
  | some n =>
      obtain ⟨cached, fdes, addr⟩ := rep.lookup_eq_some.mp found
      obtain ⟨t, unlinked, takes⟩ := rep.unlinkBlock found
      obtain ⟨L', rep', held, free, contents⟩ := taken_rep rep cached takes
      rw [fdes, addr] at contents
      simp only [evictBlock, unlinked]
      refine ⟨L', rep', held, ?_, takes.units, contents, ?_⟩
      · rw [free, List.length_cons]
        exact Nat.le_succ _
      · rw [takes.flushed, find, found]
        rfl

theorem evictBlock_spec (h : c.WF) (fileDes blockAddr : Nat) :
    (c.evictBlock fileDes blockAddr).1.WF ∧
      (c.evictBlock fileDes blockAddr).1.find = set c.find fileDes blockAddr none ∧
      (c.evictBlock fileDes blockAddr).2 = (c.find fileDes blockAddr).bind writtenBack := by
  obtain ⟨L, rep, held, units⟩ := h
  obtain ⟨L', rep', held', more, sem, contents, flushed⟩ := evictBlock_rep rep fileDes blockAddr
  refine ⟨⟨L', rep', held'.trans held, ?_⟩, contents, flushed⟩
  rw [sem]
  omega

/-- A harvester iteration drops one block.  It is a clean one only if it is at the
    back of the recency list. -/
theorem harvestIteration_spec (h : c.WF) {c' : Cache} {flushed : Option CacheBlock}
    (harvested : c.harvestIteration = some (c', flushed)) :
    c'.WF ∧ ∃ fileDes blockAddr b, c.find fileDes blockAddr = some b ∧
      c'.find = set c.find fileDes blockAddr none ∧ flushed = writtenBack b ∧
      (b.clean = true → ∃ n, c.recencyList.back = some n ∧ c.block n = b) := by
  obtain ⟨L, rep, held, units⟩ := h
  obtain ⟨t, taken, result⟩ := Option.map_eq_some_iff.mp harvested
  obtain ⟨n, victim⟩ := rep.victim_of_harvest taken
  have cached := Rep.victim_cached victim
  obtain ⟨t', taken', takes⟩ := rep.harvest victim
  obtain rfl := Option.some.inj (taken'.symm.trans taken)
  obtain ⟨wf, contents⟩ := taken_spec rep held units cached takes
  obtain ⟨rfl, rfl⟩ := Prod.mk.inj result
  refine ⟨wf, (c.block n).fdes, (c.block n).addr, c.block n, ?_, contents, takes.flushed, ?_⟩
  · exact rep.find_eq_some.mpr ⟨n, cached, rfl, rfl, rfl⟩
  · intro clean
    have inside := (rep.mem_recency_iff cached).mp clean
    cases last : L.recency.getLast? with
    | none =>
        rw [List.getLast?_eq_none_iff.mp last] at inside
        cases inside
    | some m =>
        rw [Layout.victim, last, Option.some_or] at victim
        obtain rfl := Option.some.inj victim
        exact ⟨m, rep.recency.back.trans last, rfl⟩

/-- The harvester's semaphore says nothing about the blocks. -/
theorem harvesterSemaphore_spec (h : c.WF) (harvester : Nat) :
    { c with harvesterSemaphore := harvester }.WF ∧ { c with harvesterSemaphore := harvester }.find = c.find := by
  obtain ⟨L, rep, held, units⟩ := h
  have rep' : Rep { c with harvesterSemaphore := harvester } L := rep.semaphores c.freeBlockSemaphore harvester
  refine ⟨⟨L, rep', held, units⟩, ?_⟩
  funext fileDes blockAddr
  exact rep.find_congr rep' (fun _ cached _ _ => ⟨cached, rfl⟩) (fun _ cached _ _ => ⟨cached, rfl⟩)

theorem flushIteration_spec (h : c.WF) :
    c.flushIteration.1.WF ∧ (c.flushIteration = (c, none) ∨
      ∃ fileDes blockAddr b, c.find fileDes blockAddr = some b ∧ c.flushIteration.2 = some b ∧
        c.flushIteration.1.find = set c.find fileDes blockAddr (some b.resetDirty)) := by
  obtain ⟨L, rep, held, units⟩ := h
  cases last : L.dirty.getLast? with
  | none =>
      have empty := rep.flushIteration_empty (List.getLast?_eq_none_iff.mp last)
      rw [empty]
      exact ⟨⟨L, rep, held, units⟩, .inl rfl⟩
  | some n =>
      obtain ⟨xs, cut⟩ := List.getLast?_eq_some_iff.mp last
      obtain ⟨c', flushed, rep', block, -, sem⟩ := rep.flushIteration cut
      have cached : L.Cached n := .inr (List.mem_of_getLast? last)
      rw [flushed]
      refine ⟨⟨_, rep', held, by rw [sem]; exact units⟩, .inr ⟨(c.block n).fdes, (c.block n).addr, c.block n,
        rep.find_eq_some.mpr ⟨n, cached, rfl, rfl, rfl⟩, rfl, ?_⟩⟩
      funext fileDes blockAddr
      rw [set]
      split
      · next key =>
          obtain ⟨rfl, rfl⟩ := key
          exact rep'.find_eq_some.mpr ⟨n, .inl List.mem_cons_self, by rw [block, Function.update_self], rfl, rfl⟩
      · next key =>
          refine rep.find_congr rep' (fun m before fdes addr => ?_) (fun m here fdes addr => ?_)
          · have other : m ≠ n := by
              rintro rfl
              exact key ⟨fdes.symm, addr.symm⟩
            refine ⟨?_, by rw [block, Function.update_of_ne other]⟩
            rcases before with inside | inside
            · exact .inl (List.mem_cons_of_mem _ inside)
            · rw [cut] at inside
              rcases List.mem_append.mp inside with inside | inside
              · exact .inr inside
              · exact (other (List.mem_singleton.mp inside)).elim
          · have other : m ≠ n := by
              rintro rfl
              rw [block, Function.update_self] at fdes addr
              exact key ⟨fdes.symm, addr.symm⟩
            refine ⟨?_, by rw [block, Function.update_of_ne other]⟩
            rcases here with inside | inside
            · exact .inl ((List.mem_cons.mp inside).resolve_left other)
            · exact .inr (by rw [cut]; exact List.mem_append_left _ inside)

/-! ## Written blocks -/

/-- The bytes of `b`'s block that a write inside one block covers. -/
theorem inside_iff {offset size b : Nat} (block : blockOf b = blockOf offset) :
    (offset % pfsBlockSizeInBytes ≤ b - blockOf b ∧ b - blockOf b < offset % pfsBlockSizeInBytes + size) ↔
      offset ≤ b ∧ b < offset + size := by
  simp only [blockOf, pfsBlockSizeInBytes] at block ⊢
  omega

/-- The byte `b` of a block that has been written to. -/
theorem patch_data {offset size b : Nat} (same : blockOf b = blockOf offset) (block : CacheBlock) (data : Nat → UInt8) :
    (Cache.patch block (offset % pfsBlockSizeInBytes) size data).data (b - blockOf b) =
      if offset ≤ b ∧ b < offset + size then data (b - offset) else block.data (b - blockOf b) := by
  simp only [Cache.patch, inside_iff same]
  split
  · next inside =>
      have position : b - blockOf b - offset % pfsBlockSizeInBytes = b - offset := by
        simp only [blockOf, pfsBlockSizeInBytes] at same ⊢
        omega
      rw [position]
  · rfl

theorem patch_dirty {offset size b : Nat} (same : blockOf b = blockOf offset) (block : CacheBlock)
    (data : Nat → UInt8) : (Cache.patch block (offset % pfsBlockSizeInBytes) size data).dirty (b - blockOf b) =
      if offset ≤ b ∧ b < offset + size then true else block.dirty (b - blockOf b) := by
  simp only [Cache.patch, inside_iff same]

end Cache

/-! ## Flushing to the file servers -/

/-- The bytes of a file after `WriteBlock`: those marked dirty are stored. -/
def writeBlock (store : Nat → UInt8) (block : CacheBlock) : Nat → UInt8 := fun b =>
  if block.addr ≤ b ∧ b < block.addr + pfsBlockSizeInBytes ∧ block.dirty (b - block.addr) = true then
    block.data (b - block.addr)
  else store b

theorem writeBlock_at {store : Nat → UInt8} {block : CacheBlock} (aligned : block.addr % pfsBlockSizeInBytes = 0)
    (b : Nat) : writeBlock store block b =
      if blockOf b = block.addr ∧ block.dirty (b - blockOf b) = true then block.data (b - blockOf b) else store b := by
  rw [writeBlock]
  by_cases inside : blockOf b = block.addr
  · have range := (blockOf_eq_iff aligned).mp inside
    simp only [range.1, range.2, inside, true_and]
  · have range : ¬ (block.addr ≤ b ∧ b < block.addr + pfsBlockSizeInBytes) :=
      fun range => inside ((blockOf_eq_iff aligned).mpr range)
    rw [if_neg (fun h => range ⟨h.1, h.2.1⟩), if_neg (fun h => inside h.1)]

end PFS
