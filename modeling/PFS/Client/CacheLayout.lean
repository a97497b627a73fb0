import PFS.Client.Cache
import Mathlib.Data.List.Perm.Subperm

/-! # The representation invariant of the client cache

A `Layout` names the nodes of each list of the cache, and `Rep` says that the
pointers, counters and blocks of a cache are those of a layout: every node is in
exactly one place, the lists are properly linked, the hash chains hold exactly
the cached nodes, each in the bucket of its block, and clean and dirty blocks are
where they belong.  This module has the invariant and what the list primitives
do to its parts; the operations of the cache follow in the next one.
-/

namespace PFS

open Lib

/-- Where each node is: in the free list, the recency list or the dirty list, or
    held by a thread.  `chain` has the nodes of each hash bucket. -/
structure Layout where
  free : List NodeId
  recency : List NodeId
  dirty : List NodeId
  held : List NodeId
  chain : Nat → List NodeId

namespace Layout

def Cached (L : Layout) (n : NodeId) : Prop := n ∈ L.recency ∨ n ∈ L.dirty

instance (L : Layout) (n : NodeId) : Decidable (L.Cached n) := inferInstanceAs (Decidable (_ ∨ _))

/-- Every node is in exactly one place, once. -/
def Partition (L : Layout) : Prop :=
  ∀ n, L.free.count n + L.recency.count n + L.dirty.count n + L.held.count n = if n < blockCount then 1 else 0

namespace Partition

variable {L : Layout} (h : L.Partition) {n : NodeId}

include h

theorem bounded (somewhere : 0 < L.free.count n + L.recency.count n + L.dirty.count n + L.held.count n) :
    n < blockCount := by
  by_contra large
  have one := h n
  rw [if_neg large] at one
  omega

theorem of_recency (member : n ∈ L.recency) : n ∉ L.dirty ∧ n ∉ L.free ∧ n ∉ L.held ∧ n < blockCount := by
  have one := h n
  have here := List.count_pos_iff.mpr member
  have small : n < blockCount := h.bounded (by omega)
  rw [if_pos small] at one
  simp only [← List.count_eq_zero]
  exact ⟨by omega, by omega, by omega, small⟩

theorem of_dirty (member : n ∈ L.dirty) : n ∉ L.recency ∧ n ∉ L.free ∧ n ∉ L.held ∧ n < blockCount := by
  have one := h n
  have here := List.count_pos_iff.mpr member
  have small : n < blockCount := h.bounded (by omega)
  rw [if_pos small] at one
  simp only [← List.count_eq_zero]
  exact ⟨by omega, by omega, by omega, small⟩

theorem of_held (member : n ∈ L.held) : ¬ L.Cached n ∧ n ∉ L.free ∧ n < blockCount := by
  have one := h n
  have here := List.count_pos_iff.mpr member
  have small : n < blockCount := h.bounded (by omega)
  rw [if_pos small] at one
  simp only [Cached, not_or, ← List.count_eq_zero]
  exact ⟨⟨by omega, by omega⟩, by omega, small⟩

theorem of_free (member : n ∈ L.free) : ¬ L.Cached n ∧ n ∉ L.held ∧ n < blockCount := by
  have one := h n
  have here := List.count_pos_iff.mpr member
  have small : n < blockCount := h.bounded (by omega)
  rw [if_pos small] at one
  simp only [Cached, not_or, ← List.count_eq_zero]
  exact ⟨⟨by omega, by omega⟩, by omega, small⟩

theorem free_distinct : L.free.Nodup := by
  apply List.nodup_iff_count_le_one.mpr
  intro n
  have one := h n
  split at one <;> omega

theorem cached_lt (cached : L.Cached n) : n < blockCount :=
  cached.elim (fun member => (h.of_recency member).2.2.2) (fun member => (h.of_dirty member).2.2.2)

/-- The lists together have as many entries as there are nodes. -/
theorem length_eq : L.free.length + L.recency.length + L.dirty.length + L.held.length = blockCount := by
  have perm : (L.free ++ L.recency ++ L.dirty ++ L.held).Perm (List.range blockCount) := by
    apply List.perm_iff_count.mpr
    intro n
    have one := h n
    simp only [List.count_append, List.count_range]
    exact one
  have := perm.length_eq
  simpa only [List.length_append, List.length_range] using this

end Partition

end Layout

/-! ## Hash chains -/

/-- The chains hold exactly the nodes that satisfy `cached`, each in the bucket
    its `bucketId` names. -/
structure HashRep (c : Cache) (cached : NodeId → Prop) (chain : Nat → List NodeId) : Prop where
  head : ∀ b, c.hashTable b = (chain b).head?
  linked : ∀ b, Linked c.bucketNode none (chain b) none
  distinct : ∀ b, (chain b).Nodup
  mem : ∀ b n, n ∈ chain b ↔ cached n ∧ c.bucketId n = b
  outside : ∀ n, ¬ cached n → c.bucketNode n = {}

namespace HashRep

variable {c c' : Cache} {cached cached' : NodeId → Prop} {chain : Nat → List NodeId}

/-- Only the chains' own fields matter. -/
theorem congr (h : HashRep c cached chain) (table : c'.hashTable = c.hashTable)
    (nodes : c'.bucketNode = c.bucketNode) (same : ∀ n, cached' n ↔ cached n)
    (ids : ∀ n, cached n → c'.bucketId n = c.bucketId n) : HashRep c' cached' chain where
  head b := by rw [table]; exact h.head b
  linked b := by rw [nodes]; exact h.linked b
  distinct := h.distinct
  mem b n := by
    rw [h.mem, same]
    constructor
    · rintro ⟨inside, bucket⟩; exact ⟨inside, (ids n inside).trans bucket⟩
    · rintro ⟨inside, bucket⟩; exact ⟨inside, (ids n inside).symm.trans bucket⟩
  outside n away := by
    rw [nodes]
    exact h.outside n (fun inside => away ((same n).mpr inside))

theorem add (h : HashRep c cached chain) {n : NodeId} (absent : ¬ cached n) :
    HashRep (c.addToHashmap n) (fun m => m = n ∨ cached m)
      (Function.update chain (c.bucketId n) (n :: chain (c.bucketId n))) := by
  have away : ∀ b, n ∉ chain b := fun b member => absent ((h.mem b n).mp member).1
  constructor
  · intro b
    by_cases same : b = c.bucketId n
    · subst same
      simp [Cache.addToHashmap]
    · simp only [Cache.addToHashmap, Function.update_of_ne same]
      exact h.head b
  · intro b
    simp only [Cache.addToHashmap, h.head]
    by_cases same : b = c.bucketId n
    · subst same
      rw [Function.update_self]
      exact push_linked (h.distinct _) (away _) (by rw [h.outside n absent]) (h.linked _)
    · rw [Function.update_of_ne same]
      apply (h.linked b).congr
      intro m member
      apply push_ne
      · rintro rfl; exact away b member
      · intro other
        exact same (((h.mem b m).mp member).2.symm.trans ((h.mem _ m).mp other).2)
  · intro b
    by_cases same : b = c.bucketId n
    · subst same
      rw [Function.update_self]
      exact List.nodup_cons.mpr ⟨away _, h.distinct _⟩
    · rw [Function.update_of_ne same]
      exact h.distinct b
  · intro b m
    by_cases same : b = c.bucketId n
    · subst same
      rw [Function.update_self, List.mem_cons, h.mem]
      constructor
      · rintro (rfl | ⟨inside, bucket⟩)
        · exact ⟨.inl rfl, rfl⟩
        · exact ⟨.inr inside, bucket⟩
      · rintro ⟨rfl | inside, bucket⟩
        · exact .inl rfl
        · exact .inr ⟨inside, bucket⟩
    · rw [Function.update_of_ne same, h.mem]
      constructor
      · rintro ⟨inside, bucket⟩; exact ⟨.inr inside, bucket⟩
      · rintro ⟨rfl | inside, bucket⟩
        · exact (same bucket.symm).elim
        · exact ⟨inside, bucket⟩
  · intro m outside
    simp only [not_or] at outside
    simp only [Cache.addToHashmap, h.head]
    rw [push_ne outside.1 (fun member => outside.2 ((h.mem _ m).mp member).1)]
    exact h.outside m outside.2

theorem remove (h : HashRep c cached chain) {n : NodeId} (present : cached n) :
    HashRep (c.removeFromHashmap n) (fun m => m ≠ n ∧ cached m)
      (Function.update chain (c.bucketId n) ((chain (c.bucketId n)).erase n)) := by
  have member : n ∈ chain (c.bucketId n) := (h.mem _ n).mpr ⟨present, rfl⟩
  obtain ⟨as, bs, cut⟩ := List.append_of_mem member
  have linked := h.linked (c.bucketId n)
  have distinct := h.distinct (c.bucketId n)
  rw [cut] at linked distinct
  have absent : n ∉ as := fun inside => (List.nodup_append'.mp distinct).2.2 inside (by simp)
  obtain ⟨-, nextEq⟩ := linked_neighbours linked
  have erased : (chain (c.bucketId n)).erase n = as ++ bs := by
    rw [cut, List.erase_append_right _ absent, List.erase_cons_head]
  rw [erased]
  constructor
  · intro b
    simp only [Cache.removeFromHashmap, h.head (c.bucketId n), cut]
    by_cases same : b = c.bucketId n
    · subst same
      rw [Function.update_self]
      cases as with
      | nil => simp [nextEq]
      | cons m rest =>
          have other : m ≠ n := fun same => absent (by simp [same])
          simp [other, h.head, cut]
    · rw [Function.update_of_ne same]
      split
      · rw [Function.update_of_ne same]; exact h.head b
      · exact h.head b
  · intro b
    simp only [Cache.removeFromHashmap]
    by_cases same : b = c.bucketId n
    · subst same
      rw [Function.update_self]
      exact splice_linked distinct linked
    · rw [Function.update_of_ne same]
      apply (h.linked b).congr
      intro m inside
      apply splice_ne linked
      rw [← cut]
      intro other
      exact same (((h.mem b m).mp inside).2.symm.trans ((h.mem _ m).mp other).2)
  · intro b
    by_cases same : b = c.bucketId n
    · subst same
      rw [Function.update_self]
      exact distinct.sublist (List.Sublist.append_left (List.sublist_cons_self n bs) as)
    · rw [Function.update_of_ne same]
      exact h.distinct b
  · intro b m
    by_cases same : b = c.bucketId n
    · subst same
      rw [Function.update_self, ← erased, (h.distinct _).mem_erase_iff, h.mem, and_assoc]
      exact Iff.rfl
    · rw [Function.update_of_ne same, h.mem]
      constructor
      · rintro ⟨inside, bucket⟩
        refine ⟨⟨?_, inside⟩, bucket⟩
        rintro rfl
        exact same bucket.symm
      · rintro ⟨⟨-, inside⟩, bucket⟩
        exact ⟨inside, bucket⟩
  · intro m outside
    simp only [Cache.removeFromHashmap]
    by_cases same : m = n
    · subst same; exact splice_self _ _
    · have away : ¬ cached m := fun inside => outside ⟨same, inside⟩
      rw [splice_ne linked]
      · exact h.outside m away
      · rw [← cut]
        intro inside
        exact away ((h.mem _ m).mp inside).1

end HashRep

/-! ## The free list -/

structure FreeRep (c : Cache) (free : List NodeId) : Prop where
  linked : Linked c.freeNode none free none
  head : c.freeListHead = free.head?
  outside : ∀ n, n ∉ free → (c.freeNode n).prev = none
  count : c.freeBlockCount = free.length

namespace FreeRep

variable {c c' : Cache} {free : List NodeId}

theorem congr (h : FreeRep c free) (nodes : c'.freeNode = c.freeNode)
    (head : c'.freeListHead = c.freeListHead) (count : c'.freeBlockCount = c.freeBlockCount) :
    FreeRep c' free where
  linked := by rw [nodes]; exact h.linked
  head := by rw [head]; exact h.head
  outside n away := by rw [nodes]; exact h.outside n away
  count := by rw [count]; exact h.count

theorem push (h : FreeRep c free) (distinct : free.Nodup) {n : NodeId} (absent : n ∉ free) :
    FreeRep (c.addToFreeList n).1 (n :: free) where
  linked := by
    simp only [Cache.addToFreeList, h.head]
    exact push_linked distinct absent (h.outside n absent) h.linked
  head := rfl
  outside m away := by
    simp only [List.mem_cons, not_or] at away
    simp only [Cache.addToFreeList, h.head]
    rw [push_ne away.1 away.2]
    exact h.outside m away.2
  count := by simp [Cache.addToFreeList, h.count]

/-- With at least two free nodes the first one is taken. -/
theorem pop {n m : NodeId} {rest : List NodeId} (h : FreeRep c (n :: m :: rest))
    (distinct : (n :: m :: rest).Nodup) :
    ∃ c', c.popFree = some (n, c') ∧ FreeRep c' (m :: rest) ∧
      c' = { c with
        freeNode := c'.freeNode, freeListHead := c'.freeListHead, freeBlockCount := c'.freeBlockCount
        harvesterSemaphore := c'.harvesterSemaphore } := by
  obtain ⟨prevNone, nextEq, tail⟩ := h.linked
  have headEq : c.freeListHead = some n := h.head
  have nextSome : (c.freeNode n).next = some m := by simpa using nextEq
  simp only [Cache.popFree, headEq, nextSome, Option.bind_eq_bind, Option.bind_some]
  refine ⟨_, rfl, ?_, rfl⟩
  constructor
  · exact Linked.setPrev_head (List.nodup_cons.mp distinct).2 none tail
  · rfl
  · intro k away
    simp only [List.mem_cons, not_or] at away
    show (Link.setPrev c.freeNode (some m) none k).prev = none
    rw [Link.setPrev_ne (fun same => away.1 (Option.some.inj same).symm)]
    by_cases same : k = n
    · subst same; exact prevNone
    · exact h.outside k (by simp [same, away.1, away.2])
  · simp [h.count]

end FreeRep

/-! ## The invariant -/

/-- The blocks of the cached nodes. -/
structure BlockRep (c : Cache) (L : Layout) : Prop where
  bucket : ∀ n, L.Cached n → c.bucketId n = hashPFS (c.block n).fdes (c.block n).addr
  unique : ∀ n m, L.Cached n → L.Cached m → (c.block n).fdes = (c.block m).fdes →
    (c.block n).addr = (c.block m).addr → n = m
  valid : ∀ n, L.Cached n → (c.block n).valid = true
  clean : ∀ n ∈ L.recency, (c.block n).clean = true ∧ ∀ i, (c.block n).dirty i = false
  unclean : ∀ n ∈ L.dirty, (c.block n).clean = false ∧
    ∃ i, i < pfsBlockSizeInBytes ∧ (c.block n).dirty i = true

/-- The cache `c` is laid out as `L`. -/
structure Rep (c : Cache) (L : Layout) : Prop where
  partition : L.Partition
  recency : c.recencyList.Holds L.recency
  dirty : c.dirtyList.Holds L.dirty
  hash : HashRep c L.Cached L.chain
  free : FreeRep c L.free
  blocks : BlockRep c L

namespace Rep

variable {c : Cache} {L : Layout}

theorem lookupFrom_eq {bucketNode : NodeId → Link NodeId} (eq : c.bucketNode = bucketNode)
    (fileDes blockAddr : Nat) : ∀ (xs : List NodeId) (before : Option NodeId) (fuel : Nat),
    Linked bucketNode before xs none → xs.length ≤ fuel →
    c.lookupFrom fileDes blockAddr fuel xs.head? =
      xs.find? (fun n => (c.block n).fdes = fileDes ∧ (c.block n).addr = blockAddr) := by
  intro xs
  induction xs with
  | nil => intro before fuel _ _; cases fuel <;> rfl
  | cons n rest ih =>
      intro before fuel linked enough
      obtain ⟨-, nextEq, tail⟩ := linked
      cases fuel with
      | zero => simp at enough
      | succ fuel =>
          simp only [List.head?_cons, Cache.lookupFrom, List.find?_cons]
          split
          · next found => simp [found]
          · next other =>
              have nextHead : (c.bucketNode n).next = rest.head? := by rw [eq]; simpa using nextEq
              simp only [other, decide_false, nextHead]
              exact ih (some n) fuel tail (by simpa using enough)

/-- `lookup` finds exactly the cached node with this key. -/
theorem lookup_eq_some (h : Rep c L) {fileDes blockAddr : Nat} {n : NodeId} :
    c.lookup fileDes blockAddr = some n ↔
      L.Cached n ∧ (c.block n).fdes = fileDes ∧ (c.block n).addr = blockAddr := by
  have short : (L.chain (hashPFS fileDes blockAddr)).length ≤ blockCount := by
    have sub : L.chain (hashPFS fileDes blockAddr) ⊆ List.range blockCount := by
      intro m member
      exact List.mem_range.mpr (h.partition.cached_lt ((h.hash.mem _ m).mp member).1)
    simpa only [List.length_range] using (List.subperm_of_subset (h.hash.distinct _) sub).length_le
  rw [Cache.lookup, h.hash.head, lookupFrom_eq rfl fileDes blockAddr _ none _ (h.hash.linked _) short]
  constructor
  · intro found
    have key := List.find?_some found
    simp only [decide_eq_true_eq] at key
    exact ⟨((h.hash.mem _ n).mp (List.mem_of_find?_eq_some found)).1, key⟩
  · rintro ⟨cached, rfl, rfl⟩
    have member : n ∈ L.chain (hashPFS (c.block n).fdes (c.block n).addr) :=
      (h.hash.mem _ n).mpr ⟨cached, h.blocks.bucket n cached⟩
    cases found : (L.chain (hashPFS (c.block n).fdes (c.block n).addr)).find?
        (fun m => (c.block m).fdes = (c.block n).fdes ∧ (c.block m).addr = (c.block n).addr) with
    | none =>
        have := List.find?_eq_none.mp found n member
        simp at this
    | some m =>
        have key := List.find?_some found
        simp only [decide_eq_true_eq] at key
        have cached' := ((h.hash.mem _ m).mp (List.mem_of_find?_eq_some found)).1
        rw [h.blocks.unique m n cached' cached key.1 key.2]

theorem lookup_eq_none (h : Rep c L) {fileDes blockAddr : Nat} :
    c.lookup fileDes blockAddr = none ↔
      ∀ n, L.Cached n → ¬ ((c.block n).fdes = fileDes ∧ (c.block n).addr = blockAddr) := by
  constructor
  · intro missing n cached key
    have found := h.lookup_eq_some.mpr ⟨cached, key⟩
    rw [missing] at found
    cases found
  · intro absent
    cases found : c.lookup fileDes blockAddr with
    | none => rfl
    | some n =>
        obtain ⟨cached, key⟩ := h.lookup_eq_some.mp found
        exact (absent n cached key).elim

/-- A cached block is clean exactly when it is in the recency list. -/
theorem mem_recency_iff (h : Rep c L) {n : NodeId} (cached : L.Cached n) :
    (c.block n).clean = true ↔ n ∈ L.recency := by
  constructor
  · intro clean
    rcases cached with member | member
    · exact member
    · rw [(h.blocks.unclean n member).1] at clean
      cases clean
  · intro member
    exact (h.blocks.clean n member).1

end Rep

/-! ## The initial cache -/

theorem initFree_linked (n : Nat) :
    (Cache.initFree n).2 = (List.range n).reverse.head? ∧
      Linked (Cache.initFree n).1 none (List.range n).reverse none ∧
      ∀ m, m ∉ (List.range n).reverse → (Cache.initFree n).1 m = {} := by
  induction n with
  | zero => exact ⟨rfl, trivial, fun _ _ => rfl⟩
  | succ n ih =>
      obtain ⟨head, linked, outside⟩ := ih
      have distinct : (List.range n).reverse.Nodup := List.nodup_reverse.mpr List.nodup_range
      have absent : n ∉ (List.range n).reverse := by simp
      have layout : (List.range (n + 1)).reverse = n :: (List.range n).reverse := by
        simp [List.range_succ]
      rw [layout]
      refine ⟨rfl, ?_, ?_⟩
      · simp only [Cache.initFree, head]
        exact push_linked distinct absent (by rw [outside n absent]) linked
      · intro m away
        simp only [List.mem_cons, not_or] at away
        simp only [Cache.initFree, head]
        rw [push_ne away.1 away.2]
        exact outside m away.2

theorem initFree_rep {c : Cache} {n : Nat} (nodes : c.freeNode = (Cache.initFree n).1)
    (front : c.freeListHead = (Cache.initFree n).2) (count : c.freeBlockCount = n) :
    FreeRep c (List.range n).reverse := by
  obtain ⟨head, linked, outside⟩ := initFree_linked n
  constructor
  · rw [nodes]; exact linked
  · rw [front]; exact head
  · intro m away
    rw [nodes, outside m away]
  · rw [count, List.length_reverse, List.length_range]

/-- All nodes are free at first, the last one made in front. -/
def Layout.init : Layout := ⟨(List.range blockCount).reverse, [], [], [], fun _ => []⟩

theorem Rep.init : Rep Cache.init Layout.init := by
  constructor
  · intro n
    simp only [Layout.init, List.count_reverse, List.count_range, List.count_nil, Nat.add_zero]
  · exact IntrusiveList.Holds.empty
  · exact IntrusiveList.Holds.empty
  · exact ⟨fun _ => rfl, fun _ => trivial, fun _ => List.nodup_nil, by simp [Layout.init, Layout.Cached],
      fun _ _ => rfl⟩
  · rw [Layout.init]
    apply initFree_rep
    · rw [Cache.init]
    · rw [Cache.init]
    · rw [Cache.init]
  · constructor <;> simp [Layout.init, Layout.Cached]

end PFS
