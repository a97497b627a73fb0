import PFS.Config
import PFS.Lib.IntrusiveList

/-! # The client cache

`class Cache` at the level of its pointers.  The nodes (`CacheBlockMetadata`)
are numbered; the four `ListNode`s a node owns are kept as four maps from nodes
to links, so that an operation on one of the lists visibly leaves the others
alone.  Recency and dirty list are the two instances of one intrusive list, the
hash chains and the free list have a front pointer only.

`PFSClient::flush` is called under `cacheLock`; an operation that calls it
returns the block that was flushed.  `none` as the result of an operation means
that the caller does not return from it: it blocks on a semaphore, fails an
assertion or dereferences a null pointer.
-/

namespace PFS

open Lib

abbrev NodeId := Nat

/-- `class CacheBlock`. -/
structure CacheBlock where
  fdes : Nat := 0
  addr : Nat := 0
  dirty : Nat → Bool := fun _ => false
  clean : Bool := true
  valid : Bool := false
  data : Nat → UInt8 := fun _ => 0

namespace CacheBlock

def reset (b : CacheBlock) : CacheBlock := { b with valid := false, dirty := fun _ => false, clean := true }

def resetDirty (b : CacheBlock) : CacheBlock := { b with dirty := fun _ => false, clean := true }

end CacheBlock

/-- `blockCount`. -/
def blockCount : Nat := clientCacheSizeInBytes / pfsBlockSizeInBytes

/-- The thresholds of the harvester: woken at the first, stopped at the second. -/
def harvestLow : Nat := 2000
def harvestHigh : Nat := 2020

/-- `class Cache`.  The front of the recency and the dirty list is their MRU
    pointer, the back their LRU pointer. -/
structure Cache where
  block : NodeId → CacheBlock := fun _ => {}
  bucketId : NodeId → Nat := fun _ => uint32Size - 1
  recencyList : IntrusiveList NodeId := {}
  dirtyList : IntrusiveList NodeId := {}
  bucketNode : NodeId → Link NodeId := fun _ => {}
  hashTable : Nat → Option NodeId := fun _ => none
  freeNode : NodeId → Link NodeId := fun _ => {}
  freeListHead : Option NodeId := none
  freeBlockCount : Nat
  freeBlockSemaphore : Nat
  harvesterSemaphore : Nat := 0

namespace Cache

/-- The loop of the constructor: each new node goes to the front of the free list. -/
def initFree : Nat → (NodeId → Link NodeId) × Option NodeId
  | 0 => (fun _ => {}, none)
  | n + 1 => (Link.push (initFree n).1 (initFree n).2 n, some n)

/-- `Cache::Cache`. -/
def init : Cache where
  freeNode := (initFree blockCount).1
  freeListHead := (initFree blockCount).2
  freeBlockCount := blockCount
  freeBlockSemaphore := blockCount

/-! ## List primitives -/

def addToRecencyList (c : Cache) (node : NodeId) : Cache :=
  { c with recencyList := c.recencyList.pushFront node }

def removeFromRecencyList (c : Cache) (node : NodeId) : Cache :=
  { c with recencyList := c.recencyList.unlink node }

def removeRecencyListLRU (c : Cache) : Option (NodeId × Cache) :=
  c.recencyList.popBack.map fun r => (r.1, { c with recencyList := r.2 })

def addToDirtyList (c : Cache) (node : NodeId) : Cache :=
  { c with dirtyList := c.dirtyList.pushFront node }

def removeFromDirtyList (c : Cache) (node : NodeId) : Cache :=
  { c with dirtyList := c.dirtyList.unlink node }

def removeDirtyListLRU (c : Cache) : Option (NodeId × Cache) :=
  c.dirtyList.popBack.map fun r => (r.1, { c with dirtyList := r.2 })

def addToHashmap (c : Cache) (node : NodeId) : Cache :=
  { c with
    hashTable := Function.update c.hashTable (c.bucketId node) (some node)
    bucketNode := Link.push c.bucketNode (c.hashTable (c.bucketId node)) node }

def removeFromHashmap (c : Cache) (node : NodeId) : Cache :=
  { c with
    hashTable :=
      if c.hashTable (c.bucketId node) = some node then
        Function.update c.hashTable (c.bucketId node) (c.bucketNode node).next
      else c.hashTable
    bucketNode := Link.splice c.bucketNode node }

/-- The result says whether the harvester should go on. -/
def addToFreeList (c : Cache) (node : NodeId) : Cache × Bool :=
  ({ c with
      freeNode := Link.push c.freeNode c.freeListHead node
      freeListHead := some node
      freeBlockCount := c.freeBlockCount + 1 },
    decide (c.freeBlockCount + 1 < harvestHigh))

/-- `sem_wait(&freeBlockSemaphore)`. -/
def waitFree (c : Cache) : Option Cache :=
  if c.freeBlockSemaphore = 0 then none
  else some { c with freeBlockSemaphore := c.freeBlockSemaphore - 1 }

/-- The critical section of `getFreeListEntry`.  It fails its assertion on an
    empty free list and dereferences a null pointer on a list of one node. -/
def popFree (c : Cache) : Option (NodeId × Cache) := do
  let node ← c.freeListHead
  let nx ← (c.freeNode node).next
  some (node, { c with
    freeNode := Link.setPrev c.freeNode (some nx) none
    freeListHead := some nx
    freeBlockCount := c.freeBlockCount - 1
    harvesterSemaphore :=
      if c.freeBlockCount - 1 ≤ harvestLow then c.harvesterSemaphore + 1 else c.harvesterSemaphore })

/-- `lookup`'s walk along a chain.  A chain has at most `blockCount` nodes. -/
def lookupFrom (c : Cache) (fileDes blockAddr : Nat) : Nat → Option NodeId → Option NodeId
  | 0, _ => none
  | _ + 1, none => none
  | fuel + 1, some node =>
      if (c.block node).fdes = fileDes ∧ (c.block node).addr = blockAddr then some node
      else c.lookupFrom fileDes blockAddr fuel (c.bucketNode node).next

def lookup (c : Cache) (fileDes blockAddr : Nat) : Option NodeId :=
  c.lookupFrom fileDes blockAddr blockCount (c.hashTable (hashPFS fileDes blockAddr))

/-- `CacheBlockMetadata::reset`. -/
def resetNode (c : Cache) (node : NodeId) : Cache :=
  { c with
    bucketId := Function.update c.bucketId node (uint32Size - 1)
    dirtyList := { c.dirtyList with link := Link.reset c.dirtyList.link node }
    recencyList := { c.recencyList with link := Link.reset c.recencyList.link node }
    freeNode := Link.reset c.freeNode node
    bucketNode := Link.reset c.bucketNode node }

/-! ## Critical sections of the cache operations -/

/-- `readBlock`: the block's data on a hit. -/
def readBlock (c : Cache) (fileDes blockAddr : Nat) : Cache × Option (Nat → UInt8) :=
  match c.lookup fileDes blockAddr with
  | none => (c, none)
  | some node =>
      (if (c.block node).clean then (c.removeFromRecencyList node).addToRecencyList node
        else (c.removeFromDirtyList node).addToDirtyList node,
      some (c.block node).data)

/-- The block after `size` bytes of `data` have been copied to position `at_`. -/
def patch (b : CacheBlock) (at_ size : Nat) (data : Nat → UInt8) : CacheBlock :=
  { b with
    data := fun i => if at_ ≤ i ∧ i < at_ + size then data (i - at_) else b.data i
    dirty := fun i => if at_ ≤ i ∧ i < at_ + size then true else b.dirty i }

/-- `write`: whether the block was in the cache. -/
def write (c : Cache) (fileDes offset size : Nat) (data : Nat → UInt8) : Cache × Bool :=
  match c.lookup fileDes (blockOf offset) with
  | none => (c, false)
  | some node =>
      let patched := patch (c.block node) (offset % pfsBlockSizeInBytes) size data
      let unlinked :=
        if (c.block node).clean then c.removeFromRecencyList node else c.removeFromDirtyList node
      (addToDirtyList { unlinked with
        block := Function.update c.block node { patched with clean := false } } node, true)

/-- What `addBlock` does to the node it holds. -/
def fillNode (c : Cache) (node fileDes blockAddr : Nat) (data : Nat → UInt8) : Cache :=
  { c with
    block := Function.update c.block node
      { (c.block node).reset with valid := true, addr := blockAddr, fdes := fileDes, data := data }
    bucketId := Function.update c.bucketId node (hashPFS fileDes blockAddr) }

/-- The critical section of `addBlock` under `cacheLock`. -/
def insertNode (c : Cache) (node : NodeId) : Cache := (c.addToHashmap node).addToRecencyList node

/-- `addBlock` without interruption. -/
def addBlock (c : Cache) (fileDes blockAddr : Nat) (data : Nat → UInt8) : Option Cache :=
  if blockAddr % pfsBlockSizeInBytes ≠ 0 then none
  else do
    let c ← c.waitFree
    let c ← c.waitFree
    let (node, c) ← c.popFree
    some ((c.fillNode node fileDes blockAddr data).insertNode node)

/-- A node taken out of the cache, what is left, and the block that was flushed. -/
structure Taken where
  node : NodeId
  cache : Cache
  flushed : Option CacheBlock

/-- The critical section of `evictBlock` under `cacheLock`; `none` if the block
    is not in the cache. -/
def unlinkBlock (c : Cache) (fileDes blockAddr : Nat) : Option Taken :=
  (c.lookup fileDes blockAddr).map fun node =>
    let unhashed := c.removeFromHashmap node
    if (c.block node).clean then
      ⟨node, (unhashed.removeFromRecencyList node).resetNode node, none⟩
    else
      ⟨node, ({ unhashed with
          block := Function.update c.block node (c.block node).resetDirty }.removeFromDirtyList node).resetNode node,
        some (c.block node)⟩

/-- `evictBlock` without interruption. -/
def evictBlock (c : Cache) (fileDes blockAddr : Nat) : Cache × Option CacheBlock :=
  match c.unlinkBlock fileDes blockAddr with
  | none => (c, none)
  | some taken => ((taken.cache.addToFreeList taken.node).1, taken.flushed)

/-- What the harvester does to its victim. -/
def release (c : Cache) (node : NodeId) : Taken :=
  let unhashed := c.removeFromHashmap node
  if (c.block node).clean then ⟨node, unhashed, none⟩
  else ⟨node, { unhashed with block := Function.update c.block node (c.block node).resetDirty },
    some (c.block node)⟩

/-- The critical section of a harvester iteration under `cacheLock`; without a
    victim the code dereferences a null pointer. -/
def harvest (c : Cache) : Option Taken :=
  match c.removeRecencyListLRU with
  | some (node, c') => some (c'.release node)
  | none => c.removeDirtyListLRU.map fun r => r.2.release r.1

/-- A harvester iteration without interruption. -/
def harvestIteration (c : Cache) : Option (Cache × Option CacheBlock) :=
  c.harvest.map fun taken => ((taken.cache.addToFreeList taken.node).1, taken.flushed)

/-- A flusher iteration; nothing is flushed when the dirty list is empty. -/
def flushIteration (c : Cache) : Cache × Option CacheBlock :=
  match c.removeDirtyListLRU with
  | none => (c, none)
  | some (node, c') =>
      (addToRecencyList { c' with
        block := Function.update c'.block node (c'.block node).resetDirty } node, some (c'.block node))

end Cache

end PFS
