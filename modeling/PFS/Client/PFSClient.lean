import PFS.Bare
import PFS.Client.CacheContents

/-! # Clients

`PFSClient` with its open files and its cache, and the parts of its calls that
run on the client itself.  The calls that involve the metadata manager and other
clients are put together in `System.World`.

The data of a call is a function on positions counted from the start of the
call's range.  The file servers are seen as one array of bytes of the file, which
is what `FileServer.Striping` shows them to be.  `none` is a call that does not
return: it blocks, fails an assertion or accesses a missing element.
-/

namespace PFS

/-- `class ClientFile`. -/
structure ClientFile where
  descriptor : Nat
  name : String
  creationTime : Nat := 0
  lastModifiedTime : Nat := 0
  size : Nat := 0
  stripWidth : Nat
  hasModified : Bool := false
  permissions : List Permission := []

/-- `class PFSClient`, with the process-wide `ClientFile::descriptorCount` and
    cache. -/
structure PFSClient where
  openedFiles : List ClientFile := []
  descriptorCount : Nat := 0
  cache : Cache := Cache.init

/-- The bytes of a file on the file servers. -/
abbrev FileBytes := Nat → UInt8

/-- The pieces of a range that lie in one block each, as the loops of `readFile`
    and `writeFile` run through them; one unit of fuel a piece. -/
def piecesFrom : Nat → Nat → Nat → List (Nat × Nat)
  | 0, _, _ => []
  | fuel + 1, offset, nbyte =>
      if nbyte = 0 then []
      else
        let actualSize := min (pfsBlockSizeInBytes - offset % pfsBlockSizeInBytes) nbyte
        (offset, actualSize) :: piecesFrom fuel (offset + actualSize) (nbyte - actualSize)

def pieces (offset nbyte : Nat) : List (Nat × Nat) := piecesFrom nbyte offset nbyte

/-- The blocks of the loop `while(blockAddr <= end)` of the evictions. -/
def blocksFrom (start stop : Nat) : List Nat :=
  (List.range ((stop + pfsBlockSizeInBytes - blockOf start) / pfsBlockSizeInBytes)).map fun k =>
    blockOf start + k * pfsBlockSizeInBytes

/-- The latest bytes after a call of `writeFile`, which may have failed. -/
def latestAfter (latest : Nat → Option UInt8) (offset nbyte : Nat) (data : Nat → UInt8) (wrote : Bool) :
    Nat → Option UInt8 := fun b =>
  if wrote = true ∧ offset ≤ b ∧ b < offset + nbyte then some (data (b - offset)) else latest b

namespace PFSClient

/-- Index of the open file with a descriptor. -/
def foundAt (c : PFSClient) (filedes : Nat) : Option Nat :=
  c.openedFiles.findIdx? (fun file => file.descriptor = filedes)

/-- `flush`: asserts that the block's file is open. -/
def flush (c : PFSClient) (block : CacheBlock) (bytes : FileBytes) : Option FileBytes :=
  if c.openedFiles.any (fun file => file.descriptor = block.fdes) then some (writeBlock bytes block) else none

/-- The flush of an operation of the cache, if it makes one. -/
def flushed (c : PFSClient) (bytes : FileBytes) : Option CacheBlock → Option FileBytes
  | none => some bytes
  | some block => c.flush block bytes

/-- `getBlockFromFileServer`. -/
def getBlockFromFileServer (bytes : FileBytes) (blockAddr : Nat) : Nat → UInt8 := fun i => bytes (blockAddr + i)

/-- The loop of `readFile`; `buffer` has the bytes by their position in the file. -/
def readLoop (filedes : Nat) (bytes : FileBytes) : List (Nat × Nat) → Cache → (Nat → UInt8) →
    Option (Cache × (Nat → UInt8))
  | [], cache, buffer => some (cache, buffer)
  | (offset, actualSize) :: rest, cache, buffer => do
      let (cache, cacheData) ←
        match cache.readBlock filedes (blockOf offset) with
        | (cache, some cacheData) => some (cache, cacheData)
        | (cache, none) =>
            let cacheData := getBlockFromFileServer bytes (blockOf offset)
            (cache.addBlock filedes (blockOf offset) cacheData).map fun cache => (cache, cacheData)
      readLoop filedes bytes rest cache fun b =>
        if offset ≤ b ∧ b < offset + actualSize then cacheData (b - blockOf offset) else buffer b

/-- The loop of `writeFile`; `data` has the bytes by their position in the file.
    The result of the second `write` is not looked at. -/
def writeLoop (filedes : Nat) (bytes : FileBytes) (data : Nat → UInt8) : List (Nat × Nat) → Cache → Option Cache
  | [], cache => some cache
  | (offset, actualSize) :: rest, cache => do
      let cache ←
        match cache.write filedes offset actualSize (fun i => data (offset + i)) with
        | (cache, true) => some cache
        | (cache, false) =>
            (cache.addBlock filedes (blockOf offset) (getBlockFromFileServer bytes (blockOf offset))).map fun cache =>
              (cache.write filedes offset actualSize (fun i => data (offset + i))).1
      writeLoop filedes bytes data rest cache

/-- `evictBlock` for each of the blocks, with the flushes. -/
def evictBlocks (c : PFSClient) (filedes : Nat) : List Nat → Cache → FileBytes → Option (Cache × FileBytes)
  | [], cache, bytes => some (cache, bytes)
  | blockAddr :: rest, cache, bytes => do
      let (cache, block) := cache.evictBlock filedes blockAddr
      let bytes ← c.flushed bytes block
      evictBlocks c filedes rest cache bytes

/-- `ClientFile::unlockPermission`. -/
def unlockPermission (start stop : Nat) (l : List Permission) : List Permission :=
  l.map fun p => if p.isShared start stop then p.unlock else p

theorem bareList_unlockPermission (start stop : Nat) (l : List Permission) :
    bareList (unlockPermission start stop l) = bareList l := by
  induction l with
  | nil => rfl
  | cons p rest ih =>
      simp only [unlockPermission, List.map_cons, bareList_cons] at ih ⊢
      rw [ih]
      split <;> rfl

/-- Change the file at an index. -/
def setFile (c : PFSClient) (i : Nat) (file : ClientFile) : PFSClient :=
  { c with openedFiles := c.openedFiles.set i file }

/-- `revokePermission`, when nobody else runs on the client: a locked token in
    the range is never unlocked.  Returns the bytes of the file after the
    flushes. -/
def revokePermission (c : PFSClient) (bytes : FileBytes) (filename : String) (start stop : Nat) :
    Option (PFSClient × FileBytes) :=
  match c.openedFiles.findIdx? (fun file => file.name = filename) with
  | none => some (c, bytes)
  | some i => do
      let file ← c.openedFiles[i]?
      if file.permissions.any (fun p => p.isShared start stop && p.locked) then none
      else
        let (cache, bytes) ← c.evictBlocks file.descriptor (blocksFrom start stop) c.cache bytes
        some ({ c with cache := cache }.setFile i
          { file with permissions := PFS.revokePermission start stop file.permissions }, bytes)

/-- `readFile` once it has its token. -/
def readBytes (c : PFSClient) (bytes : FileBytes) (i filedes offset nbyte : Nat) :
    Option (PFSClient × (Nat → UInt8)) := do
  let (cache, buffer) ← readLoop filedes bytes (pieces offset nbyte) c.cache (fun _ => 0)
  let file ← c.openedFiles[i]?
  some ({ c with cache := cache }.setFile i
    { file with permissions := unlockPermission offset (offset + nbyte) file.permissions }, buffer)

/-- `writeFile` once it has its token. -/
def writeBytes (c : PFSClient) (bytes : FileBytes) (i filedes offset nbyte : Nat) (data : Nat → UInt8) :
    Option PFSClient := do
  let cache ← writeLoop filedes bytes (fun b => data (b - offset)) (pieces offset nbyte) c.cache
  let file ← c.openedFiles[i]?
  some ({ c with cache := cache }.setFile i
    { file with
      hasModified := true
      size := max file.size ((offset + nbyte) % uint32Size)
      permissions := unlockPermission offset (offset + nbyte) file.permissions })

end PFSClient

end PFS
