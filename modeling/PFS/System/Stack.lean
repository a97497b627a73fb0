import PFS.Client.CacheLikeness
import PFS.FileServer.Striping
import PFS.System.Reopening

/-! # The file system down to the strips

The clients of a file with the file servers themselves in the place of the one
array of bytes `World` has: `flush` sends a `WriteBlock` and
`getBlockFromFileServer` a `ReadBlock` to the server of the block's strip, and
both assert that it is accepted.  A `ReadBlock` comes with what the server's
buffer has before it reads the strip file.  Everything else is as in
`PFSClient` and `World`.
-/

namespace PFS

open Lib

variable {Peer : Type} [DecidableEq Peer]

namespace Striped

/-- `flush`. -/
def flush (c : PFSClient) (cluster : Cluster) (block : CacheBlock) : Option Cluster :=
  if block.clean then none
  else do
    let file ← c.openedFiles.find? (fun file => file.descriptor = block.fdes)
    let disk ← (cluster.serverFor file.stripWidth block.addr).writeBlock cluster.disk file.name block.addr block.data
      (fun i => if block.dirty i then 1 else 0)
    some { cluster with disk := disk }

def flushed (c : PFSClient) (cluster : Cluster) : Option CacheBlock → Option Cluster
  | none => some cluster
  | some block => flush c cluster block

/-- `getBlockFromFileServer`. -/
def getBlockFromFileServer (c : PFSClient) (cluster : Cluster) (fileIndex blockAddr : Nat) (buffer : Nat → UInt8) :
    Option (Nat → UInt8) := do
  let file ← c.openedFiles[fileIndex]?
  (cluster.serverFor file.stripWidth blockAddr).readBlock cluster.disk file.name blockAddr buffer

/-- What the loops do when a block is not in the cache. -/
def fetchBlock (c : PFSClient) (cluster : Cluster) (i filedes blockAddr : Nat) (buffer : Nat → UInt8) (cache : Cache) :
    Option (Cache × (Nat → UInt8)) := do
  let cacheData ← getBlockFromFileServer c cluster i blockAddr buffer
  (cache.addBlock filedes blockAddr cacheData).map fun cache => (cache, cacheData)

/-- The loop of `readFile`. -/
def readLoop (c : PFSClient) (cluster : Cluster) (i filedes : Nat) (buffers : Nat → Nat → UInt8) :
    List (Nat × Nat) → Cache → (Nat → UInt8) → Option (Cache × (Nat → UInt8))
  | [], cache, buffer => some (cache, buffer)
  | (offset, actualSize) :: rest, cache, buffer => do
      let (cache, cacheData) ←
        match cache.readBlock filedes (blockOf offset) with
        | (cache, some cacheData) => some (cache, cacheData)
        | (cache, none) => fetchBlock c cluster i filedes (blockOf offset) (buffers (blockOf offset)) cache
      readLoop c cluster i filedes buffers rest cache fun b =>
        if offset ≤ b ∧ b < offset + actualSize then cacheData (b - blockOf offset) else buffer b

/-- The loop of `writeFile`. -/
def writeLoop (c : PFSClient) (cluster : Cluster) (i filedes : Nat) (buffers : Nat → Nat → UInt8) (data : Nat → UInt8) :
    List (Nat × Nat) → Cache → Option Cache
  | [], cache => some cache
  | (offset, actualSize) :: rest, cache => do
      let cache ←
        match cache.write filedes offset actualSize (fun i => data (offset + i)) with
        | (cache, true) => some cache
        | (cache, false) =>
            (fetchBlock c cluster i filedes (blockOf offset) (buffers (blockOf offset)) cache).map fun r =>
              (r.1.write filedes offset actualSize (fun i => data (offset + i))).1
      writeLoop c cluster i filedes buffers data rest cache

def evictBlocks (c : PFSClient) (filedes : Nat) : List Nat → Cache → Cluster → Option (Cache × Cluster)
  | [], cache, cluster => some (cache, cluster)
  | blockAddr :: rest, cache, cluster => do
      let (cache, block) := cache.evictBlock filedes blockAddr
      let cluster ← flushed c cluster block
      evictBlocks c filedes rest cache cluster

def revokePermission (c : PFSClient) (cluster : Cluster) (filename : String) (start stop : Nat) :
    Option (PFSClient × Cluster) :=
  match c.openedFiles.findIdx? (fun file => file.name = filename) with
  | none => some (c, cluster)
  | some i => do
      let file ← c.openedFiles[i]?
      if file.permissions.any (fun p => p.isShared start stop && p.locked) then none
      else
        let (cache, cluster) ← evictBlocks c file.descriptor (blocksFrom start stop) c.cache cluster
        some ({ c with cache := cache }.setFile i
          { file with permissions := PFS.revokePermission start stop file.permissions }, cluster)

def readBytes (c : PFSClient) (cluster : Cluster) (i filedes offset nbyte : Nat) (buffers : Nat → Nat → UInt8) :
    Option (PFSClient × (Nat → UInt8)) := do
  let (cache, buffer) ← readLoop c cluster i filedes buffers (pieces offset nbyte) c.cache (fun _ => 0)
  let file ← c.openedFiles[i]?
  some ({ c with cache := cache }.setFile i
    { file with permissions := PFSClient.unlockPermission offset (offset + nbyte) file.permissions }, buffer)

def writeBytes (c : PFSClient) (cluster : Cluster) (i filedes offset nbyte : Nat) (buffers : Nat → Nat → UInt8)
    (data : Nat → UInt8) : Option PFSClient := do
  let cache ← writeLoop c cluster i filedes buffers (fun b => data (b - offset)) (pieces offset nbyte) c.cache
  let file ← c.openedFiles[i]?
  some ({ c with cache := cache }.setFile i
    { file with
      hasModified := true
      size := max file.size ((offset + nbyte) % uint32Size)
      permissions := PFSClient.unlockPermission offset (offset + nbyte) file.permissions })

/-- The evictions of `closeFile`. -/
def evictTokens (c : PFSClient) (filedes : Nat) : List Permission → Cache → Cluster → Option (Cache × Cluster)
  | [], cache, cluster => some (cache, cluster)
  | p :: rest, cache, cluster => do
      let (cache, cluster) ← evictBlocks c filedes (blocksFrom p.start p.stop) cache cluster
      evictTokens c filedes rest cache cluster

end Striped

/-- The manager's record of a file, the clients and the file servers. -/
structure Stack (Peer : Type) where
  manager : MMFile Peer
  clients : Peer → PFSClient := fun _ => {}
  cluster : Cluster

namespace Stack

def setClient (s : Stack Peer) (peer : Peer) (c : PFSClient) : Stack Peer :=
  { s with clients := Function.update s.clients peer c }

def openFile (s : Stack Peer) (peer : Peer) : Stack Peer × Option Nat :=
  match s.manager.open peer with
  | (_, false) => (s, none)
  | (manager, true) =>
      let c := s.clients peer
      let file : ClientFile :=
        { descriptor := c.descriptorCount + 1
          name := s.manager.name
          creationTime := s.manager.creationTime
          lastModifiedTime := s.manager.lastModifiedTime
          size := s.manager.size
          stripWidth := s.manager.stripWidth }
      (setClient { s with manager := manager } peer
        { c with openedFiles := c.openedFiles ++ [file], descriptorCount := c.descriptorCount + 1 },
      some file.descriptor)

def revokeAll (start stop : Nat) : List Peer → Stack Peer → Option (Stack Peer)
  | [], s => some s
  | peer :: rest, s => do
      let (c, cluster) ← Striped.revokePermission (s.clients peer) s.cluster s.manager.name start stop
      revokeAll start stop rest (setClient { s with cluster := cluster } peer c)

def getPermission (s : Stack Peer) (peer : Peer) (start stop : Nat) (iswrite : Bool) (order : List Peer) :
    Option (Stack Peer × Option (Nat × Nat)) :=
  if s.manager.isOpenedBy peer then do
    let (manager, grant) ← s.manager.waitAndGetPermissionFor peer start stop iswrite
    if order.Perm grant.revoked then
      let s ← revokeAll start stop order { s with manager := manager }
      some (s, some (grant.start, grant.stop))
    else none
  else some (s, none)

def acquirePermission (s : Stack Peer) (peer : Peer) (filedes start stop : Nat) (write : Bool) (order : List Peer) :
    Option (Stack Peer × Option Nat) :=
  match (s.clients peer).foundAt filedes with
  | none => some (s, none)
  | some i => do
      let file ← (s.clients peer).openedFiles[i]?
      if hasPermission start stop write file.permissions then some (s, some i)
      else do
        let (s, reply) ← s.getPermission peer start stop write order
        match reply with
        | none => some (s, none)
        | some (grantStart, grantStop) => do
            let file ← (s.clients peer).openedFiles[i]?
            let permissions ← addPermission grantStart grantStop write file.permissions true
            some (s.setClient peer ((s.clients peer).setFile i { file with permissions := permissions }), some i)

def readFile (s : Stack Peer) (peer : Peer) (filedes offset nbyte : Nat) (buffers : Nat → Nat → UInt8)
    (order : List Peer) : Option (Stack Peer × Option (Nat → UInt8)) := do
  let (s, acquired) ← s.acquirePermission peer filedes offset (offset + nbyte) false order
  match acquired with
  | none => some (s, none)
  | some i => do
      let (c, buffer) ← Striped.readBytes (s.clients peer) s.cluster i filedes offset nbyte buffers
      some (s.setClient peer c, some (fun k => buffer (offset + k)))

def writeFile (s : Stack Peer) (peer : Peer) (filedes offset nbyte : Nat) (buffers : Nat → Nat → UInt8)
    (data : Nat → UInt8) (order : List Peer) : Option (Stack Peer × Bool) := do
  let (s, acquired) ← s.acquirePermission peer filedes offset (offset + nbyte) true order
  match acquired with
  | none => some (s, false)
  | some i => do
      let c ← Striped.writeBytes (s.clients peer) s.cluster i filedes offset nbyte buffers data
      some (s.setClient peer c, true)

/-- `closeFile`, with the index kept in a `bool`. -/
def closeFile (s : Stack Peer) (peer : Peer) (filedes now : Nat) : Option (Stack Peer) := do
  let c := s.clients peer
  let foundAt := if c.foundAt filedes = some 0 then 0 else 1
  let file ← c.openedFiles[foundAt]?
  let (cache, cluster) ← Striped.evictTokens c file.descriptor file.permissions c.cache s.cluster
  let c := { c with cache := cache }
  let manager :=
    if file.hasModified then
      { s.manager with lastModifiedTime := now, size := max file.size s.manager.size }
    else s.manager
  match manager.close peer with
  | (manager, true) =>
      some (setClient { s with manager := manager, cluster := cluster } peer
        { c with openedFiles := c.openedFiles.eraseIdx foundAt })
  | (manager, false) => some (setClient { s with manager := manager, cluster := cluster } peer c)

/-- An iteration of a client's flusher. -/
def flush (s : Stack Peer) (peer : Peer) : Option (Stack Peer) := do
  let c := s.clients peer
  let (cache, block) := c.cache.flushIteration
  let cluster ← Striped.flushed c s.cluster block
  some (setClient { s with cluster := cluster } peer { c with cache := cache })

/-- An iteration of a client's harvester. -/
def harvest (s : Stack Peer) (peer : Peer) : Option (Stack Peer) := do
  let c := s.clients peer
  let (cache, block) ← c.cache.harvestIteration
  let cluster ← Striped.flushed c s.cluster block
  some (setClient { s with cluster := cluster } peer { c with cache := cache })

/-- A step as in `World`, with what the servers' buffers have for the blocks it fetches. -/
def exec (s : Stack Peer) (call : World.Call Peer) (buffers : Nat → Nat → UInt8) : Option (Stack Peer) :=
  match call with
  | .openFile peer => some (s.openFile peer).1
  | .readFile peer filedes offset nbyte order => (s.readFile peer filedes offset nbyte buffers order).map Prod.fst
  | .writeFile peer filedes offset nbyte data order =>
      (s.writeFile peer filedes offset nbyte buffers data order).map Prod.fst
  | .closeFile peer filedes now => s.closeFile peer filedes now
  | .flush peer => s.flush peer
  | .harvest peer => s.harvest peer

/-- A request to the file servers that has nothing to do with the file. -/
def serve (s : Stack Peer) (request : StoreRequest) : Option (Stack Peer) :=
  (StripedStore.exec ⟨s.cluster, fun _ _ => none⟩ request).map fun r => { s with cluster := r.1.cluster }

end Stack

/-! ## Bytes in strips and bytes in one array -/

section Simulation

variable {name : String} {width : Nat} {unwritten : Nat → UInt8} {cluster : Cluster} {bytes : FileBytes}

/-- The servers have the bytes of a file; those that have never been written do not
    matter. -/
def Backs (name : String) (width : Nat) (unwritten : Nat → UInt8) (cluster : Cluster) (bytes : FileBytes) : Prop :=
  ∃ flat, StripedStore.Inv ⟨cluster, flat⟩ ∧ cluster.widths name = some width ∧
    ∀ b, flat name b = some (bytes b) ∨ (flat name b = none ∧ bytes b = unwritten b)

/-- `WriteBlock` of a block to the servers and to the array. -/
theorem Backs.writeBlock (h : Backs name width unwritten cluster bytes) {b b' : CacheBlock} (alike : b.Like unwritten b') :
    ∃ disk, (cluster.serverFor width b.addr).writeBlock cluster.disk name b.addr b.data
        (fun i => if b.dirty i then 1 else 0) = some disk ∧
      Backs name width unwritten { cluster with disk := disk } (PFS.writeBlock bytes b') := by
  obtain ⟨flat, inv, known, stored⟩ := h
  have allowed : StripedStore.allowed ⟨cluster, flat⟩
      (.writeBlock name b.addr b.data (fun i => if b.dirty i then 1 else 0)) :=
    ⟨by rw [known]; rfl, alike.addr ▸ alike.fetchable⟩
  obtain ⟨s', ran, inv'⟩ := inv.writeBlock allowed
  simp only [StripedStore.exec, known, Option.bind_eq_bind, Option.bind_some] at ran
  obtain ⟨disk, written, result⟩ := Option.bind_eq_some_iff.mp ran
  obtain ⟨rfl, -⟩ := Prod.mk.inj (Option.some.inj result)
  refine ⟨disk, written, _, inv', known, fun a => ?_⟩
  simp only [Function.update_self, PFS.writeBlock, alike.addr, alike.dirty]
  by_cases inside : b'.addr ≤ a ∧ a < b'.addr + pfsBlockSizeInBytes
  · cases isDirty : b'.dirty (a - b'.addr) with
    | false =>
        simp only [inside, Bool.false_eq_true, if_false, ne_eq, not_true_eq_false, and_false]
        exact stored a
    | true =>
        left
        have same : b.data (a - b'.addr) = b'.data (a - b'.addr) := by
          rcases alike.data (a - b'.addr) (by omega) with same | ⟨clean, -⟩
          · exact same
          · rw [isDirty] at clean
            cases clean
        simp only [inside, if_true, same, and_self]
        rw [if_pos]
        exact ⟨trivial, trivial, by decide⟩
  · rw [if_neg (fun range => inside ⟨range.1, range.2.1⟩), if_neg (fun range => inside ⟨range.1, range.2.1⟩)]
    exact stored a

/-- `ReadBlock` from the servers and from the array. -/
theorem Backs.readBlock (h : Backs name width unwritten cluster bytes) {blockAddr : Nat} (fetchable : Fetchable blockAddr)
    (buffer : Nat → UInt8) :
    ∃ data, (cluster.serverFor width blockAddr).readBlock cluster.disk name blockAddr buffer = some data ∧
      DataLike unwritten blockAddr data (PFSClient.getBlockFromFileServer bytes blockAddr) := by
  obtain ⟨flat, inv, known, stored⟩ := h
  have inside := StripedStore.Inv.block_inside fetchable.1
  obtain ⟨located, content, onDisk⟩ := inv.locate known inside fetchable.2
  dsimp only at located onDisk
  simp only [FileServer.readBlock, located, onDisk, Option.bind_eq_bind, Option.bind_some]
  refine ⟨_, rfl, fun i less => ?_⟩
  rcases stored (blockAddr + i) with written | ⟨-, untouched⟩
  · exact .inl (inv.fread_at known onDisk (by omega) written)
  · exact .inr untouched

/-! ## The client's functions -/

variable {c c' : PFSClient} {cache cache' : Cache}

/-- The files of a client are the file the manager has. -/
def Names (name : String) (width : Nat) (c : PFSClient) : Prop :=
  ∀ file ∈ c.openedFiles, file.name = name ∧ file.stripWidth = width

namespace Striped

theorem flush_like (files : c'.openedFiles = c.openedFiles) (names : Names name width c)
    (h : Backs name width unwritten cluster bytes) {b b' : CacheBlock} (alike : b.Like unwritten b')
    (unclean : b'.clean = false) : Option.Rel (Backs name width unwritten) (flush c cluster b) (c'.flush b' bytes) := by
  have dirty : b.clean = false := alike.clean.trans unclean
  simp only [flush, dirty, Bool.false_eq_true, if_false, PFSClient.flush, alike.fdes, files]
  cases found : c.openedFiles.find? (fun file => file.descriptor = b'.fdes) with
  | none =>
      have absent : ¬ c.openedFiles.any (fun file => file.descriptor = b'.fdes) = true := by
        rw [List.any_eq_true]
        rintro ⟨file, member, is⟩
        exact List.find?_eq_none.mp found file member is
      rw [if_neg absent]
      exact .none
  | some file =>
      have member := List.mem_of_find?_eq_some found
      have present : c.openedFiles.any (fun file => file.descriptor = b'.fdes) = true :=
        by
        have is := List.find?_some found
        exact List.any_eq_true.mpr ⟨file, member, is⟩
      obtain ⟨named, wide⟩ := names file member
      obtain ⟨disk, written, backs⟩ := h.writeBlock alike
      rw [if_pos present]
      simp only [Option.bind_eq_bind, Option.bind_some, named, wide, written]
      exact .some backs

theorem flushed_like (files : c'.openedFiles = c.openedFiles) (names : Names name width c)
    (h : Backs name width unwritten cluster bytes) {block block' : Option CacheBlock}
    (alike : FlushLike unwritten block block') :
    Option.Rel (Backs name width unwritten) (flushed c cluster block) (c'.flushed bytes block') := by
  cases alike with
  | none => exact .some h
  | some both => exact flush_like files names h both.1 both.2

theorem getBlockFromFileServer_like (names : Names name width c) (h : Backs name width unwritten cluster bytes) {i : Nat}
    {file : ClientFile} (at_i : c.openedFiles[i]? = some file) {blockAddr : Nat} (fetchable : Fetchable blockAddr)
    (buffer : Nat → UInt8) :
    ∃ data, getBlockFromFileServer c cluster i blockAddr buffer = some data ∧
      DataLike unwritten blockAddr data (PFSClient.getBlockFromFileServer bytes blockAddr) := by
  obtain ⟨named, wide⟩ := names file (List.mem_of_getElem? at_i)
  simp only [getBlockFromFileServer, at_i, Option.bind_eq_bind, Option.bind_some, named, wide]
  exact h.readBlock fetchable buffer

theorem fetchBlock_like (names : Names name width c) (h : Backs name width unwritten cluster bytes) {i : Nat}
    {file : ClientFile} (at_i : c.openedFiles[i]? = some file) {blockAddr : Nat} (fetchable : Fetchable blockAddr)
    (filedes : Nat) (buffer : Nat → UInt8) (alike : cache.Like unwritten cache') :
    Option.Rel (fun r cache' => r.1.Like unwritten cache' ∧
        DataLike unwritten blockAddr r.2 (PFSClient.getBlockFromFileServer bytes blockAddr))
      (fetchBlock c cluster i filedes blockAddr buffer cache)
      (cache'.addBlock filedes blockAddr (PFSClient.getBlockFromFileServer bytes blockAddr)) := by
  obtain ⟨data, got, same⟩ := getBlockFromFileServer_like names h at_i fetchable buffer
  rw [fetchBlock, got]
  exact rel_map_left (alike.addBlock fetchable same) fun _ _ alike => ⟨alike, same⟩

theorem readLoop_cons (i filedes : Nat) (buffers : Nat → Nat → UInt8) (offset size : Nat) (rest : List (Nat × Nat))
    (buffer : Nat → UInt8) :
    readLoop c cluster i filedes buffers ((offset, size) :: rest) cache buffer =
      (match cache.readBlock filedes (blockOf offset) with
        | (cache, some cacheData) => some (cache, cacheData)
        | (cache, none) => fetchBlock c cluster i filedes (blockOf offset) (buffers (blockOf offset)) cache).bind fun r =>
        readLoop c cluster i filedes buffers rest r.1 fun b =>
          if offset ≤ b ∧ b < offset + size then r.2 (b - blockOf offset) else buffer b := by
  rw [readLoop]
  rcases cache.readBlock filedes (blockOf offset) with ⟨cache, _ | cacheData⟩
  · rfl
  · rfl

/-- What the loop of a read has read. -/
def BufferLike (unwritten : Nat → UInt8) (buffer buffer' : Nat → UInt8) : Prop :=
  ∀ b, buffer b = buffer' b ∨ buffer' b = unwritten b

theorem readLoop_like (names : Names name width c) (h : Backs name width unwritten cluster bytes) {i filedes : Nat}
    {file : ClientFile} (at_i : c.openedFiles[i]? = some file) {buffers : Nat → Nat → UInt8} {ps : List (Nat × Nat)}
    (one : ∀ piece ∈ ps, PFSClient.OneBlock piece) (fetchable : ∀ piece ∈ ps, Fetchable (blockOf piece.1))
    (alike : cache.Like unwritten cache') {buffer buffer' : Nat → UInt8} (same : BufferLike unwritten buffer buffer') :
    Option.Rel (fun r r' => r.1.Like unwritten r'.1 ∧ BufferLike unwritten r.2 r'.2)
      (readLoop c cluster i filedes buffers ps cache buffer) (PFSClient.readLoop filedes bytes ps cache' buffer') := by
  induction ps generalizing cache cache' buffer buffer' with
  | nil => exact .some ⟨alike, same⟩
  | cons piece rest ih =>
      obtain ⟨offset, size⟩ := piece
      have fits := one (offset, size) List.mem_cons_self
      have here := fetchable (offset, size) List.mem_cons_self
      rw [PFSClient.readLoop_cons, readLoop_cons]
      refine rel_bind (r := fun r r' => r.1.Like unwritten r'.1 ∧ DataLike unwritten (blockOf offset) r.2 r'.2) ?_ ?_
      · obtain ⟨alikes, hit⟩ := alike.readBlock filedes (blockOf offset)
        generalize cache.readBlock filedes (blockOf offset) = first at alikes hit ⊢
        generalize cache'.readBlock filedes (blockOf offset) = first' at alikes hit ⊢
        obtain ⟨cache₁, found⟩ := first
        obtain ⟨cache₁', found'⟩ := first'
        cases hit with
        | some data => exact .some ⟨alikes, data⟩
        | none =>
            exact rel_map_right (fetchBlock_like names h at_i here filedes (buffers (blockOf offset)) alikes)
              fun _ _ both => both
      · rintro ⟨cache, cacheData⟩ ⟨cache', cacheData'⟩ ⟨alike, data⟩
        refine ih (fun piece member => one piece (List.mem_cons_of_mem _ member))
          (fun piece member => fetchable piece (List.mem_cons_of_mem _ member)) alike fun b => ?_
        by_cases inside : offset ≤ b ∧ b < offset + size
        · simp only [if_pos inside]
          have small : b - blockOf offset < pfsBlockSizeInBytes ∧ blockOf offset + (b - blockOf offset) = b := by
            simp only [PFSClient.OneBlock, blockOf, pfsBlockSizeInBytes] at *
            omega
          have byte := data (b - blockOf offset) small.1
          rw [small.2] at byte
          exact byte
        · simp only [if_neg inside]
          exact same b

theorem writeLoop_cons (i filedes : Nat) (buffers : Nat → Nat → UInt8) (data : Nat → UInt8) (offset size : Nat)
    (rest : List (Nat × Nat)) :
    writeLoop c cluster i filedes buffers data ((offset, size) :: rest) cache =
      (match cache.write filedes offset size (fun i => data (offset + i)) with
        | (cache, true) => some cache
        | (cache, false) =>
            (fetchBlock c cluster i filedes (blockOf offset) (buffers (blockOf offset)) cache).map
              fun (r : Cache × (Nat → UInt8)) => (r.1.write filedes offset size (fun i => data (offset + i))).1).bind fun cache =>
        writeLoop c cluster i filedes buffers data rest cache := by
  rw [writeLoop]
  rcases cache.write filedes offset size (fun i => data (offset + i)) with ⟨cache, _ | _⟩
  · rfl
  · rfl

theorem writeLoop_like (names : Names name width c) (h : Backs name width unwritten cluster bytes) {i filedes : Nat}
    {file : ClientFile} (at_i : c.openedFiles[i]? = some file) {buffers : Nat → Nat → UInt8} {data : Nat → UInt8}
    {ps : List (Nat × Nat)} (fetchable : ∀ piece ∈ ps, Fetchable (blockOf piece.1)) (alike : cache.Like unwritten cache') :
    Option.Rel (Cache.Like unwritten) (writeLoop c cluster i filedes buffers data ps cache)
      (PFSClient.writeLoop filedes bytes data ps cache') := by
  induction ps generalizing cache cache' with
  | nil => exact .some alike
  | cons piece rest ih =>
      obtain ⟨offset, size⟩ := piece
      have here := fetchable (offset, size) List.mem_cons_self
      rw [PFSClient.writeLoop_cons, writeLoop_cons]
      refine rel_bind (r := Cache.Like unwritten) ?_ fun _ _ alike₁ =>
        ih (fun piece member => fetchable piece (List.mem_cons_of_mem _ member)) alike₁
      obtain ⟨alikes, hit⟩ := alike.write filedes offset size (fun i => data (offset + i))
      generalize cache.write filedes offset size (fun i => data (offset + i)) = first at alikes hit ⊢
      generalize cache'.write filedes offset size (fun i => data (offset + i)) = first' at alikes hit ⊢
      obtain ⟨cache₁, found⟩ := first
      obtain ⟨cache₁', found'⟩ := first'
      obtain rfl : found = found' := hit
      cases found with
      | true => exact .some alikes
      | false =>
          exact rel_map (fetchBlock_like names h at_i here filedes (buffers (blockOf offset)) alikes)
            fun _ _ both => (both.1.write filedes offset size fun i => data (offset + i)).1

/-- What the evictions leave of the cache and of the file. -/
def StoreLike (name : String) (width : Nat) (unwritten : Nat → UInt8) (r : Cache × Cluster) (r' : Cache × FileBytes) :
    Prop := r.1.Like unwritten r'.1 ∧ Backs name width unwritten r.2 r'.2

theorem evictBlocks_like (files : c'.openedFiles = c.openedFiles) (names : Names name width c)
    (h : Backs name width unwritten cluster bytes) (alike : cache.Like unwritten cache') (filedes : Nat)
    (blocks : List Nat) :
    Option.Rel (StoreLike name width unwritten) (evictBlocks c filedes blocks cache cluster)
      (c'.evictBlocks filedes blocks cache' bytes) := by
  induction blocks generalizing cache cache' cluster bytes with
  | nil => exact .some ⟨alike, h⟩
  | cons blockAddr rest ih =>
      obtain ⟨alike₁, flushes⟩ := alike.evictBlock filedes blockAddr
      exact rel_bind (flushed_like files names h flushes) fun cluster₁ bytes₁ h₁ => ih h₁ alike₁

theorem evictTokens_like (files : c'.openedFiles = c.openedFiles) (names : Names name width c)
    (h : Backs name width unwritten cluster bytes) (alike : cache.Like unwritten cache') (filedes : Nat)
    (tokens : List Permission) :
    Option.Rel (StoreLike name width unwritten) (evictTokens c filedes tokens cache cluster)
      (World.evictTokens c' filedes tokens cache' bytes) := by
  induction tokens generalizing cache cache' cluster bytes with
  | nil => exact .some ⟨alike, h⟩
  | cons p rest ih =>
      refine rel_bind (evictBlocks_like files names h alike filedes (blocksFrom p.start p.stop)) ?_
      rintro ⟨cache₁, cluster₁⟩ ⟨cache₁', bytes₁⟩ ⟨alike₁, h₁⟩
      exact ih h₁ alike₁

/-- A client of the file with another cache. -/
def ClientLike (name : String) (width : Nat) (unwritten : Nat → UInt8) (c c' : PFSClient) : Prop :=
  Names name width c' ∧ ∃ cache, c = { c' with cache := cache } ∧ cache.Like unwritten c'.cache

theorem names_setFile (names : Names name width c) {i : Nat} {file file' : ClientFile} (at_i : c.openedFiles[i]? = some file)
    (same : file'.name = file.name ∧ file'.stripWidth = file.stripWidth) : Names name width (c.setFile i file') := by
  intro f member
  rcases List.mem_or_eq_of_mem_set member with old | rfl
  · exact names f old
  · rw [same.1, same.2]
    exact names file (List.mem_of_getElem? at_i)

theorem revokePermission_like (h : Backs name width unwritten cluster bytes)
    (alike : ClientLike name width unwritten c c') (filename : String) (start stop : Nat) :
    Option.Rel (fun r r' => ClientLike name width unwritten r.1 r'.1 ∧ Backs name width unwritten r.2 r'.2)
      (revokePermission c cluster filename start stop) (c'.revokePermission bytes filename start stop) := by
  obtain ⟨names, cache, rfl, alike⟩ := alike
  have files : c'.openedFiles = ({ c' with cache := cache } : PFSClient).openedFiles := rfl
  simp only [revokePermission, PFSClient.revokePermission]
  cases c'.openedFiles.findIdx? (fun file => file.name = filename) with
  | none => exact .some ⟨⟨names, cache, rfl, alike⟩, h⟩
  | some i =>
      refine rel_bind (rel_self (p := fun a b => a = b ∧ c'.openedFiles[i]? = some a) fun _ at_i => ⟨rfl, at_i⟩) ?_
      rintro file _ ⟨rfl, at_i⟩
      split
      · exact .none
      · refine rel_bind (evictBlocks_like files names h alike file.descriptor (blocksFrom start stop)) ?_
        rintro ⟨cache₁, cluster₁⟩ ⟨cache₁', bytes₁⟩ ⟨alike₁, h₁⟩
        exact .some ⟨⟨names_setFile (c := { c' with cache := cache₁' }) names at_i ⟨rfl, rfl⟩, cache₁, rfl, alike₁⟩, h₁⟩

theorem pieces_fetchable {offset nbyte : Nat} (small : offset + nbyte + stripBytes ≤ intMax) :
    ∀ piece ∈ pieces offset nbyte, Fetchable (blockOf piece.1) := by
  intro piece member
  have less : piece.1 < offset + nbyte := (PFSClient.piece_inside piece member).2
  constructor
  · simp only [blockOf, pfsBlockSizeInBytes]
    omega
  · simp only [blockOf, pfsBlockSizeInBytes]
    omega

theorem readBytes_like (h : Backs name width unwritten cluster bytes) (alike : ClientLike name width unwritten c c')
    {i : Nat} {file : ClientFile} (at_i : c'.openedFiles[i]? = some file) {offset nbyte : Nat}
    (small : offset + nbyte + stripBytes ≤ intMax) (filedes : Nat) (buffers : Nat → Nat → UInt8) :
    Option.Rel (fun r r' => ClientLike name width unwritten r.1 r'.1 ∧ BufferLike unwritten r.2 r'.2)
      (readBytes c cluster i filedes offset nbyte buffers) (c'.readBytes bytes i filedes offset nbyte) := by
  obtain ⟨names, cache, rfl, alike⟩ := alike
  refine rel_bind (readLoop_like (c := { c' with cache := cache }) names h at_i
    (PFSClient.pieces_oneBlock offset nbyte) (pieces_fetchable small) alike fun _ => .inl rfl) ?_
  rintro ⟨cache₁, buffer⟩ ⟨cache₁', buffer'⟩ ⟨alike₁, same⟩
  dsimp only
  rw [at_i]
  exact .some ⟨⟨names_setFile (c := { c' with cache := cache₁' }) names at_i ⟨rfl, rfl⟩, cache₁, rfl, alike₁⟩, same⟩

theorem writeBytes_like (h : Backs name width unwritten cluster bytes) (alike : ClientLike name width unwritten c c')
    {i : Nat} {file : ClientFile} (at_i : c'.openedFiles[i]? = some file) {offset nbyte : Nat}
    (small : offset + nbyte + stripBytes ≤ intMax) (filedes : Nat) (buffers : Nat → Nat → UInt8) (data : Nat → UInt8) :
    Option.Rel (ClientLike name width unwritten) (writeBytes c cluster i filedes offset nbyte buffers data)
      (c'.writeBytes bytes i filedes offset nbyte data) := by
  obtain ⟨names, cache, rfl, alike⟩ := alike
  refine rel_bind (writeLoop_like (c := { c' with cache := cache }) names h at_i (pieces_fetchable small) alike) ?_
  intro cache₁ cache₁' alike₁
  dsimp only
  rw [at_i]
  exact .some ⟨names_setFile (c := { c' with cache := cache₁' }) names at_i ⟨rfl, rfl⟩, cache₁, rfl, alike₁⟩

end Striped

end Simulation

/-! ## The calls -/

namespace Stack

open Striped

variable {unwritten : Nat → UInt8} {s : Stack Peer} {w : World Peer}

/-- The system with one array of bytes does what the one with the strips does. -/
structure Shows (unwritten : Nat → UInt8) (s : Stack Peer) (w : World Peer) : Prop where
  manager : s.manager = w.manager
  clients : ∀ q, ClientLike w.manager.name w.manager.stripWidth unwritten (s.clients q) (w.clients q)
  backs : Backs w.manager.name w.manager.stripWidth unwritten s.cluster w.bytes

theorem Shows.setClient (h : Shows unwritten s w) {peer : Peer} {c c' : PFSClient}
    (alike : ClientLike w.manager.name w.manager.stripWidth unwritten c c') :
    Shows unwritten (s.setClient peer c) (w.setClient peer c') where
  manager := h.manager
  clients q := by
    by_cases same : q = peer
    · subst same
      simp only [Stack.setClient, World.setClient, Function.update_self]
      exact alike
    · simp only [Stack.setClient, World.setClient, Function.update_of_ne same]
      exact h.clients q
  backs := h.backs

omit [DecidableEq Peer] in
/-- The manager's record changes, but for its name and width. -/
theorem Shows.setManager (h : Shows unwritten s w) (manager : MMFile Peer)
    (same : manager.name = w.manager.name ∧ manager.stripWidth = w.manager.stripWidth) :
    Shows unwritten { s with manager := manager } { w with manager := manager } where
  manager := rfl
  clients := by
    simp only [same.1, same.2]
    exact h.clients
  backs := by
    simp only [same.1, same.2]
    exact h.backs

omit [DecidableEq Peer] in
theorem Shows.setStore (h : Shows unwritten s w) {cluster : Cluster} {bytes : FileBytes}
    (backs : Backs w.manager.name w.manager.stripWidth unwritten cluster bytes) :
    Shows unwritten { s with cluster := cluster } { w with bytes := bytes } where
  manager := h.manager
  clients := h.clients
  backs := backs

theorem Shows.openFile (h : Shows unwritten s w) (peer : Peer) :
    Shows unwritten (s.openFile peer).1 (w.openFile peer).1 := by
  obtain ⟨manager, clients, cluster⟩ := s
  obtain rfl : manager = w.manager := h.manager
  simp only [Stack.openFile, World.openFile, MMFile.open]
  by_cases opened : w.manager.isOpenedBy peer = true
  · simp only [if_pos opened]
    exact h
  · simp only [if_neg opened]
    obtain ⟨names, cache, same, alike⟩ := h.clients peer
    refine (h.setManager { w.manager with clientPermissions := w.manager.clientPermissions.insert peer [] }
      ⟨rfl, rfl⟩).setClient ?_
    dsimp only at same ⊢
    rw [same]
    refine ⟨?_, cache, rfl, alike⟩
    intro file member
    rcases List.mem_append.mp member with old | new
    · exact names file old
    · obtain rfl := List.mem_singleton.mp new
      exact ⟨rfl, rfl⟩

theorem Shows.revokeAll (h : Shows unwritten s w) (start stop : Nat) (order : List Peer) :
    Option.Rel (Shows unwritten) (revokeAll start stop order s) (World.revokeAll start stop order w) := by
  induction order generalizing s w with
  | nil => exact .some h
  | cons peer rest ih =>
      obtain ⟨manager, clients, cluster⟩ := s
      obtain rfl : manager = w.manager := h.manager
      refine rel_bind (revokePermission_like h.backs (h.clients peer) w.manager.name start stop) ?_
      rintro ⟨c, cluster⟩ ⟨c', bytes⟩ ⟨alike, backs⟩
      exact ih ((h.setStore backs).setClient alike)

theorem keeps_names {f f' : MMFile Peer} {peer : Peer} {start stop : Nat} {iswrite : Bool}
    {grant : Grant Peer} (asked : f.waitAndGetPermissionFor peer start stop iswrite = some (f', grant)) :
    f'.name = f.name ∧ f'.stripWidth = f.stripWidth := by
  refine ⟨MMFile.waitAndGetPermissionFor_name asked, ?_⟩
  simp only [MMFile.waitAndGetPermissionFor, Option.bind_eq_bind, Option.bind_eq_some_iff, Option.some.injEq,
    Prod.mk.injEq] at asked
  obtain ⟨_, -, _, -, rfl, -⟩ := asked
  rfl

theorem Shows.getPermission (h : Shows unwritten s w) (peer : Peer) (start stop : Nat) (iswrite : Bool)
    (order : List Peer) :
    Option.Rel (fun r r' => Shows unwritten r.1 r'.1 ∧ r.2 = r'.2) (s.getPermission peer start stop iswrite order)
      (w.getPermission peer start stop iswrite order) := by
  obtain ⟨manager, clients, cluster⟩ := s
  obtain rfl : manager = w.manager := h.manager
  simp only [Stack.getPermission, World.getPermission]
  split
  · refine rel_bind (rel_self (p := fun a b => a = b ∧
      a.1.name = w.manager.name ∧ a.1.stripWidth = w.manager.stripWidth) fun r asked => ⟨rfl, keeps_names asked⟩) ?_
    rintro ⟨manager, grant⟩ _ ⟨rfl, same⟩
    dsimp only
    split
    · exact rel_bind ((h.setManager manager same).revokeAll start stop order) fun _ _ shows => .some ⟨shows, rfl⟩
    · exact .none
  · exact .some ⟨h, rfl⟩

/-- `acquirePermission` leaves an open file at the index it returns. -/
theorem Shows.acquirePermission (h : Shows unwritten s w) (peer : Peer) (filedes start stop : Nat) (write : Bool)
    (order : List Peer) :
    Option.Rel (fun r r' => Shows unwritten r.1 r'.1 ∧ r.2 = r'.2 ∧
        ∀ i, r'.2 = some i → ∃ file, (r'.1.clients peer).openedFiles[i]? = some file)
      (s.acquirePermission peer filedes start stop write order)
      (w.acquirePermission peer filedes start stop write order) := by
  obtain ⟨-, cache, same, -⟩ := h.clients peer
  have files : (s.clients peer).openedFiles = (w.clients peer).openedFiles := by rw [same]
  have found : (s.clients peer).foundAt filedes = (w.clients peer).foundAt filedes := by rw [same]; rfl
  rw [Stack.acquirePermission, World.acquirePermission, found, files]
  cases (w.clients peer).foundAt filedes with
  | none =>
      refine .some ⟨h, rfl, ?_⟩
      rintro _ ⟨⟩
  | some i =>
      refine rel_bind (rel_self (p := fun a b => a = b ∧ (w.clients peer).openedFiles[i]? = some a)
        fun _ at_i => ⟨rfl, at_i⟩) ?_
      rintro file _ ⟨rfl, at_i⟩
      dsimp only
      split
      · refine .some ⟨h, rfl, ?_⟩
        rintro _ ⟨⟩
        exact ⟨file, at_i⟩
      · refine rel_bind (h.getPermission peer start stop write order) ?_
        rintro ⟨s₁, reply⟩ ⟨w₁, reply'⟩ ⟨shows, replies⟩
        obtain rfl : reply = reply' := replies
        obtain ⟨names, cache₁, same₁, alike₁⟩ := shows.clients peer
        dsimp only at names same₁ alike₁ ⊢
        cases reply with
        | none =>
            refine .some ⟨shows, rfl, ?_⟩
            rintro _ ⟨⟩
        | some range =>
            rw [same₁]
            refine rel_bind (rel_self (p := fun a b => a = b ∧ (w₁.clients peer).openedFiles[i]? = some a)
              fun _ at_i => ⟨rfl, at_i⟩) ?_
            rintro file₁ _ ⟨rfl, at_i₁⟩
            refine rel_bind (rel_self (p := Eq) fun _ _ => rfl) ?_
            rintro permissions _ rfl
            refine .some ⟨shows.setClient ⟨names_setFile names at_i₁ ⟨rfl, rfl⟩, cache₁, rfl, alike₁⟩, rfl, ?_⟩
            rintro _ ⟨⟩
            refine ⟨{ file₁ with permissions := permissions }, ?_⟩
            rw [World.setClient_self, PFSClient.setFile]
            exact List.getElem?_set_self (List.getElem?_eq_some_iff.mp at_i₁).1

theorem Shows.readFile (h : Shows unwritten s w) (peer : Peer) (filedes : Nat) {offset nbyte : Nat}
    (small : offset + nbyte + stripBytes ≤ intMax) (buffers : Nat → Nat → UInt8) (order : List Peer) :
    Option.Rel (fun r r' => Shows unwritten r.1 r'.1 ∧
        Option.Rel (fun buffer buffer' => ∀ k, buffer k = buffer' k ∨ buffer' k = unwritten (offset + k)) r.2 r'.2)
      (s.readFile peer filedes offset nbyte buffers order) (w.readFile peer filedes offset nbyte order) := by
  refine rel_bind (h.acquirePermission peer filedes offset (offset + nbyte) false order) ?_
  rintro ⟨s₁, acquired⟩ ⟨w₁, acquired'⟩ ⟨shows, replies, has⟩
  obtain rfl : acquired = acquired' := replies
  cases acquired with
  | none => exact .some ⟨shows, .none⟩
  | some i =>
      obtain ⟨file, at_i⟩ := has i rfl
      refine rel_bind (readBytes_like shows.backs (shows.clients peer) at_i small filedes buffers) ?_
      rintro ⟨c, buffer⟩ ⟨c', buffer'⟩ ⟨alike, same⟩
      exact .some ⟨shows.setClient alike, .some fun k => same (offset + k)⟩

theorem Shows.writeFile (h : Shows unwritten s w) (peer : Peer) (filedes : Nat) {offset nbyte : Nat}
    (small : offset + nbyte + stripBytes ≤ intMax) (buffers : Nat → Nat → UInt8) (data : Nat → UInt8)
    (order : List Peer) :
    Option.Rel (fun r r' => Shows unwritten r.1 r'.1 ∧ r.2 = r'.2)
      (s.writeFile peer filedes offset nbyte buffers data order) (w.writeFile peer filedes offset nbyte data order) := by
  refine rel_bind (h.acquirePermission peer filedes offset (offset + nbyte) true order) ?_
  rintro ⟨s₁, acquired⟩ ⟨w₁, acquired'⟩ ⟨shows, replies, has⟩
  obtain rfl : acquired = acquired' := replies
  cases acquired with
  | none => exact .some ⟨shows, rfl⟩
  | some i =>
      obtain ⟨file, at_i⟩ := has i rfl
      refine rel_bind (writeBytes_like shows.backs (shows.clients peer) at_i small filedes buffers data) ?_
      intro c c' alike
      exact .some ⟨shows.setClient alike, rfl⟩

theorem names_close (f : MMFile Peer) (peer : Peer) (modified : Bool) (now size : Nat) :
    (MMFile.close (if modified = true then { f with lastModifiedTime := now, size := size } else f) peer).1.name = f.name ∧
      (MMFile.close (if modified = true then { f with lastModifiedTime := now, size := size } else f) peer).1.stripWidth =
        f.stripWidth := by
  have closed : ∀ g : MMFile Peer, (g.close peer).1.name = g.name ∧ (g.close peer).1.stripWidth = g.stripWidth := by
    intro g
    unfold MMFile.close
    split
    · exact ⟨rfl, rfl⟩
    · exact ⟨rfl, rfl⟩
  cases modified with
  | true => exact closed _
  | false => exact closed f

theorem Shows.closeFile (h : Shows unwritten s w) (peer : Peer) (filedes now : Nat) :
    Option.Rel (Shows unwritten) (s.closeFile peer filedes now) (w.closeFile peer filedes now) := by
  obtain ⟨manager, clients, cluster⟩ := s
  obtain rfl : manager = w.manager := h.manager
  obtain ⟨names, cache, same, alike⟩ := h.clients peer
  dsimp only at same
  have found : (clients peer).foundAt filedes = (w.clients peer).foundAt filedes := by rw [same]; rfl
  have files : (w.clients peer).openedFiles = (clients peer).openedFiles := by rw [same]
  simp only [Stack.closeFile, World.closeFile, found]
  generalize (if (w.clients peer).foundAt filedes = some 0 then 0 else 1) = index
  rw [← files]
  refine rel_bind (rel_self (p := Eq) fun _ _ => rfl) ?_
  rintro file _ rfl
  refine rel_bind (evictTokens_like files (by rw [Names, ← files]; exact names) h.backs (by rw [same]; exact alike)
    file.descriptor file.permissions) ?_
  rintro ⟨cache₁, cluster₁⟩ ⟨cache₁', bytes₁⟩ ⟨alike₁, backs₁⟩
  have kept := names_close w.manager peer file.hasModified now (max file.size w.manager.size)
  dsimp only
  generalize MMFile.close _ peer = closed at kept ⊢
  obtain ⟨manager, result⟩ := closed
  have shows := (h.setManager manager kept).setStore (by rw [kept.1, kept.2]; exact backs₁)
  have own : ∀ files ⊆ (w.clients peer).openedFiles, ClientLike manager.name manager.stripWidth unwritten
      { clients peer with cache := cache₁, openedFiles := files }
      { w.clients peer with cache := cache₁', openedFiles := files } := by
    intro files inside
    rw [kept.1, kept.2, same]
    exact ⟨fun file member => names file (inside member), cache₁, rfl, alike₁⟩
  cases result with
  | true => exact .some (shows.setClient (own _ (List.eraseIdx_subset)))
  | false => exact .some (shows.setClient (own _ (List.Subset.refl _)))

/-- A client's flusher or harvester has done its part. -/
theorem Shows.flushed (h : Shows unwritten s w) (peer : Peer) {cache cache' : Cache} {block block' : Option CacheBlock}
    (alike : cache.Like unwritten cache') (flushes : FlushLike unwritten block block') :
    Option.Rel (Shows unwritten)
      ((Striped.flushed (s.clients peer) s.cluster block).bind fun cluster =>
        some (Stack.setClient { s with cluster := cluster } peer { s.clients peer with cache := cache }))
      (((w.clients peer).flushed w.bytes block').bind fun bytes =>
        some (World.setClient { w with bytes := bytes } peer { w.clients peer with cache := cache' })) := by
  obtain ⟨names, own, same, -⟩ := h.clients peer
  have files : (w.clients peer).openedFiles = (s.clients peer).openedFiles := by rw [same]
  refine rel_bind (flushed_like files (by rw [Names, ← files]; exact names) h.backs flushes) fun cluster bytes backs => ?_
  refine .some ((h.setStore backs).setClient ?_)
  rw [same]
  exact ⟨names, cache, rfl, alike⟩

theorem Shows.flush (h : Shows unwritten s w) {peer : Peer} (wf : (w.clients peer).cache.WF) :
    Option.Rel (Shows unwritten) (s.flush peer) (w.flush peer) := by
  obtain ⟨-, cache, same, alike⟩ := h.clients peer
  obtain ⟨alike₁, flushes⟩ := alike.flushIteration wf
  have cached : (s.clients peer).cache = cache := by rw [same]
  rw [← cached] at alike₁ flushes
  exact h.flushed peer alike₁ flushes

theorem Shows.harvest (h : Shows unwritten s w) (peer : Peer) :
    Option.Rel (Shows unwritten) (s.harvest peer) (w.harvest peer) := by
  obtain ⟨-, cache, same, alike⟩ := h.clients peer
  have cached : (s.clients peer).cache = cache := by rw [same]
  refine rel_bind (by rw [cached]; exact alike.harvestIteration) ?_
  rintro ⟨cache₁, block⟩ ⟨cache₁', block'⟩ ⟨alike₁, flushes⟩
  exact h.flushed peer alike₁ flushes

end Stack

end PFS
