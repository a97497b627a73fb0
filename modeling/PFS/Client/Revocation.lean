import PFS.Client.ManyFiles
import PFS.Levels

/-! # Serving a revocation

`PFSClient::revokePermission` with the `uint32_t` counter of its loop, and `flush`
looking the file of each block up.  A client with no call in progress answers, and
nothing of the range is left behind: no token, no cached block, no dirty byte that the
file servers do not have.
-/

namespace PFS

/-- The loop `while(blockAddr <= end)`: the addresses it passes to `evictBlock`.
    `blockAddr` wraps; one unit of fuel a test of the condition. -/
def blockWalk (stop : Nat) : Nat → Nat → Option (List Nat)
  | 0, _ => none
  | fuel + 1, blockAddr =>
      if blockAddr ≤ stop then
        (blockWalk stop fuel ((blockAddr + pfsBlockSizeInBytes) % uint32Size)).map fun rest => blockAddr :: rest
      else some []

/-- The number of values `blockAddr` has.  A loop that has not ended when they are
    used up does not end. -/
def blockAddresses : Nat := uint32Size / pfsBlockSizeInBytes

/-- Below the top of the address range the loop runs from block to block. -/
theorem blockWalk_eq {stop fuel blockAddr : Nat} (small : stop + pfsBlockSizeInBytes < uint32Size)
    (enough : (stop + pfsBlockSizeInBytes - blockAddr) / pfsBlockSizeInBytes < fuel) :
    blockWalk stop fuel blockAddr =
      some ((List.range ((stop + pfsBlockSizeInBytes - blockAddr) / pfsBlockSizeInBytes)).map fun k =>
        blockAddr + k * pfsBlockSizeInBytes) := by
  induction fuel generalizing blockAddr with
  | zero => cases enough
  | succ fuel ih =>
      rw [blockWalk]
      split
      · next here =>
          have next : (blockAddr + pfsBlockSizeInBytes) % uint32Size = blockAddr + pfsBlockSizeInBytes :=
            Nat.mod_eq_of_lt (by omega)
          have count : (stop + pfsBlockSizeInBytes - blockAddr) / pfsBlockSizeInBytes =
              (stop + pfsBlockSizeInBytes - (blockAddr + pfsBlockSizeInBytes)) / pfsBlockSizeInBytes + 1 := by
            simp only [pfsBlockSizeInBytes]
            omega
          rw [next, ih (by omega), Option.map_some, count, List.range_succ_eq_map, List.map_cons, List.map_map]
          simp only [Function.comp_def, Nat.zero_mul, Nat.add_zero, Nat.succ_mul, Nat.add_assoc, Nat.add_comm]
      · next past =>
          have none : (stop + pfsBlockSizeInBytes - blockAddr) / pfsBlockSizeInBytes = 0 := by
            simp only [pfsBlockSizeInBytes] at *
            omega
          rw [none]
          rfl

theorem blockWalk_blocksFrom {start stop : Nat} (small : stop + pfsBlockSizeInBytes < uint32Size) :
    blockWalk stop (blockAddresses + 1) (blockOf start) = some (blocksFrom start stop) := by
  apply blockWalk_eq small
  simp only [blockAddresses, uint32Size, pfsBlockSizeInBytes] at *
  omega

theorem mem_blocksFrom {start stop a : Nat} :
    a ∈ blocksFrom start stop ↔ a % pfsBlockSizeInBytes = 0 ∧ start < a + pfsBlockSizeInBytes ∧ a ≤ stop := by
  simp only [blocksFrom, List.mem_map, List.mem_range, blockOf, pfsBlockSizeInBytes]
  constructor
  · rintro ⟨k, less, rfl⟩
    omega
  · rintro ⟨aligned, low, high⟩
    exact ⟨(a - start / 1024 * 1024) / 1024, by omega, by omega⟩

namespace Revocation

/-- `evictBlock` for each of the blocks; `flush` finds the file of a block by its
    descriptor. -/
def evictEach (filedes : Nat) : List Nat → ManyFiles → Option ManyFiles
  | [], s => some s
  | blockAddr :: rest, s => do
      let (cache, block) := s.client.cache.evictBlock filedes blockAddr
      let store ← s.flushed block
      evictEach filedes rest ⟨{ s.client with cache := cache }, store⟩

/-- `PFSClient::revokePermission`. -/
def revokePermission (s : ManyFiles) (filename : String) (start stop : Nat) : Option ManyFiles :=
  match s.client.openedFiles.findIdx? (fun file => file.name = filename) with
  | none => some s
  | some i => do
      let file ← s.client.openedFiles[i]?
      if file.permissions.any (fun p => p.isShared start stop && p.locked) then none
      else
        let client := s.client.setFile i { file with permissions := PFS.revokePermission start stop file.permissions }
        let blocks ← blockWalk stop (blockAddresses + 1) (blockOf start)
        evictEach file.descriptor blocks { s with client := client }

/-- A client with no call in progress.  The blocks are aligned, as `addBlock` asserts,
    and the descriptors are numbers of a counter. -/
structure Quiet (s : ManyFiles) : Prop where
  cache : ∃ L, Rep s.client.cache L
  aligned : ∀ fd a, (s.client.cache.find fd a).isSome = true → a % pfsBlockSizeInBytes = 0
  unlocked : ∀ file ∈ s.client.openedFiles, ∀ p ∈ file.permissions, p.locked = false
  names : (s.client.openedFiles.map ClientFile.name).Nodup
  descriptors : (s.client.openedFiles.map ClientFile.descriptor).Nodup

/-- What a revocation of `[start, stop)` leaves. -/
structure Served (s s' : ManyFiles) (file : ClientFile) (start stop : Nat) : Prop where
  cache : ∃ L, Rep s'.client.cache L
  tokens : ∃ i l, s.client.openedFiles[i]? = some file ∧
    s'.client.openedFiles = s.client.openedFiles.set i { file with permissions := l } ∧
    ∀ b, start ≤ b → b < stop → ∀ p ∈ l, ¬ p.Covers b
  evicted : ∀ a, a < stop → start < a + pfsBlockSizeInBytes → s'.client.cache.find file.descriptor a = none
  written : ∀ a block, s.client.cache.find file.descriptor a = some block → a < stop → start < a + pfsBlockSizeInBytes →
    ∀ k, k < pfsBlockSizeInBytes → block.dirty k = true → s'.store file.name (a + k) = block.data k
  kept : ∀ a, ¬ (a ≤ stop ∧ start < a + pfsBlockSizeInBytes) →
    s'.client.cache.find file.descriptor a = s.client.cache.find file.descriptor a
  others : ∀ fd a, fd ≠ file.descriptor → s'.client.cache.find fd a = s.client.cache.find fd a
  stores : ∀ name, name ≠ file.name → s'.store name = s.store name

/-! ## The evictions -/

/-- The byte at position `b` after the blocks have been evicted. -/
def byteAfter (find : Nat → Nat → Option CacheBlock) (filedes : Nat) (blocks : List Nat) (bytes : FileBytes) :
    FileBytes := fun b =>
  match find filedes (blockOf b) with
  | none => bytes b
  | some block =>
      if blockOf b ∈ blocks ∧ block.dirty (b - blockOf b) = true then block.data (b - blockOf b) else bytes b

/-- The state after the evictions. -/
structure Evicted (s s' : ManyFiles) (file : ClientFile) (blocks : List Nat) : Prop where
  cache : ∃ L, Rep s'.client.cache L
  files : s'.client.openedFiles = s.client.openedFiles
  contents : ∀ fd a, s'.client.cache.find fd a =
    if fd = file.descriptor ∧ a ∈ blocks then none else s.client.cache.find fd a
  bytes : s'.store file.name = byteAfter s.client.cache.find file.descriptor blocks (s.store file.name)
  stores : ∀ name, name ≠ file.name → s'.store name = s.store name

/-- One eviction, with its flush. -/
theorem evictBlock_flushed {s : ManyFiles} {L : Layout} (rep : Rep s.client.cache L)
    (aligned : ∀ fd a, (s.client.cache.find fd a).isSome = true → a % pfsBlockSizeInBytes = 0) {file : ClientFile}
    (found : s.client.openedFiles.find? (fun other => other.descriptor = file.descriptor) = some file) (a : Nat) :
    ∃ store, s.flushed (s.client.cache.evictBlock file.descriptor a).2 = some store ∧
      store file.name = byteAfter s.client.cache.find file.descriptor [a] (s.store file.name) ∧
      ∀ name, name ≠ file.name → store name = s.store name := by
  obtain ⟨-, -, -, -, -, -, flushed⟩ := Cache.evictBlock_rep rep file.descriptor a
  rw [flushed]
  cases present : s.client.cache.find file.descriptor a with
  | none =>
      refine ⟨s.store, rfl, ?_, fun _ _ => rfl⟩
      funext b
      rw [byteAfter]
      split
      · rfl
      · next block here =>
          rw [if_neg]
          rintro ⟨same, -⟩
          rw [List.mem_singleton.mp same, present] at here
          cases here
  | some block =>
      obtain ⟨fdes, addr, mask⟩ := rep.find_block present
      have even : block.addr % pfsBlockSizeInBytes = 0 := by
        rw [addr]
        exact aligned _ a (by rw [present]; rfl)
      have same : ∀ b, byteAfter s.client.cache.find file.descriptor [a] (s.store file.name) b =
          writeBlock (s.store file.name) block b := by
        intro b
        rw [writeBlock_at even, addr, byteAfter]
        by_cases here : blockOf b = a
        · rw [here, present]
          simp only [List.mem_singleton]
        · rw [if_neg (fun both => here both.1)]
          split
          · rfl
          · rw [if_neg (fun both => here (List.mem_singleton.mp both.1))]
      cases clean : block.clean with
      | true =>
          refine ⟨s.store, by simp only [Option.bind_some, Cache.writtenBack, clean, if_true, ManyFiles.flushed], ?_,
            fun _ _ => rfl⟩
          funext b
          rw [same, writeBlock, if_neg]
          rintro ⟨-, -, dirty⟩
          rw [mask clean] at dirty
          cases dirty
      | false =>
          have sent : s.flushed (some block) =
              some (Function.update s.store file.name (writeBlock (s.store file.name) block)) := by
            rw [ManyFiles.flushed, fdes, found, Option.map_some]
          refine ⟨_, by simpa only [Option.bind_some, Cache.writtenBack, clean, Bool.false_eq_true, if_false] using sent,
            ?_, ?_⟩
          · rw [Function.update_self]
            exact (funext same).symm
          · exact fun name other => Function.update_of_ne other _ _

theorem byteAfter_cons {find : Nat → Nat → Option CacheBlock} {filedes a : Nat} {rest : List Nat} {bytes : FileBytes} :
    byteAfter (Cache.set find filedes a none) filedes rest (byteAfter find filedes [a] bytes) =
      byteAfter find filedes (a :: rest) bytes := by
  funext b
  by_cases here : blockOf b = a
  · simp only [byteAfter, Cache.set, here, and_self, if_true, List.mem_cons_self, true_and]
  · simp only [byteAfter, Cache.set, here, and_false, if_false, List.mem_cons, false_or]
    cases find filedes (blockOf b) with
    | none => rfl
    | some block => rfl

/-- The loop evicts its blocks, and the file servers have what was dirty in them. -/
theorem evictEach_evicted {file : ClientFile} : ∀ (blocks : List Nat) {s : ManyFiles},
    (∃ L, Rep s.client.cache L) →
    (∀ fd a, (s.client.cache.find fd a).isSome = true → a % pfsBlockSizeInBytes = 0) →
    s.client.openedFiles.find? (fun other => other.descriptor = file.descriptor) = some file →
    ∃ s', evictEach file.descriptor blocks s = some s' ∧ Evicted s s' file blocks := by
  intro blocks
  induction blocks with
  | nil =>
      intro s cache _ _
      refine ⟨s, rfl, cache, rfl, fun fd a => ?_, ?_, fun _ _ => rfl⟩
      · rw [if_neg (fun key => List.not_mem_nil key.2)]
      · funext b
        rw [byteAfter]
        split
        · rfl
        · rw [if_neg (fun both => List.not_mem_nil both.1)]
  | cons first rest ih =>
      rintro s ⟨L, rep⟩ aligned found
      obtain ⟨L₁, rep₁, -, -, -, contents, -⟩ := Cache.evictBlock_rep rep file.descriptor first
      obtain ⟨store, sent, bytes, stores⟩ := evictBlock_flushed rep aligned found first
      have aligned₁ : ∀ fd a, ((s.client.cache.evictBlock file.descriptor first).1.find fd a).isSome = true →
          a % pfsBlockSizeInBytes = 0 := by
        intro fd a cached
        rw [contents, Cache.set] at cached
        split at cached
        · cases cached
        · exact aligned fd a cached
      obtain ⟨s', ran, evicted⟩ := ih
        (s := ⟨{ s.client with cache := (s.client.cache.evictBlock file.descriptor first).1 }, store⟩)
        ⟨L₁, rep₁⟩ aligned₁ found
      refine ⟨s', ?_, evicted.cache, evicted.files, ?_, ?_, ?_⟩
      · simp only [evictEach, sent, Option.bind_eq_bind, Option.bind_some]
        exact ran
      · intro fd a
        rw [evicted.contents, contents, Cache.set_none_cons]
      · rw [evicted.bytes]
        simp only [bytes, contents]
        exact byteAfter_cons
      · exact fun name other => (evicted.stores name other).trans (stores name other)

/-! ## The revocation -/

variable {s : ManyFiles} {file : ClientFile}

/-- A client between calls, as its runs leave it. -/
theorem Quiet.of_inv (inv : s.Inv) (names : (s.client.openedFiles.map ClientFile.name).Nodup)
    (unlocked : ∀ file ∈ s.client.openedFiles, ∀ p ∈ file.permissions, p.locked = false) : Quiet s where
  cache := inv.wf.imp fun _ rep => rep.1
  aligned fd a cached := by
    obtain ⟨block, found⟩ := Option.isSome_iff_exists.mp cached
    exact inv.sound.aligned fd a block found
  unlocked := unlocked
  names := names
  descriptors := inv.distinct

/-- The file is found by its name. -/
theorem Quiet.findIdx (quiet : Quiet s) (opened : file ∈ s.client.openedFiles) :
    ∃ i, s.client.openedFiles.findIdx? (fun other => other.name = file.name) = some i ∧
      s.client.openedFiles[i]? = some file := by
  have isSome : (s.client.openedFiles.findIdx? fun other => decide (other.name = file.name)).isSome = true := by
    rw [List.findIdx?_isSome]
    exact List.any_eq_true.mpr ⟨file, opened, decide_eq_true rfl⟩
  obtain ⟨i, found⟩ := Option.isSome_iff_exists.mp isSome
  obtain ⟨less, is, -⟩ := List.findIdx?_eq_some_iff_getElem.mp found
  have same := List.inj_on_of_nodup_map quiet.names (List.getElem_mem less) opened (of_decide_eq_true is)
  exact ⟨i, found, List.getElem?_eq_some_iff.mpr ⟨less, same⟩⟩

/-- The file is found by its descriptor. -/
theorem find_descriptor {files : List ClientFile} (distinct : (files.map ClientFile.descriptor).Nodup)
    (opened : file ∈ files) : files.find? (fun other => other.descriptor = file.descriptor) = some file := by
  have isSome : (files.find? fun other => decide (other.descriptor = file.descriptor)).isSome = true :=
    List.find?_isSome.mpr ⟨file, opened, decide_eq_true rfl⟩
  obtain ⟨other, found⟩ := Option.isSome_iff_exists.mp isSome
  have same : other.descriptor = file.descriptor := by simpa using List.find?_some found
  rw [found, List.inj_on_of_nodup_map distinct (List.mem_of_find?_eq_some found) opened same]

/-- A served revocation leaves nothing of the range behind and everything else as it
    was.  The file servers are one array of bytes also above `INT_MAX - 1023`, where the
    `int` arithmetic of `WriteBlock` overflows. -/
theorem revokePermission_served (quiet : Quiet s) (opened : file ∈ s.client.openedFiles) {start stop : Nat}
    (small : stop + pfsBlockSizeInBytes < uint32Size) :
    ∃ s', revokePermission s file.name start stop = some s' ∧ Served s s' file start stop := by
  obtain ⟨i, index, at_i⟩ := quiet.findIdx opened
  have free : file.permissions.any (fun p => p.isShared start stop && p.locked) = false := by
    rw [List.any_eq_false]
    intro p member
    simp [quiet.unlocked file opened p member]
  let file' : ClientFile := { file with permissions := PFS.revokePermission start stop file.permissions }
  have member : file' ∈ s.client.openedFiles.set i file' :=
    List.mem_of_getElem? (List.getElem?_set_self (List.getElem?_eq_some_iff.mp at_i).1)
  have found : (s.client.openedFiles.set i file').find? (fun other => other.descriptor = file'.descriptor) =
      some file' := by
    apply find_descriptor _ member
    have same := descriptors_set at_i (show file'.descriptor = file.descriptor from rfl)
    exact same.symm ▸ quiet.descriptors
  obtain ⟨s', ran, evicted⟩ := evictEach_evicted (blocksFrom start stop)
    (s := { s with client := s.client.setFile i file' }) quiet.cache quiet.aligned found
  refine ⟨s', ?_, evicted.cache, ⟨i, _, at_i, evicted.files, ?_⟩, ?_, ?_, ?_, ?_, ?_⟩
  · simp only [revokePermission, index, at_i, free, blockWalk_blocksFrom small, Option.bind_eq_bind, Option.bind_some,
      Bool.false_eq_true, if_false]
    exact ran
  · exact fun b low high => revokePermission_uncovers low high
  · intro a high low
    rw [evicted.contents]
    split
    · rfl
    · next outside =>
        cases cached : s.client.cache.find file.descriptor a with
        | none => exact cached
        | some block =>
            have aligned := quiet.aligned file.descriptor a (by rw [cached]; rfl)
            exact (outside ⟨rfl, mem_blocksFrom.mpr ⟨aligned, low, Nat.le_of_lt high⟩⟩).elim
  · intro a block cached high low k less dirty
    have aligned := quiet.aligned file.descriptor a (by rw [cached]; rfl)
    have here : blockOf (a + k) = a := (blockOf_eq_iff aligned).mpr ⟨Nat.le_add_right a k, by omega⟩
    have inside : a ∈ blocksFrom start stop := mem_blocksFrom.mpr ⟨aligned, low, Nat.le_of_lt high⟩
    have bytes : s'.store file.name = byteAfter s.client.cache.find file.descriptor (blocksFrom start stop)
        (s.store file.name) := evicted.bytes
    rw [bytes, byteAfter, here, cached]
    simp only [Nat.add_sub_cancel_left, inside, dirty, and_self, if_true]
  · intro a outside
    rw [evicted.contents, if_neg]
    · rfl
    · rintro ⟨-, inside⟩
      obtain ⟨-, low, high⟩ := mem_blocksFrom.mp inside
      exact outside ⟨high, low⟩
  · intro fd a other
    rw [evicted.contents, if_neg (fun key => other key.1)]
    rfl
  · exact evicted.stores

theorem revokePermission_served_written :
    ∃ s', revokePermission ManyFiles.written "a" 0 2 = some s' ∧ s'.client.cache.find 1 0 = none ∧
      s'.store "a" 2 = 7 := by
  have quiet : Quiet ManyFiles.written := by
    refine Quiet.of_inv (ManyFiles.reachable_inv ManyFiles.written_reachable) (by decide) ?_
    intro file member
    obtain rfl := List.mem_singleton.mp member
    exact by decide
  have small : 2 + pfsBlockSizeInBytes < uint32Size := by decide
  obtain ⟨s', ran, served⟩ := revokePermission_served quiet (List.mem_singleton_self _) small
  exact ⟨s', ran, served.evicted 0 (by decide) (by decide),
    served.written 0 _ rfl (by decide) (by decide) 2 (by decide) rfl⟩

/-! ## The bytes of one file -/

theorem evictBlocks_congr {client client' : PFSClient} (same : client'.flushed = client.flushed) (filedes : Nat) :
    ∀ (blocks : List Nat) (c : Cache) (bytes : FileBytes),
      client'.evictBlocks filedes blocks c bytes = client.evictBlocks filedes blocks c bytes := by
  intro blocks
  induction blocks with
  | nil => exact fun _ _ => rfl
  | cons first rest ih =>
      intro c bytes
      simp only [PFSClient.evictBlocks, same, ih]

/-- `flush` only looks at the descriptors of the open files. -/
theorem flushed_setFile {client : PFSClient} {i : Nat} {file' : ClientFile}
    (at_i : client.openedFiles[i]? = some file) (same : file'.descriptor = file.descriptor) :
    (client.setFile i file').flushed = client.flushed := by
  have opened : ∀ fd, (client.openedFiles.set i file').any (fun other => other.descriptor = fd) =
      client.openedFiles.any (fun other => other.descriptor = fd) := by
    intro fd
    have both := congrArg (fun ds : List Nat => ds.any (fun d => d = fd)) (descriptors_set at_i same)
    simpa only [List.any_map, Function.comp_def] using both
  funext bytes block
  cases block with
  | none => rfl
  | some block => simp only [PFSClient.flushed, PFSClient.flush, PFSClient.setFile, opened]

/-- `flush` writes to the bytes of the file whose block leaves the cache. -/
theorem flushed_eq {L : Layout} (rep : Rep s.client.cache L)
    (found : s.client.openedFiles.find? (fun other => other.descriptor = file.descriptor) = some file) (a : Nat) :
    s.flushed (s.client.cache.evictBlock file.descriptor a).2 =
      (s.client.flushed (s.store file.name) (s.client.cache.evictBlock file.descriptor a).2).map
        (Function.update s.store file.name) := by
  have opened : s.client.openedFiles.any (fun other => other.descriptor = file.descriptor) = true :=
    List.any_eq_true.mpr ⟨file, List.mem_of_find?_eq_some found, decide_eq_true rfl⟩
  obtain ⟨-, -, -, -, -, -, flushed⟩ := Cache.evictBlock_rep rep file.descriptor a
  have kept : s.flushed none = (s.client.flushed (s.store file.name) none).map (Function.update s.store file.name) := by
    rw [ManyFiles.flushed, PFSClient.flushed, Option.map_some, Function.update_eq_self]
  rw [flushed]
  cases present : s.client.cache.find file.descriptor a with
  | none => exact kept
  | some block =>
      obtain ⟨fdes, -, -⟩ := rep.find_block present
      rw [Option.bind_some, Cache.writtenBack]
      split
      · exact kept
      · rw [ManyFiles.flushed, PFSClient.flushed, PFSClient.flush, fdes, found, if_pos opened]
        rfl

theorem evictEach_eq : ∀ (blocks : List Nat) {s : ManyFiles}, (∃ L, Rep s.client.cache L) →
    s.client.openedFiles.find? (fun other => other.descriptor = file.descriptor) = some file →
    evictEach file.descriptor blocks s =
      (s.client.evictBlocks file.descriptor blocks s.client.cache (s.store file.name)).map fun r =>
        ⟨{ s.client with cache := r.1 }, Function.update s.store file.name r.2⟩ := by
  intro blocks
  induction blocks with
  | nil =>
      intro s _ _
      simp only [evictEach, PFSClient.evictBlocks, Option.map_some, Function.update_eq_self]
  | cons first rest ih =>
      rintro s ⟨L, rep⟩ found
      obtain ⟨L₁, rep₁, -⟩ := Cache.evictBlock_rep rep file.descriptor first
      simp only [evictEach, PFSClient.evictBlocks, flushed_eq rep found, Option.bind_eq_bind]
      cases s.client.flushed (s.store file.name) (s.client.cache.evictBlock file.descriptor first).2 with
      | none => rfl
      | some bytes =>
          simp only [Option.map_some, Option.bind_some]
          have later := ih
            (s := ⟨{ s.client with cache := (s.client.cache.evictBlock file.descriptor first).1 },
              Function.update s.store file.name bytes⟩) ⟨L₁, rep₁⟩ found
          simp only [Function.update_self, Function.update_idem] at later
          have same : { s.client with cache := (s.client.cache.evictBlock file.descriptor first).1 }.flushed =
              s.client.flushed := rfl
          exact later.trans (congrArg _ (evictBlocks_congr same _ _ _ _))

/-- Below the top of the address range, and with descriptors of a counter, this is the
    revocation of `ManyFiles`. -/
theorem revokePermission_eq (cache : ∃ L, Rep s.client.cache L)
    (descriptors : (s.client.openedFiles.map ClientFile.descriptor).Nodup) (filename : String) {start stop : Nat}
    (small : stop + pfsBlockSizeInBytes < uint32Size) :
    revokePermission s filename start stop = s.revokePermission filename start stop := by
  simp only [revokePermission, ManyFiles.revokePermission, PFSClient.revokePermission]
  cases found : s.client.openedFiles.findIdx? fun file => decide (file.name = filename) with
  | none => simp only [Option.map_some, Function.update_eq_self]
  | some i =>
      obtain ⟨less, named, -⟩ := List.findIdx?_eq_some_iff_getElem.mp found
      have at_i : s.client.openedFiles[i]? = some s.client.openedFiles[i] := List.getElem?_eq_getElem less
      generalize s.client.openedFiles[i] = file at at_i named
      obtain rfl : file.name = filename := of_decide_eq_true named
      simp only [at_i, Option.bind_eq_bind, Option.bind_some]
      split
      · rfl
      · let file' : ClientFile := { file with permissions := PFS.revokePermission start stop file.permissions }
        have member : file' ∈ s.client.openedFiles.set i file' := List.mem_of_getElem? (List.getElem?_set_self less)
        have opened : (s.client.openedFiles.set i file').find? (fun other => other.descriptor = file'.descriptor) =
            some file' := by
          apply find_descriptor _ member
          have same := descriptors_set at_i (show file'.descriptor = file.descriptor from rfl)
          exact same.symm ▸ descriptors
        rw [blockWalk_blocksFrom small, Option.bind_some]
        have each := evictEach_eq (blocksFrom start stop)
          (s := { s with client := s.client.setFile i file' }) cache opened
        have same : (s.client.setFile i file').flushed = s.client.flushed := flushed_setFile at_i rfl
        simp only [evictBlocks_congr same] at each
        refine each.trans ?_
        change (s.client.evictBlocks file.descriptor (blocksFrom start stop) s.client.cache (s.store file.name)).map _ = _
        cases s.client.evictBlocks file.descriptor (blocksFrom start stop) s.client.cache (s.store file.name) with
        | none => rfl
        | some r => rfl

end Revocation

end PFS
