import PFS.Client.CacheBytes
import PFS.Manager.MetadataManager
import PFS.Locked
import PFS.System.World

/-! # A client with many open files

The calls of one client, with the replies of the metadata manager as they come, the
revocations it serves, and what other clients do to the file servers meanwhile.
`closeFile` keeps the index of the file in a `bool`: the file at index 0 is closed as
index 0, and everything else, a file that is not open included, as index 1.
-/

namespace PFS

open Lib

/-- `status.error_code()`. -/
def Status.errorCode : Status → Int
  | .ok => 0
  | .cancelled => 1
  | .unknown => 2

/-- `CloseFileRequest`. -/
structure CloseFileRequest where
  name : String := ""
  hasModified : Bool
  size : Nat

/-- A client, and the bytes of the files on the file servers. -/
structure ManyFiles where
  client : PFSClient := {}
  store : String → FileBytes := fun _ _ => 0

namespace ManyFiles

inductive Call where
  | openFile (filename : String) (reply : Option FileStatReply)
  | readFile (filedes offset nbyte : Nat) (reply : Option PermissionReply)
  | writeFile (filedes offset nbyte : Nat) (data : Nat → UInt8) (reply : Option PermissionReply)
  | closeFile (filedes : Int) (status : Status)
  | revokePermission (filename : String) (start stop : Nat)
  | flush
  | harvest
  /-- Other clients write to the file servers. -/
  | others (store : String → FileBytes)

/-- `openFile`; no reply if the manager rejects the request. -/
def openFile (s : ManyFiles) (filename : String) : Option FileStatReply → ManyFiles
  | none => s
  | some reply =>
      let file : ClientFile :=
        { descriptor := s.client.descriptorCount + 1
          name := filename
          creationTime := reply.creationTime
          lastModifiedTime := reply.lastModified
          size := reply.fileSize
          stripWidth := reply.stripWidth }
      { s with client := { s.client with
          openedFiles := s.client.openedFiles ++ [file], descriptorCount := s.client.descriptorCount + 1 } }

/-- `acquirePermission`: the index of the file. -/
def acquirePermission (s : ManyFiles) (filedes start stop : Nat) (write : Bool) (reply : Option PermissionReply) :
    Option (ManyFiles × Option Nat) :=
  match s.client.foundAt filedes with
  | none => some (s, none)
  | some i => do
      let file ← s.client.openedFiles[i]?
      if hasPermission start stop write file.permissions then some (s, some i)
      else
        match reply with
        | none => some (s, none)
        | some reply => do
            let permissions ← addPermission reply.start reply.stop write file.permissions true
            some ({ s with client := s.client.setFile i { file with permissions := permissions } }, some i)

/-- `readFile`: the bytes it returns. -/
def readFile (s : ManyFiles) (filedes offset nbyte : Nat) (reply : Option PermissionReply) :
    Option (ManyFiles × Option (Nat → UInt8)) := do
  let (s, acquired) ← s.acquirePermission filedes offset (offset + nbyte) false reply
  match acquired with
  | none => some (s, none)
  | some i => do
      let file ← s.client.openedFiles[i]?
      let (c, buffer) ← s.client.readBytes (s.store file.name) i filedes offset nbyte
      some ({ s with client := c }, some fun k => buffer (offset + k))

/-- `writeFile`; the result says whether it wrote. -/
def writeFile (s : ManyFiles) (filedes offset nbyte : Nat) (data : Nat → UInt8) (reply : Option PermissionReply) :
    Option (ManyFiles × Bool) := do
  let (s, acquired) ← s.acquirePermission filedes offset (offset + nbyte) true reply
  match acquired with
  | none => some (s, false)
  | some i => do
      let file ← s.client.openedFiles[i]?
      let c ← s.client.writeBytes (s.store file.name) i filedes offset nbyte data
      some ({ s with client := c }, true)

/-- `closeFile`: what it returns and what it asks of the manager, whose answer is
    `status`. -/
def closeFile (s : ManyFiles) (filedes : Int) (status : Status) : Option (Int × CloseFileRequest × ManyFiles) := do
  let found := s.client.openedFiles.findIdx? fun file => (file.descriptor : Int) = filedes
  let name := ((found.bind fun i => s.client.openedFiles[i]?).map ClientFile.name).getD ""
  let foundAt := if found = some 0 then 0 else 1
  let file ← s.client.openedFiles[foundAt]?
  let (cache, bytes) ← World.evictTokens s.client file.descriptor file.permissions s.client.cache (s.store file.name)
  let request : CloseFileRequest := { name, hasModified := file.hasModified, size := file.size }
  let evicted : ManyFiles := ⟨{ s.client with cache := cache }, Function.update s.store file.name bytes⟩
  match status with
  | .ok =>
      some (0, request,
        { evicted with client := { evicted.client with openedFiles := s.client.openedFiles.eraseIdx foundAt } })
  | _ => some (-status.errorCode, request, evicted)

/-- The `RevokePermission` request of the manager. -/
def revokePermission (s : ManyFiles) (filename : String) (start stop : Nat) : Option ManyFiles :=
  (s.client.revokePermission (s.store filename) filename start stop).map fun r =>
    ⟨r.1, Function.update s.store filename r.2⟩

/-- `flush` of a block that an operation of the cache writes back. -/
def flushed (s : ManyFiles) : Option CacheBlock → Option (String → FileBytes)
  | none => some s.store
  | some block =>
      (s.client.openedFiles.find? fun file => file.descriptor = block.fdes).map fun file =>
        Function.update s.store file.name (writeBlock (s.store file.name) block)

/-- An iteration of the flusher. -/
def flush (s : ManyFiles) : Option ManyFiles :=
  (s.flushed s.client.cache.flushIteration.2).map fun store =>
    ⟨{ s.client with cache := s.client.cache.flushIteration.1 }, store⟩

/-- An iteration of the harvester. -/
def harvest (s : ManyFiles) : Option ManyFiles := do
  let (cache, block) ← s.client.cache.harvestIteration
  let store ← s.flushed block
  some ⟨{ s.client with cache := cache }, store⟩

def exec (s : ManyFiles) : Call → Option ManyFiles
  | .openFile filename reply => some (s.openFile filename reply)
  | .readFile filedes offset nbyte reply => (s.readFile filedes offset nbyte reply).map Prod.fst
  | .writeFile filedes offset nbyte data reply => (s.writeFile filedes offset nbyte data reply).map Prod.fst
  | .closeFile filedes status => (s.closeFile filedes status).map fun r => r.2.2
  | .revokePermission filename start stop => s.revokePermission filename start stop
  | .flush => s.flush
  | .harvest => s.harvest
  | .others store => some { s with store := store }

/-- A reply that grants the request as the manager does, the range or the whole file,
    and does not meet a slip of `addPermission`. -/
def CleanReply (s : ManyFiles) (filedes offset nbyte : Nat) (write : Bool) (reply : PermissionReply) : Prop :=
  ((reply.start = offset ∧ reply.stop = offset + nbyte) ∨ (reply.start = 0 ∧ reply.stop = intMax)) ∧
    ∀ file ∈ s.client.openedFiles, file.descriptor = filedes → GrantClean file.permissions reply.start reply.stop write

/-- Ranges of the `int` offsets. -/
def allowed (s : ManyFiles) : Call → Prop
  | .readFile filedes offset nbyte reply =>
      offset + nbyte ≤ intMax ∧ ∀ granted ∈ reply, s.CleanReply filedes offset nbyte false granted
  | .writeFile filedes offset nbyte _ reply =>
      offset + nbyte ≤ intMax ∧ ∀ granted ∈ reply, s.CleanReply filedes offset nbyte true granted
  | .revokePermission _ start stop => start ≤ stop
  | _ => True

def machine : Machine ManyFiles Call := ⟨allowed, exec⟩

def Initial (s : ManyFiles) : Prop := s.client = {}

/-- What `closeFile` is to do. -/
structure ClosesExactly (s : ManyFiles) (filedes : Int) : Prop where
  opened : ∀ i file, s.client.openedFiles[i]? = some file → (file.descriptor : Int) = filedes → ∃ s',
    s.closeFile filedes .ok = some (0, { name := file.name, hasModified := file.hasModified, size := file.size }, s') ∧
      s'.client.openedFiles = s.client.openedFiles.eraseIdx i ∧
      (∀ a, s'.client.cache.find file.descriptor a = none) ∧
      (∀ a block k, s.client.cache.find file.descriptor a = some block → k < pfsBlockSizeInBytes →
        block.dirty k = true → s'.store file.name (a + k) = block.data k) ∧
      ∀ other a, other ≠ file.descriptor → s'.client.cache.find other a = s.client.cache.find other a
  absent : (∀ file ∈ s.client.openedFiles, (file.descriptor : Int) ≠ filedes) → ∀ status, ∃ request s',
    s.closeFile filedes status = some (errorCloseUnopenedFile, request, s') ∧ s'.client = s.client

end ManyFiles

/-! ## The cache of several files -/

namespace PFSClient

variable {client : PFSClient} {c c' : Cache} {filedes : Nat} {bytes bytes' : FileBytes}

/-- The evictions go through one list of blocks after another. -/
theorem evictBlocks_append (blocks rest : List Nat) (c : Cache) (bytes : FileBytes) :
    client.evictBlocks filedes (blocks ++ rest) c bytes =
      (client.evictBlocks filedes blocks c bytes).bind fun r => client.evictBlocks filedes rest r.1 r.2 := by
  induction blocks generalizing c bytes with
  | nil => rfl
  | cons a blocks ih =>
      simp only [List.cons_append, evictBlocks, Option.bind_eq_bind, Option.bind_assoc, ih]

/-- The blocks of some tokens. -/
def tokenBlocks (l : List Permission) : List Nat := l.flatMap fun p => blocksFrom p.start p.stop

theorem evictTokens_eq (l : List Permission) (c : Cache) (bytes : FileBytes) :
    World.evictTokens client filedes l c bytes = client.evictBlocks filedes (tokenBlocks l) c bytes := by
  induction l generalizing c bytes with
  | nil => rfl
  | cons p rest ih =>
      simp only [World.evictTokens, tokenBlocks, List.flatMap_cons, evictBlocks_append, Option.bind_eq_bind]
      congr 1
      funext r
      exact ih r.1 r.2

theorem mem_tokenBlocks {l : List Permission} {b : Nat} (held : Grants l false b) : blockOf b ∈ tokenBlocks l := by
  obtain ⟨p, member, -, low, high⟩ := held
  exact List.mem_flatMap.mpr ⟨p, member, bytesIn_blocksFrom ⟨low, high⟩⟩

/-- The evictions remove these blocks of the file and no others. -/
theorem evictBlocks_find {blocks : List Nat} (wf : c.WF)
    (done : client.evictBlocks filedes blocks c bytes = some (c', bytes')) :
    c'.WF ∧ ∀ fd a, c'.find fd a = if fd = filedes ∧ a ∈ blocks then none else c.find fd a := by
  induction blocks generalizing c bytes with
  | nil =>
      obtain ⟨rfl, rfl⟩ := Prod.mk.inj (Option.some.inj done)
      exact ⟨wf, fun fd a => by simp⟩
  | cons first rest ih =>
      simp only [evictBlocks, Option.bind_eq_bind] at done
      obtain ⟨bytes₁, -, done⟩ := Option.bind_eq_some_iff.mp done
      obtain ⟨wf₁, contents, -⟩ := Cache.evictBlock_spec wf filedes first
      obtain ⟨wf', contents'⟩ := ih wf₁ done
      refine ⟨wf', fun fd a => ?_⟩
      rw [contents', contents, Cache.set_none_cons]

/-- `flush` finds the file of every block of an open file. -/
theorem evictBlocks_answers (opened : client.openedFiles.any (fun file => file.descriptor = filedes) = true)
    (wf : c.WF) (blocks : List Nat) (bytes : FileBytes) :
    ∃ r, client.evictBlocks filedes blocks c bytes = some r := by
  induction blocks generalizing c bytes with
  | nil => exact ⟨_, rfl⟩
  | cons first rest ih =>
      obtain ⟨wf₁, -, flushed⟩ := Cache.evictBlock_spec wf filedes first
      obtain ⟨bytes₁, done⟩ : ∃ bytes₁, client.flushed bytes (c.evictBlock filedes first).2 = some bytes₁ := by
        rw [flushed]
        cases found : c.find filedes first with
        | none => exact ⟨_, rfl⟩
        | some block =>
            obtain ⟨fdes, -, -⟩ := wf.block found
            rw [Option.bind_some, Cache.writtenBack]
            split
            · exact ⟨_, rfl⟩
            · exact ⟨_, if_pos (by rw [fdes]; exact opened)⟩
      obtain ⟨r, rest'⟩ := ih wf₁ bytes₁
      refine ⟨r, ?_⟩
      simp only [evictBlocks, Option.bind_eq_bind, done, Option.bind_some]
      exact rest'

/-- What is in the cache now was there before or is one of these blocks of the file. -/
def Loaded (c c' : Cache) (filedes : Nat) (blocks : Set Nat) : Prop :=
  ∀ fd a, (c'.find fd a).isSome = true → (c.find fd a).isSome = true ∨ (fd = filedes ∧ a ∈ blocks)

variable {blocks : Set Nat}

theorem Loaded.of_find (contents : c'.find = c.find) : Loaded c c' filedes blocks := by
  intro fd a found
  rw [contents] at found
  exact .inl found

theorem Loaded.of_set {a : Nat} {value : Option CacheBlock} (contents : c'.find = Cache.set c.find filedes a value)
    (here : a ∈ blocks) : Loaded c c' filedes blocks := by
  intro fd a' found
  rw [contents, Cache.set] at found
  split at found
  · next key => exact .inr ⟨key.1, by rw [key.2]; exact here⟩
  · exact .inl found

theorem Loaded.trans {c₁ : Cache} (first : Loaded c c₁ filedes blocks) (second : Loaded c₁ c' filedes blocks) :
    Loaded c c' filedes blocks := fun fd a found => (second fd a found).elim (first fd a) .inr

theorem readLoop_loaded {ps : List (Nat × Nat)} {buffer buffer' : Nat → UInt8} (wf : c.WF)
    (inside : ∀ piece ∈ ps, blockOf piece.1 ∈ blocks)
    (done : readLoop filedes bytes ps c buffer = some (c', buffer')) : c'.WF ∧ Loaded c c' filedes blocks := by
  induction ps generalizing c buffer with
  | nil =>
      obtain ⟨rfl, rfl⟩ := Prod.mk.inj (Option.some.inj done)
      exact ⟨wf, fun _ _ => .inl⟩
  | cons piece rest ih =>
      obtain ⟨offset, size⟩ := piece
      rw [readLoop_cons] at done
      obtain ⟨⟨c₁, cacheData⟩, first, done⟩ := Option.bind_eq_some_iff.mp done
      obtain ⟨wf₁, loaded⟩ : c₁.WF ∧ Loaded c c₁ filedes blocks := by
        cases found : c.find filedes (blockOf offset) with
        | some block =>
            obtain ⟨wf₁, contents, answer⟩ := Cache.readBlock_spec wf filedes (blockOf offset)
            rw [found, Option.map_some] at answer
            rw [show c.readBlock filedes (blockOf offset) = (_, some block.data) from Prod.ext rfl answer] at first
            obtain ⟨rfl, -⟩ := Prod.mk.inj (Option.some.inj first)
            exact ⟨wf₁, Loaded.of_find contents⟩
        | none =>
            rw [Cache.readBlock_missing found] at first
            obtain ⟨c₂, added, made⟩ := Option.map_eq_some_iff.mp first
            obtain ⟨rfl, -⟩ := Prod.mk.inj made
            obtain ⟨wf₁, -, contents⟩ := Cache.addBlock_spec wf found added
            exact ⟨wf₁, Loaded.of_set contents (inside (offset, size) List.mem_cons_self)⟩
      obtain ⟨wf', loaded'⟩ := ih wf₁ (fun piece member => inside piece (List.mem_cons_of_mem _ member)) done
      exact ⟨wf', loaded.trans loaded'⟩

theorem writeLoop_loaded {ps : List (Nat × Nat)} {data : Nat → UInt8} (wf : c.WF)
    (one : ∀ piece ∈ ps, OneBlock piece) (inside : ∀ piece ∈ ps, blockOf piece.1 ∈ blocks)
    (done : writeLoop filedes bytes data ps c = some c') : c'.WF ∧ Loaded c c' filedes blocks := by
  induction ps generalizing c with
  | nil =>
      obtain rfl := Option.some.inj done
      exact ⟨wf, fun _ _ => .inl⟩
  | cons piece rest ih =>
      obtain ⟨offset, size⟩ := piece
      rw [writeLoop_cons] at done
      obtain ⟨c₁, first, done⟩ := Option.bind_eq_some_iff.mp done
      have here : blockOf offset ∈ blocks := inside (offset, size) List.mem_cons_self
      have written : ∀ {c : Cache}, c.WF →
          (c.write filedes offset size (fun i => data (offset + i))).1.WF ∧
            Loaded c (c.write filedes offset size (fun i => data (offset + i))).1 filedes blocks := by
        intro c wf
        obtain ⟨wf₁, -, contents⟩ := Cache.write_spec wf filedes offset (fun i => data (offset + i))
          (one _ List.mem_cons_self).1
        exact ⟨wf₁, Loaded.of_set contents here⟩
      obtain ⟨wf₁, loaded⟩ : c₁.WF ∧ Loaded c c₁ filedes blocks := by
        cases found : c.find filedes (blockOf offset) with
        | some block =>
            obtain ⟨-, answer, -⟩ := Cache.write_spec wf filedes offset (fun i => data (offset + i))
              (one _ List.mem_cons_self).1
            rw [found, Option.isSome_some] at answer
            rw [show c.write filedes offset size (fun i => data (offset + i)) = (_, true) from Prod.ext rfl answer]
              at first
            obtain rfl := Option.some.inj first
            exact written wf
        | none =>
            rw [Cache.write_missing found] at first
            obtain ⟨c₂, added, rfl⟩ := Option.map_eq_some_iff.mp first
            obtain ⟨wf₂, -, contents⟩ := Cache.addBlock_spec wf found added
            obtain ⟨wf₁, loaded⟩ := written wf₂
            exact ⟨wf₁, (Loaded.of_set contents here).trans loaded⟩
      obtain ⟨wf', loaded'⟩ := ih wf₁ (fun piece member => one piece (List.mem_cons_of_mem _ member))
        (fun piece member => inside piece (List.mem_cons_of_mem _ member)) done
      exact ⟨wf', loaded.trans loaded'⟩

/-- The blocks with a byte of a call's range. -/
def rangeBlocks (offset nbyte : Nat) : Set Nat := {a | ∃ b ∈ bytesIn offset (offset + nbyte), blockOf b = a}

theorem piece_rangeBlocks {offset nbyte : Nat} : ∀ piece ∈ pieces offset nbyte, blockOf piece.1 ∈ rangeBlocks offset nbyte :=
  fun piece member => ⟨piece.1, piece_inside piece member, rfl⟩

theorem foundAt_descriptor {i : Nat} {file : ClientFile} (found : client.foundAt filedes = some i)
    (at_i : client.openedFiles[i]? = some file) : file.descriptor = filedes := by
  obtain ⟨_, is, -⟩ := List.findIdx?_eq_some_iff_getElem.mp found
  obtain ⟨_, rfl⟩ := List.getElem?_eq_some_iff.mp at_i
  exact of_decide_eq_true is

theorem ordered_unlockPermission {start stop : Nat} {l : List Permission} (h : Ordered l) :
    Ordered (unlockPermission start stop l) := ordered_congr (bareList_unlockPermission start stop l) h

theorem grants_unlockPermission {start stop : Nat} {l : List Permission} {b : Nat} :
    Grants (unlockPermission start stop l) false b ↔ Grants l false b := by
  rw [← grants_bareList, bareList_unlockPermission, grants_bareList]

end PFSClient

/-! ## Every cached block has a token -/

/-- One of the files has this descriptor, and a token on a byte of the block. -/
def HeldBy (files : List ClientFile) (fd a : Nat) : Prop :=
  ∃ file ∈ files, file.descriptor = fd ∧ ∃ b, blockOf b = a ∧ Grants file.permissions false b

theorem descriptors_set {files : List ClientFile} {i : Nat} {file file' : ClientFile} (at_i : files[i]? = some file)
    (same : file'.descriptor = file.descriptor) :
    (files.set i file').map ClientFile.descriptor = files.map ClientFile.descriptor := by
  rw [List.map_set, same]
  apply List.ext_getElem?
  intro j
  by_cases index : i = j
  · subst index
    rw [List.getElem?_set_self (by simpa using (List.getElem?_eq_some_iff.mp at_i).1), List.getElem?_map, at_i]
    rfl
  · exact List.getElem?_set_ne index

/-- A file changes; what it had a token for is kept. -/
theorem HeldBy.set {files : List ClientFile} {i fd a : Nat} {file file' : ClientFile} (held : HeldBy files fd a)
    (at_i : files[i]? = some file) (same : file'.descriptor = file.descriptor)
    (keeps : fd = file.descriptor → ∀ b, blockOf b = a → Grants file.permissions false b →
      Grants file'.permissions false b) : HeldBy (files.set i file') fd a := by
  obtain ⟨other, member, rfl, b, here, granted⟩ := held
  obtain ⟨j, at_j⟩ := List.getElem?_of_mem member
  by_cases index : i = j
  · subst index
    obtain rfl := Option.some.inj (at_i.symm.trans at_j)
    have changed : (files.set i file')[i]? = some file' :=
      List.getElem?_set_self (List.getElem?_eq_some_iff.mp at_i).1
    exact ⟨file', List.mem_of_getElem? changed, same, b, here, keeps rfl b here granted⟩
  · have kept : (files.set i file')[j]? = some other := (List.getElem?_set_ne index).trans at_j
    exact ⟨other, List.mem_of_getElem? kept, rfl, b, here, granted⟩

namespace ManyFiles

/-- The invariant. -/
structure Inv (s : ManyFiles) : Prop where
  wf : s.client.cache.WF
  distinct : (s.client.openedFiles.map ClientFile.descriptor).Nodup
  numbered : ∀ file ∈ s.client.openedFiles, file.descriptor ≤ s.client.descriptorCount
  ordered : ∀ file ∈ s.client.openedFiles, Ordered file.permissions
  held : ∀ fd a, (s.client.cache.find fd a).isSome = true → HeldBy s.client.openedFiles fd a

variable {s s' : ManyFiles}

theorem Inv.initial (start : s.client = {}) : s.Inv := by
  refine ⟨?_, ?_, ?_, ?_, ?_⟩
  · rw [start]; exact Cache.init_wf
  · rw [start]; exact List.nodup_nil
  · rw [start]; nofun
  · rw [start]; nofun
  · intro fd a found
    rw [start, Cache.init_find] at found
    cases found

/-- A file and the cache change. -/
theorem Inv.update (h : s.Inv) {i : Nat} {file file' : ClientFile} {cache : Cache} {store : String → FileBytes}
    (at_i : s.client.openedFiles[i]? = some file) (same : file'.descriptor = file.descriptor)
    (ordered : Ordered file'.permissions) (wf : cache.WF)
    (held : ∀ fd a, (cache.find fd a).isSome = true → HeldBy (s.client.openedFiles.set i file') fd a) :
    Inv ⟨{ s.client with cache := cache }.setFile i file', store⟩ := by
  have file_mem := List.mem_of_getElem? at_i
  have changed : ∀ other ∈ s.client.openedFiles.set i file', other ∈ s.client.openedFiles ∨ other = file' :=
    fun other member => List.mem_or_eq_of_mem_set member
  refine ⟨wf, ?_, ?_, ?_, held⟩
  · exact (descriptors_set at_i same).symm ▸ h.distinct
  · intro other member
    rcases changed other member with old | rfl
    · exact h.numbered other old
    · rw [same]; exact h.numbered file file_mem
  · intro other member
    rcases changed other member with old | rfl
    · exact h.ordered other old
    · exact ordered

/-- The cache of the client changes. -/
theorem Inv.recache (h : s.Inv) {cache : Cache} {store : String → FileBytes} (wf : cache.WF)
    (held : ∀ fd a, (cache.find fd a).isSome = true → HeldBy s.client.openedFiles fd a) :
    Inv ⟨{ s.client with cache := cache }, store⟩ := ⟨wf, h.distinct, h.numbered, h.ordered, held⟩

theorem Inv.openFile (h : s.Inv) (filename : String) (reply : Option FileStatReply) :
    (s.openFile filename reply).Inv := by
  cases reply with
  | none => exact h
  | some reply =>
      refine ⟨h.wf, ?_, ?_, ?_, ?_⟩
      · simp only [ManyFiles.openFile, List.map_append, List.map_singleton]
        refine List.Nodup.append h.distinct (List.nodup_singleton _) ?_
        intro descriptor old new
        obtain ⟨file, member, rfl⟩ := List.mem_map.mp old
        have small := h.numbered file member
        have := List.mem_singleton.mp new
        omega
      · intro file member
        simp only [ManyFiles.openFile, List.mem_append, List.mem_singleton] at member ⊢
        rcases member with old | rfl
        · exact Nat.le_succ_of_le (h.numbered file old)
        · exact Nat.le_refl _
      · intro file member
        simp only [ManyFiles.openFile, List.mem_append, List.mem_singleton] at member
        rcases member with old | rfl
        · exact h.ordered file old
        · exact Ordered.nil
      · intro fd a found
        obtain ⟨file, member, rest⟩ := h.held fd a found
        exact ⟨file, List.mem_append_left _ member, rest⟩

/-- After `acquirePermission` the file has tokens for the range. -/
theorem Inv.acquirePermission (h : s.Inv) {filedes offset nbyte : Nat} {write : Bool} {reply : Option PermissionReply}
    {acquired : Option Nat} (small : offset + nbyte ≤ intMax)
    (clean : ∀ granted ∈ reply, s.CleanReply filedes offset nbyte write granted)
    (done : s.acquirePermission filedes offset (offset + nbyte) write reply = some (s', acquired)) :
    s'.Inv ∧ ∀ i, acquired = some i → ∃ file, s'.client.openedFiles[i]? = some file ∧ file.descriptor = filedes ∧
      ∀ b ∈ bytesIn offset (offset + nbyte), Grants file.permissions false b := by
  unfold ManyFiles.acquirePermission at done
  split at done
  · obtain ⟨rfl, rfl⟩ := Prod.mk.inj (Option.some.inj done)
    exact ⟨h, nofun⟩
  · next i found =>
      obtain ⟨file, at_i, done⟩ := Option.bind_eq_some_iff.mp done
      have mine := PFSClient.foundAt_descriptor found at_i
      split at done
      · next has =>
          obtain ⟨rfl, rfl⟩ := Prod.mk.inj (Option.some.inj done)
          refine ⟨h, ?_⟩
          rintro _ ⟨⟩
          exact ⟨file, at_i, mine, fun b inside => (hasPermission_covers has inside.1 inside.2).read⟩
      · cases reply with
        | none =>
            obtain ⟨rfl, rfl⟩ := Prod.mk.inj (Option.some.inj done)
            exact ⟨h, nofun⟩
        | some granted =>
            obtain ⟨permissions, added, done⟩ := Option.bind_eq_some_iff.mp done
            obtain ⟨rfl, rfl⟩ := Prod.mk.inj (Option.some.inj done)
            obtain ⟨range, cleanFile⟩ := clean granted rfl
            have noSlip := cleanFile file (List.mem_of_getElem? at_i) mine
            have forward : granted.start ≤ granted.stop := by
              rcases range with ⟨start, stop⟩ | ⟨start, stop⟩
              · omega
              · omega
            have smallStop : granted.stop ≤ intMax := by
              rcases range with ⟨-, stop⟩ | ⟨-, stop⟩
              · omega
              · omega
            have ordered := h.ordered file (List.mem_of_getElem? at_i)
            constructor
            · refine h.update at_i rfl (addPermission_ordered ordered forward smallStop noSlip added) h.wf ?_
              intro fd a cached
              refine (h.held fd a cached).set at_i rfl ?_
              intro _ b _ held
              exact addPermission_keeps ordered forward smallStop noSlip added held
            · rintro _ ⟨⟩
              refine ⟨_, List.getElem?_set_self (List.getElem?_eq_some_iff.mp at_i).1, mine, ?_⟩
              intro b inside
              have inGrant : granted.start ≤ b ∧ b < granted.stop := by
                have := mem_bytesIn.mp inside
                rcases range with ⟨start, stop⟩ | ⟨start, stop⟩
                · omega
                · omega
              exact (addPermission_ge added smallStop inGrant.1 inGrant.2).read

/-- The blocks of the range get into the cache, and the tokens are unlocked. -/
theorem Inv.accessed (h : s.Inv) {i offset nbyte : Nat} {file file' : ClientFile} {cache : Cache}
    {store : String → FileBytes} (at_i : s.client.openedFiles[i]? = some file)
    (covered : ∀ b ∈ bytesIn offset (offset + nbyte), Grants file.permissions false b) (wf : cache.WF)
    (loaded : PFSClient.Loaded s.client.cache cache file.descriptor (PFSClient.rangeBlocks offset nbyte))
    (same : file'.descriptor = file.descriptor)
    (unlocked : file'.permissions = PFSClient.unlockPermission offset (offset + nbyte) file.permissions) :
    Inv ⟨{ s.client with cache := cache }.setFile i file', store⟩ := by
  refine h.update at_i same ?_ wf ?_
  · rw [unlocked]
    exact PFSClient.ordered_unlockPermission (h.ordered file (List.mem_of_getElem? at_i))
  · intro fd a cached
    have held : HeldBy s.client.openedFiles fd a := by
      rcases loaded fd a cached with before | ⟨rfl, b, inside, here⟩
      · exact h.held fd a before
      · exact ⟨file, List.mem_of_getElem? at_i, rfl, b, here, covered b inside⟩
    refine held.set at_i same ?_
    intro _ b _ granted
    rw [unlocked]
    exact PFSClient.grants_unlockPermission.mpr granted

theorem Inv.readFile (h : s.Inv) {filedes offset nbyte : Nat} {reply : Option PermissionReply}
    {buffer : Option (Nat → UInt8)} (small : offset + nbyte ≤ intMax)
    (clean : ∀ granted ∈ reply, s.CleanReply filedes offset nbyte false granted)
    (done : s.readFile filedes offset nbyte reply = some (s', buffer)) : s'.Inv := by
  obtain ⟨⟨s₁, acquired⟩, first, done⟩ := Option.bind_eq_some_iff.mp done
  obtain ⟨inv, covered⟩ := h.acquirePermission small clean first
  cases acquired with
  | none =>
      obtain ⟨rfl, -⟩ := Prod.mk.inj (Option.some.inj done)
      exact inv
  | some i =>
      obtain ⟨file, at_i, rfl, tokens⟩ := covered i rfl
      simp only [at_i, Option.bind_eq_bind, Option.bind_some] at done
      obtain ⟨⟨c, data⟩, read, done⟩ := Option.bind_eq_some_iff.mp done
      obtain ⟨rfl, -⟩ := Prod.mk.inj (Option.some.inj done)
      simp only [PFSClient.readBytes, at_i, Option.bind_eq_bind, Option.bind_some] at read
      obtain ⟨⟨cache, data'⟩, loop, read⟩ := Option.bind_eq_some_iff.mp read
      obtain ⟨rfl, -⟩ := Prod.mk.inj (Option.some.inj read)
      obtain ⟨wf, loaded⟩ := PFSClient.readLoop_loaded inv.wf PFSClient.piece_rangeBlocks loop
      exact inv.accessed at_i tokens wf loaded rfl rfl

theorem Inv.writeFile (h : s.Inv) {filedes offset nbyte : Nat} {data : Nat → UInt8} {reply : Option PermissionReply}
    {wrote : Bool} (small : offset + nbyte ≤ intMax)
    (clean : ∀ granted ∈ reply, s.CleanReply filedes offset nbyte true granted)
    (done : s.writeFile filedes offset nbyte data reply = some (s', wrote)) : s'.Inv := by
  obtain ⟨⟨s₁, acquired⟩, first, done⟩ := Option.bind_eq_some_iff.mp done
  obtain ⟨inv, covered⟩ := h.acquirePermission small clean first
  cases acquired with
  | none =>
      obtain ⟨rfl, -⟩ := Prod.mk.inj (Option.some.inj done)
      exact inv
  | some i =>
      obtain ⟨file, at_i, rfl, tokens⟩ := covered i rfl
      simp only [at_i, Option.bind_eq_bind, Option.bind_some] at done
      obtain ⟨c, write, done⟩ := Option.bind_eq_some_iff.mp done
      obtain ⟨rfl, -⟩ := Prod.mk.inj (Option.some.inj done)
      simp only [PFSClient.writeBytes, at_i, Option.bind_eq_bind, Option.bind_some] at write
      obtain ⟨cache, loop, write⟩ := Option.bind_eq_some_iff.mp write
      obtain rfl := Option.some.inj write
      obtain ⟨wf, loaded⟩ := PFSClient.writeLoop_loaded inv.wf (PFSClient.pieces_oneBlock offset nbyte)
        PFSClient.piece_rangeBlocks loop
      exact inv.accessed at_i tokens wf loaded rfl rfl

/-- A revocation takes the tokens and the blocks of its range. -/
theorem Inv.revokePermission (h : s.Inv) {filename : String} {start stop : Nat} (range : start ≤ stop)
    (done : s.revokePermission filename start stop = some s') : s'.Inv := by
  obtain ⟨⟨c, bytes⟩, revoked, rfl⟩ := Option.map_eq_some_iff.mp done
  unfold PFSClient.revokePermission at revoked
  split at revoked
  · obtain ⟨rfl, rfl⟩ := Prod.mk.inj (Option.some.inj revoked)
    exact ⟨h.wf, h.distinct, h.numbered, h.ordered, h.held⟩
  · next i found =>
      obtain ⟨file, at_i, revoked⟩ := Option.bind_eq_some_iff.mp revoked
      obtain ⟨-, revoked⟩ := Option.ite_none_left_eq_some.mp revoked
      obtain ⟨⟨cache, bytes'⟩, evicted, revoked⟩ := Option.bind_eq_some_iff.mp revoked
      obtain ⟨rfl, -⟩ := Prod.mk.inj (Option.some.inj revoked)
      obtain ⟨wf, contents⟩ := PFSClient.evictBlocks_find h.wf evicted
      have ordered := h.ordered file (List.mem_of_getElem? at_i)
      refine h.update at_i rfl (revokePermission_ordered ordered range) wf ?_
      intro fd a cached
      rw [contents] at cached
      split at cached
      · cases cached
      · next outside =>
          refine (h.held fd a cached).set at_i rfl ?_
          rintro rfl b rfl granted
          refine revokePermission_keeps ordered (fun inside => outside ⟨rfl, ?_⟩) granted
          exact PFSClient.bytesIn_blocksFrom inside

theorem Inv.flush (h : s.Inv) (done : s.flush = some s') : s'.Inv := by
  obtain ⟨store, -, rfl⟩ := Option.map_eq_some_iff.mp done
  obtain ⟨wf, nothing | ⟨fd, a, block, found, -, contents⟩⟩ := Cache.flushIteration_spec h.wf
  · rw [nothing]
    exact ⟨h.wf, h.distinct, h.numbered, h.ordered, h.held⟩
  · refine h.recache wf ?_
    intro fd' a' cached
    rw [contents, Cache.set] at cached
    split at cached
    · next key =>
        rw [key.1, key.2]
        exact h.held fd a (by rw [found]; rfl)
    · exact h.held fd' a' cached

theorem Inv.harvest (h : s.Inv) (done : s.harvest = some s') : s'.Inv := by
  obtain ⟨⟨cache, block⟩, harvested, done⟩ := Option.bind_eq_some_iff.mp done
  obtain ⟨store, -, done⟩ := Option.bind_eq_some_iff.mp done
  obtain rfl := Option.some.inj done
  obtain ⟨wf, fd, a, victim, found, contents, -, -⟩ := Cache.harvestIteration_spec h.wf harvested
  refine h.recache wf ?_
  intro fd' a' cached
  rw [contents, Cache.set] at cached
  split at cached
  · cases cached
  · exact h.held fd' a' cached

/-! ## Closing -/

/-- The index that `closeFile` works with. -/
def closeIndex (s : ManyFiles) (filedes : Int) : Nat :=
  if (s.client.openedFiles.findIdx? fun file => (file.descriptor : Int) = filedes) = some 0 then 0 else 1

/-- The evictions of a file leave none of its blocks. -/
structure Emptied (s : ManyFiles) (file : ClientFile) (cache : Cache) (bytes : FileBytes) : Prop where
  wf : cache.WF
  gone : ∀ a, cache.find file.descriptor a = none
  others : ∀ fd a, fd ≠ file.descriptor → cache.find fd a = s.client.cache.find fd a
  flushed : ∀ a block k, s.client.cache.find file.descriptor a = some block → k < pfsBlockSizeInBytes →
    block.dirty k = true → bytes (a + k) = block.data k

theorem Inv.sound (h : s.Inv) : s.client.cache.Sound (s.client.openedFiles.map ClientFile.descriptor) := by
  refine ⟨h.wf, ?_, ?_⟩
  · intro fd a block found
    obtain ⟨-, -, -, b, rfl, -⟩ := h.held fd a (by rw [found]; rfl)
    exact blockOf_aligned b
  · intro fd a block found
    obtain ⟨file, member, rfl, -⟩ := h.held fd a (by rw [found]; rfl)
    exact List.mem_map_of_mem member

/-- Two files with one descriptor are one file. -/
theorem Inv.unique (h : s.Inv) {file other : ClientFile} (member : file ∈ s.client.openedFiles)
    (member' : other ∈ s.client.openedFiles) (same : other.descriptor = file.descriptor) : other = file :=
  List.inj_on_of_nodup_map h.distinct member' member same

theorem Inv.emptied (h : s.Inv) {file : ClientFile} (member : file ∈ s.client.openedFiles) :
    ∃ cache bytes, World.evictTokens s.client file.descriptor file.permissions s.client.cache (s.store file.name) =
      some (cache, bytes) ∧ s.Emptied file cache bytes := by
  have opened : s.client.openedFiles.any (fun other => other.descriptor = file.descriptor) = true :=
    List.any_eq_true.mpr ⟨file, member, decide_eq_true rfl⟩
  have every : ∀ a, (s.client.cache.find file.descriptor a).isSome = true →
      a ∈ PFSClient.tokenBlocks file.permissions := by
    intro a cached
    obtain ⟨other, member', same, b, rfl, granted⟩ := h.held _ a cached
    obtain rfl := h.unique member member' same
    exact PFSClient.mem_tokenBlocks granted
  rw [PFSClient.evictTokens_eq]
  obtain ⟨⟨cache, bytes⟩, evicted⟩ := PFSClient.evictBlocks_answers opened h.wf
    (PFSClient.tokenBlocks file.permissions) (s.store file.name)
  obtain ⟨wf, contents⟩ := PFSClient.evictBlocks_find h.wf evicted
  obtain ⟨-, -, stored⟩ := PFSClient.evictBlocks_bytes h.sound evicted
  refine ⟨cache, bytes, evicted, wf, ?_, ?_, ?_⟩
  · intro a
    rw [contents]
    split
    · rfl
    · next outside =>
        cases cached : s.client.cache.find file.descriptor a with
        | none => rfl
        | some block => exact (outside ⟨rfl, every a (by rw [cached]; rfl)⟩).elim
  · intro fd a other
    rw [contents, if_neg (fun key => other key.1)]
  · intro a block k found small dirty
    have aligned := h.sound.aligned _ a block found
    have here : blockOf (a + k) = a := (blockOf_eq_iff aligned).mpr ⟨Nat.le_add_right a k, by omega⟩
    have copy : s.client.cache.byte file.descriptor (a + k) = some (block.data k, true) := by
      rw [Cache.byte, here, found, Option.map_some, Nat.add_sub_cancel_left, dirty]
    have inside : a + k ∈ bytesOf (PFSClient.tokenBlocks file.permissions) := by
      rw [bytesOf, Set.mem_ofPred_eq, here]
      exact every a (by rw [found]; rfl)
    rw [stored]
    exact Copies.writeBack_dirty inside copy

/-- The request of `closeFile`: the name is the found file's, the rest is that of the
    file at the index. -/
def closeRequest (s : ManyFiles) (filedes : Int) (file : ClientFile) : CloseFileRequest where
  name := (((s.client.openedFiles.findIdx? fun file => (file.descriptor : Int) = filedes).bind fun i =>
    s.client.openedFiles[i]?).map ClientFile.name).getD ""
  hasModified := file.hasModified
  size := file.size

/-- `closeFile` works on the file at its index. -/
theorem closeFile_eq {filedes : Int} {file : ClientFile} {cache : Cache} {bytes : FileBytes}
    (at_i : s.client.openedFiles[s.closeIndex filedes]? = some file)
    (evicted : World.evictTokens s.client file.descriptor file.permissions s.client.cache (s.store file.name) =
      some (cache, bytes)) (status : Status) :
    s.closeFile filedes status = match status with
      | .ok => some (0, s.closeRequest filedes file,
          ⟨{ s.client with cache := cache, openedFiles := s.client.openedFiles.eraseIdx (s.closeIndex filedes) },
            Function.update s.store file.name bytes⟩)
      | _ => some (-status.errorCode, s.closeRequest filedes file,
          ⟨{ s.client with cache := cache }, Function.update s.store file.name bytes⟩) := by
  unfold closeIndex at at_i
  unfold closeFile closeIndex
  simp only [at_i, evicted, Option.bind_eq_bind, Option.bind_some]
  cases status with
  | ok => rfl
  | cancelled => rfl
  | unknown => rfl

theorem closeFile_none {filedes : Int} (missing : s.client.openedFiles[s.closeIndex filedes]? = none) (status : Status) :
    s.closeFile filedes status = none := by
  unfold closeIndex at missing
  unfold closeFile
  simp only [missing, Option.bind_eq_bind, Option.bind_none]

theorem Inv.closeFile (h : s.Inv) {filedes : Int} {status : Status} {r : Int × CloseFileRequest × ManyFiles}
    (done : s.closeFile filedes status = some r) : r.2.2.Inv := by
  cases at_i : s.client.openedFiles[s.closeIndex filedes]? with
  | none =>
      rw [closeFile_none at_i] at done
      cases done
  | some file =>
      obtain ⟨cache, bytes, evicted, emptied⟩ := h.emptied (List.mem_of_getElem? at_i)
      rw [closeFile_eq at_i evicted] at done
      have elsewhere : ∀ fd a, (cache.find fd a).isSome = true → fd ≠ file.descriptor ∧ HeldBy s.client.openedFiles fd a := by
        intro fd a cached
        have other : fd ≠ file.descriptor := by
          rintro rfl
          rw [emptied.gone] at cached
          cases cached
        rw [emptied.others fd a other] at cached
        exact ⟨other, h.held fd a cached⟩
      have kept : Inv ⟨{ s.client with cache := cache }, Function.update s.store file.name bytes⟩ :=
        h.recache emptied.wf (fun fd a cached => (elsewhere fd a cached).2)
      have removed : Inv ⟨{ s.client with
          cache := cache, openedFiles := s.client.openedFiles.eraseIdx (s.closeIndex filedes) },
            Function.update s.store file.name bytes⟩ := by
        have sub : s.client.openedFiles.eraseIdx (s.closeIndex filedes) ⊆ s.client.openedFiles :=
          (List.eraseIdx_sublist _ _).subset
        refine ⟨emptied.wf, h.distinct.sublist ((List.eraseIdx_sublist _ _).map _),
          fun other member => h.numbered other (sub member), fun other member => h.ordered other (sub member), ?_⟩
        intro fd a cached
        obtain ⟨different, other, member, rfl, rest⟩ := elsewhere fd a cached
        obtain ⟨j, at_j⟩ := List.getElem?_of_mem member
        refine ⟨other, List.mem_eraseIdx_iff_getElem?.mpr ⟨j, ?_, at_j⟩, rfl, rest⟩
        rintro rfl
        obtain rfl := Option.some.inj (at_i.symm.trans at_j)
        exact different rfl
      cases status with
      | ok =>
          obtain rfl := Option.some.inj done
          exact removed
      | cancelled =>
          obtain rfl := Option.some.inj done
          exact kept
      | unknown =>
          obtain rfl := Option.some.inj done
          exact kept

theorem Inv.step (h : s.Inv) {call : Call} (allowed : s.allowed call) (done : s.exec call = some s') : s'.Inv := by
  cases call with
  | openFile filename reply =>
      obtain rfl := Option.some.inj done
      exact h.openFile filename reply
  | readFile filedes offset nbyte reply =>
      obtain ⟨⟨s₁, buffer⟩, read, rfl⟩ := Option.map_eq_some_iff.mp done
      exact h.readFile allowed.1 allowed.2 read
  | writeFile filedes offset nbyte data reply =>
      obtain ⟨⟨s₁, wrote⟩, written, rfl⟩ := Option.map_eq_some_iff.mp done
      exact h.writeFile allowed.1 allowed.2 written
  | closeFile filedes status =>
      obtain ⟨r, closed, rfl⟩ := Option.map_eq_some_iff.mp done
      exact h.closeFile closed
  | revokePermission filename start stop => exact h.revokePermission allowed done
  | flush => exact h.flush done
  | harvest => exact h.harvest done
  | others store =>
      obtain rfl := Option.some.inj done
      exact ⟨h.wf, h.distinct, h.numbered, h.ordered, h.held⟩

theorem reachable_inv (reach : Reachable Initial machine.Step s) : s.Inv :=
  reach.invariant Inv (fun _ => Inv.initial) (fun _ _ inv ⟨_, allowed, ran⟩ => inv.step allowed ran)

/-- The search finds the file with the descriptor. -/
theorem Inv.index (h : s.Inv) {i : Nat} {file : ClientFile} {filedes : Int}
    (at_i : s.client.openedFiles[i]? = some file) (is : (file.descriptor : Int) = filedes) :
    (s.client.openedFiles.findIdx? fun file => (file.descriptor : Int) = filedes) = some i := by
  obtain ⟨inside, rfl⟩ := List.getElem?_eq_some_iff.mp at_i
  refine List.findIdx?_eq_some_iff_getElem.mpr ⟨inside, decide_eq_true is, ?_⟩
  intro j less found
  have other := of_decide_eq_true found
  have different := List.pairwise_iff_getElem.mp h.distinct j i (by simp; omega) (by simpa using inside) less
  simp only [List.getElem_map] at different
  omega

theorem Inv.index_inj (h : s.Inv) {i j : Nat} {file other : ClientFile} (at_i : s.client.openedFiles[i]? = some file)
    (at_j : s.client.openedFiles[j]? = some other) (same : other.descriptor = file.descriptor) : j = i := by
  have first := h.index at_i rfl
  have second := h.index at_j (congrArg Int.ofNat same)
  exact Option.some.inj (second.symm.trans first)

/-- The index in the `bool` is the index of the file. -/
theorem Inv.closeIndex_eq (h : s.Inv) {i : Nat} {file : ClientFile} {filedes : Int}
    (at_i : s.client.openedFiles[i]? = some file) (is : (file.descriptor : Int) = filedes) :
    s.closeIndex filedes = min i 1 := by
  rw [closeIndex, h.index at_i is]
  simp only [Option.some.injEq]
  split
  · next zero => rw [zero]; rfl
  · omega

theorem Inv.closesExactly (h : s.Inv) {i : Nat} {file : ClientFile} {filedes : Int} (low : i ≤ 1)
    (at_i : s.client.openedFiles[i]? = some file) (is : (file.descriptor : Int) = filedes) : s.ClosesExactly filedes := by
  constructor
  · intro j other at_j is'
    obtain rfl := h.index_inj at_i at_j (by omega)
    obtain rfl := Option.some.inj (at_i.symm.trans at_j)
    have index : s.closeIndex filedes = j := by rw [h.closeIndex_eq at_i is]; omega
    have there : s.client.openedFiles[s.closeIndex filedes]? = some file := by rw [index]; exact at_i
    obtain ⟨cache, bytes, evicted, emptied⟩ := h.emptied (List.mem_of_getElem? at_i)
    have request : s.closeRequest filedes file = { name := file.name, hasModified := file.hasModified, size := file.size } := by
      rw [closeRequest, h.index at_i is, Option.bind_some, at_i]
      rfl
    refine ⟨_, (closeFile_eq there evicted .ok).trans (by rw [request]), by rw [index], emptied.gone, ?_, ?_⟩
    · intro a block k found small dirty
      simp only [Function.update_self]
      exact emptied.flushed a block k found small dirty
    · exact fun fd a other => emptied.others fd a other
  · intro absent
    exact (absent file (List.mem_of_getElem? at_i) is).elim

/-- A file further back is not the one that is removed. -/
theorem Inv.eraseIdx_ne (h : s.Inv) {i : Nat} {file : ClientFile} (at_i : s.client.openedFiles[i]? = some file)
    (high : 1 < i) : s.client.openedFiles.eraseIdx 1 ≠ s.client.openedFiles.eraseIdx i := by
  intro same
  have inside := (List.getElem?_eq_some_iff.mp at_i).1
  have second : (s.client.openedFiles.eraseIdx 1)[1]? = (s.client.openedFiles.eraseIdx i)[1]? := by rw [same]
  rw [List.getElem?_eraseIdx_of_ge (Nat.le_refl 1), List.getElem?_eraseIdx_of_lt high] at second
  have at_1 : s.client.openedFiles[1]? = some s.client.openedFiles[1] := List.getElem?_eq_getElem (by omega)
  have at_2 := second.trans at_1
  have := h.index_inj at_1 at_2 rfl
  omega

/-- In every state a client reaches with clean grants, `closeFile` does what it is to
    do exactly for the descriptors of the first two open files. -/
theorem closesExactly_iff (reach : Reachable Initial machine.Step s) (filedes : Int) : s.ClosesExactly filedes ↔
    ∃ i file, i ≤ 1 ∧ s.client.openedFiles[i]? = some file ∧ (file.descriptor : Int) = filedes := by
  have inv := reachable_inv reach
  constructor
  · intro exactly
    by_cases opened : ∃ file ∈ s.client.openedFiles, (file.descriptor : Int) = filedes
    · obtain ⟨file, member, is⟩ := opened
      obtain ⟨i, at_i⟩ := List.getElem?_of_mem member
      refine ⟨i, file, ?_, at_i, is⟩
      by_contra high
      have index : s.closeIndex filedes = 1 := by rw [inv.closeIndex_eq at_i is]; omega
      have inside := (List.getElem?_eq_some_iff.mp at_i).1
      have at_1 : s.client.openedFiles[s.closeIndex filedes]? = some s.client.openedFiles[1] := by
        rw [index]
        exact List.getElem?_eq_getElem (by omega)
      obtain ⟨cache, bytes, evicted, -⟩ := inv.emptied (List.mem_of_getElem? at_1)
      obtain ⟨s', closed, removed, -⟩ := exactly.opened i file at_i is
      rw [closeFile_eq at_1 evicted] at closed
      simp only [Option.some.injEq, Prod.mk.injEq] at closed
      rw [← closed.2.2, index] at removed
      exact inv.eraseIdx_ne at_i (by omega) removed
    · push Not at opened
      obtain ⟨request, s', closed, -⟩ := exactly.absent opened .ok
      cases at_i : s.client.openedFiles[s.closeIndex filedes]? with
      | none =>
          rw [closeFile_none at_i] at closed
          cases closed
      | some file =>
          obtain ⟨cache, bytes, evicted, -⟩ := inv.emptied (List.mem_of_getElem? at_i)
          rw [closeFile_eq at_i evicted] at closed
          simp [errorCloseUnopenedFile] at closed
  · rintro ⟨i, file, low, at_i, is⟩
    exact inv.closesExactly low at_i is

/-- A client with one open file. -/
def opened : ManyFiles := ({} : ManyFiles).openFile "a" (some { stripWidth := 1 })

theorem opened_reachable : Reachable Initial machine.Step opened := by
  have start : Reachable Initial machine.Step {} := Reachable.init rfl
  exact start.tail ⟨.openFile "a" (some { stripWidth := 1 }), trivial, rfl⟩

/-- It has written to the file. -/
def written : ManyFiles := ((opened.writeFile 1 0 3 (fun _ => 7) (some { stop := intMax })).get rfl).1

theorem written_reachable : Reachable Initial machine.Step written := by
  have clean : opened.allowed (.writeFile 1 0 3 (fun _ => 7) (some { stop := intMax })) := by
    refine ⟨by decide, ?_⟩
    rintro _ ⟨⟩
    refine ⟨.inr ⟨rfl, rfl⟩, ?_⟩
    intro file member _
    obtain rfl := List.mem_singleton.mp member
    exact .inl (by decide)
  exact opened_reachable.tail ⟨.writeFile 1 0 3 (fun _ => 7) (some { stop := intMax }), clean, rfl⟩

theorem closesExactly_iff_written : Reachable Initial machine.Step written ∧ written.ClosesExactly 1 :=
  ⟨written_reachable, (closesExactly_iff written_reachable 1).mpr ⟨0, _, by decide, rfl, rfl⟩⟩

/-- A client with three open files. -/
def three : ManyFiles := (opened.openFile "b" (some { stripWidth := 1 })).openFile "c" (some { stripWidth := 1 })

/-- Asked to close the third file, it reports the third and removes the second; asked to
    close a file it does not have open, it sends a request without a name, and returns the
    manager's error. -/
theorem second_removed : Reachable Initial machine.Step three ∧
    three.client.openedFiles.map (fun file => (file.descriptor, file.name)) = [(1, "a"), (2, "b"), (3, "c")] ∧
    (three.closeFile 3 .ok).map (fun r => (r.1, r.2.1.name, r.2.2.client.openedFiles.map ClientFile.name)) =
      some (0, "c", ["a", "c"]) ∧
    (three.closeFile 9 .cancelled).map (fun r => (r.1, r.2.1.name, r.2.2.client.openedFiles.map ClientFile.name)) =
      some (-1, "", ["a", "b", "c"]) := by
  have two := opened_reachable.tail ⟨.openFile "b" (some { stripWidth := 1 }), trivial, rfl⟩
  exact ⟨two.tail ⟨.openFile "c" (some { stripWidth := 1 }), trivial, rfl⟩, rfl, rfl, rfl⟩

end ManyFiles

end PFS
