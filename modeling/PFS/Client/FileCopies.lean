import PFS.Client.ManyFiles
import PFS.Lib.Parts

/-! # A client's copies of the bytes of all its files

One cache has the blocks of every open file, under the descriptors.  What a call does to the
blocks of one file it does to the copies under that file's name, and the copies of the other
files stay.
-/

namespace PFS

open Lib

namespace PFSClient

/-- The descriptor under which a file is open. -/
def slot (c : PFSClient) (name : String) : Option Nat :=
  (c.openedFiles.find? fun file => file.name = name).map ClientFile.descriptor

/-- The copies that a client has of the bytes of the files. -/
def fileCopies (c : PFSClient) : Copies (String × Nat) UInt8 := fun a =>
  (c.slot a.1).bind fun filedes => c.cache.byte filedes a.2

/-- No two open files have the same name or the same descriptor. -/
structure Apart (c : PFSClient) : Prop where
  names : (c.openedFiles.map ClientFile.name).Nodup
  descriptors : (c.openedFiles.map ClientFile.descriptor).Nodup

variable {c c' : PFSClient} {file : ClientFile}

theorem mem_of_slot {name : String} {filedes : Nat} (here : c.slot name = some filedes) :
    ∃ file ∈ c.openedFiles, file.name = name ∧ file.descriptor = filedes := by
  obtain ⟨file, found, rfl⟩ := Option.map_eq_some_iff.mp here
  exact ⟨file, List.mem_of_find?_eq_some found, by simpa using List.find?_some found, rfl⟩

theorem Apart.slot (apart : c.Apart) (member : file ∈ c.openedFiles) : c.slot file.name = some file.descriptor := by
  cases here : c.slot file.name with
  | none =>
      have missing := List.find?_eq_none.mp (Option.map_eq_none_iff.mp here) file member
      simp at missing
  | some filedes =>
      obtain ⟨other, member', named, rfl⟩ := mem_of_slot here
      rw [List.inj_on_of_nodup_map apart.names member' member named]

theorem Apart.slot_inj (apart : c.Apart) (member : file ∈ c.openedFiles) {name : String}
    (here : c.slot name = some file.descriptor) : name = file.name := by
  obtain ⟨other, member', rfl, same⟩ := mem_of_slot here
  rw [List.inj_on_of_nodup_map apart.descriptors member' member same]

theorem Apart.slot_iff (apart : c.Apart) {name : String} {filedes : Nat} :
    c.slot name = some filedes ↔ ∃ file ∈ c.openedFiles, file.name = name ∧ file.descriptor = filedes := by
  constructor
  · exact mem_of_slot
  · rintro ⟨file, member, rfl, rfl⟩
    exact apart.slot member

/-- A file is closed. -/
theorem Apart.slot_eraseIdx (apart : c.Apart) {i : Nat} (at_i : c.openedFiles[i]? = some file) (cache : Cache)
    (name : String) : PFSClient.slot { c with cache := cache, openedFiles := c.openedFiles.eraseIdx i } name =
      if name = file.name then none else c.slot name := by
  have fewer := List.eraseIdx_sublist c.openedFiles i
  have erased : Apart { c with cache := cache, openedFiles := c.openedFiles.eraseIdx i } :=
    ⟨apart.names.sublist (fewer.map _), apart.descriptors.sublist (fewer.map _)⟩
  have index : ∀ {j other}, c.openedFiles[j]? = some other → other.name = file.name → j = i := by
    intro j other at_j same
    obtain ⟨inside, -⟩ := List.getElem?_eq_some_iff.mp at_j
    refine (List.getElem?_inj (by rwa [List.length_map]) apart.names).mp ?_
    rw [List.getElem?_map, List.getElem?_map, at_i, at_j, Option.map_some, Option.map_some, same]
  refine Option.ext fun filedes => ?_
  rw [erased.slot_iff]
  constructor
  · rintro ⟨other, member, rfl, rfl⟩
    obtain ⟨j, different, at_j⟩ := List.mem_eraseIdx_iff_getElem?.mp member
    rw [if_neg fun same => different (index at_j same)]
    exact apart.slot (List.mem_of_getElem? at_j)
  · intro here
    obtain ⟨different, before⟩ := Option.ite_none_left_eq_some.mp here
    obtain ⟨other, member, rfl, rfl⟩ := mem_of_slot before
    obtain ⟨j, at_j⟩ := List.getElem?_of_mem member
    refine ⟨other, List.mem_eraseIdx_iff_getElem?.mpr ⟨j, ?_, at_j⟩, rfl, rfl⟩
    rintro rfl
    obtain rfl := Option.some.inj (at_i.symm.trans at_j)
    exact different rfl

/-- A file is replaced by one with its name and descriptor. -/
theorem slot_setFile {i : Nat} (file' : ClientFile) (at_i : c.openedFiles[i]? = some file) (named : file'.name = file.name)
    (same : file'.descriptor = file.descriptor) (cache : Cache) :
    ({ c with cache := cache }.setFile i file').slot = c.slot := by
  have split : ∀ l : List ClientFile, ∀ i, l[i]? = some file → ∀ name,
      ((l.set i file').find? fun file => file.name = name).map ClientFile.descriptor =
        (l.find? fun file => file.name = name).map ClientFile.descriptor := by
    intro l
    induction l with
    | nil =>
        intro i inside
        cases inside
    | cons first rest ih =>
        intro i inside name
        cases i with
        | zero =>
            obtain rfl := Option.some.inj inside
            rw [List.set_cons_zero, List.find?_cons, List.find?_cons, named]
            cases decide (first.name = name) with
            | true => exact congrArg some same
            | false => rfl
        | succ i =>
            rw [List.set_cons_succ, List.find?_cons, List.find?_cons]
            cases decide (first.name = name) with
            | true => rfl
            | false => exact ih i inside name
  funext name
  exact split c.openedFiles i at_i name

theorem part_fileCopies {name : String} {filedes : Nat} (here : c.slot name = some filedes) :
    c.fileCopies.part name = c.cache.byte filedes := by
  funext b
  simp only [Copies.part, fileCopies, here, Option.bind_some]

theorem part_fileCopies_none {name : String} (missing : c.slot name = none) : c.fileCopies.part name = fun _ => none := by
  funext b
  simp only [Copies.part, fileCopies, missing, Option.bind_none]

theorem fileCopies_congr (slots : c'.slot = c.slot) (cached : c'.cache = c.cache) : c'.fileCopies = c.fileCopies := by
  funext a
  rw [fileCopies, slots, cached, fileCopies]

/-- The blocks of one file change. -/
theorem Apart.changed (apart : c.Apart) (c' : PFSClient) (member : file ∈ c.openedFiles) (slots : c'.slot = c.slot)
    (others : ∀ fd, fd ≠ file.descriptor → c'.cache.byte fd = c.cache.byte fd) :
    c'.fileCopies.part file.name = c'.cache.byte file.descriptor ∧
      ∀ other, other ≠ file.name → c'.fileCopies.part other = c.fileCopies.part other := by
  have here := apart.slot member
  refine ⟨part_fileCopies (by rw [slots, here]), fun other different => ?_⟩
  cases there : c.slot other with
  | none => rw [part_fileCopies_none there, part_fileCopies_none (by rw [slots, there])]
  | some fd =>
      rw [part_fileCopies there, part_fileCopies (by rw [slots, there]), others]
      rintro rfl
      exact different (apart.slot_inj member there)

/-- No block of another file changes. -/
theorem byte_of_find {cache cache' : Cache} {fd : Nat} (same : ∀ a, cache'.find fd a = cache.find fd a) :
    cache'.byte fd = cache.byte fd := by
  funext b
  rw [Cache.byte, Cache.byte, same]

theorem byte_of_set {cache cache' : Cache} {filedes a : Nat} {value : Option CacheBlock}
    (contents : cache'.find = Cache.set cache.find filedes a value) {fd : Nat} (different : fd ≠ filedes) :
    cache'.byte fd = cache.byte fd := by
  refine byte_of_find fun a' => ?_
  rw [contents, Cache.set, if_neg fun key => different key.1]

/-! ## The loops leave the other files alone -/

variable {cache cache' : Cache} {filedes : Nat} {bytes : FileBytes}

theorem readLoop_others {ps : List (Nat × Nat)} {buffer buffer' : Nat → UInt8} (wf : cache.WF)
    (done : readLoop filedes bytes ps cache buffer = some (cache', buffer')) {fd : Nat} (different : fd ≠ filedes) :
    cache'.byte fd = cache.byte fd := by
  induction ps generalizing cache buffer with
  | nil =>
      obtain ⟨rfl, -⟩ := Prod.mk.inj (Option.some.inj done)
      rfl
  | cons piece rest ih =>
      obtain ⟨offset, size⟩ := piece
      rw [readLoop_cons] at done
      obtain ⟨⟨cache₁, cacheData⟩, first, done⟩ := Option.bind_eq_some_iff.mp done
      obtain ⟨wf₁, same⟩ : cache₁.WF ∧ cache₁.byte fd = cache.byte fd := by
        cases found : cache.find filedes (blockOf offset) with
        | some block =>
            obtain ⟨wf₁, contents, answer⟩ := Cache.readBlock_spec wf filedes (blockOf offset)
            rw [found, Option.map_some] at answer
            rw [show cache.readBlock filedes (blockOf offset) = (_, some block.data) from Prod.ext rfl answer] at first
            obtain ⟨rfl, -⟩ := Prod.mk.inj (Option.some.inj first)
            exact ⟨wf₁, byte_of_find fun a => by rw [contents]⟩
        | none =>
            rw [Cache.readBlock_missing found] at first
            obtain ⟨cache₂, added, made⟩ := Option.map_eq_some_iff.mp first
            obtain ⟨rfl, -⟩ := Prod.mk.inj made
            obtain ⟨wf₁, -, contents⟩ := Cache.addBlock_spec wf found added
            exact ⟨wf₁, byte_of_set contents different⟩
      rw [ih wf₁ done, same]

theorem writeLoop_others {ps : List (Nat × Nat)} {data : Nat → UInt8} (wf : cache.WF) (one : ∀ piece ∈ ps, OneBlock piece)
    (done : writeLoop filedes bytes data ps cache = some cache') {fd : Nat} (different : fd ≠ filedes) :
    cache'.byte fd = cache.byte fd := by
  induction ps generalizing cache with
  | nil =>
      obtain rfl := Option.some.inj done
      rfl
  | cons piece rest ih =>
      obtain ⟨offset, size⟩ := piece
      have inBlock := one (offset, size) List.mem_cons_self
      rw [writeLoop_cons] at done
      obtain ⟨cache₁, first, done⟩ := Option.bind_eq_some_iff.mp done
      have written : ∀ {cache : Cache}, cache.WF →
          (cache.write filedes offset size fun i => data (offset + i)).1.WF ∧
            (cache.write filedes offset size fun i => data (offset + i)).1.byte fd = cache.byte fd := by
        intro cache wf
        obtain ⟨wf₁, -, contents⟩ := Cache.write_spec wf filedes offset (fun i => data (offset + i)) inBlock.1
        exact ⟨wf₁, byte_of_set contents different⟩
      obtain ⟨wf₁, same⟩ : cache₁.WF ∧ cache₁.byte fd = cache.byte fd := by
        cases found : cache.find filedes (blockOf offset) with
        | some block =>
            obtain ⟨-, answer, -⟩ := Cache.write_spec wf filedes offset (fun i => data (offset + i)) inBlock.1
            rw [found, Option.isSome_some] at answer
            rw [show cache.write filedes offset size (fun i => data (offset + i)) = (_, true) from Prod.ext rfl answer]
              at first
            obtain rfl := Option.some.inj first
            exact written wf
        | none =>
            rw [Cache.write_missing found] at first
            obtain ⟨cache₂, added, rfl⟩ := Option.map_eq_some_iff.mp first
            obtain ⟨wf₂, -, contents⟩ := Cache.addBlock_spec wf found added
            obtain ⟨wf₁, same⟩ := written wf₂
            exact ⟨wf₁, same.trans (byte_of_set contents different)⟩
      rw [ih wf₁ (fun piece member => one piece (List.mem_cons_of_mem _ member)) done, same]

end PFSClient

/-! ## What the calls do to the copies -/

/-- One file on the file servers is written to. -/
theorem store_writeBack {m : Copies (String × Nat) UInt8} {store : String → FileBytes} {name : String} {bytes : FileBytes}
    {A : Set Nat} (written : bytes = (m.part name).writeBack A (store name)) :
    Function.uncurry (Function.update store name bytes) = m.writeBack (under name A) (Function.uncurry store) := by
  refine Copies.eq_writeBack_under ?_ ?_
  · simp only [Function.uncurry_apply_pair, Function.update_self]
    exact written
  · intro other a different
    simp only [Function.uncurry_apply_pair, Function.update_of_ne different]

namespace ManyFiles

open PFSClient (Apart)

variable {f f' : ManyFiles} {file : ClientFile}

/-- The invariant is not about the file servers. -/
theorem Inv.restored (h : f.Inv) (same : f'.client = f.client) : f'.Inv := by
  obtain ⟨client, store⟩ := f'
  obtain rfl : client = f.client := same
  exact ⟨h.wf, h.distinct, h.numbered, h.ordered, h.held⟩

/-- The client drops the copies in `A`, and what is dirty among them gets to the file servers. -/
structure Drops (f f' : ManyFiles) (A : Set (String × Nat)) : Prop where
  copies : f'.client.fileCopies = f.client.fileCopies.drop A
  store : Function.uncurry f'.store = f.client.fileCopies.writeBack A (Function.uncurry f.store)

/-- The evictions of some blocks of one file. -/
theorem Inv.evictBlocks_drops (h : f.Inv) (apart : f.client.Apart) (member : file ∈ f.client.openedFiles)
    {blocks : List Nat} {cache : Cache} {bytes : FileBytes} {c : PFSClient}
    (evicted : f.client.evictBlocks file.descriptor blocks f.client.cache (f.store file.name) = some (cache, bytes))
    (cached : c.cache = cache) (slots : c.slot = f.client.slot) :
    Drops f ⟨c, Function.update f.store file.name bytes⟩ (under file.name (bytesOf blocks)) := by
  subst cached
  obtain ⟨-, copies, stored⟩ := PFSClient.evictBlocks_bytes h.sound evicted
  obtain ⟨-, contents⟩ := PFSClient.evictBlocks_find h.wf evicted
  have before := PFSClient.part_fileCopies (apart.slot member)
  obtain ⟨after, others⟩ := apart.changed c member slots fun fd different =>
    PFSClient.byte_of_find fun a => by rw [contents, if_neg fun key => different key.1]
  refine ⟨Copies.eq_drop_under ?_ others, store_writeBack ?_⟩
  · rw [after, before, copies]
  · rw [before, stored]

/-- Nothing changes under a name that is not open. -/
theorem Drops.of_missing {name : String} (missing : f.client.slot name = none) (A : Set Nat) :
    Drops f f (under name A) := by
  have none := PFSClient.part_fileCopies_none missing
  refine ⟨Copies.eq_drop_under ?_ fun _ _ => rfl, Copies.eq_writeBack_under ?_ fun _ _ _ => rfl⟩
  · rw [none]
    funext b
    simp only [Copies.drop, ite_self]
  · rw [none]
    exact (Copies.writeBack_of_clean fun b _ dirty => by obtain ⟨x, copy⟩ := dirty; cases copy).symm

theorem Inv.revokePermission_drops (h : f.Inv) (apart : f.client.Apart) {name : String} {start stop : Nat}
    (done : f.revokePermission name start stop = some f') : Drops f f' (under name (bytesOf (blocksFrom start stop))) := by
  obtain ⟨⟨c, bytes⟩, revoked, rfl⟩ := Option.map_eq_some_iff.mp done
  unfold PFSClient.revokePermission at revoked
  split at revoked
  · next missing =>
      obtain ⟨rfl, rfl⟩ := Prod.mk.inj (Option.some.inj revoked)
      have absent : f.client.slot name = none := by
        rw [PFSClient.slot, List.find?_eq_bind_findIdx?_getElem?, missing]
        rfl
      rw [Function.update_eq_self]
      exact .of_missing absent _
  · next i found =>
      simp only [Option.bind_eq_bind] at revoked
      obtain ⟨file, at_i, revoked⟩ := Option.bind_eq_some_iff.mp revoked
      obtain ⟨-, revoked⟩ := Option.ite_none_left_eq_some.mp revoked
      obtain ⟨⟨cache, flushed⟩, evicted, revoked⟩ := Option.bind_eq_some_iff.mp revoked
      obtain ⟨rfl, rfl⟩ := Prod.mk.inj (Option.some.inj revoked)
      obtain rfl : file.name = name := by
        obtain ⟨inside, named, -⟩ := List.findIdx?_eq_some_iff_getElem.mp found
        obtain ⟨-, rfl⟩ := List.getElem?_eq_some_iff.mp at_i
        exact of_decide_eq_true named
      refine h.evictBlocks_drops apart (List.mem_of_getElem? at_i) evicted rfl ?_
      exact PFSClient.slot_setFile { file with permissions := PFS.revokePermission start stop file.permissions } at_i rfl rfl
        cache

/-- The file of a cached block. -/
theorem Inv.flushes (h : f.Inv) {fd a : Nat} {block : CacheBlock} (found : f.client.cache.find fd a = some block) :
    ∃ file ∈ f.client.openedFiles, file.descriptor = fd ∧
      f.flushed (some block) = some (Function.update f.store file.name (writeBlock (f.store file.name) block)) := by
  obtain ⟨file, member, same, -⟩ := h.held fd a (by rw [found]; rfl)
  obtain ⟨fdes, -, -⟩ := h.wf.block found
  refine ⟨file, member, same, ?_⟩
  have present : (f.client.openedFiles.find? fun file => file.descriptor = block.fdes).isSome = true :=
    List.find?_isSome.mpr ⟨file, member, decide_eq_true (same.trans fdes.symm)⟩
  obtain ⟨other, first⟩ := Option.isSome_iff_exists.mp present
  have here : other.descriptor = block.fdes := by simpa using List.find?_some first
  rw [flushed, first, Option.map_some, h.unique member (List.mem_of_find?_eq_some first) (here.trans (fdes.trans same.symm))]

theorem Inv.harvest_drops (h : f.Inv) (apart : f.client.Apart) (done : f.harvest = some f') : ∃ A, Drops f f' A := by
  obtain ⟨⟨cache, flushed⟩, harvested, done⟩ := Option.bind_eq_some_iff.mp done
  obtain ⟨store, written, done⟩ := Option.bind_eq_some_iff.mp done
  obtain rfl := Option.some.inj done
  obtain ⟨-, fd, a, victim, found, contents, rfl, -⟩ := Cache.harvestIteration_spec h.wf harvested
  obtain ⟨file, member, rfl, finds⟩ := h.flushes found
  have before := PFSClient.part_fileCopies (apart.slot member)
  obtain ⟨after, others⟩ := apart.changed { f.client with cache := cache } member rfl fun fd different =>
    PFSClient.byte_of_set contents different
  refine ⟨under file.name (bytesOf [a]), Copies.eq_drop_under ?_ others, ?_⟩
  · rw [after, before, Cache.byte_drop contents]
  · unfold Cache.writtenBack at written
    split at written
    · next clean =>
        obtain rfl := Option.some.inj written
        have same : Function.uncurry (Function.update f.store file.name (f.store file.name)) =
            f.client.fileCopies.writeBack (under file.name (bytesOf [a])) (Function.uncurry f.store) := by
          refine store_writeBack ?_
          rw [before, PFSClient.writeBack_clean h.sound found clean]
        rwa [Function.update_eq_self] at same
    · obtain rfl := Option.some.inj (finds.symm.trans written)
      refine store_writeBack ?_
      rw [before, PFSClient.writeBlock_writeBack h.sound found]

/-- The flusher writes back the dirty copies in some set, and keeps them. -/
theorem Inv.flush_cleans (h : f.Inv) (apart : f.client.Apart) (done : f.flush = some f') : ∃ A,
    f'.client.fileCopies = f.client.fileCopies.clean A ∧
      Function.uncurry f'.store = f.client.fileCopies.writeBack A (Function.uncurry f.store) := by
  obtain ⟨store, written, rfl⟩ := Option.map_eq_some_iff.mp done
  obtain ⟨-, idle | ⟨fd, a, block, found, flushed, contents⟩⟩ := Cache.flushIteration_spec h.wf
  · rw [idle] at written ⊢
    obtain rfl := Option.some.inj written
    refine ⟨∅, ?_, ?_⟩
    · funext b
      simp only [Copies.clean, Set.mem_empty_iff_false, if_false]
    · exact (Copies.writeBack_of_clean fun b inside => (Set.notMem_empty b inside).elim).symm
  · obtain ⟨file, member, rfl, finds⟩ := h.flushes found
    rw [flushed] at written
    obtain rfl := Option.some.inj (finds.symm.trans written)
    have before := PFSClient.part_fileCopies (apart.slot member)
    obtain ⟨after, others⟩ := apart.changed { f.client with cache := f.client.cache.flushIteration.1 } member rfl
      fun fd different => PFSClient.byte_of_set contents different
    refine ⟨under file.name (bytesOf [a]), Copies.eq_clean_under ?_ others, store_writeBack ?_⟩
    · rw [after, before, Cache.byte_clean found contents]
    · rw [before, PFSClient.writeBlock_writeBack h.sound found]

/-- Reads and writes keep the invariant, once the client has its token. -/
theorem Inv.readBytes (h : f.Inv) {i offset nbyte : Nat} {c : PFSClient} {bytes : FileBytes} {buffer : Nat → UInt8}
    (at_i : f.client.openedFiles[i]? = some file)
    (covered : ∀ b ∈ bytesIn offset (offset + nbyte), Grants file.permissions false b)
    (done : f.client.readBytes bytes i file.descriptor offset nbyte = some (c, buffer)) (store : String → FileBytes) :
    Inv ⟨c, store⟩ := by
  simp only [PFSClient.readBytes, at_i, Option.bind_eq_bind, Option.bind_some] at done
  obtain ⟨⟨cache, copied⟩, read, done⟩ := Option.bind_eq_some_iff.mp done
  obtain ⟨rfl, -⟩ := Prod.mk.inj (Option.some.inj done)
  obtain ⟨wf, loaded⟩ := PFSClient.readLoop_loaded h.wf PFSClient.piece_rangeBlocks read
  exact h.accessed at_i covered wf loaded rfl rfl

theorem Inv.writeBytes (h : f.Inv) {i offset nbyte : Nat} {c : PFSClient} {bytes : FileBytes} {data : Nat → UInt8}
    (at_i : f.client.openedFiles[i]? = some file)
    (covered : ∀ b ∈ bytesIn offset (offset + nbyte), Grants file.permissions false b)
    (done : f.client.writeBytes bytes i file.descriptor offset nbyte data = some c) (store : String → FileBytes) :
    Inv ⟨c, store⟩ := by
  simp only [PFSClient.writeBytes, at_i, Option.bind_eq_bind, Option.bind_some] at done
  obtain ⟨cache, written, done⟩ := Option.bind_eq_some_iff.mp done
  obtain rfl := Option.some.inj done
  obtain ⟨wf, loaded⟩ := PFSClient.writeLoop_loaded h.wf (PFSClient.pieces_oneBlock offset nbyte)
    PFSClient.piece_rangeBlocks written
  exact h.accessed at_i covered wf loaded rfl rfl

/-- A read loads the blocks of its range, and its buffer has the copies. -/
theorem Inv.readBytes_loads (h : f.Inv) (apart : f.client.Apart) {i offset nbyte : Nat} {c : PFSClient}
    {buffer : Nat → UInt8} (at_i : f.client.openedFiles[i]? = some file)
    (done : f.client.readBytes (f.store file.name) i file.descriptor offset nbyte = some (c, buffer)) :
    (∃ A, c.fileCopies = f.client.fileCopies.load A (Function.uncurry f.store)) ∧
      ∀ b ∈ bytesIn offset (offset + nbyte), ∃ d, c.fileCopies (file.name, b) = some (buffer b, d) := by
  have member := List.mem_of_getElem? at_i
  simp only [PFSClient.readBytes, at_i, Option.bind_eq_bind, Option.bind_some] at done
  obtain ⟨⟨cache, copied⟩, read, done⟩ := Option.bind_eq_some_iff.mp done
  obtain ⟨rfl, rfl⟩ := Prod.mk.inj (Option.some.inj done)
  obtain ⟨-, copies, values⟩ := PFSClient.readLoop_bytes h.sound (List.mem_map_of_mem member)
    (PFSClient.pieces_oneBlock offset nbyte) read
  obtain ⟨after, others⟩ := apart.changed _ member (PFSClient.slot_setFile
    { file with permissions := PFSClient.unlockPermission offset (offset + nbyte) file.permissions } at_i rfl rfl cache)
    fun fd different => PFSClient.readLoop_others h.wf read different
  refine ⟨⟨under file.name (PFSClient.pieceBlocks (pieces offset nbyte)), Copies.eq_load_under ?_ others⟩,
    fun b inside => ?_⟩
  · rw [after, PFSClient.part_fileCopies (apart.slot member)]
    exact copies
  · rw [← PFSClient.pieceBytes_pieces] at inside
    obtain ⟨d, value⟩ := values b (.inl inside)
    exact ⟨d, (congrFun after b).trans value⟩

/-- A write loads the blocks of its range and writes the range. -/
theorem Inv.writeBytes_puts (h : f.Inv) (apart : f.client.Apart) {i offset nbyte : Nat} {c : PFSClient}
    {data : Nat → UInt8} (at_i : f.client.openedFiles[i]? = some file)
    (done : f.client.writeBytes (f.store file.name) i file.descriptor offset nbyte data = some c) :
    ∃ A, c.fileCopies = (f.client.fileCopies.load A (Function.uncurry f.store)).put
      (under file.name (bytesIn offset (offset + nbyte))) fun a => data (a.2 - offset) := by
  have member := List.mem_of_getElem? at_i
  simp only [PFSClient.writeBytes, at_i, Option.bind_eq_bind, Option.bind_some] at done
  obtain ⟨cache, written, done⟩ := Option.bind_eq_some_iff.mp done
  obtain rfl := Option.some.inj done
  obtain ⟨-, copies⟩ := PFSClient.writeLoop_bytes h.sound (List.mem_map_of_mem member)
    (PFSClient.pieces_oneBlock offset nbyte) written
  obtain ⟨after, others⟩ := apart.changed _ member (PFSClient.slot_setFile
    { file with
      hasModified := true
      size := max file.size ((offset + nbyte) % uint32Size)
      permissions := PFSClient.unlockPermission offset (offset + nbyte) file.permissions } at_i rfl rfl cache)
    fun fd different => PFSClient.writeLoop_others h.wf (PFSClient.pieces_oneBlock offset nbyte) written different
  refine ⟨under file.name (PFSClient.pieceBlocks (pieces offset nbyte)),
    Copies.eq_put_under (fun b => data (b - offset)) ?_ fun other different => ?_⟩
  · rw [after, Copies.part_load, PFSClient.part_fileCopies (apart.slot member), ← PFSClient.pieceBytes_pieces]
    exact copies
  · rw [others other different, Copies.part_load_other _ _ _ different]

/-- A file that has just been opened has no copies. -/
theorem Inv.openFile_copies (h : f.Inv) {filename : String} (absent : f.client.slot filename = none)
    (reply : FileStatReply) : (f.openFile filename (some reply)).client.fileCopies = f.client.fileCopies := by
  have fresh : ∀ a, f.client.cache.find (f.client.descriptorCount + 1) a = none := by
    intro a
    cases found : f.client.cache.find (f.client.descriptorCount + 1) a with
    | none => rfl
    | some block =>
        obtain ⟨file, member, same, -⟩ := h.held _ a (by rw [found]; rfl)
        have low := h.numbered file member
        omega
  have missing : (f.client.openedFiles.find? fun file => file.name = filename) = none := Option.map_eq_none_iff.mp absent
  funext ⟨name, b⟩
  simp only [PFSClient.fileCopies, PFSClient.slot, ManyFiles.openFile, List.find?_append, List.find?_singleton]
  by_cases here : filename = name
  · subst here
    rw [missing]
    simp only [Option.none_or, decide_true, if_true, Option.map_some, Option.bind_some, Cache.byte, fresh, Option.map_none,
      Option.bind_none]
  · simp only [here, decide_false, Bool.false_eq_true, if_false, Option.or_none]

/-- Closing a file drops its copies. -/
theorem Inv.closed_drops (h : f.Inv) (apart : f.client.Apart) {i : Nat} (at_i : f.client.openedFiles[i]? = some file)
    {cache : Cache} {bytes : FileBytes} (evicted : World.evictTokens f.client file.descriptor file.permissions
      f.client.cache (f.store file.name) = some (cache, bytes)) :
    Drops f ⟨{ f.client with cache := cache, openedFiles := f.client.openedFiles.eraseIdx i },
      Function.update f.store file.name bytes⟩
        (under file.name (bytesOf (PFSClient.tokenBlocks file.permissions))) ∧
      ∀ b, PFSClient.fileCopies { f.client with cache := cache, openedFiles := f.client.openedFiles.eraseIdx i }
        (file.name, b) = none := by
  have member := List.mem_of_getElem? at_i
  obtain ⟨cache', bytes', evicted', emptied⟩ := h.emptied member
  obtain ⟨rfl, rfl⟩ := Prod.mk.inj (Option.some.inj (evicted'.symm.trans evicted))
  rw [PFSClient.evictTokens_eq] at evicted
  have drops := h.evictBlocks_drops (c := { f.client with cache := cache' }) apart member evicted rfl rfl
  have none : ∀ b, PFSClient.fileCopies { f.client with
      cache := cache', openedFiles := f.client.openedFiles.eraseIdx i } (file.name, b) = none := by
    intro b
    rw [PFSClient.fileCopies, apart.slot_eraseIdx at_i, if_pos rfl, Option.bind_none]
  refine ⟨⟨?_, drops.store⟩, none⟩
  refine Eq.trans ?_ drops.copies
  funext ⟨name, b⟩
  by_cases here : name = file.name
  · subst here
    rw [none, PFSClient.fileCopies, show PFSClient.slot { f.client with cache := cache' } = f.client.slot from rfl,
      apart.slot member, Option.bind_some, Cache.byte, emptied.gone, Option.map_none]
  · rw [PFSClient.fileCopies, apart.slot_eraseIdx at_i, if_neg here]
    rfl

end ManyFiles

end PFS
