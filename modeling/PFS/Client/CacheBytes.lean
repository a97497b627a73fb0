import PFS.Client.PFSClient
import PFS.Lib.Coherence

/-! # A client's copies of the bytes of a file

The cache byte by byte: the copy it has of each byte of a file, as the library on
copies of a store speaks of it.  Evicting and flushing blocks writes copies back,
the loops of `readFile` and `writeFile` load copies and write them.
-/

namespace PFS

open Lib

/-- The bytes of some blocks. -/
def bytesOf (blocks : List Nat) : Set Nat := {b | blockOf b ∈ blocks}

/-- The bytes of a range. -/
def bytesIn (start stop : Nat) : Set Nat := {b | start ≤ b ∧ b < stop}

theorem mem_bytesIn {start stop b : Nat} : b ∈ bytesIn start stop ↔ start ≤ b ∧ b < stop := Iff.rfl

namespace Cache

/-- The copy of a byte. -/
def byte (c : Cache) (fileDes b : Nat) : Option (UInt8 × Bool) :=
  (c.find fileDes (blockOf b)).map fun block => (block.data (b - blockOf b), block.dirty (b - blockOf b))

/-- A cache between operations that has blocks of these files only. -/
structure Sound (c : Cache) (files : List Nat) : Prop where
  wf : c.WF
  aligned : ∀ fileDes a block, c.find fileDes a = some block → a % pfsBlockSizeInBytes = 0
  known : ∀ fileDes a block, c.find fileDes a = some block → fileDes ∈ files

variable {c c' : Cache} {files : List Nat} {fileDes a : Nat}

theorem init_sound (files : List Nat) : Cache.init.Sound files where
  wf := init_wf
  aligned fileDes a block found := by rw [init_find] at found; cases found
  known fileDes a block found := by rw [init_find] at found; cases found

theorem init_byte (fileDes b : Nat) : Cache.init.byte fileDes b = none := by rw [byte, init_find, Option.map_none]

/-- One block changes. -/
theorem Sound.set (h : c.Sound files) {value : Option CacheBlock} (wf : c'.WF)
    (contents : c'.find = Cache.set c.find fileDes a value)
    (key : value.isSome → fileDes ∈ files ∧ a % pfsBlockSizeInBytes = 0) : c'.Sound files := by
  refine ⟨wf, ?_, ?_⟩
  all_goals
    intro fileDes' a' block found
    rw [contents, Cache.set] at found
    split at found
  · next same => rw [same.2]; exact (key (by rw [found]; rfl)).2
  · exact h.aligned fileDes' a' block found
  · next same => rw [same.1]; exact (key (by rw [found]; rfl)).1
  · exact h.known fileDes' a' block found

/-- No block changes. -/
theorem Sound.congr (h : c.Sound files) (wf : c'.WF) (contents : c'.find = c.find) :
    c'.Sound files ∧ c'.byte = c.byte := by
  refine ⟨⟨wf, by rw [contents]; exact h.aligned, by rw [contents]; exact h.known⟩, ?_⟩
  funext fileDes b
  rw [byte, contents, byte]

theorem byte_set {value : Option CacheBlock} (contents : c'.find = Cache.set c.find fileDes a value) (b : Nat) :
    c'.byte fileDes b =
      if blockOf b = a then value.map fun block => (block.data (b - blockOf b), block.dirty (b - blockOf b))
      else c.byte fileDes b := by
  simp only [byte, contents, Cache.set, true_and]
  split <;> rfl

/-- A block leaves the cache. -/
theorem byte_drop (contents : c'.find = Cache.set c.find fileDes a none) :
    c'.byte fileDes = Copies.drop (c.byte fileDes) (bytesOf [a]) := by
  funext b
  rw [byte_set contents]
  simp only [Copies.drop, bytesOf, Set.mem_ofPred_eq, List.mem_singleton, Option.map_none]

/-- A block is written back and stays. -/
theorem byte_clean {block : CacheBlock} (found : c.find fileDes a = some block)
    (contents : c'.find = Cache.set c.find fileDes a (some block.resetDirty)) :
    c'.byte fileDes = Copies.clean (c.byte fileDes) (bytesOf [a]) := by
  funext b
  rw [byte_set contents]
  simp only [Copies.clean, bytesOf, Set.mem_ofPred_eq, List.mem_singleton]
  split
  · next here =>
      subst here
      rw [byte, found]
      rfl
  · rfl

end Cache

namespace PFSClient

variable {client : PFSClient} {c c' : Cache} {files : List Nat} {fileDes a : Nat} {bytes bytes' : FileBytes}

/-- The bytes on the file servers after a cached block has been flushed. -/
theorem writeBlock_writeBack {block : CacheBlock} (h : c.Sound files) (found : c.find fileDes a = some block) :
    writeBlock bytes block = Copies.writeBack (c.byte fileDes) (bytesOf [a]) bytes := by
  obtain ⟨-, addr, -⟩ := h.wf.block found
  have aligned := h.aligned _ _ _ found
  rw [← addr] at aligned
  funext b
  rw [writeBlock_at aligned, addr]
  simp only [Copies.writeBack, bytesOf, Set.mem_ofPred_eq, List.mem_singleton]
  by_cases here : blockOf b = a
  · subst here
    simp only [Cache.byte, found, Option.map_some, true_and, if_true]
    cases block.dirty (b - blockOf b) with
    | true => rfl
    | false => rfl
  · rw [if_neg here, if_neg (fun both => here both.1)]

/-- A clean block has nothing to write back. -/
theorem writeBack_clean {block : CacheBlock} (h : c.Sound files) (found : c.find fileDes a = some block)
    (clean : block.clean = true) : Copies.writeBack (c.byte fileDes) (bytesOf [a]) bytes = bytes := by
  obtain ⟨-, -, mask⟩ := h.wf.block found
  apply Copies.writeBack_of_clean
  rintro b here ⟨x, copy⟩
  simp only [bytesOf, Set.mem_ofPred_eq, List.mem_singleton] at here
  subst here
  rw [Cache.byte, found, Option.map_some, mask clean] at copy
  cases copy

theorem flush_writeBack {block : CacheBlock} (h : c.Sound files) (found : c.find fileDes a = some block)
    (done : client.flush block bytes = some bytes') :
    bytes' = Copies.writeBack (c.byte fileDes) (bytesOf [a]) bytes := by
  simp only [flush] at done
  obtain ⟨-, done⟩ := Option.ite_none_right_eq_some.mp done
  obtain rfl := Option.some.inj done
  exact writeBlock_writeBack h found

theorem flushed_writeBack {block : CacheBlock} (h : c.Sound files) (found : c.find fileDes a = some block)
    (done : client.flushed bytes (Cache.writtenBack block) = some bytes') :
    bytes' = Copies.writeBack (c.byte fileDes) (bytesOf [a]) bytes := by
  unfold Cache.writtenBack at done
  split at done
  · next clean =>
      obtain rfl := Option.some.inj done
      exact (writeBack_clean h found clean).symm
  · exact flush_writeBack h found done

/-- `evictBlock` with its flush. -/
theorem evictBlock_bytes (h : c.Sound files)
    (done : client.flushed bytes (c.evictBlock fileDes a).2 = some bytes') :
    (c.evictBlock fileDes a).1.Sound files ∧
      (c.evictBlock fileDes a).1.byte fileDes = Copies.drop (c.byte fileDes) (bytesOf [a]) ∧
      bytes' = Copies.writeBack (c.byte fileDes) (bytesOf [a]) bytes := by
  obtain ⟨wf, contents, flushed⟩ := Cache.evictBlock_spec h.wf fileDes a
  refine ⟨h.set wf contents nofun, Cache.byte_drop contents, ?_⟩
  rw [flushed] at done
  cases found : c.find fileDes a with
  | none =>
      rw [found] at done
      obtain rfl := Option.some.inj done
      funext b
      rw [Copies.writeBack_other]
      rintro ⟨here, x, copy⟩
      simp only [bytesOf, Set.mem_ofPred_eq, List.mem_singleton] at here
      subst here
      rw [Cache.byte, found] at copy
      cases copy
  | some block =>
      rw [found] at done
      exact flushed_writeBack h found done

theorem evictBlocks_bytes {blocks : List Nat} (h : c.Sound files)
    (done : client.evictBlocks fileDes blocks c bytes = some (c', bytes')) :
    c'.Sound files ∧ c'.byte fileDes = Copies.drop (c.byte fileDes) (bytesOf blocks) ∧
      bytes' = Copies.writeBack (c.byte fileDes) (bytesOf blocks) bytes := by
  induction blocks generalizing c bytes with
  | nil =>
      obtain ⟨rfl, rfl⟩ := Prod.mk.inj (Option.some.inj done)
      refine ⟨h, ?_, ?_⟩
      · funext b
        simp [Copies.drop, bytesOf]
      · funext b
        simp [Copies.writeBack, bytesOf]
  | cons a rest ih =>
      simp only [evictBlocks, Option.bind_eq_bind] at done
      obtain ⟨bytes₁, first, done⟩ := Option.bind_eq_some_iff.mp done
      obtain ⟨sound, copies, store⟩ := evictBlock_bytes h first
      obtain ⟨sound', copies', store'⟩ := ih sound done
      have both : bytesOf [a] ∪ bytesOf rest = bytesOf (a :: rest) := by
        ext b
        simp [bytesOf]
      refine ⟨sound', ?_, ?_⟩
      · rw [copies', copies, Copies.drop_drop, both]
      · rw [store', copies, store, Copies.writeBack_drop, both]

/-- The evictions of a revocation reach every byte of its range. -/
theorem bytesIn_blocksFrom {start stop : Nat} : bytesIn start stop ⊆ bytesOf (blocksFrom start stop) := by
  rintro b ⟨low, high⟩
  simp only [bytesOf, blocksFrom, Set.mem_ofPred_eq, List.mem_map, List.mem_range]
  refine ⟨b / pfsBlockSizeInBytes - start / pfsBlockSizeInBytes, ?_, ?_⟩
  all_goals
    simp only [blockOf, pfsBlockSizeInBytes]
    omega

/-! ## The loops -/

/-- A piece of a range that lies in one block. -/
def OneBlock (piece : Nat × Nat) : Prop :=
  0 < piece.2 ∧ piece.1 % pfsBlockSizeInBytes + piece.2 ≤ pfsBlockSizeInBytes

/-- The bytes of some pieces, and those of their blocks. -/
def pieceBytes (ps : List (Nat × Nat)) : Set Nat := {b | ∃ piece ∈ ps, b ∈ bytesIn piece.1 (piece.1 + piece.2)}

def pieceBlocks (ps : List (Nat × Nat)) : Set Nat := bytesOf (ps.map fun piece => blockOf piece.1)

theorem OneBlock.blockOf_eq {piece : Nat × Nat} (h : OneBlock piece) {b : Nat}
    (inside : b ∈ bytesIn piece.1 (piece.1 + piece.2)) : blockOf b = blockOf piece.1 := by
  simp only [OneBlock, bytesIn, Set.mem_ofPred_eq, blockOf, pfsBlockSizeInBytes] at *
  omega

theorem pieceBytes_cons (piece : Nat × Nat) (rest : List (Nat × Nat)) :
    pieceBytes (piece :: rest) = bytesIn piece.1 (piece.1 + piece.2) ∪ pieceBytes rest := by
  ext b
  simp [pieceBytes]

theorem pieceBlocks_cons (piece : Nat × Nat) (rest : List (Nat × Nat)) :
    pieceBlocks (piece :: rest) = bytesOf [blockOf piece.1] ∪ pieceBlocks rest := by
  ext b
  simp [pieceBlocks, bytesOf]

theorem piecesFrom_spec {fuel : Nat} (offset nbyte : Nat) (enough : nbyte ≤ fuel) :
    (∀ piece ∈ piecesFrom fuel offset nbyte, OneBlock piece) ∧
      pieceBytes (piecesFrom fuel offset nbyte) = bytesIn offset (offset + nbyte) := by
  induction fuel generalizing offset nbyte with
  | zero =>
      refine ⟨nofun, ?_⟩
      ext b
      simp only [piecesFrom, pieceBytes, bytesIn, Set.mem_ofPred_eq, List.not_mem_nil, false_and, exists_false,
        false_iff]
      omega
  | succ fuel ih =>
      unfold piecesFrom
      split
      · next empty =>
          refine ⟨nofun, ?_⟩
          ext b
          simp only [pieceBytes, bytesIn, Set.mem_ofPred_eq, List.not_mem_nil, false_and, exists_false, false_iff]
          omega
      · next some =>
          have small : offset % pfsBlockSizeInBytes < pfsBlockSizeInBytes := Nat.mod_lt _ (by decide)
          obtain ⟨ones, covered⟩ := ih
            (offset + min (pfsBlockSizeInBytes - offset % pfsBlockSizeInBytes) nbyte)
            (nbyte - min (pfsBlockSizeInBytes - offset % pfsBlockSizeInBytes) nbyte) (by omega)
          refine ⟨?_, ?_⟩
          · intro piece member
            rcases List.mem_cons.mp member with rfl | member
            · constructor
              all_goals
                simp only
                omega
            · exact ones piece member
          · rw [pieceBytes_cons, covered]
            ext b
            simp only [bytesIn, Set.mem_union, Set.mem_ofPred_eq]
            omega

theorem pieces_oneBlock (offset nbyte : Nat) : ∀ piece ∈ pieces offset nbyte, OneBlock piece :=
  (piecesFrom_spec offset nbyte (Nat.le_refl nbyte)).1

theorem pieceBytes_pieces (offset nbyte : Nat) :
    pieceBytes (pieces offset nbyte) = bytesIn offset (offset + nbyte) := (piecesFrom_spec offset nbyte (Nat.le_refl nbyte)).2

theorem piece_inside {offset nbyte : Nat} : ∀ piece ∈ pieces offset nbyte, piece.1 ∈ bytesIn offset (offset + nbyte) := by
  intro piece member
  rw [← pieceBytes_pieces]
  exact ⟨piece, member, Nat.le_refl _, Nat.lt_add_of_pos_right (pieces_oneBlock offset nbyte piece member).1⟩

/-- `addBlock` of a block that the file servers still have like that. -/
theorem addBlock_bytes (h : c.Sound files) (member : fileDes ∈ files) (absent : c.find fileDes a = none)
    {cacheData : Nat → UInt8} (stored : ∀ i, i < pfsBlockSizeInBytes → cacheData i = bytes (a + i))
    (added : c.addBlock fileDes a cacheData = some c') :
    c'.Sound files ∧ c'.find fileDes a = some (Cache.fetched fileDes a cacheData) ∧
      c'.byte fileDes = Copies.load (c.byte fileDes) (bytesOf [a]) bytes := by
  obtain ⟨wf, aligned, contents⟩ := Cache.addBlock_spec h.wf absent added
  refine ⟨h.set wf contents (fun _ => ⟨member, aligned⟩), ?_, ?_⟩
  · rw [contents, Cache.set_self]
  · funext b
    rw [Cache.byte_set contents]
    simp only [Copies.load, bytesOf, Set.mem_ofPred_eq, List.mem_singleton]
    split
    · next here =>
        subst here
        have low := blockOf_le b
        have high := lt_blockOf_add b
        rw [Cache.byte, absent]
        simp only [Option.map_some, Option.map_none, Option.getD_none, Cache.fetched]
        rw [stored _ (by omega), Nat.add_sub_cancel' low]
    · rfl

/-- The bytes of a cached block have copies. -/
theorem byte_isSome {block : CacheBlock} (found : c.find fileDes a = some block) :
    ∀ b ∈ bytesOf [a], (c.byte fileDes b).isSome := by
  intro b here
  simp only [bytesOf, Set.mem_ofPred_eq, List.mem_singleton] at here
  rw [Cache.byte, here, found]
  rfl

/-- `write` of a piece whose block is in the cache. -/
theorem write_bytes (h : c.Sound files) {offset size : Nat} (data : Nat → UInt8) (one : OneBlock (offset, size))
    {block : CacheBlock} (found : c.find fileDes (blockOf offset) = some block) :
    (c.write fileDes offset size (fun i => data (offset + i))).1.Sound files ∧
      (c.write fileDes offset size (fun i => data (offset + i))).1.byte fileDes =
        Copies.put (c.byte fileDes) (bytesIn offset (offset + size)) data := by
  obtain ⟨wf, -, contents⟩ := Cache.write_spec h.wf fileDes offset (fun i => data (offset + i)) one.1
  rw [found, Option.map_some] at contents
  refine ⟨h.set wf contents (fun _ => ⟨h.known _ _ _ found, h.aligned _ _ _ found⟩), ?_⟩
  funext b
  rw [Cache.byte_set contents]
  simp only [Copies.put]
  by_cases here : blockOf b = blockOf offset
  · rw [if_pos here]
    simp only [Option.map_some, Cache.patch_data here, Cache.patch_dirty here, mem_bytesIn]
    by_cases inside : offset ≤ b ∧ b < offset + size
    · rw [if_pos inside, if_pos inside, if_pos inside, Nat.add_sub_cancel' inside.1]
    · rw [if_neg inside, if_neg inside, if_neg inside, Cache.byte, here, found]
      rfl
  · rw [if_neg here, if_neg (fun inside => here (one.blockOf_eq inside))]

theorem readLoop_cons (offset size : Nat) (rest : List (Nat × Nat)) (buffer : Nat → UInt8) :
    readLoop fileDes bytes ((offset, size) :: rest) c buffer =
      (match c.readBlock fileDes (blockOf offset) with
        | (cache, some cacheData) => some (cache, cacheData)
        | (cache, none) =>
            (cache.addBlock fileDes (blockOf offset) (getBlockFromFileServer bytes (blockOf offset))).map
              fun cache => (cache, getBlockFromFileServer bytes (blockOf offset))).bind fun r =>
        readLoop fileDes bytes rest r.1 fun b =>
          if offset ≤ b ∧ b < offset + size then r.2 (b - blockOf offset) else buffer b := by
  rw [readLoop]
  rcases c.readBlock fileDes (blockOf offset) with ⟨cache, _ | cacheData⟩
  · rfl
  · rfl

theorem writeLoop_cons (offset size : Nat) (rest : List (Nat × Nat)) (data : Nat → UInt8) :
    writeLoop fileDes bytes data ((offset, size) :: rest) c =
      (match c.write fileDes offset size (fun i => data (offset + i)) with
        | (cache, true) => some cache
        | (cache, false) =>
            (cache.addBlock fileDes (blockOf offset) (getBlockFromFileServer bytes (blockOf offset))).map
              fun cache => (Cache.write cache fileDes offset size (fun i => data (offset + i))).1).bind fun cache =>
        writeLoop fileDes bytes data rest cache := by
  rw [writeLoop]
  rcases c.write fileDes offset size (fun i => data (offset + i)) with ⟨cache, _ | _⟩
  · rfl
  · rfl

/-- `readFile`'s loop loads the blocks of its pieces, and its buffer has the
    copies. -/
theorem readLoop_bytes {ps : List (Nat × Nat)} {buffer buffer' : Nat → UInt8} (h : c.Sound files)
    (member : fileDes ∈ files) (one : ∀ piece ∈ ps, OneBlock piece)
    (done : readLoop fileDes bytes ps c buffer = some (c', buffer')) :
    c'.Sound files ∧ c'.byte fileDes = Copies.load (c.byte fileDes) (pieceBlocks ps) bytes ∧
      ∀ b, (b ∈ pieceBytes ps ∨ ∃ d, c.byte fileDes b = some (buffer b, d)) →
        ∃ d, c'.byte fileDes b = some (buffer' b, d) := by
  induction ps generalizing c buffer with
  | nil =>
      obtain ⟨rfl, rfl⟩ := Prod.mk.inj (Option.some.inj done)
      refine ⟨h, ?_, ?_⟩
      · funext b
        simp [Copies.load, pieceBlocks, bytesOf]
      · rintro b (⟨_, inside, -⟩ | same)
        · cases inside
        · exact same
  | cons piece rest ih =>
      obtain ⟨offset, size⟩ := piece
      rw [readLoop_cons] at done
      obtain ⟨⟨c₁, cacheData⟩, first, done⟩ := Option.bind_eq_some_iff.mp done
      obtain ⟨sound, copies, values⟩ : c₁.Sound files ∧
          c₁.byte fileDes = Copies.load (c.byte fileDes) (bytesOf [blockOf offset]) bytes ∧
          ∀ b, blockOf b = blockOf offset → ∃ d, c₁.byte fileDes b = some (cacheData (b - blockOf offset), d) := by
        cases found : c.find fileDes (blockOf offset) with
        | some block =>
            obtain ⟨wf, contents, answer⟩ := Cache.readBlock_spec h.wf fileDes (blockOf offset)
            obtain ⟨sound, same⟩ := h.congr wf contents
            rw [found, Option.map_some] at answer
            rw [show c.readBlock fileDes (blockOf offset) = (_, some block.data) from Prod.ext rfl answer] at first
            obtain ⟨rfl, rfl⟩ := Prod.mk.inj (Option.some.inj first)
            refine ⟨sound, ?_, ?_⟩
            · rw [same, Copies.load_of_copies (byte_isSome found)]
            · intro b here
              rw [same, Cache.byte, here, found]
              exact ⟨_, rfl⟩
        | none =>
            rw [Cache.readBlock_missing found] at first
            obtain ⟨c₂, added, made⟩ := Option.map_eq_some_iff.mp first
            obtain ⟨rfl, rfl⟩ := Prod.mk.inj made
            obtain ⟨sound, found', copies⟩ := addBlock_bytes h member found (fun _ _ => rfl) added
            refine ⟨sound, copies, ?_⟩
            intro b here
            rw [Cache.byte, here, found']
            exact ⟨_, rfl⟩
      obtain ⟨sound', copies', agrees⟩ := ih sound (fun p inside => one p (List.mem_cons_of_mem _ inside)) done
      refine ⟨sound', ?_, ?_⟩
      · rw [copies', copies, Copies.load_load, pieceBlocks_cons]
      · intro b before
        apply agrees
        rw [pieceBytes_cons] at before
        by_cases inside : b ∈ bytesIn offset (offset + size)
        · right
          rw [if_pos (mem_bytesIn.mp inside)]
          exact values b ((one _ List.mem_cons_self).blockOf_eq inside)
        · rcases before with (here | later) | ⟨d, same⟩
          · exact (inside here).elim
          · exact .inl later
          · right
            rw [if_neg (fun range => inside (mem_bytesIn.mpr range)), copies]
            exact ⟨d, Copies.load_eq_some.mpr (.inl same)⟩

/-- `writeFile`'s loop loads the blocks of its pieces and writes the pieces. -/
theorem writeLoop_bytes {ps : List (Nat × Nat)} {data : Nat → UInt8} (h : c.Sound files) (member : fileDes ∈ files)
    (one : ∀ piece ∈ ps, OneBlock piece) (done : writeLoop fileDes bytes data ps c = some c') :
    c'.Sound files ∧ c'.byte fileDes =
      Copies.put (Copies.load (c.byte fileDes) (pieceBlocks ps) bytes) (pieceBytes ps) data := by
  induction ps generalizing c with
  | nil =>
      obtain rfl := Option.some.inj done
      refine ⟨h, ?_⟩
      funext b
      simp [Copies.load, Copies.put, pieceBlocks, pieceBytes, bytesOf]
  | cons piece rest ih =>
      obtain ⟨offset, size⟩ := piece
      rw [writeLoop_cons] at done
      obtain ⟨c₁, first, done⟩ := Option.bind_eq_some_iff.mp done
      have inBlock := one _ List.mem_cons_self
      obtain ⟨sound, copies⟩ : c₁.Sound files ∧ c₁.byte fileDes =
          Copies.put (Copies.load (c.byte fileDes) (bytesOf [blockOf offset]) bytes)
            (bytesIn offset (offset + size)) data := by
        cases found : c.find fileDes (blockOf offset) with
        | some block =>
            obtain ⟨-, answer, -⟩ := Cache.write_spec h.wf fileDes offset (fun i => data (offset + i)) inBlock.1
            obtain ⟨sound, copies⟩ := write_bytes h data inBlock found
            rw [found, Option.isSome_some] at answer
            rw [show c.write fileDes offset size (fun i => data (offset + i)) = (_, true) from Prod.ext rfl answer]
              at first
            obtain rfl := Option.some.inj first
            exact ⟨sound, by rw [copies, Copies.load_of_copies (byte_isSome found)]⟩
        | none =>
            rw [Cache.write_missing found] at first
            obtain ⟨c₂, added, rfl⟩ := Option.map_eq_some_iff.mp first
            obtain ⟨sound₂, found₂, copies₂⟩ := addBlock_bytes h member found (fun _ _ => rfl) added
            obtain ⟨sound, copies⟩ := write_bytes sound₂ data inBlock found₂
            exact ⟨sound, by rw [copies, copies₂]⟩
      obtain ⟨sound', copies'⟩ := ih sound (fun p inside => one p (List.mem_cons_of_mem _ inside)) done
      refine ⟨sound', ?_⟩
      rw [copies', copies, Copies.load_put, Copies.load_load, Copies.put_put, pieceBlocks_cons, pieceBytes_cons]

end PFSClient

end PFS
