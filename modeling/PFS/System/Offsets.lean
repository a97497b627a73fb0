import PFS.FileServer.Mutex
import PFS.Locked
import PFS.System.Agreement

/-! # Offsets of 64 bits

The offsets of `readFile` and `writeFile` are `off_t`.  The token functions, the
manager's messages and the cache take `uint32_t`, so an offset from 2^32 on is used
as a small one, and the whole-file grant ends at `INT_MAX`.  Here the two calls run
with these conversions and keep a record of the places in the cache they used.

A block that is not in the cache comes from a file server, which rejects some addresses;
the client then fails an assertion.  What the server reads from its strip, with what was
in its buffer before, is a parameter.
-/

namespace PFS

open Lib

variable {Peer : Type} [DecidableEq Peer]

/-- What a round of a loop used of the cache: positions of a block. -/
structure Access where
  blockAddr : Nat
  position : Nat
  size : Nat

/-- The places of the accesses, byte by byte. -/
def served (accesses : List Access) : List (Nat × Nat) :=
  accesses.flatMap fun access => (List.range access.size).map fun k => (access.blockAddr, access.position + k)

/-- What a call returns, the tokens of its file when its loop ran, and what the loop
    used of the cache. -/
structure Outcome where
  code : Int
  tokens : List Permission := []
  accesses : List Access := []
  data : List UInt8 := []

/-- `uint32_t blockAddr = offset / pfsBlockSizeInBytes; blockAddr *= pfsBlockSizeInBytes`. -/
def blockAddr32 (offset : Nat) : Nat := offset / pfsBlockSizeInBytes % uint32Size * pfsBlockSizeInBytes % uint32Size

inductive OffsetCall where
  | readFile (offset nbyte : Nat)
  | writeFile (offset nbyte : Nat) (data : Nat → UInt8)

namespace OffsetCall

def offset : OffsetCall → Nat
  | readFile offset _ | writeFile offset _ _ => offset

def nbyte : OffsetCall → Nat
  | readFile _ nbyte | writeFile _ nbyte _ => nbyte

def write : OffsetCall → Bool
  | readFile _ _ => false
  | writeFile _ _ _ => true

end OffsetCall

/-- The call ran under tokens for its bytes, and used the places of these bytes. -/
structure Outcome.Faithful (outcome : Outcome) (call : OffsetCall) : Prop where
  code : outcome.code = call.nbyte
  covered : ∀ b, call.offset ≤ b → b < call.offset + call.nbyte → Grants outcome.tokens call.write b
  places : served outcome.accesses =
    (List.range' call.offset call.nbyte).map fun b => (blockOf b, b % pfsBlockSizeInBytes)

namespace PFSClient

/-- The server that is asked for a block, `fileServerIndex`, has the strip of the address, which is
    an `int32` in the request, and takes the address. -/
def accepts (stripWidth blockAddr : Nat) : Bool :=
  let strip := Host.strip stripWidth (asInt blockAddr)
  strip < stripWidth && strip % numFileServers = blockAddr / stripBytes % stripWidth % numFileServers &&
    !Host.blockTooLong (asInt blockAddr)

/-- `getBlockFromFileServer`. -/
def getStoredBlock (stored : Nat → Nat → UInt8) (stripWidth blockAddr : Nat) : Option (Nat → UInt8) :=
  if accepts stripWidth blockAddr then some (stored blockAddr) else none

/-- A round of `readFile`: the block, from the cache or from its file server. -/
def readPiece (fetch : Nat → Option (Nat → UInt8)) (filedes offset : Nat) (cache : Cache) :
    Option (Cache × (Nat → UInt8)) :=
  match cache.readBlock filedes (blockAddr32 offset) with
  | (cache, some cacheData) => some (cache, cacheData)
  | (cache, none) => do
      let cacheData ← fetch (blockAddr32 offset)
      let cache ← cache.addBlock filedes (blockAddr32 offset) cacheData
      some (cache, cacheData)

/-- The loop of `readFile`. -/
def readPieces (fetch : Nat → Option (Nat → UInt8)) (filedes : Nat) : List (Nat × Nat) → Cache → List UInt8 →
    List Access → Option (Cache × List UInt8 × List Access)
  | [], cache, buffer, accesses => some (cache, buffer, accesses)
  | (offset, actualSize) :: rest, cache, buffer, accesses => do
      let (cache, cacheData) ← readPiece fetch filedes offset cache
      readPieces fetch filedes rest cache
        (buffer ++ (List.range actualSize).map fun k => cacheData (offset % pfsBlockSizeInBytes + k))
        (accesses ++ [⟨blockAddr32 offset, offset % pfsBlockSizeInBytes, actualSize⟩])

/-- A round of `writeFile`; `Cache::write` takes the offset as a `uint32_t`. -/
def writePiece (fetch : Nat → Option (Nat → UInt8)) (filedes : Nat) (data : Nat → UInt8) (offset actualSize : Nat)
    (cache : Cache) : Option Cache :=
  match cache.write filedes (offset % uint32Size) actualSize (fun i => data (offset + i)) with
  | (cache, true) => some cache
  | (cache, false) => do
      let cacheData ← fetch (blockAddr32 offset)
      let cache ← cache.addBlock filedes (blockAddr32 offset) cacheData
      some (cache.write filedes (offset % uint32Size) actualSize (fun i => data (offset + i))).1

/-- The loop of `writeFile`. -/
def writePieces (fetch : Nat → Option (Nat → UInt8)) (filedes : Nat) (data : Nat → UInt8) : List (Nat × Nat) → Cache →
    List Access → Option (Cache × List Access)
  | [], cache, accesses => some (cache, accesses)
  | (offset, actualSize) :: rest, cache, accesses => do
      let cache ← writePiece fetch filedes data offset actualSize cache
      writePieces fetch filedes data rest cache
        (accesses ++ [⟨blockOf (offset % uint32Size), offset % uint32Size % pfsBlockSizeInBytes, actualSize⟩])

end PFSClient

namespace World

/-- What `acquirePermission` returns when it has no token. -/
def refusal (w : World Peer) (peer : Peer) (filedes : Nat) : Outcome where
  code := if ((w.clients peer).foundAt filedes).isNone then errorCloseUnopenedFile else -1

/-- `readFile` and `writeFile`. -/
def offsetCall (w : World Peer) (stored : Nat → Nat → UInt8) (peer : Peer) (filedes : Nat) (order : List Peer)
    (call : OffsetCall) : Option (World Peer × Outcome) := do
  let start := call.offset % uint32Size
  let stop := (call.offset + call.nbyte) % uint32Size
  let (w', acquired) ← w.acquirePermission peer filedes start stop call.write order
  match acquired with
  | none => some (w', w.refusal peer filedes)
  | some i => do
      let c := w'.clients peer
      let file ← c.openedFiles[i]?
      let fetch := PFSClient.getStoredBlock stored file.stripWidth
      let unlocked := PFSClient.unlockPermission start stop file.permissions
      match call with
      | .readFile offset nbyte => do
          let (cache, buffer, accesses) ← PFSClient.readPieces fetch filedes (pieces offset nbyte) c.cache [] []
          some (w'.setClient peer ({ c with cache := cache }.setFile i { file with permissions := unlocked }),
            ⟨nbyte, file.permissions, accesses, buffer⟩)
      | .writeFile offset nbyte data => do
          let (cache, accesses) ←
            PFSClient.writePieces fetch filedes (fun b => data (b - offset)) (pieces offset nbyte) c.cache []
          some (w'.setClient peer ({ c with cache := cache }.setFile i
              { file with hasModified := true, size := max file.size stop, permissions := unlocked }),
            ⟨nbyte, file.permissions, accesses, []⟩)

end World

/-! ## The addresses a file server takes -/

namespace PFSClient

/-- A client gets a block from its server exactly if `ReadBlock` succeeds there. -/
theorem accepts_iff_readBlock {host : Host} {name : String} {file : FSFile} (free : host.lock = false)
    (found : host.server.files name = some file) (positive : file.stripWidth ≠ 0)
    (stored : ∀ id path, file.stripPaths id = some path → path ≠ "" ∧ (host.disk path).isSome = true) {blockAddr : Nat}
    (strips : ∀ id, (file.stripPaths id).isSome = true ↔ id < file.stripWidth ∧
      id % numFileServers = blockAddr / stripBytes % file.stripWidth % numFileServers) :
    accepts file.stripWidth blockAddr = true ↔ ∃ host', host.readBlock name (asInt blockAddr) = some (.ok, host') := by
  rw [Host.readBlock_ok_iff free found positive stored, strips]
  simp only [accepts, Bool.and_eq_true, decide_eq_true_eq, Bool.not_eq_true']

/-- Below 2^31 it gets every block but the last. -/
theorem accepts_iff {stripWidth blockAddr : Nat} (positive : 0 < stripWidth) (wide : stripWidth ≤ intMax)
    (aligned : blockAddr % pfsBlockSizeInBytes = 0) (small : blockAddr ≤ intMax) :
    accepts stripWidth blockAddr = true ↔ blockAddr + pfsBlockSizeInBytes ≤ intMax := by
  have less : blockAddr / stripBytes % stripWidth < stripWidth := Nat.mod_lt _ positive
  have signed : asInt blockAddr = blockAddr := if_pos small
  have strip : Host.strip stripWidth blockAddr = blockAddr / stripBytes % stripWidth := by
    rw [Host.strip, show asInt stripWidth = stripWidth from if_pos wide, ← Int.ofNat_tdiv, ← Int.ofNat_tmod,
      ← Int.natCast_emod, Int.toNat_natCast, Nat.mod_eq_of_lt (less.trans_le (wide.trans (by decide)))]
  rw [← Host.blockTooLong_iff aligned small]
  simp only [accepts, signed, strip, less, decide_true, Bool.true_and, Bool.not_eq_true']

end PFSClient

/-! ## Places in the cache -/

theorem blockAddr32_eq (offset : Nat) : blockAddr32 offset = blockOf offset % uint32Size := by
  simp only [blockAddr32, blockOf, Nat.mod_mul_mod]

theorem blockOf_mod (offset : Nat) : blockOf (offset % uint32Size) = blockOf offset % uint32Size := by
  simp only [blockOf, uint32Size, pfsBlockSizeInBytes]
  omega

theorem mod_uint32_mod (offset : Nat) : offset % uint32Size % pfsBlockSizeInBytes = offset % pfsBlockSizeInBytes := by
  simp only [uint32Size, pfsBlockSizeInBytes]
  omega

/-- The place that is used for a byte. -/
def placeOf (b : Nat) : Nat × Nat := (blockOf b % uint32Size, b % pfsBlockSizeInBytes)

/-- What a loop uses of the cache. -/
def accessesOf (ps : List (Nat × Nat)) : List Access :=
  ps.map fun piece => ⟨blockOf piece.1 % uint32Size, piece.1 % pfsBlockSizeInBytes, piece.2⟩

namespace PFSClient

variable {fetch : Nat → Option (Nat → UInt8)} {filedes : Nat} {c c' : Cache}

theorem readPieces_accesses {ps : List (Nat × Nat)} {buffer buffer' : List UInt8} {before accesses : List Access}
    (done : readPieces fetch filedes ps c buffer before = some (c', buffer', accesses)) :
    accesses = before ++ accessesOf ps := by
  induction ps generalizing c buffer before with
  | nil =>
      simp only [readPieces, Option.some.injEq, Prod.mk.injEq] at done
      simp [← done.2.2, accessesOf]
  | cons piece rest ih =>
      obtain ⟨offset, size⟩ := piece
      simp only [readPieces, Option.bind_eq_bind] at done
      obtain ⟨r, -, done⟩ := Option.bind_eq_some_iff.mp done
      rw [ih done, blockAddr32_eq]
      simp [accessesOf]

theorem writePieces_accesses {ps : List (Nat × Nat)} {data : Nat → UInt8} {before accesses : List Access}
    (done : writePieces fetch filedes data ps c before = some (c', accesses)) :
    accesses = before ++ accessesOf ps := by
  induction ps generalizing c before with
  | nil =>
      simp only [writePieces, Option.some.injEq, Prod.mk.injEq] at done
      simp [← done.2, accessesOf]
  | cons piece rest ih =>
      obtain ⟨offset, size⟩ := piece
      simp only [writePieces, Option.bind_eq_bind] at done
      obtain ⟨r, -, done⟩ := Option.bind_eq_some_iff.mp done
      rw [ih done, blockOf_mod, mod_uint32_mod]
      simp [accessesOf]

end PFSClient

/-- The bytes of a piece are next to each other in its block. -/
theorem piece_places {offset size : Nat} (inside : offset % pfsBlockSizeInBytes + size ≤ pfsBlockSizeInBytes) :
    ((List.range size).map fun k => (blockOf offset % uint32Size, offset % pfsBlockSizeInBytes + k)) =
      (List.range' offset size).map placeOf := by
  rw [List.range'_eq_map_range, List.map_map]
  apply List.map_congr_left
  intro k member
  have small := List.mem_range.mp member
  have block : blockOf (offset + k) = blockOf offset := by
    simp only [blockOf, pfsBlockSizeInBytes] at *
    omega
  have position : (offset + k) % pfsBlockSizeInBytes = offset % pfsBlockSizeInBytes + k := by
    simp only [pfsBlockSizeInBytes] at *
    omega
  simp only [Function.comp_apply, placeOf, block, position]

/-- A loop uses one place a byte of its range, in turn. -/
theorem served_pieces {fuel : Nat} (offset nbyte : Nat) (enough : nbyte ≤ fuel) :
    served (accessesOf (piecesFrom fuel offset nbyte)) = (List.range' offset nbyte).map placeOf := by
  induction fuel generalizing offset nbyte with
  | zero =>
      obtain rfl := Nat.le_zero.mp enough
      rfl
  | succ fuel ih =>
      unfold piecesFrom
      split
      · next empty => rw [empty]; rfl
      · have small : offset % pfsBlockSizeInBytes < pfsBlockSizeInBytes := Nat.mod_lt _ (by decide)
        generalize sizeEq : min (pfsBlockSizeInBytes - offset % pfsBlockSizeInBytes) nbyte = size
        have rest := ih (offset + size) (nbyte - size) (by omega)
        have first : _ = (List.range' offset size).map placeOf := piece_places (by omega)
        simp only [served, accessesOf, List.map_cons, List.flatMap_cons] at rest ⊢
        rw [rest, first, ← List.map_append, List.range'_append_1, Nat.add_sub_cancel' (by omega)]

/-- The place a faithful call uses for the byte at an index of its buffer. -/
theorem Outcome.Faithful.place_at {outcome : Outcome} {call : OffsetCall} (h : outcome.Faithful call) {i : Nat}
    {place : Nat × Nat} (at_i : (served outcome.accesses)[i]? = some place) :
    place = (blockOf (call.offset + i), (call.offset + i) % pfsBlockSizeInBytes) := by
  rw [h.places, List.getElem?_map] at at_i
  obtain ⟨b, inside, rfl⟩ := Option.map_eq_some_iff.mp at_i
  obtain ⟨-, rfl⟩ := List.getElem?_eq_some_iff.mp inside
  simp only [List.getElem_range', Nat.one_mul]

/-- Different bytes of a file are never served from one place. -/
theorem Outcome.Faithful.apart {outcome other : Outcome} {call call' : OffsetCall}
    (h : outcome.Faithful call) (h' : other.Faithful call') {i j : Nat} {place : Nat × Nat}
    (at_i : (served outcome.accesses)[i]? = some place) (at_j : (served other.accesses)[j]? = some place) :
    call.offset + i = call'.offset + j := by
  have same := (h.place_at at_i).symm.trans (h'.place_at at_j)
  rw [Prod.mk.injEq, ← sub_blockOf, ← sub_blockOf] at same
  have low := blockOf_le (call.offset + i)
  have low' := blockOf_le (call'.offset + j)
  omega

/-! ## Tokens below `INT_MAX` -/

theorem Bounded.not_grants {l : List Permission} {m : Bool} {b : Nat} (h : Bounded l) (high : intMax ≤ b) :
    ¬ Grants l m b := by
  rintro ⟨p, member, -, -, inside⟩
  have := (h p member).2
  omega

namespace World

variable {w w' : World Peer}

/-- Every token of the table ends at or before `INT_MAX`. -/
def Small (w : World Peer) : Prop := ∀ q, Bounded (w.manager.tokens q)

theorem revokeAll_manager {start stop : Nat} {order : List Peer} (done : revokeAll start stop order w = some w') :
    w'.manager = w.manager := by
  induction order generalizing w with
  | nil =>
      obtain rfl := Option.some.inj done
      rfl
  | cons peer rest ih =>
      simp only [revokeAll, Option.bind_eq_bind] at done
      obtain ⟨⟨c, bytes⟩, -, done⟩ := Option.bind_eq_some_iff.mp done
      have kept := ih done
      exact kept

theorem Small.acquirePermission (h : w.Small) {peer : Peer} {filedes start stop : Nat} {write : Bool} {order : List Peer}
    {result : Option Nat} (range : start ≤ stop) (smallStop : stop ≤ intMax)
    (done : w.acquirePermission peer filedes start stop write order = some (w', result)) : w'.Small := by
  rcases acquirePermission_cases done with ⟨-, rfl⟩ | ⟨i, file, -, -, -, ⟨-, rfl⟩ | slow⟩
  · exact h
  · exact h
  · obtain ⟨-, manager, grant, w₂, file₂, permissions, asked, -, revoked, -, -, rfl⟩ := slow
    intro q
    simp only [World.setClient, revokeAll_manager revoked]
    exact MMFile.waitAndGetPermissionFor_bounded h range smallStop asked q

theorem Small.openFile (h : w.Small) (peer : Peer) : (w.openFile peer).1.Small := by
  have tokens := w.manager.tokens_open peer
  simp only [World.openFile]
  split
  · exact h
  · next manager result =>
      intro q
      rw [result] at tokens
      simp only [World.setClient, tokens]
      exact h q

theorem Small.closeFile (h : w.Small) {peer : Peer} {filedes now : Nat}
    (done : w.closeFile peer filedes now = some w') : w'.Small := by
  obtain ⟨i, file, cache, bytes, m, -, -, -, table, rfl⟩ := closeFile_cases done
  intro q
  show Bounded ((m.close peer).1.tokens q)
  rw [MMFile.tokens_close]
  split
  · exact Bounded.nil
  · rw [MMFile.tokens, table]
    exact h q

theorem Small.step (h : w.Small) (step : machine.Step w w') : w'.Small := by
  obtain ⟨call, allowed, ran⟩ := step
  cases call with
  | openFile peer =>
      obtain rfl := Option.some.inj ran
      exact h.openFile peer
  | readFile peer filedes offset nbyte order =>
      obtain ⟨⟨w₂, result⟩, done, rfl⟩ := Option.map_eq_some_iff.mp ran
      obtain ⟨w₁, acquired, acquiring, shape⟩ := readFile_cases done
      have small := h.acquirePermission (Nat.le_add_right offset nbyte) allowed.2 acquiring
      rcases shape with ⟨-, rfl, -⟩ | ⟨i, c, buffer, -, -, rfl, -⟩
      · exact small
      · exact small
  | writeFile peer filedes offset nbyte data order =>
      obtain ⟨⟨w₂, result⟩, done, rfl⟩ := Option.map_eq_some_iff.mp ran
      obtain ⟨w₁, acquired, acquiring, shape⟩ := writeFile_cases done
      have small := h.acquirePermission (Nat.le_add_right offset nbyte) allowed.2 acquiring
      rcases shape with ⟨-, rfl, -⟩ | ⟨i, c, -, -, rfl, -⟩
      · exact small
      · exact small
  | closeFile peer filedes now => exact h.closeFile ran
  | flush peer =>
      obtain ⟨bytes, -, rfl⟩ := flush_cases ran
      exact h
  | harvest peer =>
      obtain ⟨cache, block, bytes, -, -, rfl⟩ := harvest_cases ran
      exact h

theorem initial_small (h : w.Initial) : w.Small := by
  intro q
  rw [MMFile.tokens, h.1, AList.lookup_empty, Option.getD_none]
  exact Bounded.nil

/-! ## Calls with large offsets -/

/-- The only call that is refused is one for a file that is not open. -/
theorem acquirePermission_refused (agree : w.Agree) {peer : Peer} {filedes start stop : Nat} {write : Bool}
    {order : List Peer} (done : w.acquirePermission peer filedes start stop write order = some (w', none)) :
    (w.clients peer).foundAt filedes = none := by
  unfold acquirePermission at done
  split at done
  · next missing => exact missing
  · next i found =>
      simp only [Option.bind_eq_bind] at done
      obtain ⟨file, at_i, done⟩ := Option.bind_eq_some_iff.mp done
      obtain ⟨-, -, isOpen, -⟩ := (agree peer).at at_i
      split at done
      · cases done
      · obtain ⟨⟨w₂, reply⟩, served, done⟩ := Option.bind_eq_some_iff.mp done
        rw [getPermission, if_pos isOpen] at served
        simp only [Option.bind_eq_bind] at served
        obtain ⟨⟨manager, grant⟩, -, served⟩ := Option.bind_eq_some_iff.mp served
        obtain ⟨-, served⟩ := Option.ite_none_right_eq_some.mp served
        obtain ⟨w₃, -, served⟩ := Option.bind_eq_some_iff.mp served
        obtain ⟨rfl, rfl⟩ := Prod.mk.inj (Option.some.inj served)
        obtain ⟨file₂, -, done⟩ := Option.bind_eq_some_iff.mp done
        obtain ⟨permissions, -, done⟩ := Option.bind_eq_some_iff.mp done
        cases done

/-- The tokens a call runs under: those the client had, or these and the grant. -/
def RunsUnder (w : World Peer) (peer : Peer) (start stop : Nat) (write : Bool) (l tokens : List Permission) : Prop :=
  (hasPermission start stop write l = true ∧ tokens = l) ∨
    addPermission (w.manager.grantRange peer start stop write).1 (w.manager.grantRange peer start stop write).2 write l
      true = some tokens

theorem acquirePermission_tokens (agree : w.Agree) (small : w.Small) {peer : Peer} {filedes start stop i : Nat}
    {write : Bool} {order : List Peer} {file : ClientFile}
    (done : w.acquirePermission peer filedes start stop write order = some (w', some i))
    (at_i : (w'.clients peer).openedFiles[i]? = some file) :
    (w.clients peer).foundAt filedes = some i ∧
      ∃ l, Bounded l ∧ w.RunsUnder peer start stop write l file.permissions := by
  rcases acquirePermission_cases done with ⟨nothing, -⟩ | ⟨j, before, same, found, at_j, ⟨has, rfl⟩ | slow⟩
  · cases nothing
  · obtain rfl := Option.some.inj same
    obtain rfl := Option.some.inj (at_j.symm.trans at_i)
    obtain ⟨-, -, -, -, tokens⟩ := (agree peer).at at_j
    exact ⟨found, _, bounded_congr tokens (small peer), .inl ⟨has, rfl⟩⟩
  · obtain ⟨-, manager, grant, w₂, file₂, permissions, asked, perm, revoked, at_i₂, added, rfl⟩ := slow
    obtain rfl := Option.some.inj same
    obtain ⟨granted, -⟩ := MMFile.waitAndGetPermissionFor_spec asked
    obtain ⟨-, -, own⟩ := served_agrees agree asked perm revoked
    obtain ⟨-, -, -, -, tokens⟩ := own.at at_i₂
    have inside := (List.getElem?_eq_some_iff.mp at_i₂).1
    rw [setClient_self, PFSClient.setFile, List.getElem?_set_self inside] at at_i
    obtain rfl := Option.some.inj at_i
    refine ⟨found, _, bounded_congr tokens (small peer), .inr ?_⟩
    rw [granted]
    exact added

theorem offsetCall_cases {stored : Nat → Nat → UInt8} {peer : Peer} {filedes : Nat} {order : List Peer}
    {call : OffsetCall} {outcome : Outcome} (done : w.offsetCall stored peer filedes order call = some (w', outcome)) :
    ∃ w₁ acquired, w.acquirePermission peer filedes (call.offset % uint32Size)
        ((call.offset + call.nbyte) % uint32Size) call.write order = some (w₁, acquired) ∧
      ((acquired = none ∧ outcome = w.refusal peer filedes) ∨
        ∃ i file, acquired = some i ∧ (w₁.clients peer).openedFiles[i]? = some file ∧ outcome.code = call.nbyte ∧
          outcome.tokens = file.permissions ∧ outcome.accesses = accessesOf (pieces call.offset call.nbyte)) := by
  simp only [offsetCall, Option.bind_eq_bind] at done
  obtain ⟨⟨w₁, acquired⟩, acquiring, done⟩ := Option.bind_eq_some_iff.mp done
  refine ⟨w₁, acquired, acquiring, ?_⟩
  cases acquired with
  | none =>
      obtain ⟨-, rfl⟩ := Prod.mk.inj (Option.some.inj done)
      exact .inl ⟨rfl, rfl⟩
  | some i =>
      obtain ⟨file, at_i, done⟩ := Option.bind_eq_some_iff.mp done
      refine .inr ⟨i, file, rfl, at_i, ?_⟩
      cases call with
      | readFile offset nbyte =>
          obtain ⟨⟨cache, buffer, accesses⟩, loop, done⟩ := Option.bind_eq_some_iff.mp done
          obtain ⟨-, rfl⟩ := Prod.mk.inj (Option.some.inj done)
          exact ⟨rfl, rfl, PFSClient.readPieces_accesses loop⟩
      | writeFile offset nbyte data =>
          obtain ⟨⟨cache, accesses⟩, loop, done⟩ := Option.bind_eq_some_iff.mp done
          obtain ⟨-, rfl⟩ := Prod.mk.inj (Option.some.inj done)
          exact ⟨rfl, rfl, PFSClient.writePieces_accesses loop⟩

/-- Below 2^32 the place that is used for a byte is its own. -/
theorem served_own {offset nbyte : Nat} (small : offset + nbyte ≤ uint32Size) :
    served (accessesOf (pieces offset nbyte)) =
      (List.range' offset nbyte).map fun b => (blockOf b, b % pfsBlockSizeInBytes) := by
  rw [pieces, served_pieces offset nbyte (Nat.le_refl nbyte)]
  apply List.map_congr_left
  intro b member
  have inside := (List.mem_range'_1.mp member).2
  have low := blockOf_le b
  rw [placeOf, Nat.mod_eq_of_lt (by omega)]

/-- A call that is granted its own range, or the whole file while it ends at or before
    `INT_MAX`, has a token for each byte. -/
theorem RunsUnder.covers {peer : Peer} {start stop b : Nat} {write : Bool} {l tokens : List Permission}
    (held : w.RunsUnder peer start stop write l tokens) (small : Bounded l)
    (fits : stop ≤ intMax ∨ ∃ q, q ≠ peer ∧ w.manager.tokens q ≠ []) (low : start ≤ b) (high : b < stop) :
    Grants tokens write b := by
  rcases held with ⟨has, rfl⟩ | added
  · exact hasPermission_covers has low high
  · refine addPermission_covers added (fun p member _ => (small p member).1) ?_ ?_
    · rcases w.manager.grantRange_cases peer start stop write with exactly | ⟨whole, -⟩
      · rw [exactly]; exact low
      · rw [whole]; exact Nat.zero_le b
    · rcases w.manager.grantRange_cases peer start stop write with exactly | ⟨whole, alone⟩
      · rw [exactly]; exact high
      · rcases fits with below | ⟨q, other, holds⟩
        · rw [whole]; exact high.trans_le below
        · exact (holds (alone q other)).elim

/-- A byte behind `INT_MAX` has a token only if the grant is the range asked for,
    which it is while another client holds a token. -/
theorem RunsUnder.reaches {peer : Peer} {start stop b : Nat} {write : Bool} {l tokens : List Permission}
    (held : w.RunsUnder peer start stop write l tokens) (small : Bounded l) (high : intMax ≤ b)
    (granted : Grants tokens write b) : b < stop ∧ ∃ q, q ≠ peer ∧ w.manager.tokens q ≠ [] := by
  rcases held with ⟨-, rfl⟩ | added
  · exact (small.not_grants high granted).elim
  · have inside : b < (w.manager.grantRange peer start stop write).2 := by
      rcases addPermission_le added granted with before | ⟨-, inside, -⟩
      · exact (small.not_grants high before).elim
      · exact inside
    have others : ∃ q, q ≠ peer ∧ w.manager.tokens q ≠ [] := by
      by_contra none
      push Not at none
      rw [MMFile.grantRange_alone none] at inside
      exact Nat.not_lt_of_ge high inside
    refine ⟨?_, others⟩
    rcases w.manager.grantRange_cases peer start stop write with exactly | ⟨whole, -⟩
    · rw [exactly] at inside
      exact inside
    · rw [whole] at inside
      exact (Nat.not_lt_of_ge high inside).elim

end World

end PFS
