import PFS.Client.CacheBytes
import PFS.Lib.Reachable

/-! # One client and its cache threads

A client that is alone with one open file.  Its application thread runs one call
of `readFile` or `writeFile` after the other, and between any two steps of the
call the harvester and the flusher may run.  Nobody else asks for tokens, so that
none is taken away, and tokens are left out.

A miss is four steps: the failed access, `getBlockFromFileServer`, `addBlock` and
the second access.  The harvester may run in between.
-/

namespace PFS

open Lib

/-- How far the first of the remaining pieces of a call is. -/
inductive Stage where
  | lookup
  | missed
  | fetched (cacheData : Nat → UInt8)
  | added (cacheData : Nat → UInt8)

/-- A running call and the pieces it has not finished. -/
structure Request where
  offset : Nat
  nbyte : Nat
  rest : List (Nat × Nat)
  stage : Stage := .lookup

/-- The call of the application thread; `buffer` and `data` have the bytes by
    their position in the file. -/
inductive Running where
  | idle
  | reading (request : Request) (buffer : Nat → UInt8)
  | writing (request : Request) (data : Nat → UInt8)

/-- A client with one open file.  `scanning` says that the harvester is in its
    inner loop, `latest` has the bytes of the calls of `writeFile` that have
    returned. -/
structure SoloClient where
  file : ClientFile
  cache : Cache := Cache.init
  bytes : FileBytes
  scanning : Bool := false
  running : Running := .idle
  latest : Nat → Option UInt8 := fun _ => none

namespace Request

def start (offset nbyte : Nat) : Request := ⟨offset, nbyte, pieces offset nbyte, .lookup⟩

/-- The first piece is done. -/
def next (request : Request) : Request := { request with rest := request.rest.tail, stage := .lookup }

end Request

namespace SoloClient

def readFile (s : SoloClient) (offset nbyte : Nat) : Option SoloClient :=
  match s.running with
  | .idle => some { s with running := .reading (Request.start offset nbyte) (fun _ => 0) }
  | _ => none

def writeFile (s : SoloClient) (offset nbyte : Nat) (data : Nat → UInt8) : Option SoloClient :=
  match s.running with
  | .idle =>
      some { s with
        file := { s.file with
          hasModified := true
          size := max s.file.size ((offset + nbyte) % uint32Size) }
        running := .writing (Request.start offset nbyte) (fun b => data (b - offset)) }
  | _ => none

/-- The `memcpy` of a piece from its block. -/
def copied (buffer cacheData : Nat → UInt8) (offset actualSize : Nat) : Nat → UInt8 := fun b =>
  if offset ≤ b ∧ b < offset + actualSize then cacheData (b - blockOf offset) else buffer b

/-- `getBlockFromFileServer` and `addBlock`, the middle of a miss in both loops. -/
def fill (s : SoloClient) (offset : Nat) : Stage → Option (Cache × Stage)
  | .missed => some (s.cache, .fetched (PFSClient.getBlockFromFileServer s.bytes (blockOf offset)))
  | .fetched cacheData =>
      (s.cache.addBlock s.file.descriptor (blockOf offset) cacheData).map fun cache => (cache, .added cacheData)
  | _ => none

/-- A step of the loop of `readFile`. -/
def readStep (s : SoloClient) (request : Request) (buffer : Nat → UInt8) : Option SoloClient :=
  match request.rest, request.stage with
  | [], _ => none
  | (offset, actualSize) :: _, .lookup =>
      match s.cache.readBlock s.file.descriptor (blockOf offset) with
      | (cache, some cacheData) =>
          some { s with
            cache := cache
            running := .reading request.next (copied buffer cacheData offset actualSize) }
      | (cache, none) => some { s with cache := cache, running := .reading { request with stage := .missed } buffer }
  | (offset, actualSize) :: _, .added cacheData =>
      some { s with running := .reading request.next (copied buffer cacheData offset actualSize) }
  | (offset, _) :: _, stage =>
      (s.fill offset stage).map fun r =>
        { s with cache := r.1, running := .reading { request with stage := r.2 } buffer }

/-- A step of the loop of `writeFile`. -/
def writeStep (s : SoloClient) (request : Request) (data : Nat → UInt8) : Option SoloClient :=
  match request.rest, request.stage with
  | [], _ => none
  | (offset, actualSize) :: _, .lookup =>
      match s.cache.write s.file.descriptor offset actualSize (fun i => data (offset + i)) with
      | (cache, true) => some { s with cache := cache, running := .writing request.next data }
      | (cache, false) => some { s with cache := cache, running := .writing { request with stage := .missed } data }
  | (offset, actualSize) :: _, .added _ =>
      some { s with
        cache := (s.cache.write s.file.descriptor offset actualSize (fun i => data (offset + i))).1
        running := .writing request.next data }
  | (offset, _) :: _, stage =>
      (s.fill offset stage).map fun r =>
        { s with cache := r.1, running := .writing { request with stage := r.2 } data }

def step (s : SoloClient) : Option SoloClient :=
  match s.running with
  | .idle => none
  | .reading request buffer => s.readStep request buffer
  | .writing request data => s.writeStep request data

/-- The call returns. -/
def finish (s : SoloClient) : Option SoloClient :=
  match s.running with
  | .reading ⟨_, _, [], _⟩ _ => some { s with running := .idle }
  | .writing ⟨offset, nbyte, [], _⟩ data =>
      some { s with running := .idle, latest := latestAfter s.latest offset nbyte (fun k => data (offset + k)) true }
  | _ => none

/-- What a `readFile` that is about to return has read, and where. -/
def returned (s : SoloClient) : Option (Nat × Nat × (Nat → UInt8)) :=
  match s.running with
  | .reading ⟨offset, nbyte, [], _⟩ buffer => some (offset, nbyte, buffer)
  | _ => none

/-- The harvester leaves `sem_wait(&harvesterSemaphore)`. -/
def wake (s : SoloClient) : Option SoloClient :=
  if s.scanning ∨ s.cache.harvesterSemaphore = 0 then none
  else
    some { s with
      cache := { s.cache with harvesterSemaphore := s.cache.harvesterSemaphore - 1 }
      scanning := s.cache.freeBlockCount < harvestHigh }

/-- The flush of an operation of the cache, if it makes one. -/
def flushed (s : SoloClient) (block : Option CacheBlock) : Option FileBytes :=
  PFSClient.flushed { openedFiles := [s.file] } s.bytes block

/-- A turn of the inner loop of the harvester. -/
def harvest (s : SoloClient) : Option SoloClient :=
  if s.scanning then do
    let (cache, block) ← s.cache.harvestIteration
    let bytes ← s.flushed block
    some { s with cache := cache, bytes := bytes, scanning := cache.freeBlockCount < harvestHigh }
  else none

/-- A turn of the inner loop of the flusher. -/
def flush (s : SoloClient) : Option SoloClient :=
  (s.flushed s.cache.flushIteration.2).map fun bytes => { s with cache := s.cache.flushIteration.1, bytes := bytes }

/-- A step of one of the three threads. -/
inductive Event where
  | readFile (offset nbyte : Nat)
  | writeFile (offset nbyte : Nat) (data : Nat → UInt8)
  | step
  | finish
  | wake
  | harvest
  | flush

def exec (s : SoloClient) : Event → Option SoloClient
  | .readFile offset nbyte => s.readFile offset nbyte
  | .writeFile offset nbyte data => s.writeFile offset nbyte data
  | .step => s.step
  | .finish => s.finish
  | .wake => s.wake
  | .harvest => s.harvest
  | .flush => s.flush

/-- The ranges of calls. -/
def allowed (_ : SoloClient) : Event → Prop
  | .readFile offset nbyte | .writeFile offset nbyte _ => 1 ≤ nbyte ∧ offset + nbyte ≤ intMax
  | _ => True

def machine : Machine SoloClient Event := ⟨allowed, exec⟩

instance (s : SoloClient) : (e : Event) → Decidable (machine.allowed s e)
  | .readFile _ _ | .writeFile _ _ _ => inferInstanceAs (Decidable (_ ∧ _))
  | .step | .finish | .wake | .harvest | .flush => isTrue trivial

/-- A file that has just been opened. -/
def Initial (s : SoloClient) : Prop := ∃ file bytes, s = { file := file, bytes := bytes }

/-! ## Calls without interruption -/

/-- The application thread runs alone. -/
def Alone (s s' : SoloClient) : Prop := Relation.ReflTransGen (fun s s' => s.step = some s') s s'

/-- Alone, the thread runs the loop of `readFile`. -/
theorem alone_readLoop {ps : List (Nat × Nat)} {cache cache' : Cache} {buffer buffer' : Nat → UInt8} (s : SoloClient)
    (offset nbyte : Nat) (done : PFSClient.readLoop s.file.descriptor s.bytes ps cache buffer = some (cache', buffer')) :
    Alone { s with cache := cache, running := .reading ⟨offset, nbyte, ps, .lookup⟩ buffer }
      { s with cache := cache', running := .reading ⟨offset, nbyte, [], .lookup⟩ buffer' } := by
  induction ps generalizing cache buffer with
  | nil =>
      obtain ⟨rfl, rfl⟩ := Prod.mk.inj (Option.some.inj done)
      exact .refl
  | cons piece rest ih =>
      obtain ⟨start, size⟩ := piece
      rw [PFSClient.readLoop_cons] at done
      obtain ⟨⟨cache₁, cacheData⟩, first, done⟩ := Option.bind_eq_some_iff.mp done
      refine Relation.ReflTransGen.trans ?_ (ih done)
      cases read : cache.readBlock s.file.descriptor (blockOf start) with
      | mk cache₀ hit =>
          rw [read] at first
          cases hit with
          | some cacheData' =>
              obtain ⟨rfl, rfl⟩ := Prod.mk.inj (Option.some.inj first)
              apply Relation.ReflTransGen.single
              simp only [step, readStep, read]
              rfl
          | none =>
              obtain ⟨cache₂, added, made⟩ := Option.map_eq_some_iff.mp first
              obtain ⟨rfl, rfl⟩ := Prod.mk.inj made
              have missed : step { s with
                  cache := cache
                  running := .reading ⟨offset, nbyte, (start, size) :: rest, .lookup⟩ buffer } = some { s with
                  cache := cache₀
                  running := .reading ⟨offset, nbyte, (start, size) :: rest, .missed⟩ buffer } := by
                simp only [step, readStep, read]
              have filled : step { s with
                  cache := cache₀
                  running := .reading ⟨offset, nbyte, (start, size) :: rest, .fetched
                    (PFSClient.getBlockFromFileServer s.bytes (blockOf start))⟩ buffer } = some { s with
                  cache := cache₂
                  running := .reading ⟨offset, nbyte, (start, size) :: rest, .added
                    (PFSClient.getBlockFromFileServer s.bytes (blockOf start))⟩ buffer } := by
                simp only [step, readStep, fill, added, Option.map_some]
              exact .head missed (.head rfl (.head filled (.single rfl)))

/-- Alone, the thread runs the loop of `writeFile`. -/
theorem alone_writeLoop {ps : List (Nat × Nat)} {cache cache' : Cache} {data : Nat → UInt8} (s : SoloClient)
    (offset nbyte : Nat) (done : PFSClient.writeLoop s.file.descriptor s.bytes data ps cache = some cache') :
    Alone { s with cache := cache, running := .writing ⟨offset, nbyte, ps, .lookup⟩ data }
      { s with cache := cache', running := .writing ⟨offset, nbyte, [], .lookup⟩ data } := by
  induction ps generalizing cache with
  | nil =>
      obtain rfl := Option.some.inj done
      exact .refl
  | cons piece rest ih =>
      obtain ⟨start, size⟩ := piece
      rw [PFSClient.writeLoop_cons] at done
      obtain ⟨cache₁, first, done⟩ := Option.bind_eq_some_iff.mp done
      refine Relation.ReflTransGen.trans ?_ (ih done)
      cases written : cache.write s.file.descriptor start size (fun i => data (start + i)) with
      | mk cache₀ hit =>
          rw [written] at first
          cases hit with
          | true =>
              obtain rfl := Option.some.inj first
              apply Relation.ReflTransGen.single
              simp only [step, writeStep, written]
              rfl
          | false =>
              obtain ⟨cache₂, added, rfl⟩ := Option.map_eq_some_iff.mp first
              have missed : step { s with
                  cache := cache
                  running := .writing ⟨offset, nbyte, (start, size) :: rest, .lookup⟩ data } = some { s with
                  cache := cache₀
                  running := .writing ⟨offset, nbyte, (start, size) :: rest, .missed⟩ data } := by
                simp only [step, writeStep, written]
              have filled : step { s with
                  cache := cache₀
                  running := .writing ⟨offset, nbyte, (start, size) :: rest, .fetched
                    (PFSClient.getBlockFromFileServer s.bytes (blockOf start))⟩ data } = some { s with
                  cache := cache₂
                  running := .writing ⟨offset, nbyte, (start, size) :: rest, .added
                    (PFSClient.getBlockFromFileServer s.bytes (blockOf start))⟩ data } := by
                simp only [step, writeStep, fill, added, Option.map_some]
              exact .head missed (.head rfl (.head filled (.single rfl)))

/-! ## The window of a write miss -/

/-- The block that a write miss has added and not written yet. -/
def addedBlock (s : SoloClient) : Option Nat :=
  match s.running with
  | .writing ⟨_, _, (offset, _) :: _, .added _⟩ _ => some (blockOf offset)
  | _ => none

/-- The block that a harvester iteration takes, if there is a clean one. -/
def nextVictim (s : SoloClient) : Option Nat := s.cache.recencyList.back.map fun node => (s.cache.block node).addr

/-- The harvester does not take a block between `addBlock` and the second `write`
    of a miss. -/
def Safe (s : SoloClient) : Event → Prop
  | .harvest => ∀ blockAddr ∈ s.addedBlock, blockAddr ∉ s.nextVictim
  | _ => True

instance (s : SoloClient) : (e : Event) → Decidable (s.Safe e)
  | .harvest => inferInstanceAs (Decidable (∀ blockAddr ∈ s.addedBlock, blockAddr ∉ s.nextVictim))
  | .readFile _ _ | .writeFile _ _ _ | .step | .finish | .wake | .flush => isTrue trivial

def safe : Machine SoloClient Event := ⟨fun s e => machine.allowed s e ∧ s.Safe e, exec⟩

instance (s : SoloClient) (e : Event) : Decidable (safe.allowed s e) := inferInstanceAs (Decidable (_ ∧ _))

/-! ## What the client sees -/

/-- The bytes of the file as the client sees them: its copies, or else what the
    file servers have. -/
def view (s : SoloClient) : Nat → UInt8 := Copies.view (s.cache.byte s.file.descriptor) s.bytes

/-- What byte `b` has to be: that of the latest `writeFile` that has returned, or
    of the running one where it is done. -/
def Expected (s : SoloClient) (b : Nat) (x : UInt8) : Prop :=
  match s.running with
  | .writing request data =>
      if request.offset ≤ b ∧ b < request.offset + request.nbyte then
        b ∉ PFSClient.pieceBytes request.rest ∧ data b = x
      else s.latest b = some x
  | _ => s.latest b = some x

end SoloClient

/-- The remaining pieces are pieces of the call's range. -/
structure Request.Valid (request : Request) : Prop where
  oneBlock : ∀ piece ∈ request.rest, PFSClient.OneBlock piece
  inRange : PFSClient.pieceBytes request.rest ⊆ bytesIn request.offset (request.offset + request.nbyte)

theorem Request.start_valid (offset nbyte : Nat) : (Request.start offset nbyte).Valid where
  oneBlock := PFSClient.pieces_oneBlock offset nbyte
  inRange := by
    simp only [Request.start, PFSClient.pieceBytes_pieces]
    exact Set.Subset.rfl

theorem Request.Valid.next {request : Request} (h : request.Valid) : request.next.Valid where
  oneBlock piece member := h.oneBlock piece (List.mem_of_mem_tail member)
  inRange := by
    rintro b ⟨piece, member, inside⟩
    exact h.inRange ⟨piece, List.mem_of_mem_tail member, inside⟩

namespace SoloClient

/-- What a call relies on in the middle of a miss; `present` is about the block
    it has added. -/
def Staged (s : SoloClient) (blockAddr : Nat) (present : (Nat → UInt8) → Prop) : Stage → Prop
  | .lookup => True
  | .missed => s.cache.find s.file.descriptor blockAddr = none
  | .fetched cacheData =>
      s.cache.find s.file.descriptor blockAddr = none ∧
        ∀ i, i < pfsBlockSizeInBytes → cacheData i = s.bytes (blockAddr + i)
  | .added cacheData => present cacheData

/-- The data of a block are the latest bytes. -/
def Current (s : SoloClient) (blockAddr : Nat) (cacheData : Nat → UInt8) : Prop :=
  ∀ b x, blockOf b = blockAddr → s.latest b = some x → cacheData (b - blockAddr) = x

/-- The block is in the cache and clean. -/
def Clean (s : SoloClient) (blockAddr : Nat) : Prop :=
  ∃ block, s.cache.find s.file.descriptor blockAddr = some block ∧ block.clean = true

/-- A running `readFile` has the latest bytes where it is done. -/
structure Reads (s : SoloClient) (request : Request) (buffer : Nat → UInt8) : Prop where
  valid : request.Valid
  staged : ∀ piece ∈ request.rest.head?, s.Staged (blockOf piece.1) (s.Current (blockOf piece.1)) request.stage
  done : ∀ b x, b ∈ bytesIn request.offset (request.offset + request.nbyte) → b ∉ PFSClient.pieceBytes request.rest →
    s.latest b = some x → buffer b = x

structure Writes (s : SoloClient) (request : Request) : Prop where
  valid : request.Valid
  staged : ∀ piece ∈ request.rest.head?, s.Staged (blockOf piece.1) (fun _ => s.Clean (blockOf piece.1)) request.stage

def Pending (s : SoloClient) : Prop :=
  match s.running with
  | .idle => True
  | .reading request buffer => s.Reads request buffer
  | .writing request _ => s.Writes request

structure Inv (s : SoloClient) : Prop where
  sound : s.cache.Sound [s.file.descriptor]
  settled : Copies.Settled (s.cache.byte s.file.descriptor) s.bytes
  seen : ∀ b x, s.Expected b x → s.view b = x
  pending : s.Pending

variable {s s' : SoloClient}

/-! ## The cache threads -/

/-- What the cache threads do to a call: nothing it sees changes, nothing it
    misses comes, and the block it has added stays. -/
structure Background (s s' : SoloClient) : Prop where
  file : s'.file = s.file
  running : s'.running = s.running
  latest : s'.latest = s.latest
  sound : s'.cache.Sound [s.file.descriptor]
  settled : Copies.Settled (s'.cache.byte s.file.descriptor) s'.bytes
  view : s'.view = s.view
  absent : ∀ blockAddr, s.cache.find s.file.descriptor blockAddr = none →
    s'.cache.find s.file.descriptor blockAddr = none ∧ ∀ b, blockOf b = blockAddr → s'.bytes b = s.bytes b
  clean : ∀ blockAddr ∈ s.addedBlock, s.Clean blockAddr → s'.Clean blockAddr

theorem Background.staged (h : Background s s') {blockAddr : Nat} {present present' : (Nat → UInt8) → Prop}
    {stage : Stage} (aligned : blockAddr % pfsBlockSizeInBytes = 0)
    (keeps : ∀ cacheData, stage = .added cacheData → present cacheData → present' cacheData)
    (staged : s.Staged blockAddr present stage) : s'.Staged blockAddr present' stage := by
  cases stage with
  | lookup => trivial
  | missed =>
      simp only [Staged, h.file] at staged ⊢
      exact (h.absent blockAddr staged).1
  | fetched cacheData =>
      simp only [Staged, h.file] at staged ⊢
      obtain ⟨missing, stored⟩ := staged
      obtain ⟨missing', same⟩ := h.absent blockAddr missing
      refine ⟨missing', fun i small => ?_⟩
      rw [stored i small, same]
      exact (blockOf_eq_iff aligned).mpr ⟨Nat.le_add_right _ _, by omega⟩
  | added cacheData => exact keeps cacheData rfl staged

theorem Background.inv (h : Background s s') (inv : s.Inv) : s'.Inv where
  sound := by rw [h.file]; exact h.sound
  settled := by rw [h.file]; exact h.settled
  seen b x expected := by
    rw [h.view]
    apply inv.seen b x
    simp only [Expected, h.running, h.latest] at expected ⊢
    exact expected
  pending := by
    have pending := inv.pending
    cases running : s.running with
    | idle => simp only [Pending, h.running, running]
    | reading request buffer =>
        simp only [Pending, h.running, running] at pending ⊢
        refine ⟨pending.valid, ?_, ?_⟩
        · intro piece first
          refine h.staged (blockOf_aligned piece.1) (fun cacheData _ current => ?_) (pending.staged piece first)
          simp only [Current, h.latest] at current ⊢
          exact current
        · rw [h.latest]
          exact pending.done
    | writing request data =>
        simp only [Pending, h.running, running] at pending ⊢
        refine ⟨pending.valid, ?_⟩
        intro piece first
        refine h.staged (blockOf_aligned piece.1) (fun cacheData stage clean => ?_) (pending.staged piece first)
        refine h.clean (blockOf piece.1) ?_ clean
        obtain ⟨offset, nbyte, rest, stage'⟩ := request
        obtain ⟨xs, rfl⟩ := List.head?_eq_some_iff.mp first
        obtain rfl : stage' = .added cacheData := stage
        simp only [addedBlock, running, Option.mem_def]

/-- A block of another key is not written back. -/
theorem writeBack_absent {c : Cache} {fileDes a blockAddr : Nat} (bytes : FileBytes)
    (missing : c.find fileDes blockAddr = none) {b : Nat} (here : blockOf b = blockAddr) :
    Copies.writeBack (c.byte fileDes) (bytesOf [a]) bytes b = bytes b := by
  apply Copies.writeBack_other
  rintro ⟨-, x, copy⟩
  rw [Cache.byte, here, missing] at copy
  cases copy

theorem harvest_background (inv : s.Inv) (free : s.Safe .harvest) (ran : s.harvest = some s') : Background s s' := by
  simp only [harvest, Option.bind_eq_bind] at ran
  split at ran
  · obtain ⟨⟨cache, block⟩, harvested, ran⟩ := Option.bind_eq_some_iff.mp ran
    obtain ⟨bytes, done, ran⟩ := Option.bind_eq_some_iff.mp ran
    obtain rfl := Option.some.inj ran
    obtain ⟨wf, fileDes, a, victim, found, contents, rfl, back⟩ :=
      Cache.harvestIteration_spec inv.sound.wf harvested
    obtain rfl := List.mem_singleton.mp (inv.sound.known _ _ _ found)
    have copies := Cache.byte_drop contents
    obtain rfl := PFSClient.flushed_writeBack inv.sound found done
    refine ⟨rfl, rfl, rfl, inv.sound.set wf contents nofun, ?_, ?_, ?_, ?_⟩
    · simp only [copies]
      exact inv.settled.drop _
    · simp only [view, copies]
      exact inv.settled.view_drop _
    · intro blockAddr missing
      refine ⟨?_, fun b here => writeBack_absent s.bytes missing here⟩
      simp only [contents, Cache.set]
      split
      · rfl
      · exact missing
    · rintro blockAddr added ⟨block, present, clean⟩
      refine ⟨block, ?_, clean⟩
      simp only [contents, Cache.set]
      split
      · next same =>
          obtain ⟨-, rfl⟩ := same
          obtain rfl := Option.some.inj (found.symm.trans present)
          obtain ⟨n, last, rfl⟩ := back clean
          obtain ⟨-, addr, -⟩ := inv.sound.wf.block found
          refine (free _ added ?_).elim
          simp only [nextVictim, last, Option.map_some, Option.mem_def, addr]
      · exact present
  · cases ran

theorem flush_background (inv : s.Inv) (ran : s.flush = some s') : Background s s' := by
  obtain ⟨bytes, done, rfl⟩ := Option.map_eq_some_iff.mp ran
  obtain ⟨wf, same | ⟨fileDes, a, block, found, flushed, contents⟩⟩ := Cache.flushIteration_spec inv.sound.wf
  · rw [same] at done ⊢
    obtain rfl := Option.some.inj done
    exact ⟨rfl, rfl, rfl, inv.sound, inv.settled, rfl, fun _ missing => ⟨missing, fun _ _ => rfl⟩, fun _ _ => id⟩
  · obtain rfl := List.mem_singleton.mp (inv.sound.known _ _ _ found)
    have copies := Cache.byte_clean found contents
    rw [flushed] at done
    obtain rfl := PFSClient.flush_writeBack inv.sound found done
    have sound := inv.sound.set wf contents (fun _ => ⟨inv.sound.known _ _ _ found, inv.sound.aligned _ _ _ found⟩)
    refine ⟨rfl, rfl, rfl, sound, ?_, ?_, ?_, ?_⟩
    · simp only [copies]
      exact inv.settled.clean _
    · simp only [view, copies]
      exact Copies.view_clean _ _ _
    · intro blockAddr missing
      refine ⟨?_, fun b here => writeBack_absent s.bytes missing here⟩
      simp only [contents, Cache.set]
      split
      · next same =>
          rw [same.2, found] at missing
          cases missing
      · exact missing
    · rintro blockAddr - ⟨block', present, clean⟩
      simp only [Clean, contents, Cache.set]
      split
      · exact ⟨_, rfl, rfl⟩
      · exact ⟨block', present, clean⟩

theorem wake_background (inv : s.Inv) (ran : s.wake = some s') : Background s s' := by
  obtain ⟨-, ran⟩ := Option.ite_none_left_eq_some.mp ran
  obtain rfl := Option.some.inj ran
  obtain ⟨wf, contents⟩ := Cache.harvesterSemaphore_spec inv.sound.wf (s.cache.harvesterSemaphore - 1)
  obtain ⟨sound, same⟩ := inv.sound.congr wf contents
  refine ⟨rfl, rfl, rfl, sound, ?_, ?_, ?_, ?_⟩
  · simp only [same]
    exact inv.settled
  · simp only [view, same]
  · intro blockAddr missing
    refine ⟨?_, fun _ _ => rfl⟩
    simp only [contents]
    exact missing
  · simp only [Clean, contents]
    exact fun _ _ => id

/-! ## The application thread -/

/-- The middle of a miss changes nothing the client sees. -/
theorem fill_spec (inv : s.Inv) {offset : Nat} {present : (Nat → UInt8) → Prop} {stage stage' : Stage} {cache : Cache}
    (staged : s.Staged (blockOf offset) present stage) (filled : s.fill offset stage = some (cache, stage')) :
    cache.Sound [s.file.descriptor] ∧ Copies.Settled (cache.byte s.file.descriptor) s.bytes ∧
      Copies.view (cache.byte s.file.descriptor) s.bytes = s.view ∧
      ∀ running present', (∀ cacheData, cache.find s.file.descriptor (blockOf offset) =
          some (Cache.fetched s.file.descriptor (blockOf offset) cacheData) → present' cacheData) →
        Staged { s with cache := cache, running := running } (blockOf offset) present' stage' := by
  cases stage with
  | missed =>
      obtain ⟨rfl, rfl⟩ := Prod.mk.inj (Option.some.inj filled)
      exact ⟨inv.sound, inv.settled, rfl, fun _ _ _ => ⟨staged, fun _ _ => rfl⟩⟩
  | fetched cacheData =>
      obtain ⟨cache', adding, made⟩ := Option.map_eq_some_iff.mp filled
      obtain ⟨rfl, rfl⟩ := Prod.mk.inj made
      obtain ⟨sound, found, copies⟩ :=
        PFSClient.addBlock_bytes inv.sound (List.mem_singleton_self _) staged.1 staged.2 adding
      rw [copies]
      exact ⟨sound, inv.settled.load _, Copies.view_load _ _ _, fun _ _ added => added cacheData found⟩
  | lookup => cases filled
  | added cacheData => cases filled

/-- A call of `readFile` goes on. -/
theorem Reads.copied {request : Request} {buffer cacheData : Nat → UInt8} (h : s.Reads request buffer)
    {offset size : Nat} {rest : List (Nat × Nat)} (first : request.rest = (offset, size) :: rest)
    (current : s.Current (blockOf offset) cacheData) (cache : Cache) (running : Running) :
    Reads { s with cache := cache, running := running } request.next (SoloClient.copied buffer cacheData offset size) where
  valid := h.valid.next
  staged _ _ := trivial
  done b x inRange finished written := by
    have one := h.valid.oneBlock (offset, size) (by rw [first]; exact List.mem_cons_self)
    unfold SoloClient.copied
    split
    · next inside => exact current b x (one.blockOf_eq inside) written
    · next outside =>
        apply h.done b x inRange _ written
        rw [first, PFSClient.pieceBytes_cons]
        rintro (here | later)
        · exact outside here
        · apply finished
          simp only [Request.next, first, List.tail_cons]
          exact later

/-- While no `writeFile` is running the client sees the latest bytes. -/
theorem Inv.latest_seen (inv : s.Inv) (noWrite : ∀ request data, s.running ≠ .writing request data) {b : Nat} {x : UInt8}
    (written : s.latest b = some x) : s.view b = x := by
  apply inv.seen b x
  cases busy : s.running with
  | idle | reading =>
      simp only [Expected, busy]
      exact written
  | writing request data => exact (noWrite request data busy).elim

section Reading

variable {request request' : Request} {buffer buffer' : Nat → UInt8} {cache : Cache}

theorem Inv.reading (inv : s.Inv) (busy : s.running = .reading request buffer)
    (sound : cache.Sound [s.file.descriptor]) (settled : Copies.Settled (cache.byte s.file.descriptor) s.bytes)
    (same : Copies.view (cache.byte s.file.descriptor) s.bytes = s.view)
    (reads : Reads { s with cache := cache, running := .reading request' buffer' } request' buffer') :
    Inv { s with cache := cache, running := .reading request' buffer' } where
  sound := sound
  settled := settled
  seen b x written := by
    simp only [view, same]
    exact inv.latest_seen (by simp [busy]) written
  pending := reads

/-- The data of a cached block are the latest bytes. -/
theorem Inv.current (inv : s.Inv) (busy : s.running = .reading request buffer)
    (same : Copies.view (cache.byte s.file.descriptor) s.bytes = s.view) {blockAddr : Nat} {block : CacheBlock}
    (found : cache.find s.file.descriptor blockAddr = some block) : s.Current blockAddr block.data := by
  intro b x here written
  rw [← inv.latest_seen (by simp [busy]) written, ← same]
  simp only [Copies.view, Cache.byte, here, found, Option.map_some]

/-- The middle of a miss of `readFile`. -/
theorem readFill_inv (inv : s.Inv) (busy : s.running = .reading request buffer) (reads : s.Reads request buffer)
    {offset size : Nat} {rest : List (Nat × Nat)} (first : request.rest = (offset, size) :: rest)
    (ran : (s.fill offset request.stage).map (fun r =>
      { s with cache := r.1, running := .reading { request with stage := r.2 } buffer }) = some s') : s'.Inv := by
  obtain ⟨⟨cache, stage⟩, filled, rfl⟩ := Option.map_eq_some_iff.mp ran
  have staged := reads.staged (offset, size) (by rw [first]; rfl)
  obtain ⟨sound, settled, same, after⟩ := fill_spec inv staged filled
  refine inv.reading busy sound settled same ⟨⟨reads.valid.oneBlock, reads.valid.inRange⟩, ?_, reads.done⟩
  intro piece head
  rw [first] at head
  obtain rfl := Option.some.inj head
  exact after _ _ (fun cacheData found => inv.current busy same found)

theorem readStep_inv (inv : s.Inv) (busy : s.running = .reading request buffer)
    (ran : s.readStep request buffer = some s') : s'.Inv := by
  have reads : s.Reads request buffer := by
    have pending := inv.pending
    simp only [Pending, busy] at pending
    exact pending
  obtain ⟨offset', nbyte, rest, stage⟩ := request
  cases rest with
  | nil => cases ran
  | cons piece rest =>
      obtain ⟨offset, size⟩ := piece
      have staged := reads.staged (offset, size) rfl
      cases stage with
      | lookup =>
          simp only [readStep] at ran
          cases found : s.cache.find s.file.descriptor (blockOf offset) with
          | some block =>
              obtain ⟨wf, contents, answer⟩ := Cache.readBlock_spec inv.sound.wf s.file.descriptor (blockOf offset)
              obtain ⟨sound, same⟩ := inv.sound.congr wf contents
              rw [found, Option.map_some] at answer
              rw [show s.cache.readBlock s.file.descriptor (blockOf offset) = (_, some block.data) from
                Prod.ext rfl answer] at ran
              obtain rfl := Option.some.inj ran
              refine inv.reading busy sound ?_ ?_ (reads.copied rfl (inv.current busy rfl found) _ _)
              · rw [same]
                exact inv.settled
              · rw [same, view]
          | none =>
              rw [Cache.readBlock_missing found] at ran
              obtain rfl := Option.some.inj ran
              refine inv.reading busy inv.sound inv.settled rfl
                ⟨⟨reads.valid.oneBlock, reads.valid.inRange⟩, ?_, reads.done⟩
              intro piece first
              obtain rfl := Option.some.inj first
              exact found
      | missed => exact readFill_inv inv busy reads rfl ran
      | fetched cacheData => exact readFill_inv inv busy reads rfl ran
      | added cacheData =>
          obtain rfl := Option.some.inj ran
          exact inv.reading busy inv.sound inv.settled rfl (reads.copied rfl staged _ _)

end Reading

section Writing

variable {request : Request} {data : Nat → UInt8} {offset size : Nat} {rest : List (Nat × Nat)}
  {cache : Cache}

theorem Inv.writing (inv : s.Inv) (busy : s.running = .writing request data)
    (sound : cache.Sound [s.file.descriptor]) (settled : Copies.Settled (cache.byte s.file.descriptor) s.bytes)
    (same : Copies.view (cache.byte s.file.descriptor) s.bytes = s.view) (stage : Stage)
    (writes : Writes { s with cache := cache, running := .writing { request with stage := stage } data }
      { request with stage := stage }) :
    Inv { s with cache := cache, running := .writing { request with stage := stage } data } where
  sound := sound
  settled := settled
  seen b x expected := by
    simp only [view, same]
    apply inv.seen b x
    simp only [Expected, busy] at expected ⊢
    exact expected
  pending := writes

/-- The middle of a miss of `writeFile`. -/
theorem writeFill_inv (inv : s.Inv) (busy : s.running = .writing request data) (writes : s.Writes request)
    (first : request.rest = (offset, size) :: rest)
    (ran : (s.fill offset request.stage).map (fun r =>
      { s with cache := r.1, running := .writing { request with stage := r.2 } data }) = some s') : s'.Inv := by
  obtain ⟨⟨cache, stage⟩, filled, rfl⟩ := Option.map_eq_some_iff.mp ran
  have staged := writes.staged (offset, size) (by rw [first]; rfl)
  obtain ⟨sound, settled, same, after⟩ := fill_spec inv staged filled
  refine inv.writing busy sound settled same _ ⟨⟨writes.valid.oneBlock, writes.valid.inRange⟩, ?_⟩
  intro piece head
  rw [first] at head
  obtain rfl := Option.some.inj head
  exact after _ _ (fun cacheData found => ⟨_, found, rfl⟩)

/-- A `write` that finds its block. -/
theorem written_inv (inv : s.Inv) (busy : s.running = .writing request data) (writes : s.Writes request)
    (first : request.rest = (offset, size) :: rest) {block : CacheBlock}
    (found : s.cache.find s.file.descriptor (blockOf offset) = some block) :
    Inv { s with
      cache := (s.cache.write s.file.descriptor offset size (fun i => data (offset + i))).1
      running := .writing request.next data } := by
  have member : (offset, size) ∈ request.rest := by rw [first]; exact List.mem_cons_self
  obtain ⟨sound, copies⟩ := PFSClient.write_bytes inv.sound data (writes.valid.oneBlock _ member) found
  have settled := inv.settled.put (bytesIn offset (offset + size)) data
  rw [← copies] at settled
  refine ⟨sound, settled, ?_, ⟨writes.valid.next, fun _ _ => trivial⟩⟩
  intro b x expected
  simp only [view, copies]
  simp only [Expected, Request.next, first, List.tail_cons] at expected
  by_cases inside : b ∈ bytesIn offset (offset + size)
  · rw [Copies.view_put_of_mem inside]
    rw [if_pos (mem_bytesIn.mp (writes.valid.inRange ⟨_, member, inside⟩))] at expected
    exact expected.2
  · rw [Copies.view_put_of_notMem inside]
    apply inv.seen b x
    simp only [Expected, busy, first, PFSClient.pieceBytes_cons]
    by_cases inRange : request.offset ≤ b ∧ b < request.offset + request.nbyte
    · rw [if_pos inRange] at expected ⊢
      exact ⟨fun either => either.elim inside expected.1, expected.2⟩
    · rw [if_neg inRange] at expected ⊢
      exact expected

theorem writeStep_inv (inv : s.Inv) (busy : s.running = .writing request data)
    (ran : s.writeStep request data = some s') : s'.Inv := by
  have writes : s.Writes request := by
    have pending := inv.pending
    simp only [Pending, busy] at pending
    exact pending
  obtain ⟨offset', nbyte, rest, stage⟩ := request
  cases rest with
  | nil => cases ran
  | cons piece rest =>
      obtain ⟨offset, size⟩ := piece
      have staged := writes.staged (offset, size) rfl
      have one := writes.valid.oneBlock _ List.mem_cons_self
      cases stage with
      | lookup =>
          simp only [writeStep] at ran
          cases found : s.cache.find s.file.descriptor (blockOf offset) with
          | some block =>
              obtain ⟨-, answer, -⟩ :=
                Cache.write_spec inv.sound.wf s.file.descriptor offset (fun i => data (offset + i)) one.1
              rw [found, Option.isSome_some] at answer
              rw [show s.cache.write s.file.descriptor offset size (fun i => data (offset + i)) = (_, true) from
                Prod.ext rfl answer] at ran
              obtain rfl := Option.some.inj ran
              exact written_inv inv busy writes rfl found
          | none =>
              rw [Cache.write_missing found] at ran
              obtain rfl := Option.some.inj ran
              refine inv.writing busy inv.sound inv.settled rfl _
                ⟨⟨writes.valid.oneBlock, writes.valid.inRange⟩, ?_⟩
              intro piece first
              obtain rfl := Option.some.inj first
              exact found
      | missed => exact writeFill_inv inv busy writes rfl ran
      | fetched cacheData => exact writeFill_inv inv busy writes rfl ran
      | added cacheData =>
          obtain rfl := Option.some.inj ran
          obtain ⟨block, found, -⟩ := staged
          exact written_inv inv busy writes rfl found

end Writing

theorem readFile_inv (inv : s.Inv) {offset nbyte : Nat} (ran : s.readFile offset nbyte = some s') : s'.Inv := by
  unfold readFile at ran
  split at ran
  · next idle =>
      obtain rfl := Option.some.inj ran
      refine ⟨inv.sound, inv.settled, ?_, ⟨Request.start_valid offset nbyte, fun _ _ => trivial, ?_⟩⟩
      · intro b x written
        exact inv.latest_seen (by simp [idle]) written
      · intro b x inside finished
        simp only [Request.start, PFSClient.pieceBytes_pieces] at inside finished
        exact (finished inside).elim
  · cases ran

theorem writeFile_inv (inv : s.Inv) {offset nbyte : Nat} {data : Nat → UInt8}
    (ran : s.writeFile offset nbyte data = some s') : s'.Inv := by
  unfold writeFile at ran
  split at ran
  · next idle =>
      obtain rfl := Option.some.inj ran
      refine ⟨inv.sound, inv.settled, ?_, ⟨Request.start_valid offset nbyte, fun _ _ => trivial⟩⟩
      intro b x expected
      simp only [Expected, Request.start, PFSClient.pieceBytes_pieces] at expected
      split at expected
      · next inside => exact (expected.1 inside).elim
      · exact inv.latest_seen (by simp [idle]) expected
  · cases ran

theorem finish_inv (inv : s.Inv) (ran : s.finish = some s') : s'.Inv := by
  unfold finish at ran
  split at ran
  · next busy =>
      obtain rfl := Option.some.inj ran
      exact ⟨inv.sound, inv.settled, fun b x written => inv.latest_seen (by simp [busy]) written, trivial⟩
  · next offset nbyte _ data busy =>
      obtain rfl := Option.some.inj ran
      refine ⟨inv.sound, inv.settled, ?_, trivial⟩
      intro b x written
      apply inv.seen b x
      simp only [Expected, latestAfter, true_and] at written
      simp only [Expected, busy]
      split at written
      · next inside =>
          rw [if_pos inside]
          rw [Nat.add_sub_cancel' inside.1] at written
          exact ⟨nofun, Option.some.inj written⟩
      · next outside =>
          rw [if_neg outside]
          exact written
  · cases ran

theorem step_inv (inv : s.Inv) (next : safe.Step s s') : s'.Inv := by
  obtain ⟨event, ⟨-, isSafe⟩, ran⟩ := next
  cases event with
  | readFile offset nbyte => exact readFile_inv inv ran
  | writeFile offset nbyte data => exact writeFile_inv inv ran
  | step =>
      simp only [safe, exec, step] at ran
      split at ran
      · cases ran
      · next busy => exact readStep_inv inv busy ran
      · next busy => exact writeStep_inv inv busy ran
  | finish => exact finish_inv inv ran
  | wake => exact (wake_background inv ran).inv inv
  | harvest => exact (harvest_background inv isSafe ran).inv inv
  | flush => exact (flush_background inv ran).inv inv

theorem initial_inv (first : s.Initial) : s.Inv := by
  obtain ⟨file, bytes, rfl⟩ := first
  refine ⟨Cache.init_sound _, ?_, nofun, trivial⟩
  intro b x copy
  rw [Cache.init_byte] at copy
  cases copy

/-- In every run in which the harvester does not take the block of a write miss
    before the miss has written it, the client sees what it has written: between its
    calls of `writeFile` every byte is that of the latest one, and a `readFile` that
    returns has these bytes. -/
theorem reachable_latest {s : SoloClient} (reach : Reachable Initial safe.Step s) {b : Nat} {x : UInt8}
    (written : s.latest b = some x) :
    ((∀ request data, s.running ≠ .writing request data) → s.view b = x) ∧
      ∀ offset nbyte buffer, s.returned = some (offset, nbyte, buffer) →
        offset ≤ b ∧ b < offset + nbyte → buffer b = x := by
  have inv : s.Inv := reach.invariant Inv (fun _ => initial_inv) (fun _ _ => step_inv)
  refine ⟨fun noWrite => inv.latest_seen noWrite written, ?_⟩
  intro offset nbyte buffer result inside
  unfold returned at result
  split at result
  · next busy =>
      obtain ⟨rfl, rfl, rfl⟩ := result
      have pending := inv.pending
      simp only [Pending, busy] at pending
      exact pending.done b x inside nofun written
  · cases result

/-- A client that has just opened an empty file. -/
def blank : SoloClient := { file := { descriptor := 1, name := "f", stripWidth := 1 }, bytes := fun _ => 0 }

theorem blank_reachable {m : Machine SoloClient Event} : Reachable Initial m.Step blank :=
  Reachable.init ⟨_, _, rfl⟩

/-- A call writes 48 blocks, which wakes the harvester.  It takes a block, and that
    block is read. -/
def readBack : Option SoloClient :=
  safe.run blank (.writeFile 0 49152 (fun _ => 7) :: List.replicate 192 .step ++
    [.wake, .harvest, .finish, .readFile 0 1, .step, .step, .step, .step])

theorem reachable_latest_readBack :
    ∃ s buffer, readBack = some s ∧ s.returned = some (0, 1, buffer) ∧ buffer 0 = 7 := by
  have ran : (readBack.bind fun s => s.returned.map fun r => (r.1, r.2.1, s.latest 0)) = some (0, 1, some 7) := by
    decide +kernel
  obtain ⟨s, last, ran⟩ := Option.bind_eq_some_iff.mp ran
  obtain ⟨⟨offset, nbyte, buffer⟩, result, facts⟩ := Option.map_eq_some_iff.mp ran
  simp only [Prod.mk.injEq] at facts
  obtain ⟨rfl, rfl, written⟩ := facts
  have reach := safe.run_reachable blank_reachable last
  exact ⟨s, buffer, last, result, (reachable_latest reach written).2 0 1 buffer result (by decide)⟩

/-- The harvester wakes after the last block of the call has been added and before
    it is written: the only clean block, it is taken, and the second `write` finds
    nothing. -/
def lostWrite : Option SoloClient :=
  machine.run blank (.writeFile 0 49152 (fun _ => 7) :: List.replicate 191 .step ++
    [.wake, .harvest, .step, .finish, .readFile 48128 1, .step, .step, .step, .step])

theorem not_latest_lostWrite :
    ¬ ∀ s : SoloClient, Reachable Initial machine.Step s → ∀ (b : Nat) (x : UInt8), s.latest b = some x →
      ((∀ request data, s.running ≠ .writing request data) → s.view b = x) ∧
        ∀ offset nbyte buffer, s.returned = some (offset, nbyte, buffer) →
          offset ≤ b ∧ b < offset + nbyte → buffer b = x := by
  intro latest
  have ran : (lostWrite.bind fun s => s.returned.map fun r => (r.1, r.2.1, r.2.2 48128, s.latest 48128)) =
      some (48128, 1, 0, some 7) := by
    decide +kernel
  obtain ⟨s, last, ran⟩ := Option.bind_eq_some_iff.mp ran
  obtain ⟨⟨offset, nbyte, buffer⟩, result, facts⟩ := Option.map_eq_some_iff.mp ran
  simp only [Prod.mk.injEq] at facts
  obtain ⟨rfl, rfl, value, written⟩ := facts
  have reach := machine.run_reachable blank_reachable last
  have stored := (latest s reach 48128 7 written).2 48128 1 buffer result (by decide)
  rw [value] at stored
  cases stored

end SoloClient

end PFS
