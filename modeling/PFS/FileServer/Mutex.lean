import PFS.FileServer.Server
import Mathlib.Algebra.Group.Int.Defs
import Mathlib.Data.List.Induction

/-! # The mutex of a file server

The five handlers of `FileServerServiceImpl` with the mutex they take and release
by hand, for any request the protocol can carry: addresses and sizes are signed,
widths and strip numbers unsigned 32-bit integers, and the arithmetic of the handlers
wraps around as that of the compiled `int`s does.  `none` is a handler that does
not return: it waits for the mutex, or it divides by a stripe width of zero.

A handler of reads or writes that does not find its file returns before it
releases the mutex.
-/

namespace PFS

/-- A running file server: its table, its disk and whether its mutex is held. -/
structure Host where
  server : FileServer
  disk : Disk
  lock : Bool := false

namespace Host

/-- A request to a file server. -/
inductive Request where
  | createFile (name : String) (stripeWidth id : UInt32)
  | readFile (name : String) (start size : Int32)
  | writeFile (name : String) (start : Int32) (data : List UInt8)
  | readBlock (name : String) (addr : Int32)
  | writeBlock (name : String) (addr : Int32) (data dirty : Nat → UInt8)

/-- The number of the strip with `addr`; `int` division rounds towards zero. -/
def strip (stripWidth : Nat) (addr : Int) : Nat := ((addr.tdiv stripBytes).tmod (asInt stripWidth) % uint32Size).toNat

/-- The path of the strip with `addr`. -/
def stripPath (file : FSFile) (addr : Int) : String := file.getStripPath (strip file.stripWidth addr)

/-- The position in the strip file, computed in `uint32_t`. -/
def seekTo (file : FSFile) (addr : Int) : Nat :=
  let stripeIndex := (addr.tdiv stripBytes % uint32Size).toNat
  ((addr - skippedBytes file.stripWidth (stripeIndex * stripBytes)) % uint32Size).toNat

/-- The `int` that a sum or a product comes to when it wraps around. -/
def wrapInt (x : Int) : Int := x.bmod uint32Size

def maxSize (addr : Int) : Int := wrapInt ((wrapInt (addr + stripBytes)).tdiv stripBytes * stripBytes)

/-- `addr + pfsBlockSizeInBytes > maxSize` of the handlers of blocks, which g++ compiles as
    `addr + (pfsBlockSizeInBytes - 1) >= maxSize`.  The two differ where the sum does not
    fit an `int`: the block at 2147482624 is rejected. -/
def blockTooLong (addr : Int) : Bool := maxSize addr ≤ wrapInt (addr + (pfsBlockSizeInBytes - 1))

theorem wrapInt_of_le {x : Int} (low : -intMax ≤ x) (high : x ≤ intMax) : wrapInt x = x := by
  simp only [intMax] at low high
  refine Int.bmod_eq_of_le ?_ ?_
  · simp only [uint32Size]
    omega
  · simp only [uint32Size]
    omega

/-- Of the blocks of strips from address 0 on, only the last one is rejected. -/
theorem blockTooLong_iff {addr : Nat} (aligned : addr % pfsBlockSizeInBytes = 0) (small : addr ≤ intMax) :
    blockTooLong addr = false ↔ addr + pfsBlockSizeInBytes ≤ intMax := by
  by_cases last : addr = 2147482624
  · subst last
    decide
  · have inside : addr + pfsBlockSizeInBytes ≤ intMax := by
      simp only [pfsBlockSizeInBytes, intMax] at aligned small ⊢
      omega
    have next : ((addr + pfsBlockSizeInBytes : Nat) : Int).tdiv stripBytes * stripBytes = (addr + pfsBlockSizeInBytes : Nat) := by
      rw [← Int.ofNat_tdiv, ← Int.natCast_mul, Nat.div_mul_cancel]
      have whole : (addr + pfsBlockSizeInBytes) % pfsBlockSizeInBytes = 0 := by rw [Nat.add_mod_right, aligned]
      exact Nat.dvd_of_mod_eq_zero whole
    have fits : wrapInt (addr + pfsBlockSizeInBytes : Nat) = (addr + pfsBlockSizeInBytes : Nat) :=
      wrapInt_of_le (by omega) (by omega)
    have maxSizeEq : maxSize addr = (addr + pfsBlockSizeInBytes : Nat) := by
      rw [maxSize, show (addr : Int) + stripBytes = (addr + pfsBlockSizeInBytes : Nat) from rfl, fits, next, fits]
    have size : (pfsBlockSizeInBytes : Int) = 1024 := rfl
    refine iff_of_true ?_ inside
    rw [blockTooLong, decide_eq_false_iff_not, maxSizeEq, wrapInt_of_le (by omega) (by omega)]
    omega

/-- `CreateFile`. -/
def createFile (host : Host) (name : String) (stripeWidth id : UInt32) : Option (Status × Host) :=
  if host.lock then none
  else
    let made := host.server.createFile host.disk name stripeWidth.toNat id.toNat
    some (.ok, { host with server := made.1, disk := made.2 })

/-- What the four handlers of reads and writes have in common.  The mutex is
    released behind the search for the file, but only where it is found. -/
def access (host : Host) (name : String) (addr : Int) (tooLong : Bool)
    (serve : String → Nat → Option (Status × Disk)) : Option (Status × Host) :=
  if host.lock then none
  else
    match host.server.files name with
    | none => some (.cancelled, { host with lock := true })
    | some file =>
        if file.stripWidth = 0 then none
        else if stripPath file addr = "" then some (.cancelled, host)
        else if tooLong then some (.cancelled, host)
        else (serve (stripPath file addr) (seekTo file addr)).map fun answer => (answer.1, { host with disk := answer.2 })

/-- `ReadFile`; allocating a buffer of negative size throws. -/
def readFile (host : Host) (name : String) (start size : Int) : Option (Status × Host) :=
  host.access name start (wrapInt (start + size) > maxSize start) fun path _ =>
    match host.disk path with
    | none => some (.cancelled, host.disk)
    | some _ => if size < 0 then some (.unknown, host.disk) else some (.ok, host.disk)

/-- `WriteFile`; the sizes are compared as `size_t`. -/
def writeFile (host : Host) (name : String) (start : Int) (data : List UInt8) : Option (Status × Host) :=
  host.access name start ((start + data.length) % 2 ^ 64 > maxSize start % 2 ^ 64) fun path pos =>
    (host.disk path).map fun content => (.ok, Function.update host.disk path (some (fwrite content pos data)))

/-- `ReadBlock`. -/
def readBlock (host : Host) (name : String) (addr : Int) : Option (Status × Host) :=
  host.access name addr (blockTooLong addr) fun path _ =>
    match host.disk path with
    | none => some (.cancelled, host.disk)
    | some _ => some (.ok, host.disk)

/-- `WriteBlock`. -/
def writeBlock (host : Host) (name : String) (addr : Int) (data dirty : Nat → UInt8) : Option (Status × Host) :=
  host.access name addr (blockTooLong addr) fun path pos =>
    (host.disk path).map fun content =>
      (.ok, Function.update host.disk path (some (writeDirty data dirty pos pfsBlockSizeInBytes content)))

/-- One request. -/
def handle (host : Host) : Request → Option (Status × Host)
  | .createFile name stripeWidth id => host.createFile name stripeWidth id
  | .readFile name start size => host.readFile name start.toInt size.toInt
  | .writeFile name start data => host.writeFile name start.toInt data
  | .readBlock name addr => host.readBlock name addr.toInt
  | .writeBlock name addr data dirty => host.writeBlock name addr.toInt data dirty

/-- The requests one after another; `none` if a handler does not return. -/
def serve (host : Host) (requests : List Request) : Option Host :=
  requests.foldlM (fun host request => (host.handle request).map (fun answer => answer.2)) host

/-- A server that has just been started on an empty directory. -/
def started (filesDirectory : String) : Host := { server := { filesDirectory }, disk := fun _ => none }

/-! ## Conditions on a sequence of requests -/

namespace Request

/-- The file a request reads or writes. -/
def accessed : Request → Option String
  | createFile .. => none
  | readFile name .. => some name
  | writeFile name .. => some name
  | readBlock name .. => some name
  | writeBlock name .. => some name

theorem accessed_eq_none {request : Request} (h : request.accessed = none) :
    ∃ name stripeWidth id, request = createFile name stripeWidth id := by
  cases request with
  | createFile name stripeWidth id => exact ⟨name, stripeWidth, id, rfl⟩
  | readFile => cases h
  | writeFile => cases h
  | readBlock => cases h
  | writeBlock => cases h

end Request

/-- The stripe width of the first `CreateFile` for a name. -/
def firstWidth (requests : List Request) (name : String) : Option UInt32 :=
  requests.findSome? fun request =>
    match request with
    | .createFile created stripeWidth _ => if created = name then some stripeWidth else none
    | _ => none

/-- No request reads or writes a file with a stripe width of zero, which ends the process. -/
def NoZeroWidth (requests : List Request) : Prop :=
  ∀ before request, before ++ [request] <+: requests → ∀ name, request.accessed = some name →
    firstWidth before name ≠ some 0

theorem firstWidth_create (requests : List Request) (name other : String) (stripeWidth id : UInt32) :
    firstWidth (requests ++ [.createFile name stripeWidth id]) other =
      (firstWidth requests other).or (if name = other then some stripeWidth else none) := by
  simp only [firstWidth, List.findSome?_append, List.findSome?_cons, List.findSome?_nil]
  split <;> simp_all

theorem firstWidth_access {requests : List Request} {request : Request} {name other : String}
    (accessed : request.accessed = some name) :
    firstWidth (requests ++ [request]) other = firstWidth requests other := by
  cases request with
  | createFile => cases accessed
  | readFile => simp [firstWidth]
  | writeFile => simp [firstWidth]
  | readBlock => simp [firstWidth]
  | writeBlock => simp [firstWidth]

theorem prefix_snoc_iff {before requests : List Request} {request last : Request} :
    before ++ [request] <+: requests ++ [last] ↔
      (before = requests ∧ request = last) ∨ before ++ [request] <+: requests := by
  rw [List.prefix_concat_iff, List.append_singleton_inj]

theorem NoZeroWidth.snoc_iff {requests : List Request} {last : Request} :
    NoZeroWidth (requests ++ [last]) ↔
      NoZeroWidth requests ∧ ∀ name, last.accessed = some name → firstWidth requests name ≠ some 0 := by
  constructor
  · intro h
    exact ⟨fun before request here => h before request (prefix_snoc_iff.mpr (.inr here)),
      h requests last List.prefix_rfl⟩
  · rintro ⟨front, here⟩ before request sub
    rcases prefix_snoc_iff.mp sub with ⟨rfl, rfl⟩ | sub
    · exact here
    · exact front before request sub

/-! ## One request -/

/-- The table holds exactly the files created so far, with the width they were
    first created with, and every strip file it knows is on disk. -/
structure Tracks (host : Host) (requests : List Request) : Prop where
  widths : ∀ name, (host.server.files name).map FSFile.stripWidth = (firstWidth requests name).map UInt32.toNat
  stored : ∀ name file id path, host.server.files name = some file → file.stripPaths id = some path →
    (host.disk path).isSome = true

/-- Each of the four handlers is `access` with a last part that answers when the
    strip file is there, and keeps the files on disk. -/
theorem handle_eq_access (host : Host) {request : Request} {name : String} (accessed : request.accessed = some name) :
    ∃ addr tooLong serve, host.handle request = host.access name addr tooLong serve ∧
      ∀ path pos, (host.disk path).isSome = true → ∃ status disk, serve path pos = some (status, disk) ∧
        ∀ other, (host.disk other).isSome = true → (disk other).isSome = true := by
  have update : ∀ (path : String) (content : List UInt8) (other : String), (host.disk other).isSome = true →
      (Function.update host.disk path (some content) other).isSome = true := by
    intro path content other there
    by_cases same : other = path
    · rw [same, Function.update_self]
      rfl
    · rw [Function.update_of_ne same]
      exact there
  cases request with
  | createFile => cases accessed
  | readFile created start size =>
      obtain rfl := Option.some.inj accessed
      refine ⟨_, _, _, by rw [handle, Host.readFile], fun path pos there => ?_⟩
      obtain ⟨content, found⟩ := Option.isSome_iff_exists.mp there
      simp only [found]
      split
      · exact ⟨_, _, rfl, fun _ => id⟩
      · exact ⟨_, _, rfl, fun _ => id⟩
  | writeFile created start data =>
      obtain rfl := Option.some.inj accessed
      refine ⟨_, _, _, by rw [handle, Host.writeFile], fun path pos there => ?_⟩
      obtain ⟨content, found⟩ := Option.isSome_iff_exists.mp there
      exact ⟨_, _, by rw [found]; rfl, update path _⟩
  | readBlock created addr =>
      obtain rfl := Option.some.inj accessed
      refine ⟨_, _, _, by rw [handle, Host.readBlock], fun path pos there => ?_⟩
      obtain ⟨content, found⟩ := Option.isSome_iff_exists.mp there
      simp only [found]
      exact ⟨_, _, rfl, fun _ => id⟩
  | writeBlock created addr data dirty =>
      obtain rfl := Option.some.inj accessed
      refine ⟨_, _, _, by rw [handle, Host.writeBlock], fun path pos there => ?_⟩
      obtain ⟨content, found⟩ := Option.isSome_iff_exists.mp there
      exact ⟨_, _, by rw [found]; rfl, update path _⟩

section Handle

variable {host : Host} {requests : List Request} {request : Request} {name : String}

theorem handle_unknown (accessed : request.accessed = some name) (free : host.lock = false)
    (unknown : host.server.files name = none) :
    host.handle request = some (.cancelled, { host with lock := true }) := by
  obtain ⟨addr, tooLong, serve, same, -⟩ := host.handle_eq_access accessed
  rw [same, access, if_neg (by simp [free]), unknown]

theorem handle_zero {file : FSFile} (accessed : request.accessed = some name)
    (found : host.server.files name = some file) (zero : file.stripWidth = 0) : host.handle request = none := by
  obtain ⟨addr, tooLong, serve, same, -⟩ := host.handle_eq_access accessed
  rw [same, access]
  split
  · rfl
  · rw [found]
    exact if_pos zero

/-- On a file it knows, a handler returns with the mutex free. -/
theorem handle_known {file : FSFile} (tracks : host.Tracks requests) (accessed : request.accessed = some name)
    (free : host.lock = false) (found : host.server.files name = some file) (positive : file.stripWidth ≠ 0) :
    ∃ status disk, host.handle request = some (status, { host with disk := disk }) ∧
      ∀ other, (host.disk other).isSome = true → (disk other).isSome = true := by
  obtain ⟨addr, tooLong, serve, same, answers⟩ := host.handle_eq_access accessed
  rw [same, access, if_neg (by simp [free]), found]
  simp only [if_neg positive]
  by_cases missing : stripPath file addr = ""
  · rw [if_pos missing]
    exact ⟨_, _, rfl, fun _ => id⟩
  · rw [if_neg missing]
    cases tooLong with
    | true => exact ⟨_, _, rfl, fun _ => id⟩
    | false =>
        obtain ⟨status, disk, served, grows⟩ := answers (stripPath file addr) (seekTo file addr) (by
          unfold stripPath FSFile.getStripPath at missing ⊢
          cases there : file.stripPaths (strip file.stripWidth addr) with
          | none => rw [there] at missing; exact (missing rfl).elim
          | some path => exact tracks.stored name file _ path found there)
        refine ⟨status, disk, ?_, grows⟩
        rw [if_neg Bool.false_ne_true, served]
        rfl

/-- `ReadBlock` succeeds for the blocks of the strips it has that end where a strip ends. -/
theorem readBlock_ok_iff {file : FSFile} (free : host.lock = false) (found : host.server.files name = some file)
    (positive : file.stripWidth ≠ 0)
    (stored : ∀ id path, file.stripPaths id = some path → path ≠ "" ∧ (host.disk path).isSome = true) (addr : Int) :
    (∃ host', host.readBlock name addr = some (.ok, host')) ↔
      (file.stripPaths (strip file.stripWidth addr)).isSome = true ∧ blockTooLong addr = false := by
  rw [readBlock, access, if_neg (by simp [free]), found]
  simp only [if_neg positive, stripPath, FSFile.getStripPath]
  rcases Option.eq_none_or_eq_some (file.stripPaths (strip file.stripWidth addr)) with there | ⟨path, there⟩
  · simp [there]
  · obtain ⟨named, onDisk⟩ := stored _ path there
    obtain ⟨content, here⟩ := Option.isSome_iff_exists.mp onDisk
    cases blockTooLong addr with
    | true => simp [there, named]
    | false => simp [there, named, here]

theorem handle_create (tracks : host.Tracks requests) (name : String) (stripeWidth id : UInt32)
    (free : host.lock = false) :
    ∃ host', host.handle (.createFile name stripeWidth id) = some (.ok, host') ∧ host'.lock = false ∧
      host'.Tracks (requests ++ [.createFile name stripeWidth id]) := by
  let made := host.server.createFile host.disk name stripeWidth.toNat id.toNat
  refine ⟨{ host with server := made.1, disk := made.2 }, ?_, free, ?_, ?_⟩
  · rw [handle, createFile, if_neg (by simp [free])]
  · intro other
    rw [firstWidth_create]
    have before := tracks.widths other
    simp only [made, FileServer.createFile]
    by_cases same : other = name
    · subst same
      rw [Function.update_self, if_pos rfl]
      cases known : host.server.files other with
      | none =>
          rw [known] at before
          cases created : firstWidth requests other with
          | none => rfl
          | some width => rw [created] at before; cases before
      | some file =>
          rw [known] at before
          cases created : firstWidth requests other with
          | none => rw [created] at before; cases before
          | some width => rw [created] at before; exact before
    · rw [Function.update_of_ne same, if_neg (Ne.symm same), Option.or_none]
      exact before
  · intro other file i path found strip
    simp only [made, FileServer.createFile] at found ⊢
    by_cases here : path = host.server.filesDirectory ++ name ++ "_" ++ toString id.toNat
    · rw [here, Function.update_self]
      rfl
    · rw [Function.update_of_ne here]
      by_cases same : other = name
      · subst same
        rw [Function.update_self] at found
        obtain rfl := Option.some.inj found
        simp only [FSFile.addStrip] at strip
        by_cases index : i = id.toNat
        · rw [index, Function.update_self] at strip
          exact (here (Option.some.inj strip).symm).elim
        · rw [Function.update_of_ne index] at strip
          cases known : host.server.files other with
          | none => rw [known] at strip; cases strip
          | some file => rw [known] at strip; exact tracks.stored other file i path known strip
      · rw [Function.update_of_ne same] at found
        exact tracks.stored other file i path found strip

end Handle

/-! ## Sequences of requests -/

theorem serve_snoc (host : Host) (requests : List Request) (last : Request) :
    host.serve (requests ++ [last]) =
      (host.serve requests).bind fun host => (host.handle last).map (fun answer => answer.2) := by
  rw [serve, List.foldlM_append]
  simp [serve]

section Serve

variable {filesDirectory : String} {requests : List Request} {last : Request} {host host' : Host}

/-- A served request finds the mutex free, and reads or writes no file of width zero. -/
theorem Tracks.handle (tracks : host.Tracks requests) {status : Status}
    (handled : host.handle last = some (status, host')) :
    host.lock = false ∧ host'.Tracks (requests ++ [last]) ∧
      (∀ name, last.accessed = some name → firstWidth requests name ≠ some 0) ∧
      (host'.lock = false ↔ ∀ name, last.accessed = some name → (firstWidth requests name).isSome = true) := by
  have free : host.lock = false := by
    by_contra held
    have blocked : host.handle last = none := by
      cases last with
      | createFile name stripeWidth id => simp [Host.handle, createFile, held]
      | readFile name start size => simp [Host.handle, readFile, access, held]
      | writeFile name start data => simp [Host.handle, writeFile, access, held]
      | readBlock name addr => simp [Host.handle, readBlock, access, held]
      | writeBlock name addr data dirty => simp [Host.handle, writeBlock, access, held]
    rw [blocked] at handled
    cases handled
  refine ⟨free, ?_⟩
  cases accessed : last.accessed with
  | none =>
      obtain ⟨name, stripeWidth, id, rfl⟩ := Request.accessed_eq_none accessed
      obtain ⟨made, done, stays, tracks'⟩ := handle_create tracks name stripeWidth id free
      rw [done] at handled
      obtain ⟨-, rfl⟩ := Prod.mk.inj (Option.some.inj handled)
      exact ⟨tracks', nofun, ⟨fun _ => nofun, fun _ => stays⟩⟩
  | some name =>
      have width := tracks.widths name
      simp only [Option.some.injEq, forall_eq']
      cases found : host.server.files name with
      | none =>
          rw [found] at width
          have unknown : firstWidth requests name = none := by
            cases known : firstWidth requests name with
            | none => rfl
            | some _ => rw [known] at width; cases width
          rw [handle_unknown accessed free found] at handled
          obtain ⟨-, rfl⟩ := Prod.mk.inj (Option.some.inj handled)
          refine ⟨⟨fun other => ?_, tracks.stored⟩, by simp [unknown], by simp [unknown]⟩
          rw [firstWidth_access accessed]
          exact tracks.widths other
      | some file =>
          rw [found] at width
          obtain ⟨first, known⟩ : ∃ first, firstWidth requests name = some first := by
            cases known : firstWidth requests name with
            | none => rw [known] at width; cases width
            | some first => exact ⟨first, rfl⟩
          rw [known] at width
          have same : file.stripWidth = first.toNat := Option.some.inj width
          have positive : file.stripWidth ≠ 0 := by
            intro zero
            rw [handle_zero accessed found zero] at handled
            cases handled
          obtain ⟨answer, disk, done, grows⟩ := handle_known tracks accessed free found positive
          rw [done] at handled
          obtain ⟨-, rfl⟩ := Prod.mk.inj (Option.some.inj handled)
          refine ⟨⟨fun other => ?_, fun other file i path there strip => ?_⟩, ?_, ?_⟩
          · rw [firstWidth_access accessed]
            exact tracks.widths other
          · exact grows path (tracks.stored other file i path there strip)
          · rw [known]
            rintro zero
            rw [Option.some.inj zero] at same
            exact positive same
          · rw [known]
            exact ⟨fun _ => rfl, fun _ => free⟩

theorem started_tracks : (started filesDirectory).Tracks [] := ⟨fun _ => rfl, nofun⟩

theorem serve_tracks : ∀ {requests host}, (started filesDirectory).serve requests = some host →
    host.Tracks requests ∧ NoZeroWidth requests := by
  intro requests
  induction requests using List.reverseRecOn with
  | nil =>
      intro host served
      obtain rfl := Option.some.inj served
      exact ⟨started_tracks, fun before request sub => by simp at sub⟩
  | append_singleton requests last ih =>
      intro host served
      rw [serve_snoc] at served
      obtain ⟨mid, front, served⟩ := Option.bind_eq_some_iff.mp served
      obtain ⟨⟨status, host'⟩, handled, rfl⟩ := Option.map_eq_some_iff.mp served
      obtain ⟨tracks, nonzero⟩ := ih front
      obtain ⟨-, tracks', here, -⟩ := tracks.handle handled
      exact ⟨tracks', NoZeroWidth.snoc_iff.mpr ⟨nonzero, here⟩⟩

end Serve

end Host

end PFS
