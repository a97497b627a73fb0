import PFS.System.Agreement
import PFS.Client.CacheBytes
import PFS.Manager.Exclusion
import PFS.Ordered

/-! # The clients' copies and the manager's tokens

The system as copies of a store under tokens: the store is the file servers'
bytes, a client's copies are the bytes of its cached blocks, and the tokens are
those in the manager's table.  What a client does to its cache is one of the
operations of the library, and a request moves tokens from the clients it
conflicts with to the one that asks.
-/

namespace PFS

open Lib

variable {Peer : Type} [DecidableEq Peer]

namespace PFSClient

/-- The copies a client has of the bytes of its file. -/
def copies (c : PFSClient) : Copies Nat UInt8 := fun b =>
  c.openedFiles.head?.bind fun file => c.cache.byte file.descriptor b

/-- The client has blocks of its open files only. -/
def Sound (c : PFSClient) : Prop := c.cache.Sound (c.openedFiles.map fun file => file.descriptor)

variable {c c' : PFSClient} {name : String} {opened : Bool} {tokens : List Permission} {bytes bytes' : FileBytes}

theorem copies_single {file : ClientFile} (files : c.openedFiles = [file]) :
    c.copies = c.cache.byte file.descriptor := by
  funext b
  simp [copies, files]

theorem copies_closed (files : c.openedFiles = []) : c.copies = fun _ => none := by
  funext b
  simp [copies, files]

/-- A change to the open file that keeps its descriptor. -/
theorem setFile_single {file file' : ClientFile} (files : c.openedFiles = [file]) :
    (c.setFile 0 file').openedFiles = [file'] := by
  rw [setFile, files]
  rfl

theorem foundAt_single {file : ClientFile} {filedes i : Nat} (files : c.openedFiles = [file])
    (found : c.foundAt filedes = some i) : i = 0 ∧ file.descriptor = filedes := by
  simp only [foundAt, files, List.findIdx?_cons, List.findIdx?_nil, decide_eq_true_eq, Option.map_none] at found
  split at found
  · next same => exact ⟨(Option.some.inj found).symm, same⟩
  · cases found

theorem Agrees.found (h : c.Agrees name opened tokens) {filedes i : Nat} (found : c.foundAt filedes = some i) :
    i = 0 ∧ ∃ file, c.openedFiles = [file] ∧ file.descriptor = filedes := by
  rcases h.cases with ⟨files, -⟩ | ⟨file, files, -⟩
  · rw [foundAt, files] at found
    cases found
  · obtain ⟨rfl, same⟩ := foundAt_single files found
    exact ⟨rfl, file, files, same⟩

/-- The cache of a client changes by an operation on the blocks of its file. -/
theorem Sound.update {file : ClientFile} (file' : ClientFile) {cache : Cache} (files : c.openedFiles = [file])
    (sound : cache.Sound [file.descriptor]) (same : file'.descriptor = file.descriptor) :
    ({ c with cache := cache }.setFile 0 file').Sound ∧
      ({ c with cache := cache }.setFile 0 file').copies = cache.byte file.descriptor := by
  have files' : ({ c with cache := cache }.setFile 0 file').openedFiles = [file'] :=
    setFile_single (c := { c with cache := cache }) files
  constructor
  · rw [Sound, files', List.map_singleton, same]
    exact sound
  · rw [copies_single files', same]
    rfl

theorem Sound.single (h : c.Sound) {file : ClientFile} (files : c.openedFiles = [file]) :
    c.cache.Sound [file.descriptor] := by
  rw [Sound, files] at h
  exact h

/-- A revocation evicts the blocks of its range. -/
theorem revokePermission_copies (h : c.Agrees name opened tokens) (sound : c.Sound) {start stop : Nat}
    (revoked : c.revokePermission bytes name start stop = some (c', bytes')) :
    c'.Sound ∧ c'.copies = c.copies.drop (bytesOf (blocksFrom start stop)) ∧
      bytes' = c.copies.writeBack (bytesOf (blocksFrom start stop)) bytes := by
  unfold PFSClient.revokePermission at revoked
  split at revoked
  · next missing =>
      obtain ⟨rfl, rfl⟩ := Prod.mk.inj (Option.some.inj revoked)
      rcases h.cases with ⟨files, -⟩ | ⟨file, files, -, named, -⟩
      · rw [copies_closed files]
        refine ⟨sound, ?_, ?_⟩
        · funext b
          simp [Copies.drop]
        · funext b
          simp [Copies.writeBack]
      · rw [files] at missing
        simp [named] at missing
  · next i found =>
      simp only [Option.bind_eq_bind] at revoked
      obtain ⟨file, at_i, revoked⟩ := Option.bind_eq_some_iff.mp revoked
      obtain ⟨-, revoked⟩ := Option.ite_none_left_eq_some.mp revoked
      obtain ⟨⟨cache, flushed⟩, evicted, revoked⟩ := Option.bind_eq_some_iff.mp revoked
      obtain ⟨rfl, rfl⟩ := Prod.mk.inj (Option.some.inj revoked)
      obtain ⟨rfl, files, -⟩ := h.at at_i
      obtain ⟨sound', copies', store⟩ := evictBlocks_bytes (sound.single files) evicted
      obtain ⟨soundAfter, copiesAfter⟩ := Sound.update
        { file with permissions := PFS.revokePermission start stop file.permissions } files sound' rfl
      rw [copies_single files]
      exact ⟨soundAfter, copiesAfter.trans copies', store⟩

/-- `readFile` loads blocks, and its buffer has the copies. -/
theorem readBytes_copies (h : c.Agrees name opened tokens) (sound : c.Sound) {i filedes offset nbyte : Nat}
    (found : c.foundAt filedes = some i) {buffer : Nat → UInt8}
    (done : c.readBytes bytes i filedes offset nbyte = some (c', buffer)) :
    c'.Sound ∧ (∃ A, c'.copies = c.copies.load A bytes) ∧
      ∀ b ∈ bytesIn offset (offset + nbyte), ∃ d, c'.copies b = some (buffer b, d) := by
  obtain ⟨rfl, file, files, rfl⟩ := h.found found
  simp only [readBytes, Option.bind_eq_bind] at done
  obtain ⟨⟨cache, buffer'⟩, read, done⟩ := Option.bind_eq_some_iff.mp done
  obtain ⟨file', at_0, done⟩ := Option.bind_eq_some_iff.mp done
  obtain rfl : file = file' := by
    rw [files] at at_0
    exact Option.some.inj at_0
  obtain ⟨rfl, rfl⟩ := Prod.mk.inj (Option.some.inj done)
  obtain ⟨sound', copies', values⟩ := readLoop_bytes (sound.single files) (List.mem_singleton_self _)
    (pieces_oneBlock offset nbyte) read
  obtain ⟨soundAfter, copiesAfter⟩ := Sound.update
    { file with permissions := unlockPermission offset (offset + nbyte) file.permissions } files sound' rfl
  rw [← copies_single files] at copies'
  refine ⟨soundAfter, ⟨_, copiesAfter.trans copies'⟩, ?_⟩
  intro b inside
  rw [← pieceBytes_pieces] at inside
  obtain ⟨d, value⟩ := values b (.inl inside)
  exact ⟨d, (congrFun copiesAfter b).trans value⟩

/-- `writeFile` loads blocks and writes its range. -/
theorem writeBytes_copies (h : c.Agrees name opened tokens) (sound : c.Sound) {i filedes offset nbyte : Nat}
    (found : c.foundAt filedes = some i) {data : Nat → UInt8}
    (done : c.writeBytes bytes i filedes offset nbyte data = some c') :
    c'.Sound ∧ ∃ A, c'.copies =
      Copies.put (c.copies.load A bytes) (bytesIn offset (offset + nbyte)) (fun b => data (b - offset)) := by
  obtain ⟨rfl, file, files, rfl⟩ := h.found found
  simp only [writeBytes, Option.bind_eq_bind] at done
  obtain ⟨cache, written, done⟩ := Option.bind_eq_some_iff.mp done
  obtain ⟨file', at_0, done⟩ := Option.bind_eq_some_iff.mp done
  obtain rfl : file = file' := by
    rw [files] at at_0
    exact Option.some.inj at_0
  obtain rfl := Option.some.inj done
  obtain ⟨sound', copies'⟩ := writeLoop_bytes (sound.single files) (List.mem_singleton_self _)
    (pieces_oneBlock offset nbyte) written
  obtain ⟨soundAfter, copiesAfter⟩ := Sound.update
    { file with
      hasModified := true
      size := max file.size ((offset + nbyte) % uint32Size)
      permissions := unlockPermission offset (offset + nbyte) file.permissions } files sound' rfl
  rw [pieceBytes_pieces, ← copies_single files] at copies'
  exact ⟨soundAfter, _, copiesAfter.trans copies'⟩

/-- A cached block is one of the open file. -/
theorem Sound.file (sound : c.Sound) (h : c.Agrees name opened tokens) {fileDes a : Nat} {block : CacheBlock}
    (found : c.cache.find fileDes a = some block) :
    ∃ file, c.openedFiles = [file] ∧ file.descriptor = fileDes := by
  have known := sound.known _ _ _ found
  rcases h.cases with ⟨files, -⟩ | ⟨file, files, -⟩
  · rw [files] at known
    cases known
  · rw [files] at known
    exact ⟨file, files, (List.mem_singleton.mp known).symm⟩

theorem harvestIteration_copies (h : c.Agrees name opened tokens) (sound : c.Sound) {cache : Cache}
    {block : Option CacheBlock} (harvested : c.cache.harvestIteration = some (cache, block))
    (done : c.flushed bytes block = some bytes') :
    { c with cache := cache }.Sound ∧
      ∃ A, { c with cache := cache }.copies = c.copies.drop A ∧ bytes' = c.copies.writeBack A bytes := by
  obtain ⟨wf, fileDes, a, victim, found, contents, rfl, -⟩ := Cache.harvestIteration_spec sound.wf harvested
  obtain ⟨file, files, rfl⟩ := sound.file h found
  refine ⟨Cache.Sound.set sound wf contents nofun, bytesOf [a], ?_, ?_⟩
  · rw [copies_single files, copies_single (c := { c with cache := cache }) files]
    exact Cache.byte_drop contents
  · rw [copies_single files]
    exact flushed_writeBack sound found done

theorem flushIteration_copies (h : c.Agrees name opened tokens) (sound : c.Sound)
    (done : c.flushed bytes c.cache.flushIteration.2 = some bytes') :
    { c with cache := c.cache.flushIteration.1 }.Sound ∧
      ∃ A, { c with cache := c.cache.flushIteration.1 }.copies = c.copies.clean A ∧
        bytes' = c.copies.writeBack A bytes := by
  obtain ⟨wf, same | ⟨fileDes, a, block, found, flushed, contents⟩⟩ := Cache.flushIteration_spec sound.wf
  · rw [same] at done ⊢
    obtain rfl := Option.some.inj done
    refine ⟨sound, ∅, ?_, ?_⟩
    · funext b
      simp only [Copies.clean, Set.mem_empty_iff_false, if_false]
    · funext b
      simp only [Copies.writeBack, Set.mem_empty_iff_false, if_false]
  · obtain ⟨file, files, rfl⟩ := sound.file h found
    rw [flushed] at done
    refine ⟨Cache.Sound.set sound wf contents
      (fun _ => ⟨sound.known _ _ _ found, sound.aligned _ _ _ found⟩), bytesOf [a], ?_, ?_⟩
    · rw [copies_single files, copies_single (c := { c with cache := c.cache.flushIteration.1 }) files]
      exact Cache.byte_clean found contents
    · rw [copies_single files]
      exact flush_writeBack sound found done

end PFSClient

namespace MMFile

/-- The tokens of the table. -/
def cover (f : MMFile Peer) (peer : Peer) (write : Bool) (b : Nat) : Prop := Grants (f.tokens peer) write b

/-- The table's lists are in order, in range and exclusive. -/
structure Orderly (f : MMFile Peer) : Prop where
  ordered : ∀ q, Ordered (f.tokens q)
  small : ∀ q, Bounded (f.tokens q)
  exclusive : f.PairwiseExclusive

variable {f f' : MMFile Peer} {peer : Peer} {start stop : Nat} {iswrite : Bool} {grant : Grant Peer}
  {s : Replicas Peer Nat UInt8}

theorem Orderly.congr (h : f.Orderly) (tokens : ∀ q, f'.tokens q = f.tokens q) : f'.Orderly where
  ordered q := by rw [tokens]; exact h.ordered q
  small q := by rw [tokens]; exact h.small q
  exclusive p q distinct := by rw [tokens, tokens]; exact h.exclusive p q distinct

/-- A request that is granted without a slip keeps the table orderly. -/
theorem Orderly.serve (h : f.Orderly) (range : start ≤ stop) (smallStop : stop ≤ intMax)
    (clean : GrantClean (f.tokens peer) (f.grantRange peer start stop iswrite).1
      (f.grantRange peer start stop iswrite).2 iswrite)
    (asked : f.waitAndGetPermissionFor peer start stop iswrite = some (f', grant)) : f'.Orderly := by
  obtain ⟨granted, -, added, rest, -⟩ := waitAndGetPermissionFor_spec asked
  obtain ⟨-, -, smallEnd, forward⟩ := grantRange_le f peer iswrite range smallStop
  rw [granted] at clean smallEnd forward
  simp only at clean smallEnd forward
  refine ⟨fun q => ?_, waitAndGetPermissionFor_bounded h.small range smallStop asked,
    getPermission_exclusive h.exclusive asked⟩
  by_cases same : q = peer
  · subst same
    exact addPermission_ordered (h.ordered q) forward smallEnd clean added
  · rw [rest q same, tokensAfter]
    split
    · exact revokePermission_ordered (h.ordered q) range
    · exact h.ordered q

/-- What a peer holds before a request and does not have to give up, it holds
    after it. -/
theorem Orderly.keeps (h : f.Orderly) (range : start ≤ stop) (smallStop : stop ≤ intMax)
    (clean : GrantClean (f.tokens peer) (f.grantRange peer start stop iswrite).1
      (f.grantRange peer start stop iswrite).2 iswrite)
    (asked : f.waitAndGetPermissionFor peer start stop iswrite = some (f', grant)) {q : Peer} {m : Bool} {b : Nat}
    (outside : q ∈ f.conflicting peer start stop iswrite → b ∉ bytesIn start stop) (held : f.cover q m b) :
    f'.cover q m b := by
  obtain ⟨granted, -, added, rest, -⟩ := waitAndGetPermissionFor_spec asked
  obtain ⟨-, -, smallEnd, forward⟩ := grantRange_le f peer iswrite range smallStop
  rw [granted] at clean smallEnd forward
  by_cases same : q = peer
  · subst same
    exact addPermission_keeps (h.ordered q) forward smallEnd clean added held
  · rw [cover, rest q same, tokensAfter]
    split
    · next clash =>
        exact revokePermission_keeps (h.ordered q) (outside (mem_conflicting.mpr ⟨same, clash⟩)) held
    · exact held

/-- The peer that asks gets what it is granted. -/
theorem gets_grant (range : start ≤ stop) (smallStop : stop ≤ intMax)
    (asked : f.waitAndGetPermissionFor peer start stop iswrite = some (f', grant)) {b : Nat}
    (low : grant.start ≤ b) (high : b < grant.stop) : f'.cover peer iswrite b := by
  obtain ⟨granted, -, added, -, -⟩ := waitAndGetPermissionFor_spec asked
  obtain ⟨-, -, smallEnd, -⟩ := grantRange_le f peer iswrite range smallStop
  rw [granted] at smallEnd
  exact addPermission_ge added smallEnd low high

theorem gets (range : start ≤ stop) (smallStop : stop ≤ intMax)
    (asked : f.waitAndGetPermissionFor peer start stop iswrite = some (f', grant)) {b : Nat}
    (inside : b ∈ bytesIn start stop) : f'.cover peer iswrite b := by
  obtain ⟨granted, -⟩ := waitAndGetPermissionFor_spec asked
  obtain ⟨low, high, -⟩ := grantRange_le f peer iswrite range smallStop
  rw [granted] at low high
  exact gets_grant range smallStop asked (low.trans inside.1) (inside.2.trans_le high)

/-- A request as a move of tokens, once the peers it takes tokens from have
    nothing dirty in its range. -/
theorem Orderly.moves (h : f.Orderly) (range : start ≤ stop) (smallStop : stop ≤ intMax)
    (clean : GrantClean (f.tokens peer) (f.grantRange peer start stop iswrite).1
      (f.grantRange peer start stop iswrite).2 iswrite)
    (asked : f.waitAndGetPermissionFor peer start stop iswrite = some (f', grant)) (tokens : s.cover = f.cover)
    (evicted : ∀ q ∈ f.conflicting peer start stop iswrite, ∀ b ∈ bytesIn start stop, s.copies q b = none) :
    s.Moves f'.cover where
  readable q b held := held.read
  exclusive p q b distinct held other :=
    ((h.serve range smallStop clean asked).exclusive p q distinct b).1 held other
  guarded q b dirty held := by
    rw [tokens] at held
    refine h.keeps range smallStop clean asked (fun revoked inside => ?_) held
    obtain ⟨x, copy⟩ := dirty
    rw [evicted q revoked b inside] at copy
    cases copy

theorem Orderly.movesFresh (h : f.Orderly) (range : start ≤ stop) (smallStop : stop ≤ intMax)
    (clean : GrantClean (f.tokens peer) (f.grantRange peer start stop iswrite).1
      (f.grantRange peer start stop iswrite).2 iswrite)
    (asked : f.waitAndGetPermissionFor peer start stop iswrite = some (f', grant)) (tokens : s.cover = f.cover)
    (evicted : ∀ q ∈ f.conflicting peer start stop iswrite, ∀ b ∈ bytesIn start stop, s.copies q b = none)
    (coherent : s.Coherent)
    (fresh : ∀ b ∈ bytesIn start stop, ¬ f.cover peer false b → (s.latest b).isSome → s.copies peer b = none) :
    s.MovesFresh f'.cover where
  toMoves := h.moves range smallStop clean asked tokens evicted
  fresh q b x c held written copy := by
    obtain ⟨granted, -, added, rest, -⟩ := waitAndGetPermissionFor_spec asked
    rw [tokens]
    by_cases same : q = peer
    · subst same
      rcases addPermission_le added held with before | ⟨low, high, -⟩
      · exact .inl before
      · by_cases before : f.cover q false b
        · exact .inl before
        · rcases grantRange_cases f q start stop iswrite with exactly | ⟨-, alone⟩
          · rw [granted, Prod.mk.injEq] at exactly
            have missing := fresh b ⟨by omega, by omega⟩ before (by rw [written]; rfl)
            rw [missing] at copy
            cases copy
          · obtain ⟨r, owner⟩ := coherent.owned b x written
            rw [tokens] at owner
            by_cases other : r = q
            · subst other
              exact .inl owner
            · rw [cover, alone r other] at owner
              exact (Grants.nil owner).elim
    · rw [cover, rest q same] at held
      exact .inl (tokensAfter_le held)
  owned b x q _ held := by
    rw [tokens] at held
    by_cases inside : b ∈ bytesIn start stop
    · exact ⟨peer, (gets range smallStop asked inside).read⟩
    · exact ⟨q, h.keeps range smallStop clean asked (fun _ => inside) held⟩

end MMFile

end PFS
