import PFS.System.Lifetime
import PFS.System.OpenTables

/-! # When an access hits the cache

`readFile` and `writeFile` leave 1 in `*cache_hit` if every block of the range is in
the client's cache.  A block gets there with an access of the client itself.  It goes
when the harvester takes it, when the client closes the file, and when an access of
another client makes the manager revoke a token of the client.
-/

namespace PFS

open Lib

namespace PFSClient

variable {c c' : Cache} {filedes : Nat} {bytes : FileBytes}

/-- The loop of `readFile` with its `*cache_hit`. -/
def readLoopHit (filedes : Nat) (bytes : FileBytes) : List (Nat × Nat) → Cache → (Nat → UInt8) → Bool →
    Option (Cache × (Nat → UInt8) × Bool)
  | [], cache, buffer, cacheHit => some (cache, buffer, cacheHit)
  | (offset, actualSize) :: rest, cache, buffer, cacheHit => do
      let (cache, cacheData, cacheHit) ←
        match cache.readBlock filedes (blockOf offset) with
        | (cache, some cacheData) => some (cache, cacheData, cacheHit)
        | (cache, none) =>
            let cacheData := getBlockFromFileServer bytes (blockOf offset)
            (cache.addBlock filedes (blockOf offset) cacheData).map fun cache => (cache, cacheData, false)
      readLoopHit filedes bytes rest cache (fun b =>
        if offset ≤ b ∧ b < offset + actualSize then cacheData (b - blockOf offset) else buffer b) cacheHit

/-- The loop of `writeFile` with its `*cache_hit`. -/
def writeLoopHit (filedes : Nat) (bytes : FileBytes) (data : Nat → UInt8) : List (Nat × Nat) → Cache → Bool →
    Option (Cache × Bool)
  | [], cache, cacheHit => some (cache, cacheHit)
  | (offset, actualSize) :: rest, cache, cacheHit => do
      let (cache, cacheHit) ←
        match cache.write filedes offset actualSize (fun i => data (offset + i)) with
        | (cache, true) => some (cache, cacheHit)
        | (cache, false) =>
            (cache.addBlock filedes (blockOf offset) (getBlockFromFileServer bytes (blockOf offset))).map fun cache =>
              ((cache.write filedes offset actualSize (fun i => data (offset + i))).1, false)
      writeLoopHit filedes bytes data rest cache cacheHit

/-- `readBytes` with `*cache_hit`. -/
def readBytesHit (c : PFSClient) (bytes : FileBytes) (i filedes offset nbyte : Nat) :
    Option (PFSClient × (Nat → UInt8) × Bool) := do
  let (cache, buffer, cacheHit) ← readLoopHit filedes bytes (pieces offset nbyte) c.cache (fun _ => 0) true
  let file ← c.openedFiles[i]?
  some ({ c with cache := cache }.setFile i
    { file with permissions := unlockPermission offset (offset + nbyte) file.permissions }, buffer, cacheHit)

/-- `writeBytes` with `*cache_hit`. -/
def writeBytesHit (c : PFSClient) (bytes : FileBytes) (i filedes offset nbyte : Nat) (data : Nat → UInt8) :
    Option (PFSClient × Bool) := do
  let (cache, cacheHit) ← writeLoopHit filedes bytes (fun b => data (b - offset)) (pieces offset nbyte) c.cache true
  let file ← c.openedFiles[i]?
  some ({ c with cache := cache }.setFile i
    { file with
      hasModified := true
      size := max file.size ((offset + nbyte) % uint32Size)
      permissions := unlockPermission offset (offset + nbyte) file.permissions }, cacheHit)

/-! ## The loops -/

/-- The blocks of these pieces are all in the cache. -/
def allFound (c : Cache) (filedes : Nat) (ps : List (Nat × Nat)) : Bool :=
  (blocksOf ps).all fun a => (c.find filedes a).isSome

theorem allFound_cons (offset size : Nat) (rest : List (Nat × Nat)) :
    allFound c filedes ((offset, size) :: rest) = ((c.find filedes (blockOf offset)).isSome && allFound c filedes rest) := rfl

theorem allFound_congr (same : ∀ a, (c'.find filedes a).isNone = (c.find filedes a).isNone) (ps : List (Nat × Nat)) :
    allFound c' filedes ps = allFound c filedes ps := by
  simp only [allFound, ← Option.not_isNone, same]

theorem readLoopHit_eq {ps : List (Nat × Nat)} (wf : c.WF) (buffer : Nat → UInt8) (cacheHit : Bool) :
    readLoopHit filedes bytes ps c buffer cacheHit =
      (readLoop filedes bytes ps c buffer).map fun r => (r.1, r.2, cacheHit && allFound c filedes ps) := by
  induction ps generalizing c buffer cacheHit with
  | nil =>
      rw [readLoopHit, readLoop, Option.map_some]
      simp [allFound, blocksOf]
  | cons piece rest ih =>
      obtain ⟨offset, size⟩ := piece
      rw [readLoop_cons, readLoopHit, allFound_cons]
      obtain ⟨wf₁, contents, answer⟩ := Cache.readBlock_spec wf filedes (blockOf offset)
      cases found : c.find filedes (blockOf offset) with
      | some block =>
          rw [found, Option.map_some] at answer
          rw [show c.readBlock filedes (blockOf offset) = (_, some block.data) from Prod.ext rfl answer]
          have same : allFound (c.readBlock filedes (blockOf offset)).1 filedes rest = allFound c filedes rest :=
            allFound_congr (fun a => by rw [contents]) rest
          simp only [Option.bind_eq_bind, Option.bind_some, Option.isSome_some, Bool.true_and]
          rw [ih wf₁, same]
      | none =>
          rw [Cache.readBlock_missing found]
          simp only [Option.bind_eq_bind, Option.isSome_none, Bool.false_and, Bool.and_false]
          cases added : c.addBlock filedes (blockOf offset) (getBlockFromFileServer bytes (blockOf offset)) with
          | none => rfl
          | some c₁ =>
              simp only [Option.map_some, Option.bind_some]
              rw [ih (Cache.addBlock_spec wf found added).1]
              simp only [Bool.false_and]

theorem writeLoopHit_eq {ps : List (Nat × Nat)} (wf : c.WF) (one : ∀ piece ∈ ps, OneBlock piece) (data : Nat → UInt8)
    (cacheHit : Bool) :
    writeLoopHit filedes bytes data ps c cacheHit =
      (writeLoop filedes bytes data ps c).map fun cache => (cache, cacheHit && allFound c filedes ps) := by
  induction ps generalizing c cacheHit with
  | nil =>
      rw [writeLoopHit, writeLoop, Option.map_some]
      simp [allFound, blocksOf]
  | cons piece rest ih =>
      obtain ⟨offset, size⟩ := piece
      have here := one (offset, size) List.mem_cons_self
      have others : ∀ piece ∈ rest, OneBlock piece := fun piece member => one piece (List.mem_cons_of_mem _ member)
      rw [writeLoop_cons, writeLoopHit, allFound_cons]
      cases found : c.find filedes (blockOf offset) with
      | some block =>
          obtain ⟨-, answer, -⟩ := Cache.write_spec wf filedes offset (fun i => data (offset + i)) here.1
          obtain ⟨wf₁, -, same⟩ := write_keeps wf filedes here (fun i => data (offset + i))
          rw [found, Option.isSome_some] at answer
          rw [show c.write filedes offset size (fun i => data (offset + i)) = (_, true) from Prod.ext rfl answer]
          simp only [Option.bind_eq_bind, Option.bind_some, Option.isSome_some, Bool.true_and]
          rw [ih wf₁ others, allFound_congr same]
      | none =>
          rw [Cache.write_missing found]
          simp only [Option.bind_eq_bind, Option.isSome_none, Bool.false_and, Bool.and_false]
          cases added : c.addBlock filedes (blockOf offset) (getBlockFromFileServer bytes (blockOf offset)) with
          | none => rfl
          | some c₁ =>
              simp only [Option.map_some, Option.bind_some]
              rw [ih (write_keeps (Cache.addBlock_spec wf found added).1 filedes here _).1 others]
              simp only [Bool.false_and]

/-- The loop of a read whose blocks are all there copies from the cache. -/
theorem readLoop_found {ps : List (Nat × Nat)} {buffer buffer' : Nat → UInt8} (wf : c.WF)
    (one : ∀ piece ∈ ps, OneBlock piece) (present : allFound c filedes ps = true)
    (done : readLoop filedes bytes ps c buffer = some (c', buffer')) (b : Nat) :
    (b ∉ pieceBytes ps → buffer' b = buffer b) ∧
      (b ∈ pieceBytes ps → (c.byte filedes b).map Prod.fst = some (buffer' b)) := by
  induction ps generalizing c buffer with
  | nil =>
      obtain ⟨rfl, rfl⟩ := Prod.mk.inj (Option.some.inj done)
      refine ⟨fun _ => rfl, ?_⟩
      rintro ⟨piece, member, -⟩
      exact (List.not_mem_nil member).elim
  | cons piece rest ih =>
      obtain ⟨offset, size⟩ := piece
      have here := one (offset, size) List.mem_cons_self
      rw [allFound_cons, Bool.and_eq_true] at present
      obtain ⟨block, found⟩ := Option.isSome_iff_exists.mp present.1
      obtain ⟨wf₁, contents, answer⟩ := Cache.readBlock_spec wf filedes (blockOf offset)
      rw [found, Option.map_some] at answer
      rw [readLoop_cons, show c.readBlock filedes (blockOf offset) = (_, some block.data) from Prod.ext rfl answer,
        Option.bind_some] at done
      have present₁ : allFound (c.readBlock filedes (blockOf offset)).1 filedes rest = true :=
        (allFound_congr (fun a => by rw [contents]) rest).trans present.2
      obtain ⟨kept, copied⟩ := ih wf₁ (fun piece member => one piece (List.mem_cons_of_mem _ member)) present₁ done
      have same : (c.readBlock filedes (blockOf offset)).1.byte filedes b = c.byte filedes b := by
        rw [Cache.byte, contents, Cache.byte]
      rw [pieceBytes_cons, Set.mem_union]
      refine ⟨fun outside => ?_, fun inside => ?_⟩
      · rw [not_or] at outside
        rw [kept outside.2]
        exact if_neg outside.1
      · by_cases later : b ∈ pieceBytes rest
        · rw [← same]
          exact copied later
        · have first := inside.resolve_right later
          rw [kept later, Cache.byte, here.blockOf_eq first, found]
          simp only [Option.map_some]
          exact congrArg some (if_pos first).symm

/-- These blocks of a file have been added to those in the cache. -/
structure Adds (c c' : Cache) (filedes : Nat) (blocks : List Nat) : Prop where
  wf : c'.WF
  contents : ∀ fd a, (c'.find fd a).isSome = true ↔ (c.find fd a).isSome = true ∨ (fd = filedes ∧ a ∈ blocks)

theorem Adds.nil (wf : c.WF) : Adds c c filedes [] := ⟨wf, fun fd a => by simp⟩

theorem Adds.cons {c₁ : Cache} {first : Nat} {rest : List Nat} (one : Adds c c₁ filedes [first])
    (others : Adds c₁ c' filedes rest) : Adds c c' filedes (first :: rest) := by
  refine ⟨others.wf, fun fd a => ?_⟩
  rw [others.contents, one.contents, List.mem_singleton, List.mem_cons, and_or_left, or_assoc]

theorem Adds.found {a : Nat} {block : CacheBlock} (found : c.find filedes a = some block) (wf : c'.WF)
    (same : ∀ fd b, (c'.find fd b).isSome = (c.find fd b).isSome) : Adds c c' filedes [a] := by
  refine ⟨wf, fun fd b => ?_⟩
  rw [same, iff_self_or, List.mem_singleton]
  rintro ⟨rfl, rfl⟩
  rw [found, Option.isSome_some]

theorem Adds.fetched {a : Nat} {data : Nat → UInt8} (wf : c.WF) (absent : c.find filedes a = none)
    (added : c.addBlock filedes a data = some c') : Adds c c' filedes [a] := by
  obtain ⟨wf', -, contents⟩ := Cache.addBlock_spec wf absent added
  refine ⟨wf', fun fd b => ?_⟩
  rw [contents, Cache.set, List.mem_singleton]
  split
  · next key => simp [key]
  · next key => simp [key]

theorem Adds.rewritten {c₁ : Cache} {blocks : List Nat} (adds : Adds c c₁ filedes blocks) (wf : c'.WF)
    (same : ∀ fd a, (c'.find fd a).isSome = (c₁.find fd a).isSome) : Adds c c' filedes blocks :=
  ⟨wf, fun fd a => by rw [same, adds.contents]⟩

/-- A read adds its blocks. -/
theorem readLoop_adds {ps : List (Nat × Nat)} {buffer buffer' : Nat → UInt8} (wf : c.WF)
    (done : readLoop filedes bytes ps c buffer = some (c', buffer')) : Adds c c' filedes (blocksOf ps) := by
  induction ps generalizing c buffer with
  | nil =>
      obtain ⟨rfl, rfl⟩ := Prod.mk.inj (Option.some.inj done)
      exact .nil wf
  | cons piece rest ih =>
      obtain ⟨offset, size⟩ := piece
      rw [readLoop_cons] at done
      obtain ⟨⟨c₁, cacheData⟩, first, done⟩ := Option.bind_eq_some_iff.mp done
      have here : Adds c c₁ filedes [blockOf offset] := by
        cases found : c.find filedes (blockOf offset) with
        | some block =>
            obtain ⟨wf₁, contents, answer⟩ := Cache.readBlock_spec wf filedes (blockOf offset)
            rw [found, Option.map_some] at answer
            rw [show c.readBlock filedes (blockOf offset) = (_, some block.data) from Prod.ext rfl answer] at first
            obtain ⟨rfl, -⟩ := Prod.mk.inj (Option.some.inj first)
            exact .found found wf₁ fun fd b => by rw [contents]
        | none =>
            rw [Cache.readBlock_missing found] at first
            obtain ⟨c₂, added, made⟩ := Option.map_eq_some_iff.mp first
            obtain ⟨rfl, -⟩ := Prod.mk.inj made
            exact .fetched wf found added
      exact here.cons (ih here.wf done)

theorem write_same (wf : c.WF) (filedes : Nat) {offset size : Nat} (one : OneBlock (offset, size)) (data : Nat → UInt8)
    (fd a : Nat) : ((c.write filedes offset size data).1.find fd a).isSome = (c.find fd a).isSome := by
  obtain ⟨-, -, contents⟩ := Cache.write_spec wf filedes offset data one.1
  rw [contents, Cache.set]
  split
  · next key => rw [key.1, key.2, Option.isSome_map]
  · rfl

/-- A write adds its blocks. -/
theorem writeLoop_adds {ps : List (Nat × Nat)} {data : Nat → UInt8} (wf : c.WF) (one : ∀ piece ∈ ps, OneBlock piece)
    (done : writeLoop filedes bytes data ps c = some c') : Adds c c' filedes (blocksOf ps) := by
  induction ps generalizing c with
  | nil =>
      obtain rfl := Option.some.inj done
      exact .nil wf
  | cons piece rest ih =>
      obtain ⟨offset, size⟩ := piece
      have one' := one (offset, size) List.mem_cons_self
      rw [writeLoop_cons] at done
      obtain ⟨c₁, first, done⟩ := Option.bind_eq_some_iff.mp done
      have here : Adds c c₁ filedes [blockOf offset] := by
        cases found : c.find filedes (blockOf offset) with
        | some block =>
            obtain ⟨-, answer, -⟩ := Cache.write_spec wf filedes offset (fun i => data (offset + i)) one'.1
            rw [found, Option.isSome_some] at answer
            rw [show c.write filedes offset size (fun i => data (offset + i)) = (_, true) from Prod.ext rfl answer]
              at first
            obtain rfl := Option.some.inj first
            exact .found found (write_keeps wf filedes one' _).1 (write_same wf filedes one' _)
        | none =>
            rw [Cache.write_missing found] at first
            obtain ⟨c₂, added, rfl⟩ := Option.map_eq_some_iff.mp first
            have fetched : Adds c c₂ filedes [blockOf offset] := .fetched wf found added
            exact fetched.rewritten (write_keeps fetched.wf filedes one' _).1 (write_same fetched.wf filedes one' _)
      exact here.cons (ih here.wf (fun piece member => one piece (List.mem_cons_of_mem _ member)) done)

/-- The blocks of a call. -/
theorem mem_blocksOf_pieces {offset nbyte a : Nat} :
    a ∈ blocksOf (pieces offset nbyte) ↔ a ∈ rangeBlocks offset nbyte := by
  constructor
  · intro member
    obtain ⟨piece, inside, rfl⟩ := List.mem_map.mp member
    exact piece_rangeBlocks piece inside
  · rintro ⟨b, inside, rfl⟩
    rw [← pieceBytes_pieces] at inside
    obtain ⟨piece, member, within⟩ := inside
    exact List.mem_map.mpr ⟨piece, member, ((pieces_oneBlock offset nbyte piece member).blockOf_eq within).symm⟩

theorem allFound_pieces {offset nbyte : Nat} : allFound c filedes (pieces offset nbyte) = true ↔
    ∀ a ∈ rangeBlocks offset nbyte, (c.find filedes a).isSome = true := by
  rw [allFound, List.all_eq_true]
  exact forall_congr' fun a => imp_congr_left mem_blocksOf_pieces

/-- A revocation takes blocks from the first open file of the name. -/
theorem revokePermission_find {client client' : PFSClient} {bytes' : FileBytes} {filename : String} {start stop : Nat}
    (wf : client.cache.WF) (done : client.revokePermission bytes filename start stop = some (client', bytes')) :
    client'.cache.WF ∧ ∀ fd a, (client'.cache.find fd a).isSome = true ↔ (client.cache.find fd a).isSome = true ∧
      ¬ ∃ file, client.openedFiles.find? (fun file => file.name = filename) = some file ∧ file.descriptor = fd ∧
        a ∈ blocksFrom start stop := by
  unfold PFSClient.revokePermission at done
  split at done
  · next missing =>
      obtain ⟨rfl, -⟩ := Prod.mk.inj (Option.some.inj done)
      refine ⟨wf, fun fd a => ?_⟩
      rw [List.find?_eq_bind_findIdx?_getElem?, missing]
      simp
  · next i found =>
      simp only [Option.bind_eq_bind] at done
      obtain ⟨file, at_i, done⟩ := Option.bind_eq_some_iff.mp done
      obtain ⟨-, done⟩ := Option.ite_none_left_eq_some.mp done
      obtain ⟨⟨cache, bytes₁⟩, evicted, done⟩ := Option.bind_eq_some_iff.mp done
      obtain ⟨rfl, -⟩ := Prod.mk.inj (Option.some.inj done)
      obtain ⟨wf', contents⟩ := evictBlocks_find wf evicted
      refine ⟨wf', fun fd a => ?_⟩
      rw [List.find?_eq_bind_findIdx?_getElem?, found, Option.bind_some, at_i]
      rw [show (({ client with cache := cache } : PFSClient).setFile i _).cache.find fd a = cache.find fd a from rfl, contents]
      simp only [Option.some.injEq, exists_eq_left']
      split
      · next key => simp [key]
      · next key =>
          rw [not_and] at key
          simp only [not_and, iff_self_and]
          rintro - rfl
          exact key rfl

end PFSClient

namespace ManyFiles

variable {s s' : ManyFiles}

/-- `readFile` with `*cache_hit`, which an error leaves as it was. -/
def readFileHit (s : ManyFiles) (filedes offset nbyte : Nat) (reply : Option PermissionReply) :
    Option (ManyFiles × Option ((Nat → UInt8) × Bool)) := do
  let (s, acquired) ← s.acquirePermission filedes offset (offset + nbyte) false reply
  match acquired with
  | none => some (s, none)
  | some i => do
      let file ← s.client.openedFiles[i]?
      let (c, buffer, cacheHit) ← s.client.readBytesHit (s.store file.name) i filedes offset nbyte
      some ({ s with client := c }, some (fun k => buffer (offset + k), cacheHit))

/-- `writeFile` with `*cache_hit`. -/
def writeFileHit (s : ManyFiles) (filedes offset nbyte : Nat) (data : Nat → UInt8) (reply : Option PermissionReply) :
    Option (ManyFiles × Option Bool) := do
  let (s, acquired) ← s.acquirePermission filedes offset (offset + nbyte) true reply
  match acquired with
  | none => some (s, none)
  | some i => do
      let file ← s.client.openedFiles[i]?
      let (c, cacheHit) ← s.client.writeBytesHit (s.store file.name) i filedes offset nbyte data
      some ({ s with client := c }, some cacheHit)

theorem acquirePermission_cache {filedes start stop : Nat} {write : Bool} {reply : Option PermissionReply}
    {acquired : Option Nat} (done : s.acquirePermission filedes start stop write reply = some (s', acquired)) :
    s'.client.cache = s.client.cache ∧ (acquired.isSome = true ↔ ∃ file,
      s.client.openedFiles.find? (fun file => file.descriptor = filedes) = some file ∧
        (hasPermission start stop write file.permissions = true ∨ reply.isSome = true)) := by
  rw [List.find?_eq_bind_findIdx?_getElem?]
  unfold acquirePermission at done
  split at done
  · next missing =>
      obtain ⟨rfl, rfl⟩ := Prod.mk.inj (Option.some.inj done)
      rw [show s.client.openedFiles.findIdx? (fun file => decide (file.descriptor = filedes)) = none from missing]
      simp
  · next i found =>
      obtain ⟨file, at_i, done⟩ := Option.bind_eq_some_iff.mp done
      rw [show s.client.openedFiles.findIdx? (fun file => decide (file.descriptor = filedes)) = some i from found,
        Option.bind_some, at_i]
      split at done
      · next held =>
          obtain ⟨rfl, rfl⟩ := Prod.mk.inj (Option.some.inj done)
          simp [held]
      · next lacks =>
          cases reply with
          | none =>
              obtain ⟨rfl, rfl⟩ := Prod.mk.inj (Option.some.inj done)
              simp [lacks]
          | some granted =>
              obtain ⟨permissions, -, done⟩ := Option.bind_eq_some_iff.mp done
              obtain ⟨rfl, rfl⟩ := Prod.mk.inj (Option.some.inj done)
              simp [PFSClient.setFile]

/-- `readFile` and its `*cache_hit`. -/
theorem readFileHit_eq (wf : s.client.cache.WF) (filedes offset nbyte : Nat) (reply : Option PermissionReply) :
    s.readFileHit filedes offset nbyte reply = (s.readFile filedes offset nbyte reply).map fun r =>
      (r.1, r.2.map fun buffer => (buffer, PFSClient.allFound s.client.cache filedes (pieces offset nbyte))) := by
  rw [readFileHit, readFile]
  cases acquiring : s.acquirePermission filedes offset (offset + nbyte) false reply with
  | none => rfl
  | some r =>
      obtain ⟨s₁, acquired⟩ := r
      obtain ⟨own, -⟩ := acquirePermission_cache acquiring
      simp only [Option.bind_eq_bind, Option.bind_some]
      cases acquired with
      | none => rfl
      | some i =>
          simp only
          cases at_i : s₁.client.openedFiles[i]? with
          | none => rfl
          | some file =>
              simp only [Option.bind_some, PFSClient.readBytesHit, PFSClient.readBytes, Option.bind_eq_bind, at_i]
              rw [PFSClient.readLoopHit_eq (by rw [own]; exact wf), own]
              cases PFSClient.readLoop filedes (s₁.store file.name) (pieces offset nbyte) s.client.cache fun _ => 0 with
              | none => rfl
              | some r => rfl

/-- `writeFile` and its `*cache_hit`. -/
theorem writeFileHit_eq (wf : s.client.cache.WF) (filedes offset nbyte : Nat) (data : Nat → UInt8)
    (reply : Option PermissionReply) :
    s.writeFileHit filedes offset nbyte data reply = (s.writeFile filedes offset nbyte data reply).map fun r =>
      (r.1, if r.2 then some (PFSClient.allFound s.client.cache filedes (pieces offset nbyte)) else none) := by
  rw [writeFileHit, writeFile]
  cases acquiring : s.acquirePermission filedes offset (offset + nbyte) true reply with
  | none => rfl
  | some r =>
      obtain ⟨s₁, acquired⟩ := r
      obtain ⟨own, -⟩ := acquirePermission_cache acquiring
      simp only [Option.bind_eq_bind, Option.bind_some]
      cases acquired with
      | none => rfl
      | some i =>
          simp only
          cases at_i : s₁.client.openedFiles[i]? with
          | none => rfl
          | some file =>
              simp only [Option.bind_some, PFSClient.writeBytesHit, PFSClient.writeBytes, Option.bind_eq_bind, at_i]
              rw [PFSClient.writeLoopHit_eq (by rw [own]; exact wf) (PFSClient.pieces_oneBlock offset nbyte), own]
              cases PFSClient.writeLoop filedes (s₁.store file.name) (fun b => data (b - offset)) (pieces offset nbyte)
                  s.client.cache with
              | none => rfl
              | some cache => rfl

/-- `closeFile` evicts the blocks of the tokens of one file. -/
theorem closeFile_contents (wf : s.client.cache.WF) {filedes : Int} {status : Status} {value : Int}
    {request : CloseFileRequest} (done : s.closeFile filedes status = some (value, request, s')) :
    ∃ file, s.client.openedFiles[s.closeIndex filedes]? = some file ∧ s'.client.cache.WF ∧ ∀ fd a,
      (s'.client.cache.find fd a).isSome = true ↔ (s.client.cache.find fd a).isSome = true ∧
        ¬ (file.descriptor = fd ∧ a ∈ PFSClient.tokenBlocks file.permissions) := by
  obtain ⟨file, at_i, rest⟩ := Option.bind_eq_some_iff.mp done
  obtain ⟨⟨cache, bytes⟩, evicted, -⟩ := Option.bind_eq_some_iff.mp rest
  have at_i : s.client.openedFiles[s.closeIndex filedes]? = some file := at_i
  rw [closeFile_eq at_i evicted] at done
  have cached : s'.client.cache = cache := by
    split at done
    · cases done
      rfl
    · cases done
      rfl
  rw [PFSClient.evictTokens_eq] at evicted
  obtain ⟨wf', contents⟩ := PFSClient.evictBlocks_find wf evicted
  refine ⟨file, at_i, by rw [cached]; exact wf', fun fd a => ?_⟩
  rw [cached, contents]
  split
  · next key => simp [key]
  · next key =>
      rw [iff_self_and]
      rintro - ⟨rfl, inside⟩
      exact key ⟨rfl, inside⟩

end ManyFiles

/-- The harvester's victim. -/
theorem Cache.harvestIteration_victim {c c' : Cache} {flushed : Option CacheBlock} (wf : c.WF)
    (harvested : c.harvestIteration = some (c', flushed)) :
    c'.WF ∧ ∃ taken, c.harvest = some taken ∧
      c'.find = Cache.set c.find (c.block taken.node).fdes (c.block taken.node).addr none := by
  obtain ⟨L, rep, held, units⟩ := wf
  obtain ⟨t, taken, result⟩ := Option.map_eq_some_iff.mp harvested
  obtain ⟨n, victim⟩ := rep.victim_of_harvest taken
  obtain ⟨t', taken', takes⟩ := rep.harvest victim
  obtain rfl := Option.some.inj (taken'.symm.trans taken)
  obtain ⟨wf', contents⟩ := taken_spec rep held units (Rep.victim_cached victim) takes
  obtain ⟨rfl, -⟩ := Prod.mk.inj result
  refine ⟨wf', t', taken, contents.trans ?_⟩
  rw [takes.node]

namespace Deployment

variable {Peer : Type} [DecidableEq Peer] {s s' : Deployment Peer}

/-- `readFile` with the bytes it returns and its `*cache_hit`. -/
def readFileHit (s : Deployment Peer) (peer : Peer) (filedes offset nbyte : Nat) (order : List Peer) :
    Option (Deployment Peer × Option ((Nat → UInt8) × Bool)) := do
  let (s, reply) ← s.requestPermission peer filedes offset (offset + nbyte) false order
  let (files, result) ← (s.files peer).readFileHit filedes offset nbyte reply
  some (s.setFiles peer files, result)

/-- `writeFile` with its `*cache_hit`. -/
def writeFileHit (s : Deployment Peer) (peer : Peer) (filedes offset nbyte : Nat) (data : Nat → UInt8)
    (order : List Peer) : Option (Deployment Peer × Option Bool) := do
  let (s, reply) ← s.requestPermission peer filedes offset (offset + nbyte) true order
  let (files, cacheHit) ← (s.files peer).writeFileHit filedes offset nbyte data reply
  some (s.setFiles peer files, cacheHit)

/-- The access gets its token: the client has it, or it has the file open for the manager too. -/
def Acquires (s : Deployment Peer) (peer : Peer) (filedes start stop : Nat) (write : Bool) : Prop :=
  ∃ file, (s.clients peer).openedFiles.find? (fun file => file.descriptor = filedes) = some file ∧
    (hasPermission start stop write file.permissions = true ∨
      ∃ record, s.manager.files.lookup file.name = some record ∧ record.isOpenedBy peer = true)

/-- The access makes the manager revoke a token of client `q`, which then evicts block `a` of its
    descriptor `fd`. -/
def Revokes (s : Deployment Peer) (peer : Peer) (filedes start stop : Nat) (write : Bool) (q : Peer) (fd a : Nat) : Prop :=
  ∃ file record own, (s.clients peer).openedFiles.find? (fun file => file.descriptor = filedes) = some file ∧
    hasPermission start stop write file.permissions = false ∧ s.manager.files.lookup file.name = some record ∧
    record.isOpenedBy peer = true ∧ q ∈ record.conflicting peer start stop write ∧
    (s.clients q).openedFiles.find? (fun other => other.name = file.name) = some own ∧ own.descriptor = fd ∧
    a ∈ blocksFrom start stop

/-- The calls that bring a block into a client's cache, or find it there. -/
def Brings (s : Deployment Peer) (q : Peer) (fd a : Nat) : Call Peer → Prop
  | .readFile peer filedes offset nbyte _ =>
      peer = q ∧ filedes = fd ∧ a ∈ PFSClient.rangeBlocks offset nbyte ∧
        s.Acquires peer filedes offset (offset + nbyte) false
  | .writeFile peer filedes offset nbyte _ _ =>
      peer = q ∧ filedes = fd ∧ a ∈ PFSClient.rangeBlocks offset nbyte ∧
        s.Acquires peer filedes offset (offset + nbyte) true
  | _ => False

/-- The calls that take a block out of a client's cache. -/
def Takes (s : Deployment Peer) (q : Peer) (fd a : Nat) : Call Peer → Prop
  | .readFile peer filedes offset nbyte _ => s.Revokes peer filedes offset (offset + nbyte) false q fd a
  | .writeFile peer filedes offset nbyte _ _ => s.Revokes peer filedes offset (offset + nbyte) true q fd a
  | .closeFile peer filedes _ =>
      peer = q ∧ s.started peer = true ∧ ∃ file,
        (s.clients peer).openedFiles[(s.files peer).closeIndex filedes]? = some file ∧ file.descriptor = fd ∧
        a ∈ PFSClient.tokenBlocks file.permissions
  | .harvest peer =>
      peer = q ∧ ∃ taken, (s.clients peer).cache.harvest = some taken ∧
        ((s.clients peer).cache.block taken.node).fdes = fd ∧ ((s.clients peer).cache.block taken.node).addr = a
  | _ => False

/-- Every client's cache is well-formed. -/
def Cached (s : Deployment Peer) : Prop := ∀ q, (s.clients q).cache.WF

/-! ## Getting the token -/

theorem revokeAll_find {name : String} {start stop : Nat} {order : List Peer} (distinct : order.Nodup) (wf : s.Cached)
    (done : revokeAll name start stop order s = some s') :
    s'.Cached ∧ (∀ q, q ∉ order → s'.clients q = s.clients q) ∧ ∀ q fd a,
      ((s'.clients q).cache.find fd a).isSome = true ↔ ((s.clients q).cache.find fd a).isSome = true ∧
        ¬ (q ∈ order ∧ ∃ own, (s.clients q).openedFiles.find? (fun other => other.name = name) = some own ∧
          own.descriptor = fd ∧ a ∈ blocksFrom start stop) := by
  induction order generalizing s with
  | nil =>
      obtain rfl := Option.some.inj done
      exact ⟨wf, fun _ _ => rfl, fun q fd a => by simp⟩
  | cons peer rest ih =>
      obtain ⟨absent, distinct⟩ := List.nodup_cons.mp distinct
      simp only [revokeAll, Option.bind_eq_bind] at done
      obtain ⟨files, revoked, done⟩ := Option.bind_eq_some_iff.mp done
      obtain ⟨⟨client, bytes⟩, evicted, rfl⟩ := Option.map_eq_some_iff.mp revoked
      obtain ⟨wf₁, contents₁⟩ := PFSClient.revokePermission_find (wf peer) evicted
      have cached : (s.setFiles peer ⟨client, Function.update (s.files peer).store name bytes⟩).Cached := by
        intro q
        by_cases same : q = peer
        · subst same
          rw [setFiles_self]
          exact wf₁
        · rw [setFiles_other _ _ same]
          exact wf q
      obtain ⟨wf', spared, contents⟩ := ih distinct cached done
      refine ⟨wf', fun q outside => ?_, fun q fd a => ?_⟩
      · rw [List.mem_cons, not_or] at outside
        rw [spared q outside.2, setFiles_other _ _ outside.1]
      · by_cases same : q = peer
        · subst same
          rw [spared q absent, setFiles_self, contents₁]
          simp only [List.mem_cons, true_or, true_and]
        · rw [contents, setFiles_other _ _ same]
          simp only [List.mem_cons, same, false_or]

/-- Getting the token evicts at other clients only. -/
theorem requestPermission_find (wf : s.Cached) {peer : Peer} {filedes start stop : Nat} {write : Bool} {order : List Peer}
    {reply : Option PermissionReply}
    (done : s.requestPermission peer filedes start stop write order = some (s', reply)) :
    s'.Cached ∧ s'.clients peer = s.clients peer ∧
      (∀ q fd a, ((s'.clients q).cache.find fd a).isSome = true ↔
        ((s.clients q).cache.find fd a).isSome = true ∧ ¬ s.Revokes peer filedes start stop write q fd a) ∧
      (s.Acquires peer filedes start stop write ↔ ∃ file,
        (s.clients peer).openedFiles.find? (fun file => file.descriptor = filedes) = some file ∧
          (hasPermission start stop write file.permissions = true ∨ reply.isSome = true)) := by
  rcases requestPermission_cases done with ⟨rfl, rfl, reason⟩ | ⟨file, record, record', grant, rfl, served⟩
  · refine ⟨wf, rfl, fun q fd a => ?_, ?_⟩
    · rw [iff_self_and]
      rintro - ⟨file, record, own, found, lacks, known, opened, -⟩
      rcases reason file found with held | refused
      · rw [lacks] at held
        cases held
      · rw [refused record known] at opened
        cases opened
    · refine exists_congr fun file => and_congr_right fun found => ?_
      rw [Option.isSome_none, Bool.false_eq_true, or_false, or_iff_left_iff_imp]
      rintro ⟨record, known, opened⟩
      refine (reason file found).resolve_right fun refused => ?_
      rw [refused record known] at opened
      cases opened
  · obtain ⟨outside, distinct⟩ := served.spared
    obtain ⟨wf', spared, contents⟩ := revokeAll_find
      (s := { s with manager := s.manager.setFile file.name record' }) distinct wf served.revoked
    refine ⟨wf', spared peer outside, fun q fd a => ?_, ?_⟩
    · rw [contents, served.perm.mem_iff]
      simp [Revokes, served.found, served.known, served.lacks, served.opened]
    · simp [Acquires, served.found, served.known, served.opened]

/-! ## One call -/

/-- The access of a client that has its token or has been refused it. -/
theorem accessed_find {s₁ : Deployment Peer} {peer : Peer} {filedes start stop : Nat} {write : Bool} {order : List Peer}
    {reply : Option PermissionReply} (wf : s.Cached)
    (asked : s.requestPermission peer filedes start stop write order = some (s₁, reply)) {files : ManyFiles}
    {blocks : List Nat}
    (own : PFSClient.Adds (s.clients peer).cache files.client.cache filedes blocks ∧ s.Acquires peer filedes start stop write ∨
      files.client.cache = (s.clients peer).cache ∧ ¬ s.Acquires peer filedes start stop write) :
    (s₁.setFiles peer files).Cached ∧ ∀ q fd a, (((s₁.setFiles peer files).clients q).cache.find fd a).isSome = true ↔
      (peer = q ∧ filedes = fd ∧ a ∈ blocks ∧ s.Acquires peer filedes start stop write) ∨
        ((s.clients q).cache.find fd a).isSome = true ∧ ¬ s.Revokes peer filedes start stop write q fd a := by
  obtain ⟨wf₁, same, contents, -⟩ := requestPermission_find wf asked
  constructor
  · intro q
    by_cases here : q = peer
    · subst here
      rw [setFiles_self]
      rcases own with ⟨adds, -⟩ | ⟨kept, -⟩
      · exact adds.wf
      · rw [kept]
        exact wf q
    · rw [setFiles_other _ _ here]
      exact wf₁ q
  · intro q fd a
    rw [← contents]
    by_cases here : q = peer
    · subst here
      rw [setFiles_self, same]
      rcases own with ⟨adds, acquires⟩ | ⟨kept, refused⟩
      · rw [adds.contents]
        simp only [acquires, true_and, and_true]
        rw [or_comm, eq_comm (a := fd)]
      · rw [kept]
        simp only [refused, and_false, false_or]
    · rw [setFiles_other _ _ here]
      simp only [Ne.symm here, false_and, false_or]

theorem readFile_find (wf : s.Cached) {peer : Peer} {filedes offset nbyte : Nat} {order : List Peer}
    (done : s.readFile peer filedes offset nbyte order = some s') : s'.Cached ∧ ∀ q fd a,
    ((s'.clients q).cache.find fd a).isSome = true ↔ s.Brings q fd a (.readFile peer filedes offset nbyte order) ∨
      ((s.clients q).cache.find fd a).isSome = true ∧ ¬ s.Takes q fd a (.readFile peer filedes offset nbyte order) := by
  obtain ⟨⟨s₁, reply⟩, asked, done⟩ := Option.bind_eq_some_iff.mp done
  obtain ⟨⟨files, result⟩, read, done⟩ := Option.bind_eq_some_iff.mp done
  obtain rfl := Option.some.inj done
  obtain ⟨⟨files₁, acquired⟩, first, read⟩ := Option.bind_eq_some_iff.mp read
  obtain ⟨wf₁, same, -, acquires⟩ := requestPermission_find wf asked
  obtain ⟨own, outcome⟩ := ManyFiles.acquirePermission_cache first
  rw [show (s₁.files peer).client = s.clients peer from same] at own outcome
  simp only [Brings, Takes, ← PFSClient.mem_blocksOf_pieces]
  refine accessed_find wf asked ?_
  rw [acquires, ← outcome]
  cases acquired with
  | none =>
      obtain ⟨rfl, -⟩ := Prod.mk.inj (Option.some.inj read)
      exact .inr ⟨own, by simp⟩
  | some i =>
      obtain ⟨file, at_i, read⟩ := Option.bind_eq_some_iff.mp read
      obtain ⟨⟨c, buffer⟩, bytes, read⟩ := Option.bind_eq_some_iff.mp read
      obtain ⟨rfl, -⟩ := Prod.mk.inj (Option.some.inj read)
      obtain ⟨⟨cache, buffer'⟩, looped, bytes⟩ := Option.bind_eq_some_iff.mp bytes
      obtain ⟨file', -, bytes⟩ := Option.bind_eq_some_iff.mp bytes
      obtain ⟨rfl, -⟩ := Prod.mk.inj (Option.some.inj bytes)
      rw [own] at looped
      exact .inl ⟨PFSClient.readLoop_adds (wf peer) looped, by simp⟩

theorem writeFile_find (wf : s.Cached) {peer : Peer} {filedes offset nbyte : Nat} {data : Nat → UInt8} {order : List Peer}
    (done : s.writeFile peer filedes offset nbyte data order = some s') : s'.Cached ∧ ∀ q fd a,
    ((s'.clients q).cache.find fd a).isSome = true ↔ s.Brings q fd a (.writeFile peer filedes offset nbyte data order) ∨
      ((s.clients q).cache.find fd a).isSome = true ∧
        ¬ s.Takes q fd a (.writeFile peer filedes offset nbyte data order) := by
  obtain ⟨⟨s₁, reply⟩, asked, done⟩ := Option.bind_eq_some_iff.mp done
  obtain ⟨⟨files, result⟩, written, done⟩ := Option.bind_eq_some_iff.mp done
  obtain rfl := Option.some.inj done
  obtain ⟨⟨files₁, acquired⟩, first, written⟩ := Option.bind_eq_some_iff.mp written
  obtain ⟨wf₁, same, -, acquires⟩ := requestPermission_find wf asked
  obtain ⟨own, outcome⟩ := ManyFiles.acquirePermission_cache first
  rw [show (s₁.files peer).client = s.clients peer from same] at own outcome
  simp only [Brings, Takes, ← PFSClient.mem_blocksOf_pieces]
  refine accessed_find wf asked ?_
  rw [acquires, ← outcome]
  cases acquired with
  | none =>
      obtain ⟨rfl, -⟩ := Prod.mk.inj (Option.some.inj written)
      exact .inr ⟨own, by simp⟩
  | some i =>
      obtain ⟨file, at_i, written⟩ := Option.bind_eq_some_iff.mp written
      obtain ⟨c, bytes, written⟩ := Option.bind_eq_some_iff.mp written
      obtain ⟨rfl, -⟩ := Prod.mk.inj (Option.some.inj written)
      obtain ⟨cache, looped, bytes⟩ := Option.bind_eq_some_iff.mp bytes
      obtain ⟨file', -, bytes⟩ := Option.bind_eq_some_iff.mp bytes
      obtain rfl := Option.some.inj bytes
      rw [own] at looped
      exact .inl ⟨PFSClient.writeLoop_adds (wf peer) (PFSClient.pieces_oneBlock offset nbyte) looped, by simp⟩

/-- A call that changes one client's cache and adds no block. -/
theorem setFiles_find {v : Deployment Peer} (wf : s.Cached) (clients : v.clients = s.clients) {peer : Peer}
    {files : ManyFiles} (own : files.client.cache.WF) {takes : Peer → Nat → Nat → Prop}
    (others : ∀ q fd a, takes q fd a → peer = q)
    (contents : ∀ fd a, (files.client.cache.find fd a).isSome = true ↔
      ((s.clients peer).cache.find fd a).isSome = true ∧ ¬ takes peer fd a) :
    (v.setFiles peer files).Cached ∧ ∀ q fd a, (((v.setFiles peer files).clients q).cache.find fd a).isSome = true ↔
      ((s.clients q).cache.find fd a).isSome = true ∧ ¬ takes q fd a := by
  constructor
  · intro q
    by_cases here : q = peer
    · subst here
      rw [setFiles_self]
      exact own
    · rw [setFiles_other _ _ here, clients]
      exact wf q
  · intro q fd a
    by_cases here : q = peer
    · subst here
      rw [setFiles_self, contents]
    · rw [setFiles_other _ _ here, clients, iff_self_and]
      exact fun _ taken => here (others q fd a taken).symm

theorem closeFile_find (wf : s.Cached) {peer : Peer} {filedes : Int} {now : Nat} {value : Int}
    (done : s.closeFile peer filedes now = some (value, s')) : s'.Cached ∧ ∀ q fd a,
    ((s'.clients q).cache.find fd a).isSome = true ↔
      ((s.clients q).cache.find fd a).isSome = true ∧ ¬ s.Takes q fd a (.closeFile peer filedes now) := by
  unfold closeFile at done
  split at done
  · next started =>
      simp only [Option.bind_eq_bind] at done
      obtain ⟨_, -, done⟩ := Option.bind_eq_some_iff.mp done
      obtain ⟨⟨value', request, files⟩, closed, done⟩ := Option.bind_eq_some_iff.mp done
      obtain ⟨-, rfl⟩ := Prod.mk.inj (Option.some.inj done)
      obtain ⟨file, at_i, wf', contents⟩ := ManyFiles.closeFile_contents (wf peer) closed
      have at_i : (s.clients peer).openedFiles[(s.files peer).closeIndex filedes]? = some file := at_i
      refine setFiles_find wf rfl wf' (fun q fd a taken => taken.1) fun fd a => ?_
      simp only [contents, Takes, started, at_i, Option.some.injEq, exists_eq_left', true_and]
      exact Iff.rfl
  · next idle =>
      obtain ⟨-, rfl⟩ := Prod.mk.inj (Option.some.inj done)
      refine ⟨wf, fun q fd a => ?_⟩
      simp [Takes, idle]

theorem flush_find (wf : s.Cached) {peer : Peer} {files : ManyFiles} (done : (s.files peer).flush = some files) :
    (s.setFiles peer files).Cached ∧ ∀ q fd a, (((s.setFiles peer files).clients q).cache.find fd a).isSome = true ↔
      ((s.clients q).cache.find fd a).isSome = true ∧ ¬ s.Takes q fd a (.flush peer) := by
  obtain ⟨store, -, rfl⟩ := Option.map_eq_some_iff.mp done
  obtain ⟨wf', shape⟩ := Cache.flushIteration_spec (wf peer)
  refine setFiles_find wf rfl wf' (fun q fd a taken => taken.elim) fun fd a => ?_
  simp only [Takes, not_false_iff, and_true]
  rcases shape with idle | ⟨fdes, addr, block, found, -, contents⟩
  · rw [show (s.files peer).client.cache.flushIteration = _ from idle]
  · rw [show (s.files peer).client.cache.flushIteration.1.find = _ from contents, Cache.set]
    split
    · next key =>
        rw [key.1, key.2, found]
        simp
    · exact Iff.rfl

theorem harvest_find (wf : s.Cached) {peer : Peer} {files : ManyFiles} (done : (s.files peer).harvest = some files) :
    (s.setFiles peer files).Cached ∧ ∀ q fd a, (((s.setFiles peer files).clients q).cache.find fd a).isSome = true ↔
      ((s.clients q).cache.find fd a).isSome = true ∧ ¬ s.Takes q fd a (.harvest peer) := by
  obtain ⟨⟨cache, block⟩, harvested, done⟩ := Option.bind_eq_some_iff.mp done
  obtain ⟨store, -, done⟩ := Option.bind_eq_some_iff.mp done
  obtain rfl := Option.some.inj done
  obtain ⟨wf', taken, victim, contents⟩ := Cache.harvestIteration_victim (wf peer) harvested
  have victim : (s.clients peer).cache.harvest = some taken := victim
  refine setFiles_find wf rfl wf' (fun q fd a taken => taken.1) fun fd a => ?_
  simp only [contents, Takes, victim, Option.some.injEq, exists_eq_left', true_and, Cache.set]
  split
  · next key => simp [key]
  · next key =>
      rw [iff_self_and]
      rintro - ⟨rfl, rfl⟩
      exact key ⟨rfl, rfl⟩

/-- A block is in a client's cache after a call if the call brings it there, or it was there and
    the call does not take it. -/
theorem exec_find (wf : s.Cached) {call : Call Peer} (ran : s.exec call = some s') : s'.Cached ∧ ∀ q fd a,
    ((s'.clients q).cache.find fd a).isSome = true ↔
      s.Brings q fd a call ∨ ((s.clients q).cache.find fd a).isSome = true ∧ ¬ s.Takes q fd a call := by
  have quiet : ∀ {v : Deployment Peer}, (∀ q, (v.clients q).cache = (s.clients q).cache) → v.Cached ∧ ∀ q fd a,
      ((v.clients q).cache.find fd a).isSome = true ↔ False ∨ ((s.clients q).cache.find fd a).isSome = true ∧ ¬ False := by
    intro v same
    refine ⟨fun q => by rw [same]; exact wf q, fun q fd a => ?_⟩
    rw [same, false_or, not_false_iff, and_true]
  cases call with
  | clientStart peer =>
      obtain rfl := Option.some.inj ran
      exact quiet fun _ => rfl
  | createFile peer filename stripeWidth creationTime lastModifiedTime =>
      obtain rfl := Option.some.inj ran
      rw [createFile_eq]
      split
      · exact quiet fun _ => rfl
      · exact quiet fun _ => rfl
  | createStrip handler =>
      obtain ⟨⟨name, loop⟩, -, ran⟩ := Option.bind_eq_some_iff.mp ran
      obtain ⟨-, ran⟩ := Option.ite_none_right_eq_some.mp ran
      obtain rfl := Option.some.inj ran
      exact quiet fun _ => rfl
  | openFile peer filename mode =>
      obtain rfl := Option.some.inj ran
      refine quiet fun q => ?_
      by_cases accepts : s.started peer = true ∧ s.Accepts peer filename
      · obtain ⟨started, record, found, new⟩ := accepts
        rw [openFile_accepted started found new]
        by_cases here : q = peer
        · subst here
          simp only [opened, setFiles_self]
          rfl
        · simp only [opened, setFiles_other _ _ here]
      · rw [openFile_rejected accepts]
  | readFile peer filedes offset nbyte order => exact readFile_find wf ran
  | writeFile peer filedes offset nbyte data order => exact writeFile_find wf ran
  | closeFile peer filedes now =>
      obtain ⟨⟨value, _⟩, closed, rfl⟩ := Option.map_eq_some_iff.mp ran
      obtain ⟨wf', contents⟩ := closeFile_find wf closed
      exact ⟨wf', fun q fd a => (contents q fd a).trans (iff_of_eq (false_or _)).symm⟩
  | deleteFile peer filename =>
      obtain rfl := Option.some.inj ran
      refine quiet fun q => ?_
      rw [deleteFile]
      split
      · split
        · rfl
        · rfl
      · rfl
  | flush peer =>
      obtain ⟨files, flushed, rfl⟩ := Option.map_eq_some_iff.mp ran
      obtain ⟨wf', contents⟩ := flush_find wf flushed
      exact ⟨wf', fun q fd a => (contents q fd a).trans (iff_of_eq (false_or _)).symm⟩
  | harvest peer =>
      obtain ⟨files, harvested, rfl⟩ := Option.map_eq_some_iff.mp ran
      obtain ⟨wf', contents⟩ := harvest_find wf harvested
      exact ⟨wf', fun q fd a => (contents q fd a).trans (iff_of_eq (false_or _)).symm⟩

/-! ## Runs -/

omit [DecidableEq Peer] in
theorem Cached.initial : ({} : Deployment Peer).Cached := fun _ => Cache.init_wf

theorem Cached.step (wf : s.Cached) (step : machine.Step s s') : s'.Cached := by
  obtain ⟨call, -, ran⟩ := step
  exact (exec_find wf ran).1

theorem Cached.reachable (reach : Reachable Initial machine.Step s) : s.Cached := by
  refine reach.invariant Cached ?_ fun _ _ wf step => wf.step step
  rintro s rfl
  exact .initial

theorem readFileHit_spec (wf : s.Cached) {peer : Peer} {filedes offset nbyte : Nat} {order : List Peer}
    {buffer : Nat → UInt8} {hit : Bool}
    (done : s.readFileHit peer filedes offset nbyte order = some (s', some (buffer, hit))) :
    s.readFile peer filedes offset nbyte order = some s' ∧
      hit = PFSClient.allFound (s.clients peer).cache filedes (pieces offset nbyte) ∧
      (hit = true → ∀ k < nbyte, ((s.clients peer).cache.byte filedes (offset + k)).map Prod.fst = some (buffer k)) := by
  obtain ⟨⟨s₁, reply⟩, asked, rest⟩ := Option.bind_eq_some_iff.mp done
  obtain ⟨⟨files, result⟩, reading, made⟩ := Option.bind_eq_some_iff.mp rest
  obtain ⟨rfl, rfl⟩ := Prod.mk.inj (Option.some.inj made)
  obtain ⟨wf₁, same, -⟩ := requestPermission_find wf asked
  rw [ManyFiles.readFileHit_eq (wf₁ peer), show (s₁.files peer).client = s.clients peer from same] at reading
  obtain ⟨⟨files', answer⟩, read, shape⟩ := Option.map_eq_some_iff.mp reading
  obtain ⟨rfl, reported⟩ := Prod.mk.inj shape
  obtain ⟨buffer', returned, pair⟩ := Option.map_eq_some_iff.mp reported
  obtain ⟨rfl, rfl⟩ := Prod.mk.inj pair
  obtain rfl : answer = some buffer' := returned
  refine ⟨?_, rfl, fun hits k inside => ?_⟩
  · rw [readFile, asked]
    simp only [Option.bind_eq_bind, Option.bind_some, read]
  · obtain ⟨⟨files₁, acquired⟩, first, loaded⟩ := Option.bind_eq_some_iff.mp read
    obtain ⟨own, -⟩ := ManyFiles.acquirePermission_cache first
    rw [show (s₁.files peer).client = s.clients peer from same] at own
    cases acquired with
    | none => cases loaded
    | some i =>
        obtain ⟨file, at_i, loaded⟩ := Option.bind_eq_some_iff.mp loaded
        obtain ⟨⟨c, copied⟩, bytes, loaded⟩ := Option.bind_eq_some_iff.mp loaded
        obtain ⟨-, shown⟩ := Prod.mk.inj (Option.some.inj loaded)
        obtain ⟨⟨cache, copied'⟩, looped, bytes⟩ := Option.bind_eq_some_iff.mp bytes
        obtain ⟨file', -, bytes⟩ := Option.bind_eq_some_iff.mp bytes
        obtain ⟨-, rfl⟩ := Prod.mk.inj (Option.some.inj bytes)
        rw [own] at looped
        obtain rfl := Option.some.inj shown
        refine (PFSClient.readLoop_found (wf peer) (PFSClient.pieces_oneBlock offset nbyte) hits looped (offset + k)).2 ?_
        rw [PFSClient.pieceBytes_pieces, mem_bytesIn]
        omega

theorem writeFileHit_spec (wf : s.Cached) {peer : Peer} {filedes offset nbyte : Nat} {data : Nat → UInt8}
    {order : List Peer} {hit : Bool}
    (done : s.writeFileHit peer filedes offset nbyte data order = some (s', some hit)) :
    s.writeFile peer filedes offset nbyte data order = some s' ∧
      hit = PFSClient.allFound (s.clients peer).cache filedes (pieces offset nbyte) := by
  obtain ⟨⟨s₁, reply⟩, asked, rest⟩ := Option.bind_eq_some_iff.mp done
  obtain ⟨⟨files, result⟩, writing, made⟩ := Option.bind_eq_some_iff.mp rest
  obtain ⟨rfl, rfl⟩ := Prod.mk.inj (Option.some.inj made)
  obtain ⟨wf₁, same, -⟩ := requestPermission_find wf asked
  rw [ManyFiles.writeFileHit_eq (wf₁ peer), show (s₁.files peer).client = s.clients peer from same] at writing
  obtain ⟨⟨files', wrote⟩, written, shape⟩ := Option.map_eq_some_iff.mp writing
  obtain ⟨rfl, reported⟩ := Prod.mk.inj shape
  obtain ⟨-, flag⟩ := Option.ite_none_right_eq_some.mp reported
  refine ⟨?_, (Option.some.inj flag).symm⟩
  rw [writeFile, asked]
  simp only [Option.bind_eq_bind, Option.bind_some, written]

/-- `*cache_hit` says whether every block of the range was in the cache when the call was made, and
    a read that hits returns what the cache had.  The range ends at `INT_MAX` or before, where
    `blockAddr` is the address of the block. -/
theorem cacheHit_iff {s : Deployment Peer} (reach : Reachable Initial machine.Step s) (peer : Peer)
    (filedes offset nbyte : Nat) (order : List Peer) : offset + nbyte ≤ intMax →
    (∀ s' buffer hit, s.readFileHit peer filedes offset nbyte order = some (s', some (buffer, hit)) →
      s.readFile peer filedes offset nbyte order = some s' ∧
      (hit = true ↔ ∀ a ∈ PFSClient.rangeBlocks offset nbyte, ((s.clients peer).cache.find filedes a).isSome = true) ∧
      (hit = true → ∀ k < nbyte, ((s.clients peer).cache.byte filedes (offset + k)).map Prod.fst = some (buffer k))) ∧
    ∀ data s' hit, s.writeFileHit peer filedes offset nbyte data order = some (s', some hit) →
      s.writeFile peer filedes offset nbyte data order = some s' ∧
      (hit = true ↔ ∀ a ∈ PFSClient.rangeBlocks offset nbyte, ((s.clients peer).cache.find filedes a).isSome = true) := by
  intro _
  have wf := Cached.reachable reach
  constructor
  · intro s' buffer hit done
    obtain ⟨read, flag, answered⟩ := readFileHit_spec wf done
    exact ⟨read, by rw [flag, PFSClient.allFound_pieces], answered⟩
  · intro data s' hit done
    obtain ⟨written, flag⟩ := writeFileHit_spec wf done
    exact ⟨written, by rw [flag, PFSClient.allFound_pieces]⟩

/-- A client has written to a file, and another one has read the first block. -/
def readAfter : List (Call Nat) :=
  [.clientStart 1, .clientStart 2, .createFile 1 "f" 1 5 5, .openFile 1 "f" 'w', .openFile 2 "f" 'r',
    .writeFile 1 1 0 2000 (fun _ => 7) [], .readFile 2 1 0 4 [1]]

def wasRead : Option (Deployment Nat) := machine.run {} readAfter

theorem cacheHit_iff_wasRead : ∃ s' buffer, (wasRead.get rfl).readFileHit 2 1 1 3 [] = some (s', some (buffer, true)) ∧
    ∀ k < 3, (((wasRead.get rfl).clients 2).cache.byte 1 (1 + k)).map Prod.fst = some (buffer k) := by
  have reach : Reachable Initial machine.Step (wasRead.get rfl) :=
    machine.run_reachable (Reachable.init rfl) (Option.some_get _).symm
  obtain ⟨s', buffer, done⟩ : ∃ s' buffer, (wasRead.get rfl).readFileHit 2 1 1 3 [] = some (s', some (buffer, true)) :=
    ⟨_, _, rfl⟩
  exact ⟨s', buffer, done, ((cacheHit_iff reach 2 1 1 3 [] (by decide)).1 s' buffer true done).2.2 rfl⟩

/-- A block is in a client's cache after a run if a read or a write of the client brought it there
    and no call has taken it since. -/
theorem cached_since {s : Deployment Peer} {calls : List (Call Peer)} (ran : machine.run {} calls = some s) (q : Peer)
    (fd a : Nat) :
    ((s.clients q).cache.find fd a).isSome = true ↔ ∃ before call after t t', calls = before ++ call :: after ∧
      machine.run {} before = some t ∧ t.exec call = some t' ∧ t.Brings q fd a call ∧
      machine.Never (fun s call => s.Takes q fd a call) t' after := by
  have since := machine.run_since (fun s => ((s.clients q).cache.find fd a).isSome = true)
    (fun s call => s.Brings q fd a call) (fun s call => s.Takes q fd a call)
    (fun s t wf step => Cached.step wf step) (fun s call t wf ran => (exec_find wf ran).2 q fd a) Cached.initial ran
  rw [since]
  have empty : ¬ (((({} : Deployment Peer).clients q).cache.find fd a).isSome = true ∧
      machine.Never (fun s call => s.Takes q fd a call) {} calls) := by
    rintro ⟨found, -⟩
    rw [show ((({} : Deployment Peer).clients q).cache.find fd a) = none from Cache.init_find fd a] at found
    cases found
  exact ⟨fun here => here.resolve_left empty, .inr⟩

theorem cached_since_wasRead : ∃ before call after t t', readAfter = before ++ call :: after ∧
    machine.run {} before = some t ∧ t.exec call = some t' ∧ t.Brings 1 1 1024 call ∧
    machine.Never (fun s call => s.Takes 1 1 1024 call) t' after := by
  have kept : (((wasRead.get rfl).clients 1).cache.find 1 1024).isSome = true := by decide +kernel
  exact (cached_since (Option.some_get _).symm 1 1 1024).mp kept

/-- The revocation took the first block. -/
example : (((wasRead.get rfl).clients 1).cache.find 1 0).isSome = false := by decide +kernel

end Deployment

end PFS
