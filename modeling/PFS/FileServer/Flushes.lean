import PFS.FileServer.Striping
import PFS.Lib.Interleaving

/-! # Flushes at the same time

`WriteBlock` takes no lock while it goes through the bytes of its block, so handlers for
one block or for several run in any interleaving, byte by byte.  When no byte of the file
is dirty in two of them, every byte that is dirty ends up in its place, and the strips are
those of the handlers run one after another.
-/

namespace PFS

open Lib

/-- `WriteBlockRequest` for one file. -/
structure WriteBlockRequest where
  addr : Nat
  data : Nat → UInt8
  dirty : Nat → UInt8

/-- A `WriteBlock` handler in its loop: the strip file it has open, the position it
    started at and the number of rounds it has made. -/
structure FlushHandler where
  path : String
  pos : Nat
  data : Nat → UInt8
  dirty : Nat → UInt8
  round : Nat := 0

/-- The disk of a server and the handlers that run on it. -/
structure Flushing where
  disk : Disk
  handlers : List FlushHandler

namespace Flushing

/-- The handlers as they get to the loop; `none` if one of the requests is rejected. -/
def openAll (server : FileServer) (name : String) : List WriteBlockRequest → Option (List FlushHandler)
  | [] => some []
  | request :: rest => do
      let (path, pos) ← server.locate name request.addr pfsBlockSizeInBytes
      let handlers ← openAll server name rest
      some ({ path := path, pos := pos, data := request.data, dirty := request.dirty } :: handlers)

/-- Handler `k` makes one round: it writes a byte or skips it. -/
def step (s : Flushing) (k : Nat) : Option Flushing := do
  let h ← s.handlers[k]?
  if h.round < pfsBlockSizeInBytes then
    if h.dirty h.round = 0 then some { s with handlers := s.handlers.set k { h with round := h.round + 1 } }
    else do
      let content ← s.disk h.path
      some {
        disk := Function.update s.disk h.path (some (writeByte content (h.pos + h.round) (h.data h.round)))
        handlers := s.handlers.set k { h with round := h.round + 1 } }
  else none

def run (s : Flushing) : List Nat → Option Flushing
  | [] => some s
  | k :: rest => (s.step k).bind fun t => t.run rest

/-- Every handler has left its loop. -/
def Finished (s : Flushing) : Prop := ∀ h ∈ s.handlers, h.round = pfsBlockSizeInBytes

/-- The requests served one after another. -/
def writeBlocks (server : FileServer) (name : String) : List WriteBlockRequest → Disk → Option Disk
  | [], disk => some disk
  | request :: rest, disk =>
      (server.writeBlock disk name request.addr request.data request.dirty).bind (writeBlocks server name rest)

end Flushing

/-- The byte at an offset of the file, if its strip goes that far. -/
def FSFile.byteAt (file : FSFile) (disk : Disk) (b : Nat) : Option UInt8 :=
  (disk (file.getStripPath (stripOf file.stripWidth b))).bind fun content => content[stripPosition file.stripWidth b]?

/-- The byte at offset `b` of the file is dirty in the request. -/
def WriteBlockRequest.Marks (request : WriteBlockRequest) (b : Nat) : Prop :=
  ∃ k, k < pfsBlockSizeInBytes ∧ request.dirty k ≠ 0 ∧ b = request.addr + k

/-- The strip files have the paths that `CreateFile` gives them. -/
def FileServer.NamesStrips (server : FileServer) : Prop :=
  ∀ name file strip path, server.files name = some file → file.stripPaths strip = some path →
    path = server.filesDirectory ++ name ++ "_" ++ toString strip

theorem FileServer.NamesStrips.createFile {server : FileServer} (named : server.NamesStrips) (disk : Disk)
    (name : String) (stripeWidth id : Nat) : (server.createFile disk name stripeWidth id).1.NamesStrips := by
  intro name' file strip path found stored
  simp only [FileServer.createFile] at found ⊢
  by_cases same : name' = name
  · subst same
    rw [Function.update_self] at found
    obtain rfl := Option.some.inj found
    simp only [FSFile.addStrip] at stored
    by_cases new : strip = id
    · subst new
      rw [Function.update_self] at stored
      exact (Option.some.inj stored).symm
    · rw [Function.update_of_ne new] at stored
      cases known : server.files name' with
      | none => rw [known] at stored; cases stored
      | some file => rw [known] at stored; exact named name' file strip path known stored
  · rw [Function.update_of_ne same] at found
    exact named name' file strip path found stored

/-- Requests for blocks whose strips the server has, with no byte of the file dirty in
    two of them. -/
structure Flushable (server : FileServer) (disk : Disk) (name : String) (file : FSFile)
    (requests : List WriteBlockRequest) : Prop where
  known : server.files name = some file
  wide : 1 ≤ file.stripWidth
  named : server.NamesStrips
  inside : ∀ r ∈ requests, r.addr % stripBytes + pfsBlockSizeInBytes ≤ stripBytes
  small : ∀ r ∈ requests, r.addr + stripBytes ≤ intMax
  stored : ∀ r ∈ requests, ∃ path content,
    file.stripPaths (stripOf file.stripWidth r.addr) = some path ∧ disk path = some content
  disjoint : requests.Pairwise fun r r' => ∀ b, r.Marks b → ¬ r'.Marks b

/-! ## Single bytes -/

/-- A byte that is written to a strip file. -/
@[ext]
structure ByteWrite where
  path : String
  pos : Nat
  byte : UInt8

/-- A round of a handler: a byte is written, or none is. -/
def act (disk : Disk) : Option ByteWrite → Disk
  | none => disk
  | some w => Function.update disk w.path ((disk w.path).map fun content => writeByte content w.pos w.byte)

theorem writeByte_length (content : List UInt8) (pos : Nat) (byte : UInt8) :
    (writeByte content pos byte).length = max content.length (pos + 1) := by
  unfold writeByte
  split
  · rw [List.length_set]
    omega
  · simp only [List.length_append, List.length_replicate, List.length_singleton]
    omega

/-- What a byte reads as, with the gaps in the file filled with zeros. -/
theorem writeByte_getD (content : List UInt8) (pos i : Nat) (byte : UInt8) :
    (writeByte content pos byte)[i]?.getD 0 = if i = pos then byte else content[i]?.getD 0 := by
  by_cases here : i = pos
  · rw [here, writeByte_self, if_pos rfl, Option.getD_some]
  · rw [if_neg here]
    by_cases short : i < content.length
    · obtain ⟨v, stored⟩ : ∃ v, content[i]? = some v := ⟨_, List.getElem?_eq_getElem short⟩
      rw [writeByte_other here stored, stored]
    · have past : content[i]? = none := List.getElem?_eq_none (by omega)
      rw [past]
      unfold writeByte
      split
      · rw [List.getElem?_eq_none (by rw [List.length_set]; omega)]
      · rw [List.append_assoc, List.getElem?_append_right (by omega)]
        by_cases gap : i - content.length < pos - content.length
        · rw [List.getElem?_append_left (by rw [List.length_replicate]; exact gap), List.getElem?_replicate, if_pos gap]
          rfl
        · rw [List.getElem?_append_right (by rw [List.length_replicate]; omega), List.getElem?_eq_none]
          rw [List.length_replicate, List.length_singleton]
          omega

theorem contents_ext {xs ys : List UInt8} (length : xs.length = ys.length)
    (bytes : ∀ i : Nat, xs[i]?.getD 0 = ys[i]?.getD 0) : xs = ys := by
  apply List.ext_getElem length
  intro i short short'
  have byte := bytes i
  rw [List.getElem?_eq_getElem short, List.getElem?_eq_getElem short'] at byte
  exact byte

/-- Bytes at different positions can be written in either order. -/
theorem writeByte_comm (content : List UInt8) {p q : Nat} (x y : UInt8) (different : p ≠ q) :
    writeByte (writeByte content p x) q y = writeByte (writeByte content q y) p x := by
  apply contents_ext
  · simp only [writeByte_length]
    omega
  · intro i
    simp only [writeByte_getD]
    by_cases second : i = q
    · rw [if_pos second, if_neg (by omega), if_pos second]
    · rw [if_neg second, if_neg second]

/-- The rounds do not write to one place. -/
def Apart (a b : Option ByteWrite) : Prop :=
  ∀ w w', a = some w → b = some w' → w.path = w'.path → w.pos ≠ w'.pos

theorem act_comm {a b : Option ByteWrite} (apart : Apart a b) (disk : Disk) :
    act (act disk a) b = act (act disk b) a := by
  cases a with
  | none => rfl
  | some w =>
      cases b with
      | none => rfl
      | some w' =>
          by_cases same : w.path = w'.path
          · have swap := fun content => writeByte_comm content w.byte w'.byte (apart w w' rfl rfl same)
            simp only [act, ← same, Function.update_self, Function.update_idem, Option.map_map, Function.comp_def, swap]
          · simp only [act, Function.update_of_ne same, Function.update_of_ne (Ne.symm same)]
            exact Function.update_comm same _ _ _

/-- The round writes at this position of this file. -/
def WritesAt (op : Option ByteWrite) (path : String) (pos : Nat) : Prop :=
  ∃ byte, op = some ⟨path, pos, byte⟩

section Bytes

variable {disk : Disk} {ops : List (Option ByteWrite)} {path : String} {pos : Nat}

theorem act_elsewhere {w : ByteWrite} (different : path ≠ w.path) : act disk (some w) path = disk path :=
  Function.update_of_ne different _ _

/-- A round at another place leaves a byte as it reads, and leaves it in the file. -/
theorem act_other {op : Option ByteWrite} {content : List UInt8} (onDisk : disk path = some content)
    (other : ¬ WritesAt op path pos) :
    ∃ content', act disk op path = some content' ∧ content'[pos]?.getD 0 = content[pos]?.getD 0 ∧
      ∀ v, content[pos]? = some v → content'[pos]? = some v := by
  cases op with
  | none => exact ⟨content, onDisk, rfl, fun _ stored => stored⟩
  | some w =>
      by_cases same : path = w.path
      · subst same
        have different : pos ≠ w.pos := by
          rintro rfl
          exact other ⟨w.byte, rfl⟩
        refine ⟨writeByte content w.pos w.byte, ?_, ?_, fun v stored => writeByte_other different stored⟩
        · simp only [act, onDisk, Function.update_self, Option.map_some]
        · rw [writeByte_getD, if_neg different]
      · exact ⟨content, (act_elsewhere same).trans onDisk, rfl, fun _ stored => stored⟩

theorem act_here {content : List UInt8} (onDisk : disk path = some content) (byte : UInt8) :
    ∃ content', act disk (some ⟨path, pos, byte⟩) path = some content' ∧ content'[pos]? = some byte := by
  refine ⟨writeByte content pos byte, ?_, writeByte_self _ _ _⟩
  simp only [act, onDisk, Function.update_self, Option.map_some]

/-- A round neither makes nor removes a file. -/
theorem act_isSome (disk : Disk) (op : Option ByteWrite) (path : String) :
    (act disk op path).isSome = (disk path).isSome := by
  cases op with
  | none => rfl
  | some w =>
      by_cases same : path = w.path
      · rw [same, act, Function.update_self, Option.isSome_map]
      · rw [act_elsewhere same]

theorem acts_isSome (disk : Disk) (ops : List (Option ByteWrite)) (path : String) :
    (ops.foldl act disk path).isSome = (disk path).isSome := by
  induction ops generalizing disk with
  | nil => rfl
  | cons op rest ih => rw [List.foldl_cons, ih, act_isSome]

theorem acts_elsewhere (different : ∀ w, some w ∈ ops → path ≠ w.path) : ops.foldl act disk path = disk path := by
  induction ops generalizing disk with
  | nil => rfl
  | cons op rest ih =>
      rw [List.foldl_cons, ih (fun w later => different w (List.mem_cons_of_mem _ later))]
      cases op with
      | none => rfl
      | some w => exact act_elsewhere (different w List.mem_cons_self)

/-- A byte that no round writes. -/
theorem acts_other {content : List UInt8} (onDisk : disk path = some content)
    (other : ∀ op ∈ ops, ¬ WritesAt op path pos) :
    ∃ content', ops.foldl act disk path = some content' ∧ content'[pos]?.getD 0 = content[pos]?.getD 0 ∧
      ∀ v, content[pos]? = some v → content'[pos]? = some v := by
  induction ops generalizing disk content with
  | nil => exact ⟨content, onDisk, rfl, fun _ stored => stored⟩
  | cons op rest ih =>
      obtain ⟨middle, onDisk', reads, keeps⟩ := act_other onDisk (other op List.mem_cons_self)
      obtain ⟨content', final, reads', keeps'⟩ := ih onDisk' (fun op later => other op (List.mem_cons_of_mem _ later))
      exact ⟨content', final, reads'.trans reads, fun v stored => keeps' v (keeps v stored)⟩

/-- A byte that a round writes, where all that write it agree. -/
theorem acts_here {byte : UInt8} (stored : (disk path).isSome = true) (written : some ⟨path, pos, byte⟩ ∈ ops)
    (agree : ∀ byte', some ⟨path, pos, byte'⟩ ∈ ops → byte' = byte) :
    ∃ content, ops.foldl act disk path = some content ∧ content[pos]? = some byte := by
  induction ops generalizing disk with
  | nil => cases written
  | cons op rest ih =>
      have agree' : ∀ byte', some ⟨path, pos, byte'⟩ ∈ rest → byte' = byte :=
        fun byte' later => agree byte' (List.mem_cons_of_mem _ later)
      by_cases again : some ⟨path, pos, byte⟩ ∈ rest
      · exact ih ((act_isSome disk op path).trans stored) again agree'
      · obtain rfl : some ⟨path, pos, byte⟩ = op := by
          rcases List.mem_cons.mp written with here | later
          · exact here
          · exact (again later).elim
        obtain ⟨content, onDisk⟩ := Option.isSome_iff_exists.mp stored
        obtain ⟨middle, onDisk', here⟩ := act_here onDisk byte
        have other : ∀ op ∈ rest, ¬ WritesAt op path pos := by
          rintro op later ⟨byte', rfl⟩
          obtain rfl := agree' byte' later
          exact again later
        obtain ⟨content', final, -, keeps⟩ := acts_other onDisk' other
        exact ⟨content', final, keeps byte here⟩

end Bytes

/-! ## The loop of a handler -/

namespace FlushHandler

/-- Round `i` of the loop. -/
def op (h : FlushHandler) (i : Nat) : Option ByteWrite :=
  if h.dirty i = 0 then none else some ⟨h.path, h.pos + i, h.data i⟩

/-- The rounds that are left. -/
def todo (h : FlushHandler) : List (Option ByteWrite) :=
  (List.range' h.round (pfsBlockSizeInBytes - h.round)).map h.op

theorem todo_next {h : FlushHandler} (more : h.round < pfsBlockSizeInBytes) :
    h.todo = h.op h.round :: { h with round := h.round + 1 }.todo := by
  have left : pfsBlockSizeInBytes - h.round = pfsBlockSizeInBytes - (h.round + 1) + 1 := by omega
  rw [todo, left, List.range'_succ, List.map_cons]
  rfl

theorem todo_done {h : FlushHandler} (done : h.round = pfsBlockSizeInBytes) : h.todo = [] := by
  rw [todo, done, Nat.sub_self]
  rfl

theorem mem_todo {h : FlushHandler} (start : h.round = 0) {w : ByteWrite} :
    some w ∈ h.todo ↔ ∃ k, k < pfsBlockSizeInBytes ∧ h.dirty k ≠ 0 ∧ w = ⟨h.path, h.pos + k, h.data k⟩ := by
  simp only [todo, start, Nat.sub_zero, ← List.range_eq_range', List.mem_map, List.mem_range, op]
  constructor
  · rintro ⟨k, small, written⟩
    split at written
    · cases written
    · next set => exact ⟨k, small, set, (Option.some.inj written).symm⟩
  · rintro ⟨k, small, set, rfl⟩
    exact ⟨k, small, if_neg set⟩

/-- The rounds of a handler that runs alone. -/
theorem foldl_rounds {disk : Disk} {h : FlushHandler} {content : List UInt8} (onDisk : disk h.path = some content)
    (n : Nat) : ((List.range n).map h.op).foldl act disk =
      Function.update disk h.path (some (writeDirty h.data h.dirty h.pos n content)) := by
  induction n with
  | zero =>
      rw [writeDirty, ← onDisk, Function.update_eq_self]
      rfl
  | succ n ih =>
      rw [List.range_succ, List.map_append, List.foldl_append, ih, writeDirty, List.map_singleton, List.foldl_cons,
        List.foldl_nil, op]
      split
      · rfl
      · simp only [act, Function.update_self, Function.update_idem, Option.map_some]

end FlushHandler

namespace Flushing

/-- The handlers as threads that share the disk. -/
def threads (s : Flushing) : Threads Disk (Option ByteWrite) := ⟨s.disk, s.handlers.map FlushHandler.todo⟩

/-- The open files are there, and no handler is past its block. -/
structure Ready (s : Flushing) : Prop where
  stored : ∀ h ∈ s.handlers, (s.disk h.path).isSome = true
  bound : ∀ h ∈ s.handlers, h.round ≤ pfsBlockSizeInBytes

section Steps

variable {s t : Flushing} {k : Nat} {h : FlushHandler}

/-- A round of handler `k`, as the operation it makes on the disk. -/
theorem step_eq (here : s.handlers[k]? = some h) (stored : (s.disk h.path).isSome = true)
    (more : h.round < pfsBlockSizeInBytes) :
    s.step k = some ⟨act s.disk (h.op h.round), s.handlers.set k { h with round := h.round + 1 }⟩ := by
  obtain ⟨content, onDisk⟩ := Option.isSome_iff_exists.mp stored
  simp only [step, here, Option.bind_eq_bind, Option.bind_some, if_pos more, FlushHandler.op]
  split
  · rfl
  · simp only [act, onDisk, Option.bind_some, Option.map_some]

theorem step_unfinished (stepped : s.step k = some t) :
    ∃ h, s.handlers[k]? = some h ∧ h.round < pfsBlockSizeInBytes := by
  obtain ⟨h, here, rest⟩ := Option.bind_eq_some_iff.mp stepped
  refine ⟨h, here, ?_⟩
  by_contra done
  rw [if_neg done] at rest
  cases rest

theorem Ready.step (ready : s.Ready) (stepped : s.step k = some t) :
    t.Ready ∧ s.threads.step act k = some t.threads := by
  obtain ⟨h, here, more⟩ := step_unfinished stepped
  have inside := List.mem_of_getElem? here
  rw [step_eq here (ready.stored h inside) more] at stepped
  obtain rfl := Option.some.inj stepped
  constructor
  · constructor
    · intro other among
      rw [act_isSome]
      rcases List.mem_or_eq_of_mem_set among with old | rfl
      · exact ready.stored other old
      · exact ready.stored h inside
    · intro other among
      rcases List.mem_or_eq_of_mem_set among with old | rfl
      · exact ready.bound other old
      · exact more
  · simp only [Threads.step, threads, List.getElem?_map, here, Option.map_some, FlushHandler.todo_next more,
      List.map_set]

theorem Ready.run {schedule : List Nat} (ready : s.Ready) (ran : s.run schedule = some t) :
    t.Ready ∧ s.threads.run act schedule = some t.threads := by
  induction schedule generalizing s with
  | nil =>
      obtain rfl := Option.some.inj ran
      exact ⟨ready, rfl⟩
  | cons k rest ih =>
      obtain ⟨s₁, first, ran⟩ := Option.bind_eq_some_iff.mp ran
      obtain ⟨ready₁, stepped⟩ := ready.step first
      obtain ⟨readyT, later⟩ := ih ready₁ ran
      refine ⟨readyT, ?_⟩
      rw [Threads.run, stepped]
      exact later

/-- The handlers can go on until all of them are done. -/
theorem Ready.completes (ready : s.Ready) : ∃ rest u, s.run rest = some u ∧ u.Finished := by
  induction left : s.threads.todo.flatten.length using Nat.strongRecOn generalizing s with
  | ind n ih =>
      by_cases finished : s.Finished
      · exact ⟨[], s, rfl, finished⟩
      · obtain ⟨h, inside, undone⟩ : ∃ h ∈ s.handlers, h.round ≠ pfsBlockSizeInBytes := by
          simpa only [Finished, not_forall, exists_prop] using finished
        obtain ⟨k, here⟩ := List.mem_iff_getElem?.mp inside
        have more : h.round < pfsBlockSizeInBytes := Nat.lt_of_le_of_ne (ready.bound h inside) undone
        have stepped := step_eq here (ready.stored h inside) more
        obtain ⟨ready', threads⟩ := ready.step stepped
        have fewer := Threads.todo_length threads
        obtain ⟨rest, u, ran, done⟩ := ih _ (by omega) ready' rfl
        exact ⟨k :: rest, u, by rw [Flushing.run, stepped]; exact ran, done⟩

end Steps

end Flushing

/-! ## The handlers of the requests -/

/-- The handler of a request, as it gets to its loop. -/
def WriteBlockRequest.handler (request : WriteBlockRequest) (file : FSFile) : FlushHandler where
  path := file.getStripPath (stripOf file.stripWidth request.addr)
  pos := stripPosition file.stripWidth request.addr
  data := request.data
  dirty := request.dirty

/-- The paths of different strips of a file are different. -/
theorem madePath_inj {start : String} {strip strip' : Nat}
    (same : start ++ "_" ++ toString strip = start ++ "_" ++ toString strip') : strip = strip' := by
  have lists := congrArg String.toList same
  simp only [String.toList_append, digits_toList] at lists
  exact digits_inj (List.append_cancel_left lists)

theorem madePath_nonempty (start : String) (strip : Nat) : start ++ "_" ++ toString strip ≠ "" := by
  intro empty
  have list := congrArg String.toList empty
  simp [String.toList_append] at list

namespace Flushable

variable {server : FileServer} {disk : Disk} {name : String} {file : FSFile} {requests : List WriteBlockRequest}
  {r r' : WriteBlockRequest}

theorem strip_unique (f : Flushable server disk name file requests) (inside : r ∈ requests) {strip : Nat}
    (same : file.getStripPath strip = (r.handler file).path) : strip = stripOf file.stripWidth r.addr := by
  obtain ⟨path, -, stored, -⟩ := f.stored r inside
  have made := f.named name file _ path f.known stored
  rw [WriteBlockRequest.handler, FSFile.getStripPath, FSFile.getStripPath, stored, Option.getD_some, made] at same
  cases found : file.stripPaths strip with
  | none =>
      rw [found] at same
      exact (madePath_nonempty _ _ same.symm).elim
  | some other =>
      rw [found, Option.getD_some, f.named name file strip other f.known found] at same
      exact madePath_inj same

theorem onDisk (f : Flushable server disk name file requests) (inside : r ∈ requests) :
    (disk (r.handler file).path).isSome = true := by
  obtain ⟨path, content, stored, onDisk⟩ := f.stored r inside
  rw [WriteBlockRequest.handler, FSFile.getStripPath, stored, Option.getD_some, onDisk]
  rfl

theorem locate (f : Flushable server disk name file requests) (inside : r ∈ requests) :
    server.locate name r.addr pfsBlockSizeInBytes = some ((r.handler file).path, (r.handler file).pos) := by
  obtain ⟨path, -, stored, -⟩ := f.stored r inside
  have nonempty : path ≠ "" := by
    rw [f.named name file _ path f.known stored]
    exact madePath_nonempty _ _
  rw [FileServer.locate_path f.known stored nonempty f.wide (f.inside r inside) (f.small r inside)]
  simp only [WriteBlockRequest.handler, FSFile.getStripPath, stored, Option.getD_some]

/-- Every request is accepted. -/
theorem openAll (f : Flushable server disk name file requests) {rs : List WriteBlockRequest} (among : rs ⊆ requests) :
    Flushing.openAll server name rs = some (rs.map fun r => r.handler file) := by
  induction rs with
  | nil => rfl
  | cons r rest ih =>
      simp only [Flushing.openAll, f.locate (among List.mem_cons_self),
        ih (fun _ later => among (List.mem_cons_of_mem _ later)), Option.bind_eq_bind, Option.bind_some, List.map_cons]
      rfl

/-- The requests served one after another make all their rounds in turn. -/
theorem writeBlocks (f : Flushable server disk name file requests) {rs : List WriteBlockRequest}
    (among : rs ⊆ requests) {disk' : Disk} (onDisk : ∀ r ∈ requests, (disk' (r.handler file).path).isSome = true) :
    Flushing.writeBlocks server name rs disk' = some ((rs.flatMap fun r => (r.handler file).todo).foldl act disk') := by
  induction rs generalizing disk' with
  | nil => rfl
  | cons r rest ih =>
      have inside := among List.mem_cons_self
      obtain ⟨content, stored⟩ := Option.isSome_iff_exists.mp (onDisk r inside)
      have served : server.writeBlock disk' name r.addr r.data r.dirty = some ((r.handler file).todo.foldl act disk') := by
        have rounds := FlushHandler.foldl_rounds stored pfsBlockSizeInBytes
        rw [List.range_eq_range'] at rounds
        simp only [FileServer.writeBlock, f.locate inside, Option.bind_eq_bind, Option.bind_some, stored]
        exact congrArg some rounds.symm
      rw [Flushing.writeBlocks, served, Option.bind_some, List.flatMap_cons, List.foldl_append]
      apply ih (fun _ later => among (List.mem_cons_of_mem _ later))
      exact fun other inside' => (acts_isSome _ _ _).trans (onDisk other inside')

/-- A round that writes at the place of a byte of the file: the byte is dirty in the request. -/
theorem writes_place (f : Flushable server disk name file requests) (inside : r ∈ requests) {w : ByteWrite}
    (round : some w ∈ (r.handler file).todo) {b : Nat} (path : w.path = file.getStripPath (stripOf file.stripWidth b))
    (pos : w.pos = stripPosition file.stripWidth b) :
    ∃ k, k < pfsBlockSizeInBytes ∧ r.dirty k ≠ 0 ∧ b = r.addr + k ∧ w.byte = r.data k := by
  obtain ⟨k, small, set, rfl⟩ := (FlushHandler.mem_todo rfl).mp round
  have fits := f.inside r inside
  exact ⟨k, small, set, StripedStore.Inv.position_add (by omega) (f.strip_unique inside path.symm) pos.symm, rfl⟩

/-- A dirty byte is written at its place. -/
theorem place_written (f : Flushable server disk name file requests) (inside : r ∈ requests) {k : Nat}
    (small : k < pfsBlockSizeInBytes) (set : r.dirty k ≠ 0) :
    some ⟨file.getStripPath (stripOf file.stripWidth (r.addr + k)), stripPosition file.stripWidth (r.addr + k),
      r.data k⟩ ∈ (r.handler file).todo := by
  have fits := f.inside r inside
  obtain ⟨strip, position⟩ := strip_add file.stripWidth r.addr k (by omega)
  rw [strip, position]
  exact (FlushHandler.mem_todo rfl).mpr ⟨k, small, set, rfl⟩

/-- Two requests in which the same byte is dirty are the same request. -/
theorem same_request (f : Flushable server disk name file requests) (left : r ∈ requests) (right : r' ∈ requests)
    {b : Nat} (marks : r.Marks b) (marks' : r'.Marks b) : r = r' := by
  have pairs : requests.Pairwise fun r r' => r = r' ∨ ∀ b, r.Marks b → ¬ r'.Marks b :=
    f.disjoint.imp fun disjoint => .inr disjoint
  have flipped : requests.Pairwise fun r r' => r' = r ∨ ∀ b, r'.Marks b → ¬ r.Marks b :=
    f.disjoint.imp fun disjoint => .inr fun b marks' marks => disjoint b marks marks'
  rcases List.Pairwise.forall_of_forall_of_flip (fun _ _ => .inl rfl) pairs flipped left right with same | disjoint
  · exact same
  · exact (disjoint b marks marks').elim

theorem commute (f : Flushable server disk name file requests) {a b : Option ByteWrite}
    (left : a ∈ requests.flatMap fun r => (r.handler file).todo)
    (right : b ∈ requests.flatMap fun r => (r.handler file).todo) (x : Disk) : act (act x a) b = act (act x b) a := by
  obtain ⟨r, inside, round⟩ := List.mem_flatMap.mp left
  obtain ⟨r', inside', round'⟩ := List.mem_flatMap.mp right
  by_cases apart : Apart a b
  · exact act_comm apart x
  · simp only [Apart, not_forall, not_not] at apart
    obtain ⟨w, w', rfl, rfl, path, pos⟩ := apart
    obtain ⟨k, small, set, rfl⟩ := (FlushHandler.mem_todo rfl).mp round
    have fits := f.inside r inside
    obtain ⟨strip, position⟩ := strip_add file.stripWidth r.addr k (by omega)
    obtain ⟨k', small', set', shared, byte⟩ := f.writes_place inside' round' (b := r.addr + k)
      (by rw [← path, strip]; rfl) (by rw [← pos, position]; rfl)
    obtain rfl := f.same_request inside inside' ⟨k, small, set, rfl⟩ ⟨k', small', set', shared⟩
    obtain rfl : k = k' := by omega
    have same : w' = ⟨(r.handler file).path, (r.handler file).pos + k, (r.handler file).data k⟩ :=
      ByteWrite.ext path.symm pos.symm byte
    rw [same]

theorem ready (f : Flushable server disk name file requests) :
    Flushing.Ready ⟨disk, requests.map fun r => r.handler file⟩ := by
  constructor
  · intro h among
    obtain ⟨r, inside, rfl⟩ := List.mem_map.mp among
    exact f.onDisk inside
  · intro h among
    obtain ⟨r, inside, rfl⟩ := List.mem_map.mp among
    exact Nat.zero_le _

/-- When the handlers are done, the disk is that of the requests in any order. -/
theorem finished (f : Flushable server disk name file requests) {schedule : List Nat} {t : Flushing}
    (ran : Flushing.run ⟨disk, requests.map fun r => r.handler file⟩ schedule = some t) (done : t.Finished)
    {order : List WriteBlockRequest} (perm : order.Perm requests) :
    t.disk = (order.flatMap fun r => (r.handler file).todo).foldl act disk := by
  obtain ⟨-, threads⟩ := f.ready.run ran
  have rounds : (Flushing.threads ⟨disk, requests.map fun r => r.handler file⟩).todo.flatten =
      requests.flatMap fun r => (r.handler file).todo := by
    rw [Flushing.threads, List.map_map, List.flatMap_def]
    rfl
  apply Threads.run_finished threads
  · intro ops among
    obtain ⟨h, inside, rfl⟩ := List.mem_map.mp among
    exact FlushHandler.todo_done (done h inside)
  · rw [rounds]
    exact fun a left b right x => f.commute left right x
  · rw [rounds]
    exact perm.flatMap_right _

theorem byte_written (f : Flushable server disk name file requests) (inside : r ∈ requests) {k : Nat}
    (small : k < pfsBlockSizeInBytes) (set : r.dirty k ≠ 0) :
    file.byteAt ((requests.flatMap fun r => (r.handler file).todo).foldl act disk) (r.addr + k) = some (r.data k) := by
  have fits := f.inside r inside
  obtain ⟨strip, -⟩ := strip_add file.stripWidth r.addr k (by omega)
  have stored : (disk (file.getStripPath (stripOf file.stripWidth (r.addr + k)))).isSome = true := by
    rw [strip]
    exact f.onDisk inside
  have agree : ∀ byte, some ⟨file.getStripPath (stripOf file.stripWidth (r.addr + k)),
      stripPosition file.stripWidth (r.addr + k), byte⟩ ∈ requests.flatMap (fun r => (r.handler file).todo) →
      byte = r.data k := by
    intro byte again
    obtain ⟨r', inside', round⟩ := List.mem_flatMap.mp again
    obtain ⟨k', small', set', shared, same⟩ := f.writes_place inside' round rfl rfl
    obtain rfl := f.same_request inside inside' ⟨k, small, set, rfl⟩ ⟨k', small', set', shared⟩
    obtain rfl : k = k' := by omega
    exact same
  obtain ⟨content, final, byte⟩ := acts_here stored
    (List.mem_flatMap.mpr ⟨r, inside, f.place_written inside small set⟩) agree
  rw [FSFile.byteAt, final, Option.bind_some, byte]

/-- A byte that is dirty in none of the requests stays; past the end it reads as zero. -/
theorem byte_kept (f : Flushable server disk name file requests) {b : Nat} (clean : ∀ r ∈ requests, ¬ r.Marks b) :
    (∀ v, file.byteAt disk b = some v →
      file.byteAt ((requests.flatMap fun r => (r.handler file).todo).foldl act disk) b = some v) ∧
    (file.byteAt ((requests.flatMap fun r => (r.handler file).todo).foldl act disk) b).getD 0 =
      (file.byteAt disk b).getD 0 := by
  have other : ∀ op ∈ requests.flatMap fun r => (r.handler file).todo,
      ¬ WritesAt op (file.getStripPath (stripOf file.stripWidth b)) (stripPosition file.stripWidth b) := by
    rintro op among ⟨byte, rfl⟩
    obtain ⟨r, inside, round⟩ := List.mem_flatMap.mp among
    obtain ⟨k, small, set, shared, -⟩ := f.writes_place inside round rfl rfl
    exact clean r inside ⟨k, small, set, shared⟩
  unfold FSFile.byteAt
  cases onDisk : disk (file.getStripPath (stripOf file.stripWidth b)) with
  | none =>
      have absent := acts_isSome disk (requests.flatMap fun r => (r.handler file).todo)
        (file.getStripPath (stripOf file.stripWidth b))
      rw [onDisk, Option.isSome_none, Option.isSome_eq_false_iff, Option.isNone_iff_eq_none] at absent
      rw [absent]
      exact ⟨fun _ => id, rfl⟩
  | some content =>
      obtain ⟨content', final, reads, keeps⟩ := acts_other onDisk other
      rw [final]
      exact ⟨keeps, reads⟩

end Flushable

/-- Handlers that flush disjoint sets of bytes at the same time lose none of them: they all
    get to the end, every byte is that of the request it is dirty in, every other byte is
    the previous one, and the result is that of the requests in any order. -/
theorem flushes_merge {server : FileServer} {disk : Disk} {name : String} {file : FSFile}
    {requests : List WriteBlockRequest} (f : Flushable server disk name file requests) :
    ∃ handlers, Flushing.openAll server name requests = some handlers ∧
      ∀ schedule t, Flushing.run ⟨disk, handlers⟩ schedule = some t →
        (∃ rest u, t.run rest = some u ∧ u.Finished) ∧
        (t.Finished →
          (∀ r ∈ requests, ∀ k, k < pfsBlockSizeInBytes → r.dirty k ≠ 0 →
            file.byteAt t.disk (r.addr + k) = some (r.data k)) ∧
          (∀ b, (∀ r ∈ requests, ¬ r.Marks b) →
            (∀ v, file.byteAt disk b = some v → file.byteAt t.disk b = some v) ∧
            (file.byteAt t.disk b).getD 0 = (file.byteAt disk b).getD 0) ∧
          (∀ path, (∀ strip, path ≠ file.getStripPath strip) → t.disk path = disk path) ∧
          ∀ order, order.Perm requests → Flushing.writeBlocks server name order disk = some t.disk) := by
  refine ⟨_, f.openAll (List.Subset.refl _), fun schedule t ran => ⟨(f.ready.run ran).1.completes, fun done => ?_⟩⟩
  have final := f.finished ran done (.refl _)
  refine ⟨?_, ?_, ?_, ?_⟩
  · rw [final]
    exact fun r inside k small set => f.byte_written inside small set
  · rw [final]
    exact fun b clean => f.byte_kept clean
  · rw [final]
    intro path away
    apply acts_elsewhere
    intro w round
    obtain ⟨r, inside, round⟩ := List.mem_flatMap.mp round
    obtain ⟨k, -, -, rfl⟩ := (FlushHandler.mem_todo rfl).mp round
    exact away _
  · intro order perm
    rw [f.finished ran done perm]
    exact f.writeBlocks perm.subset (fun r inside => f.onDisk inside)

/-- A server with the first strip of a file of two strips. -/
def firstStrip : FileServer × Disk :=
  FileServer.createFile { filesDirectory := "pfs/" } (fun _ => none) "f" 2 0

def firstStripFile : FSFile := (firstStrip.1.files "f").get rfl

/-- A flush of one byte. -/
def flushOf (addr k : Nat) (byte : UInt8) : WriteBlockRequest :=
  ⟨addr, fun _ => byte, fun i => if i = k then 1 else 0⟩

/-- Two flushes of one block, and one behind it. -/
def threeFlushes : List WriteBlockRequest := [flushOf 0 3 7, flushOf 0 5 8, flushOf 2048 0 9]

theorem threeFlushes_flushable : Flushable firstStrip.1 firstStrip.2 "f" firstStripFile threeFlushes := by
  have marks : ∀ addr k byte b, (flushOf addr k byte).Marks b → b = addr + k := by
    rintro addr k byte b ⟨i, -, set, rfl⟩
    have here : i = k := by
      by_contra other
      exact set (if_neg other)
    rw [here]
    rfl
  refine ⟨rfl, by decide, FileServer.NamesStrips.createFile ?_ _ _ _ _, by decide, by decide, ?_, ?_⟩
  · intro name file strip path found
    cases found
  · intro r among
    have strip : stripOf firstStripFile.stripWidth r.addr = 0 := by
      revert r
      decide
    rw [strip]
    exact ⟨_, [], rfl, rfl⟩
  · have apart : ∀ addr k byte addr' k' byte', addr + k ≠ addr' + k' →
        ∀ b, (flushOf addr k byte).Marks b → ¬ (flushOf addr' k' byte').Marks b := by
      intro addr k byte addr' k' byte' different b left right
      exact different ((marks _ _ _ _ left).symm.trans (marks _ _ _ _ right))
    simp only [threeFlushes, List.pairwise_cons, List.mem_cons, List.not_mem_nil, or_false, forall_eq_or_imp, forall_eq,
      IsEmpty.forall_iff, implies_true, List.Pairwise.nil, and_true]
    exact ⟨⟨apart _ _ _ _ _ _ (by decide), apart _ _ _ _ _ _ (by decide)⟩, apart _ _ _ _ _ _ (by decide)⟩

theorem flushes_merge_three : ∃ handlers schedule t,
    Flushing.openAll firstStrip.1 "f" threeFlushes = some handlers ∧
    Flushing.run ⟨firstStrip.2, handlers⟩ schedule = some t ∧ t.Finished ∧
    firstStripFile.byteAt t.disk 3 = some 7 ∧ firstStripFile.byteAt t.disk 5 = some 8 ∧
    firstStripFile.byteAt t.disk 2048 = some 9 := by
  obtain ⟨handlers, opened, runs⟩ := flushes_merge threeFlushes_flushable
  obtain ⟨⟨schedule, t, ran, done⟩, -⟩ := runs [] _ rfl
  obtain ⟨bytes, -⟩ := (runs schedule t ran).2 done
  exact ⟨handlers, schedule, t, opened, ran, done,
    bytes (flushOf 0 3 7) (by simp [threeFlushes]) 3 (by decide) (by decide),
    bytes (flushOf 0 5 8) (by simp [threeFlushes]) 5 (by decide) (by decide),
    bytes (flushOf 2048 0 9) (by simp [threeFlushes]) 0 (by decide) (by decide)⟩

end PFS
