import PFS.System.Geometry

/-! # Opening a file that is still being created

`CreateFile` puts the file into the manager's table and then asks the servers for
one strip after another, without a lock.  From the first step on the file can be
opened, and the client that has opened it sends its requests to servers that may
not have heard of it.
-/

namespace PFS

open Lib

variable {Peer : Type}

/-- The loop of a `CreateFile` handler over the strips. -/
structure StripLoop where
  stripeWidth : Nat
  next : Nat

/-- The manager and the servers, the handlers of `CreateFile` in their loops, and
    the stripe widths the clients have of the files they opened.  Names are
    without '/', and the blocks of requests end at `INT_MAX` or before. -/
structure Creation (Peer : Type) where
  manager : MetadataManager Peer := {}
  cluster : Cluster := Cluster.start
  creating : String → Option StripLoop := fun _ => none
  opened : Peer → String → Option Nat := fun _ _ => none

/-- The file or its strip for `addr` is missing: the first two checks of `ReadBlock`
    and `WriteBlock`. -/
def FileServer.missing (server : FileServer) (name : String) (addr : Nat) : Bool :=
  match server.files name with
  | none => true
  | some file => file.getStripPath (addr / stripBytes % file.stripWidth) == ""

namespace Creation

inductive Event (Peer : Type) where
  | createFile (name : String) (width creationTime lastModifiedTime : Nat)
  | createStrip (name : String)
  | openFile (peer : Peer) (name : String)
  | getPermission (peer : Peer) (name : String) (start stop : Nat) (iswrite : Bool)
  | readBlock (peer : Peer) (name : String) (addr : Nat)
  | writeBlock (peer : Peer) (name : String) (addr : Nat) (data dirty : Nat → UInt8)

/-- `CreateFile` up to its loop. -/
def createFile (s : Creation Peer) (name : String) (width creationTime lastModifiedTime : Nat) : Creation Peer :=
  match s.manager.createFile creationTime lastModifiedTime name width with
  | (.ok, _, manager) =>
      { s with
        manager := manager
        creating := Function.update s.creating name (if 0 < width then some ⟨width, 0⟩ else none) }
  | (_, _, manager) => { s with manager := manager }

/-- One round of the loop. -/
def createStrip (s : Creation Peer) (name : String) : Option (Creation Peer) :=
  match s.creating name with
  | none => none
  | some loop =>
      some { s with
        cluster := s.cluster.createStrip name loop.stripeWidth loop.next
        creating := Function.update s.creating name
          (if loop.next + 1 < loop.stripeWidth then some { loop with next := loop.next + 1 } else none) }

variable [DecidableEq Peer]

def openFile (s : Creation Peer) (peer : Peer) (name : String) : Creation Peer :=
  match s.manager.openFile peer name with
  | (.ok, reply, manager) =>
      { s with
        manager := manager
        opened := fun p other => if p = peer ∧ other = name then some reply.stripWidth else s.opened p other }
  | (_, _, manager) => { s with manager := manager }

/-- A `WriteBlock` request to the server the client chooses. -/
def writeBlock (s : Creation Peer) (peer : Peer) (name : String) (addr : Nat) (data dirty : Nat → UInt8) : Option Disk := do
  let width ← s.opened peer name
  (s.cluster.serverFor width addr).writeBlock s.cluster.disk name addr data dirty

/-- A request that is rejected changes nothing. -/
def exec (s : Creation Peer) : Event Peer → Option (Creation Peer)
  | .createFile name width creationTime lastModifiedTime => some (s.createFile name width creationTime lastModifiedTime)
  | .createStrip name => s.createStrip name
  | .openFile peer name => some (s.openFile peer name)
  | .getPermission peer name start stop iswrite =>
      (s.manager.getPermission peer name start stop iswrite).map fun answer => { s with manager := answer.2.2 }
  | .readBlock peer name _ => (s.opened peer name).map fun _ => s
  | .writeBlock peer name addr data dirty =>
      some { s with cluster := { s.cluster with disk := (s.writeBlock peer name addr data dirty).getD s.cluster.disk } }

/-- A file is opened only when no handler is still creating it. -/
def patientAllowed (s : Creation Peer) : Event Peer → Prop
  | .openFile _ name => s.creating name = none
  | _ => True

instance (s : Creation Peer) : (event : Event Peer) → Decidable (s.patientAllowed event)
  | .openFile _ name => inferInstanceAs (Decidable (s.creating name = none))
  | .createFile .. | .createStrip _ | .getPermission .. | .readBlock .. | .writeBlock .. => isTrue trivial

def machine : Machine (Creation Peer) (Event Peer) := ⟨fun _ _ => True, exec⟩

def patient : Machine (Creation Peer) (Event Peer) := ⟨patientAllowed, exec⟩

instance (s : Creation Peer) (event : Event Peer) : Decidable (patient.allowed s event) :=
  inferInstanceAs (Decidable (s.patientAllowed event))

def Initial (s : Creation Peer) : Prop := s = {}

end Creation

/-! ## Widths in the manager's table -/

namespace MetadataManager

/-- The width of the file with a name. -/
def widthOf (m : MetadataManager Peer) (name : String) : Option Nat := (m.files.lookup name).map MMFile.stripWidth

variable {m : MetadataManager Peer} {peer : Peer} {name : String}

theorem widthOf_setFile (m : MetadataManager Peer) (name : String) (file : MMFile Peer) :
    (m.setFile name file).widthOf name = some file.stripWidth := by
  rw [widthOf, lookup_setFile, Option.map_some]

theorem widthOf_setFile_ne (m : MetadataManager Peer) {other : String} (different : other ≠ name) (file : MMFile Peer) :
    (m.setFile name file).widthOf other = m.widthOf other := by
  rw [widthOf, lookup_setFile_ne m different, widthOf]

theorem setFile_widthOf {file file' : MMFile Peer} (found : m.files.lookup name = some file)
    (same : file'.stripWidth = file.stripWidth) (other : String) : (m.setFile name file').widthOf other = m.widthOf other := by
  by_cases here : other = name
  · subst here
    rw [widthOf_setFile, same, widthOf, found, Option.map_some]
  · exact widthOf_setFile_ne m here file'

variable [DecidableEq Peer]

theorem openFile_cases (m : MetadataManager Peer) (peer : Peer) (name : String) :
    (∃ file, m.files.lookup name = some file ∧ (m.openFile peer name).1 = .ok ∧
      (m.openFile peer name).2.1.stripWidth = file.stripWidth ∧
      (m.openFile peer name).2.2 = m.setFile name (file.open peer).1) ∨
    ((m.openFile peer name).1 = .cancelled ∧ (m.openFile peer name).2.2 = m) := by
  unfold openFile
  split
  · exact .inr ⟨rfl, rfl⟩
  · next file found =>
      split
      · exact .inl ⟨file, found, rfl, rfl, rfl⟩
      · exact .inr ⟨rfl, rfl⟩

/-- The width in the reply is the one in the table. -/
theorem openFile_ok {reply : FileStatReply} {m' : MetadataManager Peer} (answered : m.openFile peer name = (.ok, reply, m')) :
    m.widthOf name = some reply.stripWidth := by
  have cases := openFile_cases m peer name
  simp only [answered] at cases
  obtain ⟨file, found, -, width, -⟩ | ⟨cancelled, -⟩ := cases
  · rw [widthOf, found, width]
    rfl
  · cases cancelled

theorem openFile_widthOf (m : MetadataManager Peer) (peer : Peer) (name other : String) :
    (m.openFile peer name).2.2.widthOf other = m.widthOf other := by
  rcases openFile_cases m peer name with ⟨file, found, -, -, after⟩ | ⟨-, after⟩
  · rw [after]
    refine setFile_widthOf found ?_ other
    unfold MMFile.open
    split <;> rfl
  · rw [after]

theorem getPermission_widthOf {start stop : Nat} {iswrite : Bool} {answer : Status × PermissionReply × MetadataManager Peer}
    (answered : m.getPermission peer name start stop iswrite = some answer) (other : String) :
    answer.2.2.widthOf other = m.widthOf other := by
  unfold getPermission at answered
  split at answered
  · obtain rfl := Option.some.inj answered
    rfl
  · next file found =>
      split at answered
      · obtain ⟨granted, waited, rfl⟩ := Option.map_eq_some_iff.mp answered
        refine setFile_widthOf found ?_ other
        unfold MMFile.waitAndGetPermissionFor at waited
        obtain ⟨own, -, waited⟩ := Option.bind_eq_some_iff.mp waited
        obtain ⟨own', -, waited⟩ := Option.bind_eq_some_iff.mp waited
        rw [← Option.some.inj waited]
      · obtain rfl := Option.some.inj answered
        rfl

end MetadataManager

/-! ## What is there at every moment -/

/-- The third check is that the bytes are in one strip. -/
theorem FileServer.locate_eq_none_iff {server : FileServer} {name : String} {addr size : Nat} :
    server.locate name addr size = none ↔
      server.missing name addr = true ∨ (addr + stripBytes) / stripBytes * stripBytes < addr + size := by
  unfold FileServer.locate FileServer.missing
  cases server.files name with
  | none => simp
  | some file =>
      simp only [Option.bind_eq_bind, Option.bind_some, beq_iff_eq]
      by_cases empty : file.getStripPath (addr / stripBytes % file.stripWidth) = ""
      · simp [empty]
      · simp [empty]

/-- The server of a block has the file and the strip. -/
theorem Cluster.Agrees.not_missing {c : Cluster} {name : String} {width : Nat} (agrees : c.Agrees name width)
    (wide : 1 ≤ width) (addr : Nat) : (c.serverFor width addr).missing name addr = false := by
  have inside : stripOf width addr < width := Nat.mod_lt _ wide
  obtain ⟨file, found, fileWidth, strips⟩ := agrees.records (stripOf width addr % numFileServers) ⟨_, inside, rfl⟩
  have stored := strips (stripOf width addr)
  rw [if_pos ⟨inside, rfl⟩] at stored
  have here : (c.serverFor width addr).files name = some file := found
  have path : file.getStripPath (addr / stripBytes % width) = stripPath name (stripOf width addr) := by
    rw [FSFile.getStripPath]
    exact congrArg (fun found => found.getD "") stored
  rw [FileServer.missing, here]
  simp only [fileWidth, path, beq_eq_false_iff_ne]
  exact stripPath_nonempty name _

/-- A write to a strip file leaves the others, and does not remove it. -/
theorem FileServer.writeBlock_isSome {server : FileServer} {disk disk' : Disk} {name path : String} {addr : Nat}
    {data dirty : Nat → UInt8} (written : server.writeBlock disk name addr data dirty = some disk')
    (there : (disk path).isSome = true) : (disk' path).isSome = true := by
  unfold FileServer.writeBlock at written
  obtain ⟨⟨target, pos⟩, -, written⟩ := Option.bind_eq_some_iff.mp written
  obtain ⟨content, -, written⟩ := Option.bind_eq_some_iff.mp written
  rw [← Option.some.inj written]
  by_cases same : path = target
  · rw [same, Function.update_self]
    rfl
  · rw [Function.update_of_ne same]
    exact there

namespace Creation

variable {s s' : Creation Peer}

/-- How many strips of a file of this width have been created. -/
def stripsMade (s : Creation Peer) (name : String) (width : Nat) : Nat :=
  ((s.creating name).map StripLoop.next).getD width

/-- The servers have the strips that the handlers have created so far. -/
structure Inv (s : Creation Peer) : Prop where
  dirs : ∀ i, (s.cluster.servers i).filesDirectory = serverDirectory i
  loops : ∀ name loop, s.creating name = some loop →
    s.manager.widthOf name = some loop.stripeWidth ∧ loop.next < loop.stripeWidth
  absent : ∀ name, s.manager.widthOf name = none → ∀ i, (s.cluster.servers i).files name = none
  records : ∀ name width, s.manager.widthOf name = some width → ∀ i,
    (s.cluster.servers i).files name = Cluster.recordAfter none name width (s.stripsMade name width) i
  disk : ∀ name width strip, s.manager.widthOf name = some width → strip < s.stripsMade name width →
    (s.cluster.disk (stripPath name strip)).isSome = true
  opened : ∀ peer name width, s.opened peer name = some width → s.manager.widthOf name = some width

theorem Inv.initial : ({} : Creation Peer).Inv := by
  refine ⟨fun _ => rfl, nofun, fun _ _ _ => rfl, nofun, nofun, nofun⟩

/-- A manager with the same widths is as good. -/
theorem Inv.manager (h : s.Inv) {manager : MetadataManager Peer}
    (same : ∀ name, manager.widthOf name = s.manager.widthOf name) : Inv { s with manager := manager } := by
  refine ⟨h.dirs, ?_, ?_, ?_, ?_, ?_⟩
  · intro name loop running
    rw [same]
    exact h.loops name loop running
  · intro name unknown
    rw [same] at unknown
    exact h.absent name unknown
  · intro name width known
    rw [same] at known
    exact h.records name width known
  · intro name width strip known
    rw [same] at known
    exact h.disk name width strip known
  · intro peer name width opened
    rw [same]
    exact h.opened peer name width opened

theorem Inv.createFile (h : s.Inv) (name : String) (width creationTime lastModifiedTime : Nat) :
    (s.createFile name width creationTime lastModifiedTime).Inv := by
  unfold Creation.createFile MetadataManager.createFile
  cases found : s.manager.files.lookup name with
  | some file => exact h
  | none =>
      have unknown : s.manager.widthOf name = none := by rw [MetadataManager.widthOf, found]; rfl
      have noStrip : ((if 0 < width then some (StripLoop.mk width 0) else none).map StripLoop.next).getD width = 0 := by
        split
        · rfl
        · next zero => exact Nat.eq_zero_of_not_pos zero
      refine ⟨h.dirs, ?_, ?_, ?_, ?_, ?_⟩
      · intro other loop running
        by_cases same : other = name
        · subst same
          simp only [Function.update_self, Option.ite_none_right_eq_some, Option.some.injEq] at running
          obtain ⟨wide, rfl⟩ := running
          exact ⟨MetadataManager.widthOf_setFile _ _ _, wide⟩
        · simp only [Function.update_of_ne same] at running
          simp only [MetadataManager.widthOf_setFile_ne _ same]
          exact h.loops other loop running
      · intro other missing
        have different : other ≠ name := by
          rintro rfl
          simp only [MetadataManager.widthOf_setFile] at missing
          cases missing
        simp only [MetadataManager.widthOf_setFile_ne _ different] at missing
        exact h.absent other missing
      · intro other width' known i
        by_cases same : other = name
        · subst same
          simp only [MetadataManager.widthOf_setFile] at known
          obtain rfl := Option.some.inj known
          simp only [stripsMade, Function.update_self, noStrip, Cluster.recordAfter_zero]
          exact h.absent other unknown i
        · simp only [MetadataManager.widthOf_setFile_ne _ same] at known
          simp only [stripsMade, Function.update_of_ne same]
          exact h.records other width' known i
      · intro other width' strip known small
        by_cases same : other = name
        · subst same
          simp only [MetadataManager.widthOf_setFile] at known
          obtain rfl := Option.some.inj known
          simp only [stripsMade, Function.update_self, noStrip] at small
          cases small
        · simp only [MetadataManager.widthOf_setFile_ne _ same] at known
          simp only [stripsMade, Function.update_of_ne same] at small
          exact h.disk other width' strip known small
      · intro peer other width' opened
        have known := h.opened peer other width' opened
        have different : other ≠ name := by
          rintro rfl
          rw [unknown] at known
          cases known
        simp only [MetadataManager.widthOf_setFile_ne _ different]
        exact known

theorem Inv.createStrip (h : s.Inv) {name : String} (ran : s.createStrip name = some s') : s'.Inv := by
  unfold Creation.createStrip at ran
  split at ran
  · cases ran
  · next loop running =>
      obtain rfl := Option.some.inj ran
      obtain ⟨known, less⟩ := h.loops name loop running
      have made : s.stripsMade name loop.stripeWidth = loop.next := by rw [stripsMade, running]; rfl
      have oneMore : ((if loop.next + 1 < loop.stripeWidth then some { loop with next := loop.next + 1 } else none).map
          StripLoop.next).getD loop.stripeWidth = loop.next + 1 := by
        split
        · rfl
        · simp only [Option.map_none, Option.getD_none]
          omega
      have records := h.records name loop.stripeWidth known
      rw [made] at records
      refine ⟨fun i => (Cluster.createStrip_dirs _ _ _ _ i).trans (h.dirs i), ?_, ?_, ?_, ?_, h.opened⟩
      · intro other loop' running'
        by_cases same : other = name
        · subst same
          simp only [Function.update_self, Option.ite_none_right_eq_some, Option.some.injEq] at running'
          obtain ⟨more, rfl⟩ := running'
          exact ⟨known, more⟩
        · simp only [Function.update_of_ne same] at running'
          exact h.loops other loop' running'
      · intro other unknown i
        have different : other ≠ name := by
          rintro rfl
          simp only [known] at unknown
          cases unknown
        exact (Cluster.createStrip_others _ _ _ i different).trans (h.absent other unknown i)
      · intro other width known' i
        by_cases same : other = name
        · subst same
          obtain rfl := Option.some.inj (known.symm.trans known')
          simp only [stripsMade, Function.update_self, oneMore]
          exact Cluster.createStrip_records h.dirs records i
        · simp only [stripsMade, Function.update_of_ne same]
          exact (Cluster.createStrip_others _ _ _ i same).trans (h.records other width known' i)
      · intro other width strip known' small
        simp only [Cluster.createStrip_disk h.dirs]
        by_cases path : stripPath other strip = stripPath name loop.next
        · rw [path, Function.update_self]
          rfl
        · rw [Function.update_of_ne path]
          refine h.disk other width strip known' ?_
          by_cases same : other = name
          · subst same
            obtain rfl := Option.some.inj (known.symm.trans known')
            simp only [stripsMade, Function.update_self, oneMore] at small
            have different : strip ≠ loop.next := fun equal => path (by rw [equal])
            omega
          · simp only [stripsMade, Function.update_of_ne same] at small
            exact small

/-- A file that no handler is creating has all its strips. -/
theorem Inv.agrees (h : s.Inv) {name : String} {width : Nat} (known : s.manager.widthOf name = some width)
    (wide : 1 ≤ width) (idle : s.creating name = none) : s.cluster.Agrees name width := by
  have all : s.stripsMade name width = width := by rw [stripsMade, idle]; rfl
  have records := h.records name width known
  have disk := h.disk name width
  rw [all] at records disk
  exact Cluster.agrees_of_strips wide records fun strip => disk strip known

/-- A file that a handler is creating lacks the next strip. -/
theorem Inv.lacks (h : s.Inv) {name : String} {loop : StripLoop} (running : s.creating name = some loop) :
    ¬ s.cluster.Agrees name loop.stripeWidth := by
  intro agrees
  obtain ⟨known, less⟩ := h.loops name loop running
  obtain ⟨file, found, -, strips⟩ := agrees.records (loop.next % numFileServers) ⟨loop.next, less, rfl⟩
  have made : s.stripsMade name loop.stripeWidth = loop.next := by rw [stripsMade, running]; rfl
  have stored := strips loop.next
  rw [if_pos ⟨less, rfl⟩] at stored
  rw [h.records name loop.stripeWidth known, made, Cluster.recordAfter] at found
  split at found
  · obtain rfl := Option.some.inj found
    simp [Cluster.madeRecord] at stored
  · cases found

variable [DecidableEq Peer]

theorem Inv.openFile (h : s.Inv) (peer : Peer) (name : String) : (s.openFile peer name).Inv := by
  have kept := h.manager (s.manager.openFile_widthOf peer name)
  unfold Creation.openFile
  split
  · next reply manager answered =>
      simp only [answered] at kept
      refine ⟨kept.dirs, kept.loops, kept.absent, kept.records, kept.disk, fun p other width known => ?_⟩
      simp only at known
      split at known
      · next here =>
          have same := s.manager.openFile_widthOf peer name other
          rw [answered] at same
          rw [same, ← known, here.2]
          exact MetadataManager.openFile_ok answered
      · exact kept.opened p other width known
  · next manager _ answered =>
      simp only [answered] at kept
      exact kept

theorem Inv.step (h : s.Inv) {event : Event Peer} (ran : s.exec event = some s') : s'.Inv := by
  cases event with
  | createFile name width creationTime lastModifiedTime =>
      obtain rfl := Option.some.inj ran
      exact h.createFile name width creationTime lastModifiedTime
  | createStrip name => exact h.createStrip ran
  | openFile peer name =>
      obtain rfl := Option.some.inj ran
      exact h.openFile peer name
  | getPermission peer name start stop iswrite =>
      obtain ⟨answer, answered, rfl⟩ := Option.map_eq_some_iff.mp ran
      exact h.manager (MetadataManager.getPermission_widthOf answered)
  | readBlock peer name addr =>
      obtain ⟨width, -, rfl⟩ := Option.map_eq_some_iff.mp ran
      exact h
  | writeBlock peer name addr data dirty =>
      obtain rfl := Option.some.inj ran
      refine ⟨h.dirs, h.loops, h.absent, h.records, fun other width strip known small => ?_, h.opened⟩
      have there := h.disk other width strip known small
      cases written : s.writeBlock peer name addr data dirty with
      | none => exact there
      | some disk =>
          obtain ⟨width', -, written⟩ := Option.bind_eq_some_iff.mp written
          exact FileServer.writeBlock_isSome written there

/-! ## Opened files -/

/-- In any interleaving, a file that can be opened has all its strips exactly when
    no handler is creating it. -/
theorem openFile_agrees_iff (reach : Reachable Initial machine.Step s) {peer : Peer} {name : String} {reply : FileStatReply}
    {manager : MetadataManager Peer} (answered : s.manager.openFile peer name = (.ok, reply, manager))
    (wide : 1 ≤ reply.stripWidth) : s.cluster.Agrees name reply.stripWidth ↔ s.creating name = none := by
  have inv := reach.invariant Inv (by rintro _ rfl; exact Inv.initial) (fun _ _ inv ⟨_, _, ran⟩ => inv.step ran)
  have known := MetadataManager.openFile_ok answered
  constructor
  · intro agrees
    cases running : s.creating name with
    | none => rfl
    | some loop =>
        obtain ⟨known', -⟩ := inv.loops name loop running
        obtain same := Option.some.inj (known.symm.trans known')
        rw [same] at agrees
        exact (inv.lacks running agrees).elim
  · exact inv.agrees known wide

/-- No file that is being created is open. -/
structure PatientInv (s : Creation Peer) : Prop where
  inv : s.Inv
  settled : ∀ peer name width, s.opened peer name = some width → s.creating name = none

theorem PatientInv.step (h : s.PatientInv) {event : Event Peer} (allowed : s.patientAllowed event)
    (ran : s.exec event = some s') : s'.PatientInv := by
  refine ⟨h.inv.step ran, ?_⟩
  cases event with
  | createFile name width creationTime lastModifiedTime =>
      obtain rfl := Option.some.inj ran
      unfold Creation.createFile MetadataManager.createFile
      cases found : s.manager.files.lookup name with
      | some file => exact h.settled
      | none =>
          intro peer other width' opened
          have known := h.inv.opened peer other width' opened
          have different : other ≠ name := by
            rintro rfl
            rw [MetadataManager.widthOf, found] at known
            cases known
          simp only [Function.update_of_ne different]
          exact h.settled peer other width' opened
  | createStrip name =>
      simp only [exec, Creation.createStrip] at ran
      split at ran
      · cases ran
      · next loop running =>
          obtain rfl := Option.some.inj ran
          intro peer other width opened
          have idle := h.settled peer other width opened
          have different : other ≠ name := by
            rintro rfl
            rw [running] at idle
            cases idle
          simp only [Function.update_of_ne different]
          exact idle
  | openFile peer name =>
      obtain rfl := Option.some.inj ran
      unfold Creation.openFile
      split
      · intro p other width opened
        simp only at opened
        split at opened
        · next here => rw [here.2]; exact allowed
        · exact h.settled p other width opened
      · exact h.settled
  | getPermission peer name start stop iswrite =>
      obtain ⟨answer, -, rfl⟩ := Option.map_eq_some_iff.mp ran
      exact h.settled
  | readBlock peer name addr =>
      obtain ⟨width, -, rfl⟩ := Option.map_eq_some_iff.mp ran
      exact h.settled
  | writeBlock peer name addr data dirty =>
      obtain rfl := Option.some.inj ran
      exact h.settled

/-- In every run in which files are opened only when no handler is creating them,
    all strips of a file are there when `OpenFile` succeeds, and no server that a client
    asks for a block of a file it has open lacks the file or the strip. -/
theorem reachable_strips {s : Creation Peer} (reach : Reachable Initial patient.Step s) :
    (∀ peer name reply manager, s.patientAllowed (.openFile peer name) →
      s.manager.openFile peer name = (.ok, reply, manager) → 1 ≤ reply.stripWidth →
      s.cluster.Agrees name reply.stripWidth) ∧
    ∀ peer name width, s.opened peer name = some width → 1 ≤ width →
      s.cluster.Agrees name width ∧ ∀ addr, (s.cluster.serverFor width addr).missing name addr = false := by
  have inv := reach.invariant PatientInv (by rintro _ rfl; exact ⟨Inv.initial, nofun⟩)
    (fun _ _ inv ⟨_, allowed, ran⟩ => inv.step allowed ran)
  constructor
  · intro peer name reply manager idle answered wide
    exact inv.inv.agrees (MetadataManager.openFile_ok answered) wide idle
  · intro peer name width opened wide
    have agrees := inv.inv.agrees (inv.inv.opened peer name width opened) wide (inv.settled peer name width opened)
    exact ⟨agrees, agrees.not_missing wide⟩

/-- Client 1 opens a file of two strips once both are there. -/
def inOrder : List (Event Nat) :=
  [.createFile "f" 2 5 5, .createStrip "f", .createStrip "f", .openFile 1 "f", .getPermission 1 "f" 0 1024 false]

def ordered : Creation Nat := (patient.run {} inOrder).get rfl

theorem reachable_strips_ordered : Reachable Initial patient.Step ordered ∧ ordered.opened 1 "f" = some 2 ∧
    (ordered.cluster.serverFor 2 1024).missing "f" 1024 = false := by
  have reach : Reachable Initial patient.Step ordered :=
    patient.run_reachable (Reachable.init rfl) (Option.some_get _).symm
  have opened : ordered.opened 1 "f" = some 2 := rfl
  exact ⟨reach, opened, ((reachable_strips reach).2 1 "f" 2 opened (by decide)).2 1024⟩

/-- Client 1 opens it before any strip is there. -/
def early : Creation Nat := ({} : Creation Nat).createFile "f" 2 5 5

/-- `OpenFile` succeeds, and the server of the first block does not know the file. -/
theorem early_missing : Reachable Initial machine.Step (early.openFile 1 "f") ∧
    (early.manager.openFile 1 "f").1 = .ok ∧ (early.openFile 1 "f").opened 1 "f" = some 2 ∧
      ((early.openFile 1 "f").cluster.serverFor 2 0).missing "f" 0 = true ∧
      (((early.openFile 1 "f").cluster.serverFor 2 0).readBlock (early.openFile 1 "f").cluster.disk "f" 0
        fun _ => 0).isNone = true := by
  have start : Reachable Initial machine.Step ({} : Creation Nat) := Reachable.init rfl
  have made : Reachable Initial machine.Step early := start.tail ⟨.createFile "f" 2 5 5, trivial, rfl⟩
  exact ⟨made.tail ⟨.openFile 1 "f", trivial, rfl⟩, rfl, rfl, rfl, rfl⟩

end Creation

end PFS
