import PFS.Client.ManyFiles
import PFS.System.Creation

/-! # The whole system

The metadata manager, the file servers and any number of clients with any number of
files, driven by the calls of the clients.  A call runs to completion with the requests
it makes, except that a `CreateFile` handler asks the servers for its strips one after
another while other calls are served.

The bytes of the files are one array a file, as everywhere on the side of the clients;
of the servers only their records of the files are followed.
-/

namespace PFS

open Lib

variable {Peer : Type}

structure Deployment (Peer : Type) where
  manager : MetadataManager Peer := {}
  cluster : Cluster := Cluster.start
  /-- The `CreateFile` handlers, with the names of their files. -/
  creating : List (String × StripLoop) := []
  clients : Peer → PFSClient := fun _ => {}
  /-- The clients that have their `stub_`. -/
  started : Peer → Bool := fun _ => false
  store : String → FileBytes := fun _ _ => 0

namespace Deployment

inductive Call (Peer : Type) where
  /-- `initialize`, with its `ClientStart` request. -/
  | clientStart (peer : Peer)
  | createFile (peer : Peer) (filename : String) (stripeWidth : Int32) (creationTime lastModifiedTime : Nat)
  /-- A `CreateFile` handler asks for its next strip. -/
  | createStrip (handler : Nat)
  | openFile (peer : Peer) (filename : String) (mode : Char)
  | readFile (peer : Peer) (filedes offset nbyte : Nat) (order : List Peer)
  | writeFile (peer : Peer) (filedes offset nbyte : Nat) (data : Nat → UInt8) (order : List Peer)
  | closeFile (peer : Peer) (filedes : Int) (now : Nat)
  | deleteFile (peer : Peer) (filename : String)
  | flush (peer : Peer)
  | harvest (peer : Peer)

/-- One of the rounds of a `CreateFile` handler. -/
def createStrip (s : Deployment Peer) (handler : Nat) : Option (Deployment Peer) := do
  let (name, loop) ← s.creating[handler]?
  if loop.next < loop.stripeWidth then
    some { s with
      cluster := s.cluster.createStrip name loop.stripeWidth loop.next
      creating := s.creating.set handler (name, { loop with next := loop.next + 1 }) }
  else none

/-- `createFile`: the width is an `int` that is sent as a `uint32`. -/
def createFile (s : Deployment Peer) (peer : Peer) (filename : String) (stripeWidth : Int32)
    (creationTime lastModifiedTime : Nat) : Int × Deployment Peer :=
  if s.started peer then
    match s.manager.createFile creationTime lastModifiedTime filename stripeWidth.toUInt32.toNat with
    | (.ok, _, manager) =>
        (0, { s with
          manager := manager
          creating := s.creating ++ [(filename, ⟨stripeWidth.toUInt32.toNat, 0⟩)] })
    | (status, _, manager) => (-status.errorCode, { s with manager := manager })
  else (-1, s)

/-- `deleteFile`; the file servers are not told. -/
def deleteFile (s : Deployment Peer) (peer : Peer) (filename : String) : Int × Deployment Peer :=
  if s.started peer then
    match s.manager.deleteFile filename with
    | (.ok, _, manager) => (0, { s with manager := manager })
    | (status, _, manager) => (-status.errorCode, { s with manager := manager })
  else (-1, s)

/-- A client with the bytes it reads and writes. -/
def files (s : Deployment Peer) (peer : Peer) : ManyFiles := ⟨s.clients peer, s.store⟩

variable [DecidableEq Peer]

def setFiles (s : Deployment Peer) (peer : Peer) (files : ManyFiles) : Deployment Peer :=
  { s with clients := Function.update s.clients peer files.client, store := files.store }

/-- `openFile`: the descriptor of the file or, if the manager rejects the request, its
    `error_code()`. -/
def openFile (s : Deployment Peer) (peer : Peer) (filename : String) (_mode : Char) : Int × Deployment Peer :=
  if s.started peer then
    match s.manager.openFile peer filename with
    | (.ok, reply, manager) =>
        (asInt ((s.clients peer).descriptorCount + 1),
          setFiles { s with manager := manager } peer ((s.files peer).openFile filename (some reply)))
    | (status, _, manager) => (status.errorCode, { s with manager := manager })
  else (-1, s)

/-- The `RevokePermission` requests of the manager, served one after the other. -/
def revokeAll (name : String) (start stop : Nat) : List Peer → Deployment Peer → Option (Deployment Peer)
  | [], s => some s
  | peer :: rest, s => do
      let files ← (s.files peer).revokePermission name start stop
      revokeAll name start stop rest (s.setFiles peer files)

/-- `GetPermission`, with the revocations in some order. -/
def getPermission (s : Deployment Peer) (peer : Peer) (name : String) (start stop : Nat) (iswrite : Bool)
    (order : List Peer) : Option (Deployment Peer × Option PermissionReply) := do
  let (status, reply, manager) ← s.manager.getPermission peer name start stop iswrite
  match status with
  | .ok => do
      let file ← s.manager.files.lookup name
      if order.Perm (file.conflicting peer start stop iswrite) then
        let s ← revokeAll name start stop order { s with manager := manager }
        some (s, some reply)
      else none
  | _ => some ({ s with manager := manager }, none)

/-- The request that `acquirePermission` makes of the manager, if it makes one. -/
def requestPermission (s : Deployment Peer) (peer : Peer) (filedes start stop : Nat) (write : Bool)
    (order : List Peer) : Option (Deployment Peer × Option PermissionReply) :=
  match (s.clients peer).openedFiles.find? fun file => file.descriptor = filedes with
  | none => some (s, none)
  | some file =>
      if hasPermission start stop write file.permissions then some (s, none)
      else s.getPermission peer file.name start stop write order

def readFile (s : Deployment Peer) (peer : Peer) (filedes offset nbyte : Nat) (order : List Peer) :
    Option (Deployment Peer) := do
  let (s, reply) ← s.requestPermission peer filedes offset (offset + nbyte) false order
  let (files, _) ← (s.files peer).readFile filedes offset nbyte reply
  some (s.setFiles peer files)

def writeFile (s : Deployment Peer) (peer : Peer) (filedes offset nbyte : Nat) (data : Nat → UInt8)
    (order : List Peer) : Option (Deployment Peer) := do
  let (s, reply) ← s.requestPermission peer filedes offset (offset + nbyte) true order
  let (files, _) ← (s.files peer).writeFile filedes offset nbyte data reply
  some (s.setFiles peer files)

/-- `closeFile`; what is asked of the manager does not depend on its answer. -/
def closeFile (s : Deployment Peer) (peer : Peer) (filedes : Int) (now : Nat) : Option (Int × Deployment Peer) :=
  if s.started peer then do
    let (_, request, _) ← (s.files peer).closeFile filedes .ok
    let (status, manager) := s.manager.closeFile now peer request.name request.hasModified request.size
    let (value, _, files) ← (s.files peer).closeFile filedes status
    some (value, setFiles { s with manager := manager } peer files)
  else some (-1, s)

def exec (s : Deployment Peer) : Call Peer → Option (Deployment Peer)
  | .clientStart peer => some { s with started := Function.update s.started peer true }
  | .createFile peer filename stripeWidth creationTime lastModifiedTime =>
      some (s.createFile peer filename stripeWidth creationTime lastModifiedTime).2
  | .createStrip handler => s.createStrip handler
  | .openFile peer filename mode => some (s.openFile peer filename mode).2
  | .readFile peer filedes offset nbyte order => s.readFile peer filedes offset nbyte order
  | .writeFile peer filedes offset nbyte data order => s.writeFile peer filedes offset nbyte data order
  | .closeFile peer filedes now => (s.closeFile peer filedes now).map Prod.snd
  | .deleteFile peer filename => some (s.deleteFile peer filename).2
  | .flush peer => (s.files peer).flush.map (s.setFiles peer)
  | .harvest peer => (s.files peer).harvest.map (s.setFiles peer)

/-- The counter of the descriptors is an `int` and must not overflow; the ranges of
    reads and writes are offsets. -/
def allowed (s : Deployment Peer) : Call Peer → Prop
  | .openFile peer _ _ => (s.clients peer).descriptorCount < intMax
  | .readFile _ _ offset nbyte _ | .writeFile _ _ offset nbyte _ _ => offset + nbyte ≤ intMax
  | _ => True

instance (s : Deployment Peer) : (call : Call Peer) → Decidable (s.allowed call)
  | .openFile .. => inferInstanceAs (Decidable (_ < _))
  | .readFile .. | .writeFile .. => inferInstanceAs (Decidable (_ ≤ _))
  | .clientStart _ | .createFile .. | .createStrip _ | .closeFile .. | .deleteFile .. | .flush _ | .harvest _ =>
      isTrue trivial

def machine : Machine (Deployment Peer) (Call Peer) := ⟨allowed, exec⟩

instance (s : Deployment Peer) (call : Call Peer) : Decidable (machine.allowed s call) :=
  inferInstanceAs (Decidable (s.allowed call))

/-- Nothing has happened yet. -/
def Initial (s : Deployment Peer) : Prop := s = {}

end Deployment

/-! ## What a call does to the open files of a client -/

/-- Every file that is open now has the descriptor and the width of one that was open
    before. -/
structure PFSClient.OpensNothing (c c' : PFSClient) : Prop where
  count : c'.descriptorCount = c.descriptorCount
  files : ∀ file' ∈ c'.openedFiles, ∃ file ∈ c.openedFiles,
    file'.descriptor = file.descriptor ∧ file'.stripWidth = file.stripWidth

namespace PFSClient.OpensNothing

variable {c c' c'' : PFSClient}

theorem of_files (count : c'.descriptorCount = c.descriptorCount) (files : c'.openedFiles ⊆ c.openedFiles) :
    OpensNothing c c' := ⟨count, fun file' member => ⟨file', files member, rfl, rfl⟩⟩

theorem refl (c : PFSClient) : OpensNothing c c := of_files rfl (List.Subset.refl _)

theorem trans (first : OpensNothing c c') (second : OpensNothing c' c'') : OpensNothing c c'' := by
  refine ⟨second.count.trans first.count, fun file'' member => ?_⟩
  obtain ⟨file', member', descriptor', width'⟩ := second.files file'' member
  obtain ⟨file, member, descriptor, width⟩ := first.files file' member'
  exact ⟨file, member, descriptor'.trans descriptor, width'.trans width⟩

theorem setFile {i : Nat} {file file' : ClientFile} (cache : Cache) (at_i : c.openedFiles[i]? = some file)
    (descriptor : file'.descriptor = file.descriptor) (width : file'.stripWidth = file.stripWidth) :
    OpensNothing c ({ c with cache := cache }.setFile i file') := by
  refine ⟨rfl, fun other member => ?_⟩
  rcases List.mem_or_eq_of_mem_set member with old | rfl
  · exact ⟨other, old, rfl, rfl⟩
  · exact ⟨file, List.mem_of_getElem? at_i, descriptor, width⟩

end PFSClient.OpensNothing

namespace ManyFiles

open PFSClient (OpensNothing)

variable {s s' : ManyFiles}

theorem acquirePermission_opensNothing {filedes start stop : Nat} {write : Bool} {reply : Option PermissionReply}
    {acquired : Option Nat} (done : s.acquirePermission filedes start stop write reply = some (s', acquired)) :
    OpensNothing s.client s'.client := by
  unfold acquirePermission at done
  split at done
  · obtain ⟨rfl, -⟩ := Prod.mk.inj (Option.some.inj done)
    exact .refl _
  · obtain ⟨file, at_i, done⟩ := Option.bind_eq_some_iff.mp done
    split at done
    · obtain ⟨rfl, -⟩ := Prod.mk.inj (Option.some.inj done)
      exact .refl _
    · split at done
      · obtain ⟨rfl, -⟩ := Prod.mk.inj (Option.some.inj done)
        exact .refl _
      · obtain ⟨permissions, -, done⟩ := Option.bind_eq_some_iff.mp done
        obtain ⟨rfl, -⟩ := Prod.mk.inj (Option.some.inj done)
        exact .setFile s.client.cache at_i rfl rfl

theorem readFile_opensNothing {filedes offset nbyte : Nat} {reply : Option PermissionReply}
    {result : Option (Nat → UInt8)} (done : s.readFile filedes offset nbyte reply = some (s', result)) :
    OpensNothing s.client s'.client := by
  obtain ⟨⟨s₁, acquired⟩, first, done⟩ := Option.bind_eq_some_iff.mp done
  have before := acquirePermission_opensNothing first
  simp only at done
  split at done
  · obtain ⟨rfl, -⟩ := Prod.mk.inj (Option.some.inj done)
    exact before
  · obtain ⟨file, -, done⟩ := Option.bind_eq_some_iff.mp done
    obtain ⟨⟨c, buffer⟩, read, done⟩ := Option.bind_eq_some_iff.mp done
    obtain ⟨rfl, -⟩ := Prod.mk.inj (Option.some.inj done)
    obtain ⟨⟨cache, buffer'⟩, -, read⟩ := Option.bind_eq_some_iff.mp read
    obtain ⟨file, at_i, read⟩ := Option.bind_eq_some_iff.mp read
    obtain ⟨rfl, -⟩ := Prod.mk.inj (Option.some.inj read)
    exact before.trans (.setFile cache at_i rfl rfl)

theorem writeFile_opensNothing {filedes offset nbyte : Nat} {data : Nat → UInt8} {reply : Option PermissionReply}
    {result : Bool} (done : s.writeFile filedes offset nbyte data reply = some (s', result)) :
    OpensNothing s.client s'.client := by
  obtain ⟨⟨s₁, acquired⟩, first, done⟩ := Option.bind_eq_some_iff.mp done
  have before := acquirePermission_opensNothing first
  simp only at done
  split at done
  · obtain ⟨rfl, -⟩ := Prod.mk.inj (Option.some.inj done)
    exact before
  · obtain ⟨file, -, done⟩ := Option.bind_eq_some_iff.mp done
    obtain ⟨c, written, done⟩ := Option.bind_eq_some_iff.mp done
    obtain ⟨rfl, -⟩ := Prod.mk.inj (Option.some.inj done)
    obtain ⟨cache, -, written⟩ := Option.bind_eq_some_iff.mp written
    obtain ⟨file, at_i, written⟩ := Option.bind_eq_some_iff.mp written
    obtain rfl := Option.some.inj written
    exact before.trans (.setFile cache at_i rfl rfl)

theorem closeFile_opensNothing {filedes : Int} {status : Status} {value : Int} {request : CloseFileRequest}
    (done : s.closeFile filedes status = some (value, request, s')) : OpensNothing s.client s'.client := by
  obtain ⟨file, -, done⟩ := Option.bind_eq_some_iff.mp done
  obtain ⟨⟨cache, bytes⟩, -, done⟩ := Option.bind_eq_some_iff.mp done
  simp only at done
  split at done
  · cases done
    exact .of_files rfl (List.eraseIdx_subset ..)
  · cases done
    exact .of_files rfl (List.Subset.refl _)

theorem revokePermission_opensNothing {filename : String} {start stop : Nat}
    (done : s.revokePermission filename start stop = some s') : OpensNothing s.client s'.client := by
  obtain ⟨⟨c, bytes⟩, revoked, rfl⟩ := Option.map_eq_some_iff.mp done
  unfold PFSClient.revokePermission at revoked
  split at revoked
  · obtain ⟨rfl, -⟩ := Prod.mk.inj (Option.some.inj revoked)
    exact .refl _
  · obtain ⟨file, at_i, revoked⟩ := Option.bind_eq_some_iff.mp revoked
    split at revoked
    · cases revoked
    · obtain ⟨⟨cache, bytes'⟩, -, revoked⟩ := Option.bind_eq_some_iff.mp revoked
      obtain ⟨rfl, -⟩ := Prod.mk.inj (Option.some.inj revoked)
      exact .setFile cache at_i rfl rfl

theorem flush_opensNothing (done : s.flush = some s') : OpensNothing s.client s'.client := by
  obtain ⟨store, -, rfl⟩ := Option.map_eq_some_iff.mp done
  exact .of_files rfl (List.Subset.refl _)

theorem harvest_opensNothing (done : s.harvest = some s') : OpensNothing s.client s'.client := by
  obtain ⟨⟨cache, block⟩, -, done⟩ := Option.bind_eq_some_iff.mp done
  obtain ⟨store, -, done⟩ := Option.bind_eq_some_iff.mp done
  obtain rfl := Option.some.inj done
  exact .of_files rfl (List.Subset.refl _)

end ManyFiles

/-! ## What a call does to the system -/

namespace MetadataManager

theorem closeFile_widthOf [DecidableEq Peer] (m : MetadataManager Peer) (now : Nat) (peer : Peer) (name : String)
    (hasModified : Bool) (size : Nat) (other : String) :
    (m.closeFile now peer name hasModified size).2.widthOf other = m.widthOf other := by
  unfold closeFile
  split
  · rfl
  · next file found =>
      refine setFile_widthOf found ?_ other
      unfold MMFile.close recordClose
      split
      · split <;> rfl
      · split <;> rfl

theorem deleteFile_widthOf {m : MetadataManager Peer} {name other : String} {width : Nat}
    (known : (m.deleteFile name).2.2.widthOf other = some width) : m.widthOf other = some width := by
  unfold deleteFile at known
  split at known
  · exact known
  · split at known
    · exact known
    · obtain ⟨file, found, rfl⟩ := Option.map_eq_some_iff.mp known
      by_cases same : other = name
      · subst same
        rw [AList.lookup_erase] at found
        cases found
      · rw [AList.lookup_erase_ne same] at found
        rw [widthOf, found, Option.map_some]

end MetadataManager

namespace Deployment

open PFSClient (OpensNothing)

/-- Nothing is created and nothing is opened. -/
structure Quiet (s s' : Deployment Peer) : Prop where
  widths : ∀ name width, s'.manager.widthOf name = some width → s.manager.widthOf name = some width
  cluster : s'.cluster = s.cluster
  creating : s'.creating = s.creating
  clients : ∀ peer, OpensNothing (s.clients peer) (s'.clients peer)

variable {s s' s'' : Deployment Peer}

theorem Quiet.manager {manager : MetadataManager Peer}
    (widths : ∀ name width, manager.widthOf name = some width → s.manager.widthOf name = some width) :
    Quiet s { s with manager := manager } := ⟨widths, rfl, rfl, fun _ => .refl _⟩

theorem Quiet.refl (s : Deployment Peer) : Quiet s s := .manager fun _ _ known => known

theorem Quiet.trans (first : Quiet s s') (second : Quiet s' s'') : Quiet s s'' := by
  refine ⟨fun name width known => first.widths name width (second.widths name width known),
    second.cluster.trans first.cluster, second.creating.trans first.creating, fun peer => ?_⟩
  exact (first.clients peer).trans (second.clients peer)

theorem deleteFile_quiet (s : Deployment Peer) (peer : Peer) (filename : String) :
    Quiet s (s.deleteFile peer filename).2 := by
  have widths : ∀ other width, (s.manager.deleteFile filename).2.2.widthOf other = some width →
      s.manager.widthOf other = some width := fun other width known => MetadataManager.deleteFile_widthOf known
  unfold deleteFile
  split
  · split
    · next manager answered =>
        rw [answered] at widths
        exact .manager widths
    · next status _ manager _ answered =>
        rw [answered] at widths
        exact .manager widths
  · exact .refl s

/-- A file that is created. -/
def created (s : Deployment Peer) (filename : String) (width creationTime lastModifiedTime : Nat) : Deployment Peer :=
  { s with
    manager := s.manager.setFile filename
      { name := filename, size := 0, creationTime, lastModifiedTime, stripWidth := width }
    creating := s.creating ++ [(filename, ⟨width, 0⟩)] }

/-- `createFile` creates the file if there is none of that name. -/
theorem createFile_eq (s : Deployment Peer) (peer : Peer) (filename : String) (stripeWidth : Int32)
    (creationTime lastModifiedTime : Nat) :
    (s.createFile peer filename stripeWidth creationTime lastModifiedTime).2 =
      if s.started peer = true ∧ s.manager.files.lookup filename = none then
        s.created filename stripeWidth.toUInt32.toNat creationTime lastModifiedTime
      else s := by
  unfold createFile MetadataManager.createFile
  cases started : s.started peer with
  | false => simp
  | true =>
      cases found : s.manager.files.lookup filename with
      | some file => simp
      | none => simp [created]

variable [DecidableEq Peer] {peer : Peer}

theorem Quiet.setFiles {files : ManyFiles} (opens : OpensNothing (s.clients peer) files.client) :
    Quiet s (s.setFiles peer files) := by
  refine ⟨fun _ _ known => known, rfl, rfl, fun other => ?_⟩
  by_cases same : other = peer
  · subst same
    simp only [Deployment.setFiles, Function.update_self]
    exact opens
  · simp only [Deployment.setFiles, Function.update_of_ne same]
    exact .refl _

theorem revokeAll_quiet {name : String} {start stop : Nat} {order : List Peer}
    (done : revokeAll name start stop order s = some s') : Quiet s s' := by
  induction order generalizing s with
  | nil =>
      obtain rfl := Option.some.inj done
      exact .refl s
  | cons first rest ih =>
      obtain ⟨files, revoked, done⟩ := Option.bind_eq_some_iff.mp done
      exact (Quiet.setFiles (ManyFiles.revokePermission_opensNothing revoked)).trans (ih done)

theorem getPermission_quiet {name : String} {start stop : Nat} {iswrite : Bool} {order : List Peer}
    {reply : Option PermissionReply} (done : s.getPermission peer name start stop iswrite order = some (s', reply)) :
    Quiet s s' := by
  obtain ⟨⟨status, granted, manager⟩, answered, done⟩ := Option.bind_eq_some_iff.mp done
  have widths : ∀ other width, manager.widthOf other = some width → s.manager.widthOf other = some width :=
    fun other width known => (MetadataManager.getPermission_widthOf answered other).symm.trans known
  simp only at done
  split at done
  · obtain ⟨file, -, done⟩ := Option.bind_eq_some_iff.mp done
    split at done
    · obtain ⟨s₁, revoked, done⟩ := Option.bind_eq_some_iff.mp done
      obtain ⟨rfl, -⟩ := Prod.mk.inj (Option.some.inj done)
      exact (Quiet.manager widths).trans (revokeAll_quiet revoked)
    · cases done
  · obtain ⟨rfl, -⟩ := Prod.mk.inj (Option.some.inj done)
    exact .manager widths

theorem requestPermission_quiet {filedes start stop : Nat} {write : Bool} {order : List Peer}
    {reply : Option PermissionReply}
    (done : s.requestPermission peer filedes start stop write order = some (s', reply)) : Quiet s s' := by
  unfold requestPermission at done
  split at done
  · obtain ⟨rfl, -⟩ := Prod.mk.inj (Option.some.inj done)
    exact .refl s
  · split at done
    · obtain ⟨rfl, -⟩ := Prod.mk.inj (Option.some.inj done)
      exact .refl s
    · exact getPermission_quiet done

theorem readFile_quiet {filedes offset nbyte : Nat} {order : List Peer}
    (done : s.readFile peer filedes offset nbyte order = some s') : Quiet s s' := by
  obtain ⟨⟨s₁, reply⟩, asked, done⟩ := Option.bind_eq_some_iff.mp done
  obtain ⟨⟨files, result⟩, read, done⟩ := Option.bind_eq_some_iff.mp done
  obtain rfl := Option.some.inj done
  exact (requestPermission_quiet asked).trans (.setFiles (ManyFiles.readFile_opensNothing read))

theorem writeFile_quiet {filedes offset nbyte : Nat} {data : Nat → UInt8} {order : List Peer}
    (done : s.writeFile peer filedes offset nbyte data order = some s') : Quiet s s' := by
  obtain ⟨⟨s₁, reply⟩, asked, done⟩ := Option.bind_eq_some_iff.mp done
  obtain ⟨⟨files, result⟩, written, done⟩ := Option.bind_eq_some_iff.mp done
  obtain rfl := Option.some.inj done
  exact (requestPermission_quiet asked).trans (.setFiles (ManyFiles.writeFile_opensNothing written))

theorem closeFile_quiet {filedes : Int} {now : Nat} {value : Int}
    (done : s.closeFile peer filedes now = some (value, s')) : Quiet s s' := by
  unfold closeFile at done
  split at done
  · obtain ⟨⟨_, request, _⟩, -, done⟩ := Option.bind_eq_some_iff.mp done
    obtain ⟨⟨value', _, files⟩, closed, done⟩ := Option.bind_eq_some_iff.mp done
    obtain ⟨-, rfl⟩ := Prod.mk.inj (Option.some.inj done)
    have widths : ∀ other width,
        (s.manager.closeFile now peer request.name request.hasModified request.size).2.widthOf other = some width →
          s.manager.widthOf other = some width := by
      intro other width known
      rw [MetadataManager.closeFile_widthOf] at known
      exact known
    exact (Quiet.manager widths).trans (.setFiles (ManyFiles.closeFile_opensNothing closed))
  · obtain ⟨-, rfl⟩ := Prod.mk.inj (Option.some.inj done)
    exact .refl s

/-- The manager opens a file for a peer. -/
def Accepts (s : Deployment Peer) (peer : Peer) (filename : String) : Prop :=
  ∃ record, s.manager.files.lookup filename = some record ∧ record.isOpenedBy peer = false

/-- A file that is opened by a peer. -/
def opened (s : Deployment Peer) (peer : Peer) (filename : String) (record : MMFile Peer) : Deployment Peer :=
  setFiles { s with manager := s.manager.setFile filename (record.open peer).1 } peer
    ((s.files peer).openFile filename (some
      { creationTime := record.creationTime, lastModified := record.lastModifiedTime, fileSize := record.size,
        stripWidth := record.stripWidth }))

/-- `openFile` when the manager accepts. -/
theorem openFile_accepted {filename : String} {record : MMFile Peer} (started : s.started peer = true)
    (found : s.manager.files.lookup filename = some record) (new : record.isOpenedBy peer = false) (mode : Char) :
    s.openFile peer filename mode = (asInt ((s.clients peer).descriptorCount + 1), s.opened peer filename record) := by
  have first : (record.open peer).2 = true := by simp [MMFile.open, new]
  simp only [openFile, started, if_true, MetadataManager.openFile, found, first]
  rfl

/-- `openFile` when it does not: the status code is returned as it is. -/
theorem openFile_rejected {filename : String} (rejects : ¬ (s.started peer = true ∧ s.Accepts peer filename))
    (mode : Char) :
    s.openFile peer filename mode = (if s.started peer then 1 else -1, s) := by
  cases started : s.started peer with
  | false => simp [openFile, started]
  | true =>
      simp only [openFile, started, if_true, MetadataManager.openFile]
      cases found : s.manager.files.lookup filename with
      | none => rfl
      | some record =>
          have again : (record.open peer).2 = false := by
            cases opened : record.isOpenedBy peer with
            | true => simp [MMFile.open, opened]
            | false => exact (rejects ⟨started, record, found, opened⟩).elim
          simp only [again, if_neg Bool.false_ne_true]
          rfl

/-- What a call can do: open a file, create one, ask for a strip, or none of these. -/
theorem exec_cases {call : Call Peer} (done : s.exec call = some s') :
    Quiet s s' ∨
    (∃ peer filename mode record, call = .openFile peer filename mode ∧
      s.manager.files.lookup filename = some record ∧ s' = s.opened peer filename record) ∨
    (∃ peer filename stripeWidth creationTime lastModifiedTime,
      call = .createFile peer filename stripeWidth creationTime lastModifiedTime ∧ s.started peer = true ∧
      s.manager.files.lookup filename = none ∧
      s' = s.created filename stripeWidth.toUInt32.toNat creationTime lastModifiedTime) ∨
    (∃ handler name loop, call = .createStrip handler ∧ s.creating[handler]? = some (name, loop) ∧
      s' = { s with
        cluster := s.cluster.createStrip name loop.stripeWidth loop.next
        creating := s.creating.set handler (name, { loop with next := loop.next + 1 }) }) := by
  cases call with
  | clientStart peer =>
      obtain rfl := Option.some.inj done
      exact .inl ⟨fun _ _ known => known, rfl, rfl, fun _ => .refl _⟩
  | createFile peer filename stripeWidth creationTime lastModifiedTime =>
      obtain rfl := Option.some.inj done
      rw [createFile_eq]
      split
      · next new => exact .inr (.inr (.inl ⟨_, _, _, _, _, rfl, new.1, new.2, rfl⟩))
      · exact .inl (.refl s)
  | createStrip handler =>
      obtain ⟨⟨name, loop⟩, here, done⟩ := Option.bind_eq_some_iff.mp done
      simp only at done
      split at done
      · exact .inr (.inr (.inr ⟨handler, name, loop, rfl, here, (Option.some.inj done).symm⟩))
      · cases done
  | openFile peer filename mode =>
      obtain rfl := Option.some.inj done
      by_cases accepts : s.started peer = true ∧ s.Accepts peer filename
      · obtain ⟨started, record, found, new⟩ := accepts
        rw [openFile_accepted started found new]
        exact .inr (.inl ⟨_, _, _, record, rfl, found, rfl⟩)
      · rw [openFile_rejected accepts]
        exact .inl (.refl s)
  | readFile peer filedes offset nbyte order => exact .inl (readFile_quiet done)
  | writeFile peer filedes offset nbyte data order => exact .inl (writeFile_quiet done)
  | closeFile peer filedes now =>
      obtain ⟨⟨value, _⟩, closed, rfl⟩ := Option.map_eq_some_iff.mp done
      exact .inl (closeFile_quiet closed)
  | deleteFile peer filename =>
      obtain rfl := Option.some.inj done
      exact .inl (deleteFile_quiet s peer filename)
  | flush peer =>
      obtain ⟨files, flushed, rfl⟩ := Option.map_eq_some_iff.mp done
      exact .inl (.setFiles (ManyFiles.flush_opensNothing flushed))
  | harvest peer =>
      obtain ⟨files, harvested, rfl⟩ := Option.map_eq_some_iff.mp done
      exact .inl (.setFiles (ManyFiles.harvest_opensNothing harvested))

end Deployment

end PFS
