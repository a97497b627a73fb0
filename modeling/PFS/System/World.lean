import PFS.Client.PFSClient
import PFS.Manager.MMFile

/-! # One file and its clients

The metadata manager's record of one file, any number of clients and the bytes
of the file on the file servers.  Calls run to completion one after the other:
the RPCs a call makes, the revocations they cause at other clients and the
flushes of these are part of it.  The revocations of one request run in threads
of their own, so a call comes with the order in which they happen.  Between
calls, the flusher and the harvester of any client may run.
-/

namespace PFS

open Lib

variable {Peer : Type} [DecidableEq Peer]

structure World (Peer : Type) where
  manager : MMFile Peer
  clients : Peer → PFSClient := fun _ => {}
  bytes : FileBytes := fun _ => 0

namespace World

def setClient (w : World Peer) (peer : Peer) (c : PFSClient) : World Peer :=
  { w with clients := Function.update w.clients peer c }

@[simp] theorem setClient_self (w : World Peer) (peer : Peer) (c : PFSClient) :
    (w.setClient peer c).clients peer = c := by
  simp only [setClient, Function.update_self]

theorem setClient_other (w : World Peer) {peer q : Peer} (c : PFSClient) (other : q ≠ peer) :
    (w.setClient peer c).clients q = w.clients q := by
  simp only [setClient, Function.update_of_ne other]

/-- `openFile`: the descriptor, if the manager lets the client open the file. -/
def openFile (w : World Peer) (peer : Peer) : World Peer × Option Nat :=
  match w.manager.open peer with
  | (_, false) => (w, none)
  | (manager, true) =>
      let c := w.clients peer
      let file : ClientFile :=
        { descriptor := c.descriptorCount + 1
          name := w.manager.name
          creationTime := w.manager.creationTime
          lastModifiedTime := w.manager.lastModifiedTime
          size := w.manager.size
          stripWidth := w.manager.stripWidth }
      (setClient { w with manager := manager } peer
        { c with openedFiles := c.openedFiles ++ [file], descriptorCount := c.descriptorCount + 1 },
      some file.descriptor)

/-- The `RevokePermission` requests of the manager, served one after the other. -/
def revokeAll (start stop : Nat) : List Peer → World Peer → Option (World Peer)
  | [], w => some w
  | peer :: rest, w => do
      let (c, bytes) ← (w.clients peer).revokePermission w.bytes w.manager.name start stop
      revokeAll start stop rest (setClient { w with bytes := bytes } peer c)

/-- `GetPermission`: the granted range. -/
def getPermission (w : World Peer) (peer : Peer) (start stop : Nat) (iswrite : Bool) (order : List Peer) :
    Option (World Peer × Option (Nat × Nat)) :=
  if w.manager.isOpenedBy peer then do
    let (manager, grant) ← w.manager.waitAndGetPermissionFor peer start stop iswrite
    if order.Perm grant.revoked then
      let w ← revokeAll start stop order { w with manager := manager }
      some (w, some (grant.start, grant.stop))
    else none
  else some (w, none)

/-- `acquirePermission`: the index of the file. -/
def acquirePermission (w : World Peer) (peer : Peer) (filedes start stop : Nat) (write : Bool) (order : List Peer) :
    Option (World Peer × Option Nat) :=
  match (w.clients peer).foundAt filedes with
  | none => some (w, none)
  | some i => do
      let file ← (w.clients peer).openedFiles[i]?
      if hasPermission start stop write file.permissions then some (w, some i)
      else do
        let (w, reply) ← w.getPermission peer start stop write order
        match reply with
        | none => some (w, none)
        | some (grantStart, grantStop) => do
            let file ← (w.clients peer).openedFiles[i]?
            let permissions ← addPermission grantStart grantStop write file.permissions true
            some (w.setClient peer ((w.clients peer).setFile i { file with permissions := permissions }), some i)

/-- `readFile`: the bytes it returns. -/
def readFile (w : World Peer) (peer : Peer) (filedes offset nbyte : Nat) (order : List Peer) :
    Option (World Peer × Option (Nat → UInt8)) := do
  let (w, acquired) ← w.acquirePermission peer filedes offset (offset + nbyte) false order
  match acquired with
  | none => some (w, none)
  | some i => do
      let (c, buffer) ← (w.clients peer).readBytes w.bytes i filedes offset nbyte
      some (w.setClient peer c, some (fun k => buffer (offset + k)))

/-- `writeFile`; the result says whether it wrote. -/
def writeFile (w : World Peer) (peer : Peer) (filedes offset nbyte : Nat) (data : Nat → UInt8) (order : List Peer) :
    Option (World Peer × Bool) := do
  let (w, acquired) ← w.acquirePermission peer filedes offset (offset + nbyte) true order
  match acquired with
  | none => some (w, false)
  | some i => do
      let c ← (w.clients peer).writeBytes w.bytes i filedes offset nbyte data
      some (w.setClient peer c, true)

/-- The evictions of `closeFile`: the blocks of every token. -/
def evictTokens (c : PFSClient) (filedes : Nat) : List Permission → Cache → FileBytes → Option (Cache × FileBytes)
  | [], cache, bytes => some (cache, bytes)
  | p :: rest, cache, bytes => do
      let (cache, bytes) ← c.evictBlocks filedes (blocksFrom p.start p.stop) cache bytes
      evictTokens c filedes rest cache bytes

/-- `closeFile`.  The index of the file is kept in a `bool`, so it is 0 or 1,
    and 1 also when there is no such file. -/
def closeFile (w : World Peer) (peer : Peer) (filedes now : Nat) : Option (World Peer) := do
  let c := w.clients peer
  let foundAt := if c.foundAt filedes = some 0 then 0 else 1
  let file ← c.openedFiles[foundAt]?
  let (cache, bytes) ← evictTokens c file.descriptor file.permissions c.cache w.bytes
  let c := { c with cache := cache }
  let manager :=
    if file.hasModified then
      { w.manager with lastModifiedTime := now, size := max file.size w.manager.size }
    else w.manager
  match manager.close peer with
  | (manager, true) =>
      some (setClient { w with manager := manager, bytes := bytes } peer
        { c with openedFiles := c.openedFiles.eraseIdx foundAt })
  | (manager, false) => some (setClient { w with manager := manager, bytes := bytes } peer c)

/-- An iteration of a client's flusher. -/
def flush (w : World Peer) (peer : Peer) : Option (World Peer) := do
  let c := w.clients peer
  let (cache, block) := c.cache.flushIteration
  let bytes ← c.flushed w.bytes block
  some (setClient { w with bytes := bytes } peer { c with cache := cache })

/-- An iteration of a client's harvester. -/
def harvest (w : World Peer) (peer : Peer) : Option (World Peer) := do
  let c := w.clients peer
  let (cache, block) ← c.cache.harvestIteration
  let bytes ← c.flushed w.bytes block
  some (setClient { w with bytes := bytes } peer { c with cache := cache })

/-- A step of the system. -/
inductive Call (Peer : Type) where
  | openFile (peer : Peer)
  | readFile (peer : Peer) (filedes offset nbyte : Nat) (order : List Peer)
  | writeFile (peer : Peer) (filedes offset nbyte : Nat) (data : Nat → UInt8) (order : List Peer)
  | closeFile (peer : Peer) (filedes now : Nat)
  | flush (peer : Peer)
  | harvest (peer : Peer)

/-- The ranges of reads and writes. -/
def allowed (_ : World Peer) : Call Peer → Prop
  | .readFile _ _ offset nbyte _ | .writeFile _ _ offset nbyte _ _ => 1 ≤ nbyte ∧ offset + nbyte ≤ intMax
  | _ => True

def exec (w : World Peer) : Call Peer → Option (World Peer)
  | .openFile peer => some (w.openFile peer).1
  | .readFile peer filedes offset nbyte order => (w.readFile peer filedes offset nbyte order).map Prod.fst
  | .writeFile peer filedes offset nbyte data order =>
      (w.writeFile peer filedes offset nbyte data order).map Prod.fst
  | .closeFile peer filedes now => w.closeFile peer filedes now
  | .flush peer => w.flush peer
  | .harvest peer => w.harvest peer

def machine : Machine (World Peer) (Call Peer) := ⟨allowed, exec⟩

instance (w : World Peer) : (call : Call Peer) → Decidable (machine.allowed w call)
  | .readFile _ _ _ _ _ => inferInstanceAs (Decidable (_ ∧ _))
  | .writeFile _ _ _ _ _ _ => inferInstanceAs (Decidable (_ ∧ _))
  | .openFile _ | .closeFile _ _ _ | .flush _ | .harvest _ => isTrue trivial

/-- A file that has just been created; no client has opened a file yet. -/
def Initial (w : World Peer) : Prop := w.manager.clientPermissions = ∅ ∧ ∀ peer, w.clients peer = {}

end World

end PFS
