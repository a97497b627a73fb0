import PFS.Manager.MMFile

/-! # The metadata manager

The table of files and the six handlers of `MetadataManagerServiceImpl`, each run
from its first to its last line.  A handler answers with its status, the fields it
sets in the reply and the table it leaves; the times are what `time(0)` returns.

`CloseFile` records what the client reports before it asks whether the client has
the file open, so it is the one handler that can reject a request it has acted on.
-/

namespace PFS

open Lib

variable {Peer : Type} [DecidableEq Peer]

/-- `class MetadataManagerServiceImpl`. -/
structure MetadataManager (Peer : Type) where
  files : Table String (MMFile Peer) := ∅

/-- `FileStatReply`. -/
structure FileStatReply where
  error : Int := 0
  lastModified : Nat := 0
  creationTime : Nat := 0
  fileSize : Nat := 0
  stripWidth : Nat := 0

/-- `PermissionReply`. -/
structure PermissionReply where
  error : Int := 0
  start : Nat := 0
  stop : Nat := 0

namespace MetadataManager

/-- A request to the metadata manager. -/
inductive Request where
  | createFile (name : String) (stripeWidth : Nat)
  | openFile (name : String)
  | closeFile (name : String) (hasModified : Bool) (size : Nat)
  | deleteFile (name : String)
  | getPermission (name : String) (start stop : Nat) (iswrite : Bool)
  | getFileDesc (name : String)

def setFile (m : MetadataManager Peer) (name : String) (file : MMFile Peer) : MetadataManager Peer :=
  { m with files := m.files.insert name file }

omit [DecidableEq Peer] in
@[simp] theorem lookup_setFile (m : MetadataManager Peer) (name : String) (file : MMFile Peer) :
    (m.setFile name file).files.lookup name = some file := AList.lookup_insert _

omit [DecidableEq Peer] in
theorem lookup_setFile_ne (m : MetadataManager Peer) {name other : String} (different : other ≠ name) (file : MMFile Peer) :
    (m.setFile name file).files.lookup other = m.files.lookup other := AList.lookup_insert_ne different

/-- `CreateFile`, without its requests to the file servers. -/
def createFile (m : MetadataManager Peer) (creationTime lastModifiedTime : Nat) (name : String) (stripeWidth : Nat) :
    Status × Int × MetadataManager Peer :=
  match m.files.lookup name with
  | some _ => (.cancelled, errorAlreadyExists, m)
  | none => (.ok, 0, m.setFile name { name, size := 0, creationTime, lastModifiedTime, stripWidth := stripeWidth })

/-- `OpenFile`; the error code of a rejected request is set in a message that is not sent. -/
def openFile (m : MetadataManager Peer) (peer : Peer) (name : String) : Status × FileStatReply × MetadataManager Peer :=
  match m.files.lookup name with
  | none => (.cancelled, {}, m)
  | some file =>
      if (file.open peer).2 then
        (.ok,
          { creationTime := file.creationTime, lastModified := file.lastModifiedTime, fileSize := file.size,
            stripWidth := file.stripWidth },
          m.setFile name (file.open peer).1)
      else (.cancelled, {}, m)

/-- The part of `CloseFile` before it closes the file. -/
def recordClose (now : Nat) (hasModified : Bool) (size : Nat) (file : MMFile Peer) : MMFile Peer :=
  if hasModified then { file with lastModifiedTime := now, size := max size file.size } else file

/-- `CloseFile`. -/
def closeFile (m : MetadataManager Peer) (now : Nat) (peer : Peer) (name : String) (hasModified : Bool) (size : Nat) :
    Status × MetadataManager Peer :=
  match m.files.lookup name with
  | none => (.cancelled, m)
  | some file =>
      let closed := (recordClose now hasModified size file).close peer
      (if closed.2 then .ok else .cancelled, m.setFile name closed.1)

/-- `DeleteFile`. -/
def deleteFile (m : MetadataManager Peer) (name : String) : Status × Int × MetadataManager Peer :=
  match m.files.lookup name with
  | none => (.cancelled, errorDoesNotExist, m)
  | some file =>
      if file.isOpen then (.cancelled, errorDeleteOpenFile, m)
      else (.ok, 0, { m with files := m.files.erase name })

/-- `GetPermission`; `none` where `waitAndGetPermissionFor` finds no list for the peer. -/
def getPermission (m : MetadataManager Peer) (peer : Peer) (name : String) (start stop : Nat) (iswrite : Bool) :
    Option (Status × PermissionReply × MetadataManager Peer) :=
  match m.files.lookup name with
  | none => some (.cancelled, { error := errorDoesNotExist }, m)
  | some file =>
      if file.isOpenedBy peer then
        (file.waitAndGetPermissionFor peer start stop iswrite).map fun granted =>
          (.ok, { start := granted.2.start, stop := granted.2.stop }, m.setFile name granted.1)
      else some (.cancelled, { error := errorGetPermissionUnopenedFile }, m)

/-- `GetFileDesc`. -/
def getFileDesc (m : MetadataManager Peer) (name : String) : Status × FileStatReply :=
  match m.files.lookup name with
  | none => (.cancelled, { error := errorDoesNotExist })
  | some file =>
      (.ok, { creationTime := file.creationTime, lastModified := file.lastModifiedTime, fileSize := file.size })

/-- The status of a request and the table after it; only `CreateFile` asks for
    the time twice. -/
def handle (m : MetadataManager Peer) (now later : Nat) (peer : Peer) :
    Request → Option (Status × MetadataManager Peer)
  | .createFile name stripeWidth =>
      let answer := m.createFile now later name stripeWidth
      some (answer.1, answer.2.2)
  | .openFile name =>
      let answer := m.openFile peer name
      some (answer.1, answer.2.2)
  | .closeFile name hasModified size => some (m.closeFile now peer name hasModified size)
  | .deleteFile name =>
      let answer := m.deleteFile name
      some (answer.1, answer.2.2)
  | .getPermission name start stop iswrite =>
      (m.getPermission peer name start stop iswrite).map fun answer => (answer.1, answer.2.2)
  | .getFileDesc name => some ((m.getFileDesc name).1, m)

/-- The same files with the same records. -/
def Same (m m' : MetadataManager Peer) : Prop := ∀ name, m'.files.lookup name = m.files.lookup name

/-- A close report that changes the record of a file the peer does not have open. -/
def StrayReport (m : MetadataManager Peer) (now : Nat) (peer : Peer) : Request → Prop
  | .closeFile name hasModified size =>
      ∃ file, m.files.lookup name = some file ∧ file.isOpenedBy peer = false ∧ hasModified = true ∧
        (now ≠ file.lastModifiedTime ∨ file.size < size)
  | _ => False

section Rejections

variable {m : MetadataManager Peer} {now later : Nat} {peer : Peer}

omit [DecidableEq Peer] in
theorem same_rfl : m.Same m := fun _ => rfl

omit [DecidableEq Peer] in
theorem setFile_same {name : String} {file : MMFile Peer} (found : m.files.lookup name = some file) :
    m.Same (m.setFile name file) := by
  intro other
  by_cases same : other = name
  · rw [same, lookup_setFile, found]
  · rw [lookup_setFile_ne m same]

omit [DecidableEq Peer] in
theorem createFile_rejects (name : String) (stripeWidth : Nat)
    (rejected : (m.createFile now later name stripeWidth).1 ≠ .ok) :
    m.Same (m.createFile now later name stripeWidth).2.2 := by
  unfold createFile at *
  split
  · exact same_rfl
  · next absent =>
      rw [absent] at rejected
      exact (rejected rfl).elim

theorem openFile_rejects (name : String) (rejected : (m.openFile peer name).1 ≠ .ok) :
    m.Same (m.openFile peer name).2.2 := by
  unfold openFile at *
  split
  · exact same_rfl
  · next file found =>
      rw [found] at rejected
      simp only at rejected
      split
      · next opened =>
          rw [if_pos opened] at rejected
          exact (rejected rfl).elim
      · exact same_rfl

omit [DecidableEq Peer] in
theorem deleteFile_rejects (name : String) (rejected : (m.deleteFile name).1 ≠ .ok) :
    m.Same (m.deleteFile name).2.2 := by
  unfold deleteFile at *
  split
  · exact same_rfl
  · next file found =>
      rw [found] at rejected
      simp only at rejected
      split
      · exact same_rfl
      · next closed =>
          rw [if_neg closed] at rejected
          exact (rejected rfl).elim

/-- `GetPermission` always answers, and changes nothing when it rejects. -/
theorem getPermission_rejects (name : String) (start stop : Nat) (iswrite : Bool) :
    ∃ answer, m.getPermission peer name start stop iswrite = some answer ∧
      (answer.1 ≠ .ok → m.Same answer.2.2) := by
  unfold getPermission
  split
  · exact ⟨_, rfl, fun _ => same_rfl⟩
  · next file found =>
      split
      · next opened =>
          obtain ⟨granted, answered⟩ := MMFile.waitAndGetPermissionFor_answers opened start stop iswrite
          rw [answered]
          exact ⟨_, rfl, fun rejected => (rejected rfl).elim⟩
      · exact ⟨_, rfl, fun _ => same_rfl⟩

theorem recordClose_isOpenedBy (hasModified : Bool) (size : Nat) (file : MMFile Peer) :
    (recordClose now hasModified size file).isOpenedBy peer = file.isOpenedBy peer := by
  cases hasModified <;> rfl

omit [DecidableEq Peer] in
theorem recordClose_eq_iff {hasModified : Bool} {size : Nat} {file : MMFile Peer} :
    recordClose now hasModified size file = file ↔
      (hasModified = true → now = file.lastModifiedTime ∧ size ≤ file.size) := by
  cases hasModified with
  | false => simp [recordClose]
  | true =>
      simp only [recordClose, if_true, true_imp_iff]
      constructor
      · intro same
        have time := congrArg MMFile.lastModifiedTime same
        have length := congrArg MMFile.size same
        simp only at time length
        exact ⟨time, by omega⟩
      · rintro ⟨rfl, small⟩
        rw [Nat.max_eq_right small]

/-- A rejected `CloseFile` has changed the record unless the report says nothing new. -/
theorem closeFile_rejects (name : String) (hasModified : Bool) (size : Nat) :
    ((m.closeFile now peer name hasModified size).1 ≠ .ok → m.Same (m.closeFile now peer name hasModified size).2) ↔
      ¬ m.StrayReport now peer (.closeFile name hasModified size) := by
  cases found : m.files.lookup name with
  | none => simp [closeFile, StrayReport, found, Same]
  | some file =>
      cases opened : file.isOpenedBy peer with
      | true =>
          have ok : (m.closeFile now peer name hasModified size).1 = .ok := by
            simp [closeFile, found, MMFile.close, recordClose_isOpenedBy, opened]
          simp [ok, StrayReport, found, opened]
      | false =>
          have result : m.closeFile now peer name hasModified size =
              (.cancelled, m.setFile name (recordClose now hasModified size file)) := by
            simp [closeFile, found, MMFile.close, recordClose_isOpenedBy, opened]
          have kept : m.Same (m.setFile name (recordClose now hasModified size file)) ↔
              recordClose now hasModified size file = file := by
            constructor
            · intro same
              have here := same name
              rw [lookup_setFile, found] at here
              exact Option.some.inj here
            · intro same
              rw [same]
              exact setFile_same found
          rw [result, kept, recordClose_eq_iff]
          simp only [StrayReport, found, Option.some.injEq, exists_eq_left', opened, true_and, ne_eq, reduceCtorEq,
            not_false_eq_true, true_imp_iff, not_and, not_or, not_not, Nat.not_lt]

/-- Every request is answered, and a rejected one leaves everything as it was
    exactly when it is not a stray report. -/
theorem rejected_same_iff (m : MetadataManager Peer) (now later : Nat) (peer : Peer) (request : Request) :
    (∃ status m', m.handle now later peer request = some (status, m') ∧ (status ≠ .ok → m.Same m')) ↔
      ¬ m.StrayReport now peer request := by
  cases request with
  | createFile name stripeWidth =>
      exact ⟨fun _ => id, fun _ => ⟨_, _, rfl, createFile_rejects name stripeWidth⟩⟩
  | openFile name => exact ⟨fun _ => id, fun _ => ⟨_, _, rfl, openFile_rejects name⟩⟩
  | closeFile name hasModified size =>
      rw [← closeFile_rejects]
      constructor
      · rintro ⟨status, m', answered, same⟩
        rw [Option.some.inj answered]
        exact same
      · intro same
        exact ⟨_, _, rfl, same⟩
  | deleteFile name => exact ⟨fun _ => id, fun _ => ⟨_, _, rfl, deleteFile_rejects name⟩⟩
  | getPermission name start stop iswrite =>
      refine ⟨fun _ => id, fun _ => ?_⟩
      obtain ⟨answer, answered, same⟩ : ∃ answer, m.getPermission peer name start stop iswrite = some answer ∧
          (answer.1 ≠ .ok → m.Same answer.2.2) := getPermission_rejects name start stop iswrite
      exact ⟨answer.1, answer.2.2, by rw [handle, answered]; rfl, same⟩
  | getFileDesc name => exact ⟨fun _ => id, fun _ => ⟨_, _, rfl, fun _ => same_rfl⟩⟩

/-- The manager after a file was created at time 5. -/
def oneFile : MetadataManager Nat := (({} : MetadataManager Nat).createFile 5 5 "f" 1).2.2

/-- Peer 2 does not have the file open; its report is rejected and recorded. -/
theorem stray_report_recorded :
    (oneFile.closeFile 9 2 "f" true 100).1 = .cancelled ∧
      (oneFile.files.lookup "f").map MMFile.size = some 0 ∧
      ((oneFile.closeFile 9 2 "f" true 100).2.files.lookup "f").map MMFile.size = some 100 := by
  decide

end Rejections

end MetadataManager

end PFS
