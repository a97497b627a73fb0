import PFS.Manager.MetadataManager

/-! # Handlers that run at the same time

The handlers of the metadata manager, cut where they release `filesLock` or the
lock of a file.  The table maps names to records, and a handler that has looked its
record up keeps working on that record, whatever happens to the table.  A record is
known by a number that is never used again.

A client makes one call at a time, and it asks for tokens, closes a file or asks for
its size only while it has the file open.
-/

namespace PFS

open Lib

variable {Peer : Type} [DecidableEq Peer]

/-- The handler of a peer's request, between two of its steps. -/
inductive Pending where
  | idle
  /-- `CreateFile`, making the strips. -/
  | creating (name : String)
  /-- `OpenFile`, about to read the record. -/
  | opening (name : String) (record : Nat)
  /-- `GetPermission`, before `waitAndGetPermissionFor`. -/
  | granting (name : String) (record : Nat) (start stop : Nat) (iswrite : Bool)
  /-- `CloseFile`, before it records what the client reports. -/
  | recording (name : String) (record : Nat) (hasModified : Bool) (size : Nat)
  /-- `CloseFile`, before `MMFile::close`. -/
  | closing (name : String) (record : Nat)
  /-- `GetFileDesc`, about to read the record. -/
  | describing (name : String) (record : Nat)
  deriving DecidableEq

/-- The name a handler has looked up and the record it has found. -/
def Pending.found : Pending → Option (String × Nat)
  | idle => none
  | creating _ => none
  | opening name record => some (name, record)
  | granting name record _ _ _ => some (name, record)
  | recording name record _ _ => some (name, record)
  | closing name record => some (name, record)
  | describing name record => some (name, record)

/-- The manager with its handlers; `opened` has the files that a peer has opened
    and not closed since. -/
structure Handlers (Peer : Type) where
  files : String → Option Nat := fun _ => none
  records : Nat → MMFile Peer := fun _ => { name := "", stripWidth := 0 }
  created : Nat := 0
  pending : Peer → Pending := fun _ => .idle
  opened : Peer → String → Bool := fun _ _ => false

namespace Handlers

inductive Event (Peer : Type) where
  | createFile (peer : Peer) (name : String) (stripeWidth creationTime lastModifiedTime : Nat)
  | stripsCreated (peer : Peer)
  | openFile (peer : Peer) (name : String)
  | replyOpen (peer : Peer)
  | getPermission (peer : Peer) (name : String) (start stop : Nat) (iswrite : Bool)
  | grant (peer : Peer)
  | closeFile (peer : Peer) (name : String) (hasModified : Bool) (size : Nat)
  | recordClose (peer : Peer) (now : Nat)
  | finishClose (peer : Peer)
  | deleteFile (peer : Peer) (name : String)
  | getFileDesc (peer : Peer) (name : String)
  | replyDesc (peer : Peer)

def setPending (s : Handlers Peer) (peer : Peer) (pending : Pending) : Handlers Peer :=
  { s with pending := Function.update s.pending peer pending }

def setRecord (s : Handlers Peer) (record : Nat) (file : MMFile Peer) : Handlers Peer :=
  { s with records := Function.update s.records record file }

/-- A new record in the table. -/
def addFile (s : Handlers Peer) (name : String) (file : MMFile Peer) : Handlers Peer :=
  { s with
    files := Function.update s.files name (some s.created)
    records := Function.update s.records s.created file
    created := s.created + 1 }

/-- `CreateFile` up to the release of `filesLock`; a rejected request is answered at once. -/
def createFile (s : Handlers Peer) (peer : Peer) (name : String) (stripeWidth creationTime lastModifiedTime : Nat) :
    Handlers Peer :=
  match s.files name with
  | some _ => s
  | none =>
      (s.addFile name { name, size := 0, creationTime, lastModifiedTime, stripWidth := stripeWidth }).setPending
        peer (.creating name)

/-- `OpenFile` up to the release of `filesLock`. -/
def openFile (s : Handlers Peer) (peer : Peer) (name : String) : Handlers Peer :=
  match s.files name with
  | none => s
  | some record =>
      match (s.records record).open peer with
      | (_, false) => s
      | (file, true) => (s.setRecord record file).setPending peer (.opening name record)

/-- The rest of `OpenFile`, which only reads the record. -/
def replyOpen (s : Handlers Peer) (peer : Peer) : Option (Handlers Peer) :=
  match s.pending peer with
  | .opening name _ =>
      some ({ s with opened := Function.update s.opened peer (Function.update (s.opened peer) name true) }.setPending
        peer .idle)
  | _ => none

/-- `GetPermission` up to the release of `filesLock`. -/
def getPermission (s : Handlers Peer) (peer : Peer) (name : String) (start stop : Nat) (iswrite : Bool) : Handlers Peer :=
  match s.files name with
  | none => s
  | some record =>
      if (s.records record).isOpenedBy peer then s.setPending peer (.granting name record start stop iswrite) else s

/-- `waitAndGetPermissionFor` and the reply; `none` where it has no list for the peer. -/
def grant (s : Handlers Peer) (peer : Peer) : Option (Handlers Peer) :=
  match s.pending peer with
  | .granting _ record start stop iswrite =>
      ((s.records record).waitAndGetPermissionFor peer start stop iswrite).map fun granted =>
        (s.setRecord record granted.1).setPending peer .idle
  | _ => none

/-- `CloseFile` up to the release of `filesLock`. -/
def closeFile (s : Handlers Peer) (peer : Peer) (name : String) (hasModified : Bool) (size : Nat) : Handlers Peer :=
  match s.files name with
  | none => s
  | some record => s.setPending peer (.recording name record hasModified size)

def recordClose (s : Handlers Peer) (peer : Peer) (now : Nat) : Option (Handlers Peer) :=
  match s.pending peer with
  | .recording name record hasModified size =>
      some ((s.setRecord record (MetadataManager.recordClose now hasModified size (s.records record))).setPending peer
        (.closing name record))
  | _ => none

/-- `MMFile::close` and the reply. -/
def finishClose (s : Handlers Peer) (peer : Peer) : Option (Handlers Peer) :=
  match s.pending peer with
  | .closing name record =>
      match (s.records record).close peer with
      | (file, true) =>
          some (({ s with
            opened := Function.update s.opened peer (Function.update (s.opened peer) name false) }.setRecord
              record file).setPending peer .idle)
      | (file, false) => some ((s.setRecord record file).setPending peer .idle)
  | _ => none

/-- `DeleteFile`. -/
def deleteFile (s : Handlers Peer) (name : String) : Status × Handlers Peer :=
  match s.files name with
  | none => (.cancelled, s)
  | some record =>
      if (s.records record).isOpen then (.cancelled, s)
      else (.ok, { s with files := Function.update s.files name none })

/-- `GetFileDesc` up to the release of `filesLock`. -/
def getFileDesc (s : Handlers Peer) (peer : Peer) (name : String) : Handlers Peer :=
  match s.files name with
  | none => s
  | some record => s.setPending peer (.describing name record)

/-- The rest of `GetFileDesc`, which only reads the record. -/
def replyDesc (s : Handlers Peer) (peer : Peer) : Option (Handlers Peer) :=
  match s.pending peer with
  | .describing _ _ => some (s.setPending peer .idle)
  | _ => none

def stripsCreated (s : Handlers Peer) (peer : Peer) : Option (Handlers Peer) :=
  match s.pending peer with
  | .creating _ => some (s.setPending peer .idle)
  | _ => none

def exec (s : Handlers Peer) : Event Peer → Option (Handlers Peer)
  | .createFile peer name stripeWidth creationTime lastModifiedTime =>
      some (s.createFile peer name stripeWidth creationTime lastModifiedTime)
  | .stripsCreated peer => s.stripsCreated peer
  | .openFile peer name => some (s.openFile peer name)
  | .replyOpen peer => s.replyOpen peer
  | .getPermission peer name start stop iswrite => some (s.getPermission peer name start stop iswrite)
  | .grant peer => s.grant peer
  | .closeFile peer name hasModified size => some (s.closeFile peer name hasModified size)
  | .recordClose peer now => s.recordClose peer now
  | .finishClose peer => s.finishClose peer
  | .deleteFile _ name => some (s.deleteFile name).2
  | .getFileDesc peer name => some (s.getFileDesc peer name)
  | .replyDesc peer => s.replyDesc peer

/-- A peer has one request at a time, and some requests are only for files it has open. -/
def allowed (s : Handlers Peer) : Event Peer → Prop
  | .createFile peer _ _ _ _ => s.pending peer = .idle
  | .openFile peer _ => s.pending peer = .idle
  | .deleteFile peer _ => s.pending peer = .idle
  | .getPermission peer name _ _ _ => s.pending peer = .idle ∧ s.opened peer name = true
  | .closeFile peer name _ _ => s.pending peer = .idle ∧ s.opened peer name = true
  | .getFileDesc peer name => s.pending peer = .idle ∧ s.opened peer name = true
  | _ => True

def machine : Machine (Handlers Peer) (Event Peer) := ⟨allowed, exec⟩

instance (s : Handlers Peer) : (event : Event Peer) → Decidable (machine.allowed s event)
  | .createFile peer _ _ _ _ | .openFile peer _ | .deleteFile peer _ =>
      inferInstanceAs (Decidable (s.pending peer = .idle))
  | .getPermission peer name _ _ _ | .closeFile peer name _ _ | .getFileDesc peer name =>
      inferInstanceAs (Decidable (s.pending peer = .idle ∧ s.opened peer name = true))
  | .stripsCreated _ | .replyOpen _ | .grant _ | .recordClose _ _ | .finishClose _ | .replyDesc _ => isTrue trivial

/-- The manager has just been started. -/
def Initial (s : Handlers Peer) : Prop :=
  s.files = (fun _ => none) ∧ (∀ peer, s.pending peer = .idle) ∧ ∀ peer name, s.opened peer name = false

/-! ## The invariant -/

/-- The table has the file, under this record, and the peer has it open. -/
def Holds (s : Handlers Peer) (peer : Peer) (name : String) (record : Nat) : Prop :=
  s.files name = some record ∧ (s.records record).isOpenedBy peer = true

/-- A file that a peer has open, or that one of its handlers works on, is in the
    table and has a list for the peer. -/
structure Inv (s : Handlers Peer) : Prop where
  opened : ∀ peer name, s.opened peer name = true → ∃ record, s.Holds peer name record
  pending : ∀ peer name record, (s.pending peer).found = some (name, record) → s.Holds peer name record
  fresh : ∀ name record, s.files name = some record → record < s.created
  distinct : ∀ name other record, s.files name = some record → s.files other = some record → name = other

section Steps

variable {s s' : Handlers Peer} {peer : Peer}

theorem Inv.setPending (h : s.Inv) {pending : Pending}
    (own : ∀ name record, pending.found = some (name, record) → s.Holds peer name record) :
    (s.setPending peer pending).Inv where
  opened := h.opened
  pending q name record found := by
    by_cases same : q = peer
    · subst same
      simp only [Handlers.setPending, Function.update_self] at found
      exact own name record found
    · simp only [Handlers.setPending, Function.update_of_ne same] at found
      exact h.pending q name record found
  fresh := h.fresh
  distinct := h.distinct

theorem Inv.setIdle (h : s.Inv) : (s.setPending peer .idle).Inv := h.setPending (fun _ _ found => by cases found)

theorem Holds.setRecord {q : Peer} {name : String} {record changed : Nat} {file : MMFile Peer}
    (h : s.Holds q name record)
    (keep : record = changed → (s.records changed).isOpenedBy q = true → file.isOpenedBy q = true) :
    (s.setRecord changed file).Holds q name record := by
  refine ⟨h.1, ?_⟩
  by_cases same : record = changed
  · subst same
    simp only [Handlers.setRecord, Function.update_self]
    exact keep rfl h.2
  · simp only [Handlers.setRecord, Function.update_of_ne same]
    exact h.2

/-- A record changes that stays open for all it was open for. -/
theorem Inv.setRecord (h : s.Inv) {record : Nat} {file : MMFile Peer}
    (keep : ∀ q, (s.records record).isOpenedBy q = true → file.isOpenedBy q = true) :
    (s.setRecord record file).Inv where
  opened q name is := by
    obtain ⟨found, holds⟩ := h.opened q name is
    exact ⟨found, holds.setRecord (fun _ => keep q)⟩
  pending q name found is := (h.pending q name found is).setRecord (fun _ => keep q)
  fresh := h.fresh
  distinct := h.distinct

/-- A file comes into the table under a name that is free. -/
theorem Inv.addFile (h : s.Inv) {name : String} (absent : s.files name = none) (file : MMFile Peer) :
    (s.addFile name file).Inv := by
  have kept : ∀ {q other record}, s.Holds q other record → (s.addFile name file).Holds q other record := by
    intro q other record holds
    have different : other ≠ name := by
      rintro rfl
      rw [holds.1] at absent
      cases absent
    have old : record ≠ s.created := Nat.ne_of_lt (h.fresh other record holds.1)
    simp only [Holds, Handlers.addFile, Function.update_of_ne different, Function.update_of_ne old]
    exact holds
  have origin : ∀ {other record}, (s.addFile name file).files other = some record →
      (other = name ∧ record = s.created) ∨ (s.files other = some record ∧ record < s.created) := by
    intro other record found
    by_cases same : other = name
    · subst same
      simp only [Handlers.addFile, Function.update_self, Option.some.injEq] at found
      exact .inl ⟨rfl, found.symm⟩
    · simp only [Handlers.addFile, Function.update_of_ne same] at found
      exact .inr ⟨found, h.fresh other record found⟩
  refine ⟨fun q other is => ?_, fun q other record is => kept (h.pending q other record is), ?_, ?_⟩
  · obtain ⟨record, holds⟩ := h.opened q other is
    exact ⟨record, kept holds⟩
  · intro other record found
    simp only [Handlers.addFile]
    rcases origin found with ⟨-, rfl⟩ | ⟨-, old⟩
    · omega
    · omega
  · intro one other record found found'
    rcases origin found with ⟨rfl, rfl⟩ | ⟨was, old⟩
    · rcases origin found' with ⟨rfl, -⟩ | ⟨-, old⟩
      · rfl
      · omega
    · rcases origin found' with ⟨-, rfl⟩ | ⟨was', -⟩
      · omega
      · exact h.distinct one other record was was'

theorem createFile_inv (h : s.Inv) (name : String) (stripeWidth creationTime lastModifiedTime : Nat) :
    (s.createFile peer name stripeWidth creationTime lastModifiedTime).Inv := by
  unfold createFile
  split
  · exact h
  · next absent => exact (h.addFile absent _).setPending (fun _ _ found => by cases found)

theorem openFile_inv (h : s.Inv) (name : String) : (s.openFile peer name).Inv := by
  unfold openFile
  split
  · exact h
  · next record found =>
      split
      · exact h
      · next file result =>
          have opens : ∀ q, file.isOpenedBy q = ((s.records record).isOpenedBy q || decide (q = peer)) := by
            intro q
            rw [← MMFile.isOpenedBy_open, result]
          refine (h.setRecord (fun q was => by rw [opens q, was, Bool.true_or])).setPending ?_
          intro name' record' here
          obtain ⟨rfl, rfl⟩ := Prod.mk.inj (Option.some.inj here)
          refine ⟨found, ?_⟩
          simp [Handlers.setRecord, opens]

theorem replyOpen_inv (h : s.Inv) (done : s.replyOpen peer = some s') : s'.Inv := by
  unfold replyOpen at done
  split at done
  · next name record handler =>
      obtain rfl := Option.some.inj done
      apply Inv.setIdle
      have own : s.Holds peer name record := h.pending peer name record (by rw [handler]; rfl)
      refine ⟨fun q other is => ?_, h.pending, h.fresh, h.distinct⟩
      by_cases same : q = peer
      · subst same
        by_cases here : other = name
        · subst here
          exact ⟨record, own⟩
        · simp only [Function.update_self, Function.update_of_ne here] at is
          exact h.opened q other is
      · simp only [Function.update_of_ne same] at is
        exact h.opened q other is
  · cases done

theorem getPermission_inv (h : s.Inv) (name : String) (start stop : Nat) (iswrite : Bool) :
    (s.getPermission peer name start stop iswrite).Inv := by
  unfold getPermission
  split
  · exact h
  · next record found =>
      split
      · next opened =>
          apply h.setPending
          intro name' record' here
          obtain ⟨rfl, rfl⟩ := Prod.mk.inj (Option.some.inj here)
          exact ⟨found, opened⟩
      · exact h

theorem grant_inv (h : s.Inv) (done : s.grant peer = some s') : s'.Inv := by
  unfold grant at done
  split at done
  · next name record start stop iswrite handler =>
      obtain ⟨⟨file, granted⟩, asked, rfl⟩ := Option.map_eq_some_iff.mp done
      obtain ⟨-, -, -, -, opened⟩ := MMFile.waitAndGetPermissionFor_spec asked
      exact (h.setRecord (fun q was => by rw [opened q, was])).setIdle
  · cases done

/-- The lookups of `CloseFile` and `GetFileDesc`, by a peer that has the file open. -/
theorem Inv.found_opened (h : s.Inv) {name : String} {record : Nat} (opened : s.opened peer name = true)
    (found : s.files name = some record) : s.Holds peer name record := by
  obtain ⟨record', holds⟩ := h.opened peer name opened
  have same := holds.1
  rw [found] at same
  obtain rfl := Option.some.inj same
  exact holds

theorem closeFile_inv (h : s.Inv) {name : String} (opened : s.opened peer name = true) (hasModified : Bool)
    (size : Nat) : (s.closeFile peer name hasModified size).Inv := by
  unfold closeFile
  split
  · exact h
  · next record found =>
      apply h.setPending
      intro name' record' here
      obtain ⟨rfl, rfl⟩ := Prod.mk.inj (Option.some.inj here)
      exact h.found_opened opened found

theorem recordClose_inv (h : s.Inv) {now : Nat} (done : s.recordClose peer now = some s') : s'.Inv := by
  unfold recordClose at done
  split at done
  · next name record hasModified size handler =>
      obtain rfl := Option.some.inj done
      have own : s.Holds peer name record := h.pending peer name record (by rw [handler]; rfl)
      have keep : ∀ q, (s.records record).isOpenedBy q = true →
          (MetadataManager.recordClose now hasModified size (s.records record)).isOpenedBy q = true := by
        intro q was
        rw [MetadataManager.recordClose_isOpenedBy, was]
      apply (h.setRecord keep).setPending
      intro name' record' here
      obtain ⟨rfl, rfl⟩ := Prod.mk.inj (Option.some.inj here)
      exact own.setRecord (fun _ => keep peer)
  · cases done

/-- The peer that closes a file gives up that file and no other. -/
theorem finishClose_inv (h : s.Inv) (done : s.finishClose peer = some s') : s'.Inv := by
  unfold finishClose at done
  split at done
  · next name record handler =>
      have own : s.Holds peer name record := h.pending peer name record (by rw [handler]; rfl)
      have closes : (s.records record).close peer = ({ s.records record with
          clientPermissions := (s.records record).clientPermissions.erase peer }, true) := by
        rw [MMFile.close, if_pos own.2]
      have stays : ∀ q, ((s.records record).close peer).1.isOpenedBy q =
          ((s.records record).isOpenedBy q && !decide (q = peer)) := MMFile.isOpenedBy_close _ peer
      rw [closes] at done stays
      obtain rfl := Option.some.inj done
      have keep : ∀ {q other found}, s.Holds q other found → (q = peer → other ≠ name) →
          (s.setRecord record { s.records record with
            clientPermissions := (s.records record).clientPermissions.erase peer }).Holds q other found := by
        intro q other found holds apart
        apply holds.setRecord
        intro same was
        subst same
        rw [stays q, was, Bool.true_and, Bool.not_eq_true', decide_eq_false_iff_not]
        intro here
        exact apart here (h.distinct other name found holds.1 own.1)
      refine ⟨fun q other is => ?_, fun q other found is => ?_, h.fresh, h.distinct⟩
      · by_cases same : q = peer
        · subst same
          by_cases here : other = name
          · subst here
            simp [Handlers.setPending, Handlers.setRecord] at is
          · simp only [Handlers.setPending, Handlers.setRecord, Function.update_self, Function.update_of_ne here] at is
            obtain ⟨found, holds⟩ := h.opened q other is
            exact ⟨found, keep holds (fun _ => here)⟩
        · simp only [Handlers.setPending, Handlers.setRecord, Function.update_of_ne same] at is
          obtain ⟨found, holds⟩ := h.opened q other is
          exact ⟨found, keep holds (fun here => (same here).elim)⟩
      · by_cases same : q = peer
        · subst same
          simp only [Handlers.setPending, Function.update_self, Pending.found] at is
          cases is
        · simp only [Handlers.setPending, Handlers.setRecord, Function.update_of_ne same] at is
          exact keep (h.pending q other found is) (fun here => (same here).elim)
  · cases done

/-- What `DeleteFile` removes nobody has open. -/
theorem deleteFile_unopened {name : String} {record : Nat} (found : s.files name = some record)
    (deleted : (s.deleteFile name).1 = .ok) (q : Peer) : (s.records record).isOpenedBy q = false := by
  unfold deleteFile at deleted
  rw [found] at deleted
  simp only at deleted
  split at deleted
  · cases deleted
  · next closed =>
      by_contra opened
      exact closed (MMFile.isOpen_of_isOpenedBy (by simpa using opened))

theorem deleteFile_inv (h : s.Inv) (name : String) : (s.deleteFile name).2.Inv := by
  cases found : s.files name with
  | none =>
      rw [deleteFile, found]
      exact h
  | some record =>
      by_cases deleted : (s.deleteFile name).1 = .ok
      · have nobody := deleteFile_unopened found deleted
        have result : (s.deleteFile name).2 = { s with files := Function.update s.files name none } := by
          unfold deleteFile at deleted ⊢
          rw [found] at deleted ⊢
          simp only at deleted ⊢
          split at deleted
          · cases deleted
          · next closed => rw [if_neg closed]
        rw [result]
        have kept : ∀ {q other record'}, s.Holds q other record' →
            Function.update s.files name none other = some record' ∧ (s.records record').isOpenedBy q = true := by
          intro q other record' holds
          have different : other ≠ name := by
            rintro rfl
            have same := holds.1
            rw [found] at same
            obtain rfl := Option.some.inj same
            have opened := holds.2
            rw [nobody q] at opened
            cases opened
          rw [Function.update_of_ne different]
          exact holds
        have origin : ∀ {other record'}, Function.update s.files name none other = some record' →
            s.files other = some record' := by
          intro other record' there
          by_cases same : other = name
          · subst same
            rw [Function.update_self] at there
            cases there
          · rwa [Function.update_of_ne same] at there
        refine ⟨fun q other is => ?_, fun q other record' is => kept (h.pending q other record' is), ?_, ?_⟩
        · obtain ⟨record', holds⟩ := h.opened q other is
          exact ⟨record', kept holds⟩
        · exact fun other record' there => h.fresh other record' (origin there)
        · exact fun one other record' here there => h.distinct one other record' (origin here) (origin there)
      · have same : (s.deleteFile name).2 = s := by
          unfold deleteFile at deleted ⊢
          rw [found] at deleted ⊢
          simp only at deleted ⊢
          split at deleted
          · next isOpen => rw [if_pos isOpen]
          · exact (deleted rfl).elim
        rw [same]
        exact h

theorem getFileDesc_inv (h : s.Inv) {name : String} (opened : s.opened peer name = true) :
    (s.getFileDesc peer name).Inv := by
  unfold getFileDesc
  split
  · exact h
  · next record found =>
      apply h.setPending
      intro name' record' here
      obtain ⟨rfl, rfl⟩ := Prod.mk.inj (Option.some.inj here)
      exact h.found_opened opened found

theorem step_inv (h : s.Inv) (step : machine.Step s s') : s'.Inv := by
  obtain ⟨event, allowed, done⟩ := step
  cases event with
  | createFile peer name stripeWidth creationTime lastModifiedTime =>
      obtain rfl := Option.some.inj done
      exact createFile_inv h name stripeWidth creationTime lastModifiedTime
  | stripsCreated peer =>
      simp only [machine, exec, stripsCreated] at done
      split at done
      · obtain rfl := Option.some.inj done
        exact h.setIdle
      · cases done
  | openFile peer name =>
      obtain rfl := Option.some.inj done
      exact openFile_inv h name
  | replyOpen peer => exact replyOpen_inv h done
  | getPermission peer name start stop iswrite =>
      obtain rfl := Option.some.inj done
      exact getPermission_inv h name start stop iswrite
  | grant peer => exact grant_inv h done
  | closeFile peer name hasModified size =>
      obtain rfl := Option.some.inj done
      exact closeFile_inv h allowed.2 hasModified size
  | recordClose peer now => exact recordClose_inv h done
  | finishClose peer => exact finishClose_inv h done
  | deleteFile peer name =>
      obtain rfl := Option.some.inj done
      exact deleteFile_inv h name
  | getFileDesc peer name =>
      obtain rfl := Option.some.inj done
      exact getFileDesc_inv h allowed.2
  | replyDesc peer =>
      simp only [machine, exec, replyDesc] at done
      split at done
      · obtain rfl := Option.some.inj done
        exact h.setIdle
      · cases done

theorem initial_inv (h : s.Initial) : s.Inv := by
  obtain ⟨files, pending, opened⟩ := h
  refine ⟨fun q name is => ?_, fun q name record is => ?_, fun name record is => ?_, fun name other record is => ?_⟩
  · rw [opened q name] at is
    cases is
  · rw [pending q] at is
    cases is
  · rw [files] at is
    cases is
  · rw [files] at is
    cases is

end Steps

/-- Whatever the other handlers do, a handler finds its record in the table under
    the name it looked up, a grant finds a list for its peer, and what `DeleteFile`
    removes nobody has open. -/
theorem reachable_records {s : Handlers Peer} (reach : Reachable Initial machine.Step s) :
    (∀ peer name record, (s.pending peer).found = some (name, record) → s.files name = some record) ∧
      (∀ peer name record start stop iswrite, s.pending peer = .granting name record start stop iswrite →
        (∃ l, (s.records record).clientPermissions.lookup peer = some l) ∧ ∃ s', s.grant peer = some s') ∧
      ∀ name record, s.files name = some record → (s.deleteFile name).1 = .ok →
        ∀ peer, (s.records record).isOpenedBy peer = false ∧ s.opened peer name = false := by
  have inv : s.Inv := reach.invariant Inv (fun _ => initial_inv) (fun _ _ h => step_inv h)
  refine ⟨fun peer name record found => (inv.pending peer name record found).1, ?_, ?_⟩
  · intro peer name record start stop iswrite handler
    have own := (inv.pending peer name record (by rw [handler]; rfl)).2
    obtain ⟨granted, asked⟩ := MMFile.waitAndGetPermissionFor_answers own start stop iswrite
    refine ⟨Option.isSome_iff_exists.mp own, (s.setRecord record granted.1).setPending peer .idle, ?_⟩
    rw [grant, handler]
    simp only [asked, Option.map_some]
  · intro name record found deleted peer
    have nobody := deleteFile_unopened found deleted peer
    refine ⟨nobody, ?_⟩
    by_contra opened
    have holds := inv.found_opened (by simpa using opened) found
    rw [holds.2] at nobody
    cases nobody

/-- Client 1 waits for a token while client 2 closes the file and client 3 wants to delete it. -/
def beforeGrant : Option (Handlers Nat) :=
  machine.run {} [.createFile 1 "f" 1 5 5, .stripsCreated 1, .openFile 1 "f", .openFile 2 "f", .replyOpen 2,
    .replyOpen 1, .getPermission 1 "f" 0 10 true, .closeFile 2 "f" true 7, .recordClose 2 9, .deleteFile 3 "f",
    .finishClose 2, .deleteFile 3 "f"]

theorem reachable_records_beforeGrant :
    ((beforeGrant.get rfl).pending 1 = .granting "f" 0 0 10 true ∧ (beforeGrant.get rfl).files "f" = some 0) ∧
      ∃ s', (beforeGrant.get rfl).grant 1 = some s' := by
  have reach : Reachable Initial machine.Step (beforeGrant.get rfl) :=
    machine.run_reachable (Reachable.init ⟨rfl, fun _ => rfl, fun _ _ => rfl⟩) (Option.some_get _).symm
  obtain ⟨present, grants, -⟩ := reachable_records reach
  exact ⟨⟨rfl, present 1 "f" 0 rfl⟩, (grants 1 "f" 0 0 10 true rfl).2⟩

end Handlers

end PFS
