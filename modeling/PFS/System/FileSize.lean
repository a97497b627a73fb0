import PFS.Client.PFSClient
import PFS.Manager.MetadataManager

/-! # The size of a file

Every client keeps the size of its session: what it saw when it opened the file,
raised by its own writes.  When it closes the file, the handler of `CloseFile` reads
the manager's size, stores the larger of the two and then closes the file; it holds
no lock between the read and the store, so the steps of handlers interleave.  A
handler that stores less than another has stored since its read loses that size.
-/

namespace PFS

open Lib

variable {Peer : Type} [DecidableEq Peer]

/-- Where a client is with the file.  `ends` has the ends of the writes of its
    session; the program does not know it. -/
inductive Seat where
  | closed
  | opened (file : ClientFile) (ends : List Nat)
  /-- `CloseFile` has found the record of the file. -/
  | closing (file : ClientFile) (ends : List Nat)
  /-- `CloseFile` has read the size. -/
  | read (file : ClientFile) (ends : List Nat) (seen : Nat)
  /-- `CloseFile` is done with the size. -/
  | stored (file : ClientFile) (ends : List Nat)

namespace Seat

/-- A `CloseFile` of the client is running. -/
def isClosing : Seat → Bool
  | closing .. | read .. | stored .. => true
  | closed | opened .. => false

end Seat

/-- The manager's record of a file and the clients that use it; `closedEnds` has
    the ends of all writes of sessions that have been closed. -/
structure FileSize (Peer : Type) where
  file : MMFile Peer
  seats : Peer → Seat := fun _ => .closed
  closedEnds : List Nat := []

namespace FileSize

inductive Event (Peer : Type) where
  | openFile (peer : Peer) (descriptor : Nat)
  | writeFile (peer : Peer) (offset nbyte : Nat)
  | closeFile (peer : Peer)
  | readSize (peer : Peer) (now : Nat)
  | storeSize (peer : Peer)
  | finishClose (peer : Peer)

def setSeat (s : FileSize Peer) (peer : Peer) (seat : Seat) : FileSize Peer :=
  { s with seats := Function.update s.seats peer seat }

/-- `openFile`, with the size from the reply. -/
def openFile (s : FileSize Peer) (peer : Peer) (descriptor : Nat) : Option (FileSize Peer) :=
  match s.seats peer, s.file.open peer with
  | .closed, (file, true) =>
      some (setSeat { s with file := file } peer (.opened
        { descriptor := descriptor
          name := s.file.name
          creationTime := s.file.creationTime
          lastModifiedTime := s.file.lastModifiedTime
          size := s.file.size
          stripWidth := s.file.stripWidth } []))
  | _, _ => none

/-- What a successful `writeFile` does to the size of the session. -/
def writeFile (s : FileSize Peer) (peer : Peer) (offset nbyte : Nat) : Option (FileSize Peer) :=
  match s.seats peer with
  | .opened file ends =>
      some (s.setSeat peer (.opened
        { file with hasModified := true, size := max file.size ((offset + nbyte) % uint32Size) }
        ((offset + nbyte) :: ends)))
  | _ => none

/-- `closeFile` sends its request. -/
def closeFile (s : FileSize Peer) (peer : Peer) : Option (FileSize Peer) :=
  match s.seats peer with
  | .opened file ends => some (s.setSeat peer (.closing file ends))
  | _ => none

/-- `file->setLastModifiedTime(time(0))` and the call of `file->getSize()`, when the
    client reports that it has modified the file. -/
def readSize (s : FileSize Peer) (peer : Peer) (now : Nat) : Option (FileSize Peer) :=
  match s.seats peer with
  | .closing file ends =>
      if file.hasModified then
        some (setSeat { s with file := { s.file with lastModifiedTime := now } } peer (.read file ends s.file.size))
      else some (s.setSeat peer (.stored file ends))
  | _ => none

/-- `file->setSize`. -/
def storeSize (s : FileSize Peer) (peer : Peer) : Option (FileSize Peer) :=
  match s.seats peer with
  | .read file ends seen =>
      some (setSeat { s with file := { s.file with size := max file.size seen } } peer (.stored file ends))
  | _ => none

/-- `file->close` and the reply; a client whose request is rejected keeps the file. -/
def finishClose (s : FileSize Peer) (peer : Peer) : Option (FileSize Peer) :=
  match s.seats peer with
  | .stored file ends =>
      match s.file.close peer with
      | (record, true) => some (setSeat { s with file := record, closedEnds := ends ++ s.closedEnds } peer .closed)
      | (record, false) => some (setSeat { s with file := record } peer (.opened file ends))
  | _ => none

def exec (s : FileSize Peer) : Event Peer → Option (FileSize Peer)
  | .openFile peer descriptor => s.openFile peer descriptor
  | .writeFile peer offset nbyte => s.writeFile peer offset nbyte
  | .closeFile peer => s.closeFile peer
  | .readSize peer now => s.readSize peer now
  | .storeSize peer => s.storeSize peer
  | .finishClose peer => s.finishClose peer

def allowed (_ : FileSize Peer) : Event Peer → Prop
  | .writeFile _ offset nbyte => offset + nbyte < uint32Size
  | _ => True

def machine : Machine (FileSize Peer) (Event Peer) := ⟨allowed, exec⟩

instance (s : FileSize Peer) : (event : Event Peer) → Decidable (machine.allowed s event)
  | .writeFile _ _ _ => inferInstanceAs (Decidable (_ < _))
  | .openFile _ _ | .closeFile _ | .readSize _ _ | .storeSize _ | .finishClose _ => isTrue trivial

/-- The file has just been created. -/
def Initial (s : FileSize Peer) : Prop :=
  s.file.size = 0 ∧ s.file.clientPermissions = ∅ ∧ (∀ peer, s.seats peer = .closed) ∧ s.closedEnds = []

/-- No `CloseFile` is running. -/
def Quiescent (s : FileSize Peer) : Prop := ∀ peer, (s.seats peer).isClosing = false

/-- What `GetFileDesc` answers. -/
def getFileDesc (s : FileSize Peer) : FileStatReply :=
  (MetadataManager.getFileDesc (({} : MetadataManager Peer).setFile s.file.name s.file) s.file.name).2

/-- The maximum of a list, 0 if it is empty. -/
def maxEnd (ends : List Nat) : Nat := ends.foldr max 0

/-- A handler stores no less than what the record has. -/
def Timely (s : FileSize Peer) : Event Peer → Prop
  | .storeSize peer =>
      match s.seats peer with
      | .read file _ seen => s.file.size ≤ max file.size seen
      | _ => True
  | _ => True

instance (s : FileSize Peer) : (event : Event Peer) → Decidable (s.Timely event)
  | .storeSize peer => by
      unfold Timely
      dsimp only
      split <;> infer_instance
  | .openFile _ _ | .writeFile _ _ _ | .closeFile _ | .readSize _ _ | .finishClose _ => isTrue trivial

/-- Runs in which no handler stores less than another has stored since its read. -/
def timely : Machine (FileSize Peer) (Event Peer) := ⟨fun s event => machine.allowed s event ∧ s.Timely event, exec⟩

instance (s : FileSize Peer) (event : Event Peer) : Decidable (timely.allowed s event) :=
  inferInstanceAs (Decidable (_ ∧ _))

/-- Steps that are not interrupted do what the handler does in one go. -/
theorem closeFile_alone {s s₁ s₂ s₃ s₄ : FileSize Peer} {peer : Peer} {file : ClientFile} {ends : List Nat} {now : Nat}
    (seat : s.seats peer = .opened file ends) (modified : file.hasModified = true) (sent : s.closeFile peer = some s₁)
    (read : s₁.readSize peer now = some s₂) (stored : s₂.storeSize peer = some s₃)
    (finished : s₃.finishClose peer = some s₄) :
    s₄.file = ((MetadataManager.recordClose now file.hasModified file.size s.file).close peer).1 := by
  simp only [closeFile, seat, Option.some.injEq] at sent
  subst sent
  simp only [readSize, setSeat, Function.update_self, modified, if_true, Option.some.injEq] at read
  subst read
  simp only [storeSize, setSeat, Function.update_self, Option.some.injEq] at stored
  subst stored
  simp only [finishClose, setSeat, Function.update_self] at finished
  rw [modified, MetadataManager.recordClose, if_pos rfl]
  split at finished
  · next record result =>
      obtain rfl := Option.some.inj finished
      simp only [result]
  · next record result =>
      obtain rfl := Option.some.inj finished
      simp only [result]

/-! ## The invariant -/

@[simp] theorem maxEnd_nil : maxEnd [] = 0 := rfl

@[simp] theorem maxEnd_cons (e : Nat) (ends : List Nat) : maxEnd (e :: ends) = max e (maxEnd ends) := rfl

@[simp] theorem maxEnd_append (l m : List Nat) : maxEnd (l ++ m) = max (maxEnd l) (maxEnd m) := by
  induction l with
  | nil => simp
  | cons e l ih => rw [List.cons_append, maxEnd_cons, ih, maxEnd_cons, Nat.max_assoc]

/-- A session's size is at least the end of each of its writes, and what it has
    beyond them the manager has too. -/
structure SessionSize (size : Nat) (file : ClientFile) (ends : List Nat) : Prop where
  lower : maxEnd ends ≤ file.size
  upper : file.size ≤ max size (maxEnd ends)
  unmodified : file.hasModified = false → ends = []

/-- A client's place, for a file of a given size. -/
def SeatFits (size : Nat) (isOpen : Bool) : Seat → Prop
  | .closed => isOpen = false
  | .opened file ends => isOpen = true ∧ SessionSize size file ends
  | .closing file ends => isOpen = true ∧ SessionSize size file ends
  | .read file ends seen => isOpen = true ∧ SessionSize size file ends ∧ seen ≤ size
  | .stored _ ends => isOpen = true ∧ maxEnd ends ≤ size

theorem SeatFits.mono {size size' : Nat} {isOpen : Bool} {seat : Seat} (grow : size ≤ size')
    (h : SeatFits size isOpen seat) : SeatFits size' isOpen seat := by
  have session : ∀ {file ends}, SessionSize size file ends → SessionSize size' file ends := by
    intro file ends session
    have := session.upper
    exact ⟨session.lower, by omega, session.unmodified⟩
  cases seat with
  | closed => exact h
  | opened file ends => exact ⟨h.1, session h.2⟩
  | closing file ends => exact ⟨h.1, session h.2⟩
  | read file ends seen => exact ⟨h.1, session h.2.1, h.2.2.trans grow⟩
  | stored file ends => exact ⟨h.1, h.2.trans grow⟩

/-- Every size the record has comes from a session that has been closed, or from
    one whose `CloseFile` is about to close it. -/
structure Inv (s : FileSize Peer) : Prop where
  seats : ∀ peer, SeatFits s.file.size (s.file.isOpenedBy peer) (s.seats peer)
  closed : maxEnd s.closedEnds ≤ s.file.size
  total : s.file.size = maxEnd s.closedEnds ∨
    ∃ peer file ends, s.seats peer = .stored file ends ∧ s.file.size = maxEnd ends

variable {s s' : FileSize Peer}

/-- One client moves; the record's size does not go down. -/
theorem Inv.move (h : s.Inv) {peer : Peer} {record : MMFile Peer} {seat : Seat} {closedEnds : List Nat}
    (grow : s.file.size ≤ record.size) (others : ∀ q, q ≠ peer → record.isOpenedBy q = s.file.isOpenedBy q)
    (own : SeatFits record.size (record.isOpenedBy peer) seat) (closed : maxEnd closedEnds ≤ record.size)
    (total : record.size = maxEnd closedEnds ∨
      ∃ q file ends, Function.update s.seats peer seat q = .stored file ends ∧ record.size = maxEnd ends) :
    (setSeat ⟨record, s.seats, closedEnds⟩ peer seat).Inv ∧ s.file.size ≤ record.size := by
  refine ⟨⟨fun q => ?_, closed, total⟩, grow⟩
  simp only [setSeat]
  by_cases same : q = peer
  · rw [same, Function.update_self]
    exact own
  · rw [Function.update_of_ne same, others q same]
    exact (h.seats q).mono grow

/-- A client that has not stored its size moves; nothing is stored. -/
theorem Inv.total_of_same (h : s.Inv) {peer : Peer} {seat : Seat}
    (notStored : ∀ file ends, s.seats peer ≠ .stored file ends) :
    s.file.size = maxEnd s.closedEnds ∨
      ∃ q file ends, Function.update s.seats peer seat q = .stored file ends ∧ s.file.size = maxEnd ends := by
  rcases h.total with same | ⟨q, file, ends, stored, same⟩
  · exact .inl same
  · refine .inr ⟨q, file, ends, ?_, same⟩
    rw [Function.update_of_ne]
    · exact stored
    · rintro rfl
      exact notStored file ends stored

theorem openFile_inv (h : s.Inv) {peer : Peer} {descriptor : Nat} (done : s.openFile peer descriptor = some s') :
    s'.Inv ∧ s.file.size ≤ s'.file.size := by
  unfold openFile at done
  split at done
  · next record wasClosed result =>
      obtain rfl := Option.some.inj done
      have opened : ∀ q, record.isOpenedBy q = (s.file.isOpenedBy q || decide (q = peer)) := by
        intro q
        rw [← MMFile.isOpenedBy_open s.file peer q, result]
      have kept : record.size = s.file.size := by
        rw [MMFile.open] at result
        split at result
        · cases result
        · obtain ⟨rfl, -⟩ := Prod.mk.inj result
          rfl
      refine h.move (Nat.le_of_eq kept.symm) (fun q other => ?_) ⟨?_, ?_, ?_, fun _ => rfl⟩ ?_ ?_
      · rw [opened q, decide_eq_false other, Bool.or_false]
      · simp [opened peer]
      · exact Nat.zero_le _
      · rw [kept]
        exact Nat.le_max_left _ _
      · rw [kept]
        exact h.closed
      · rw [kept]
        refine h.total_of_same fun file ends stored => ?_
        rw [wasClosed] at stored
        cases stored
  · cases done

theorem writeFile_inv (h : s.Inv) {peer : Peer} {offset nbyte : Nat} (small : offset + nbyte < uint32Size)
    (done : s.writeFile peer offset nbyte = some s') : s'.Inv ∧ s.file.size ≤ s'.file.size := by
  unfold writeFile at done
  split at done
  · next file ends seat =>
      obtain rfl := Option.some.inj done
      have own := h.seats peer
      rw [seat] at own
      obtain ⟨isOpen, lower, upper, -⟩ := own
      refine h.move (Nat.le_refl _) (fun _ _ => rfl) ⟨isOpen, ?_, ?_, nofun⟩ h.closed (h.total_of_same ?_)
      · simp only [maxEnd_cons, Nat.mod_eq_of_lt small]
        omega
      · simp only [maxEnd_cons, Nat.mod_eq_of_lt small]
        omega
      · rw [seat]; exact nofun
  · cases done

theorem closeFile_inv (h : s.Inv) {peer : Peer} (done : s.closeFile peer = some s') :
    s'.Inv ∧ s.file.size ≤ s'.file.size := by
  unfold closeFile at done
  split at done
  · next file ends seat =>
      obtain rfl := Option.some.inj done
      have own := h.seats peer
      rw [seat] at own
      refine h.move (Nat.le_refl _) (fun _ _ => rfl) own h.closed (h.total_of_same ?_)
      rw [seat]; exact nofun
  · cases done

theorem readSize_inv (h : s.Inv) {peer : Peer} {now : Nat} (done : s.readSize peer now = some s') :
    s'.Inv ∧ s.file.size ≤ s'.file.size := by
  unfold readSize at done
  split at done
  · next file ends seat =>
      have own := h.seats peer
      rw [seat] at own
      have notStored : ∀ file ends, s.seats peer ≠ .stored file ends := by rw [seat]; exact nofun
      split at done
      · obtain rfl := Option.some.inj done
        exact h.move (Nat.le_refl _) (fun _ _ => rfl) ⟨own.1, own.2, Nat.le_refl _⟩ h.closed
          (h.total_of_same notStored)
      · next unmodified =>
          obtain rfl := Option.some.inj done
          have empty := own.2.unmodified (by simpa using unmodified)
          refine h.move (Nat.le_refl _) (fun _ _ => rfl) ⟨own.1, ?_⟩ h.closed (h.total_of_same notStored)
          rw [empty]
          exact Nat.zero_le _
  · cases done

/-- The size that is stored is that of the record or that of the session's writes. -/
theorem storeSize_inv (h : s.Inv) {peer : Peer} (inTime : s.Timely (.storeSize peer))
    (done : s.storeSize peer = some s') : s'.Inv ∧ s.file.size ≤ s'.file.size := by
  unfold storeSize at done
  split at done
  · next file ends seen seat =>
      obtain rfl := Option.some.inj done
      have own := h.seats peer
      rw [seat] at own
      simp only [Timely, seat] at inTime
      obtain ⟨isOpen, ⟨lower, upper, -⟩, seenLow⟩ := own
      have closed := h.closed
      have joined : max file.size seen = max s.file.size (maxEnd ends) := by omega
      refine h.move inTime (fun _ _ => rfl) ⟨isOpen, ?_⟩ ?_ ?_
      · simp only
        omega
      · simp only
        omega
      · simp only [joined]
        by_cases bigger : s.file.size ≤ maxEnd ends
        · exact .inr ⟨peer, file, ends, Function.update_self _ _ _, Nat.max_eq_right bigger⟩
        · rw [Nat.max_eq_left (by omega)]
          exact h.total_of_same (by rw [seat]; exact nofun)
  · cases done

theorem finishClose_inv (h : s.Inv) {peer : Peer} (done : s.finishClose peer = some s') :
    s'.Inv ∧ s.file.size ≤ s'.file.size := by
  unfold finishClose at done
  split at done
  · next file ends seat =>
      have own := h.seats peer
      rw [seat] at own
      obtain ⟨isOpen, small⟩ := own
      have closes : s.file.close peer =
          ({ s.file with clientPermissions := s.file.clientPermissions.erase peer }, true) := by
        rw [MMFile.close, if_pos isOpen]
      have opened : ∀ q, (s.file.close peer).1.isOpenedBy q = (s.file.isOpenedBy q && !decide (q = peer)) :=
        MMFile.isOpenedBy_close s.file peer
      rw [closes] at done opened
      obtain rfl := Option.some.inj done
      have closed := h.closed
      refine h.move (Nat.le_refl _) (fun q other => ?_) ?_ ?_ ?_
      · rw [opened q, decide_eq_false other, Bool.not_false, Bool.and_true]
      · rw [SeatFits, opened peer]
        simp
      · rw [maxEnd_append]
        exact Nat.max_le.mpr ⟨small, closed⟩
      · rw [maxEnd_append]
        rcases h.total with same | ⟨q, file', ends', stored, same⟩
        · left
          simp only
          omega
        · by_cases here : q = peer
          · subst here
            rw [seat] at stored
            obtain ⟨rfl, rfl⟩ := Seat.stored.inj stored
            left
            simp only
            omega
          · right
            exact ⟨q, file', ends', by rw [Function.update_of_ne here]; exact stored, same⟩
  · cases done

theorem step_inv (h : s.Inv) (step : timely.Step s s') : s'.Inv ∧ s.file.size ≤ s'.file.size := by
  obtain ⟨event, ⟨allowed, inTime⟩, done⟩ := step
  cases event with
  | openFile peer descriptor => exact openFile_inv h done
  | writeFile peer offset nbyte => exact writeFile_inv h allowed done
  | closeFile peer => exact closeFile_inv h done
  | readSize peer now => exact readSize_inv h done
  | storeSize peer => exact storeSize_inv h inTime done
  | finishClose peer => exact finishClose_inv h done

/-- In a run the size never goes down, also while handlers are running. -/
theorem run_inv (h : s.Inv) (run : Relation.ReflTransGen timely.Step s s') :
    s'.Inv ∧ s.file.size ≤ s'.file.size := by
  induction run with
  | refl => exact ⟨h, Nat.le_refl _⟩
  | tail _ step ih =>
      obtain ⟨inv, grow⟩ := step_inv ih.1 step
      exact ⟨inv, ih.2.trans grow⟩

theorem initial_inv (h : s.Initial) : s.Inv := by
  obtain ⟨size, table, seats, closed⟩ := h
  refine ⟨fun peer => ?_, ?_, ?_⟩
  · rw [seats peer, SeatFits, MMFile.isOpenedBy, table]
    rfl
  · rw [closed]
    exact Nat.zero_le _
  · left
    rw [closed, size]
    rfl

theorem Inv.quiescent (h : s.Inv) (idle : s.Quiescent) : s.file.size = maxEnd s.closedEnds := by
  rcases h.total with same | ⟨peer, file, ends, stored, -⟩
  · exact same
  · have busy := idle peer
    rw [stored] at busy
    cases busy

omit [DecidableEq Peer] in
@[simp] theorem getFileDesc_fileSize (s : FileSize Peer) : s.getFileDesc.fileSize = s.file.size := by
  simp only [getFileDesc, MetadataManager.getFileDesc, MetadataManager.lookup_setFile]

/-- When no `CloseFile` is running, `GetFileDesc` reports the largest end of a write
    of a closed session, and later never less. -/
theorem reachable_size (reach : Reachable Initial timely.Step s) (idle : s.Quiescent) :
    s.getFileDesc.fileSize = maxEnd s.closedEnds ∧
      ∀ t, Relation.ReflTransGen timely.Step s t → s.getFileDesc.fileSize ≤ t.getFileDesc.fileSize := by
  have inv : s.Inv := reach.invariant Inv (fun _ => initial_inv) (fun _ _ h step => (step_inv h step).1)
  simp only [getFileDesc_fileSize]
  exact ⟨inv.quiescent idle, fun t run => (run_inv inv run).2⟩

/-- A file without sessions. -/
def blank : FileSize Nat := { file := { name := "f", stripWidth := 1 } }

theorem blank_initial : blank.Initial := ⟨rfl, rfl, fun _ => rfl, rfl⟩

/-- Two clients write and close one after the other. -/
def inTurn : Option (FileSize Nat) :=
  timely.run blank [.openFile 1 1, .openFile 2 1, .writeFile 1 0 100, .writeFile 2 0 50, .closeFile 1, .readSize 1 9,
    .storeSize 1, .finishClose 1, .closeFile 2, .readSize 2 9, .storeSize 2, .finishClose 2]

theorem reachable_size_inTurn : (inTurn.get rfl).getFileDesc.fileSize = maxEnd [50, 100] := by
  have reach : Reachable Initial timely.Step (inTurn.get rfl) :=
    timely.run_reachable (Reachable.init blank_initial) (Option.some_get _).symm
  have idle : (inTurn.get rfl).Quiescent := by
    intro peer
    match peer with
    | 0 => rfl
    | 1 => rfl
    | 2 => rfl
    | n + 3 => rfl
  exact (reachable_size reach idle).1

/-- The same with both handlers reading the size before either stores it. -/
def interleaved : Option (FileSize Nat) :=
  machine.run blank [.openFile 1 1, .openFile 2 1, .writeFile 1 0 100, .writeFile 2 0 50, .closeFile 1, .closeFile 2,
    .readSize 1 9, .readSize 2 9, .storeSize 1, .storeSize 2, .finishClose 1, .finishClose 2]

/-- The file is 100 bytes long and is reported to have 50. -/
theorem size_lost :
    Reachable Initial machine.Step (interleaved.get rfl) ∧ (interleaved.get rfl).Quiescent ∧
      maxEnd (interleaved.get rfl).closedEnds = 100 ∧ (interleaved.get rfl).getFileDesc.fileSize = 50 := by
  refine ⟨machine.run_reachable (Reachable.init blank_initial) (Option.some_get _).symm, ?_, rfl, rfl⟩
  intro peer
  match peer with
  | 0 => rfl
  | 1 => rfl
  | 2 => rfl
  | n + 3 => rfl

end FileSize

end PFS
