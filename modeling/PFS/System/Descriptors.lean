import PFS.System.Deployment

/-! # What openFile returns

A descriptor is one more than the number of files the client has opened before, so no
two files of a client share one.  A failure of the manager is returned as the status
code of the RPC library, which is positive: where `createFile` and `closeFile` return
`-1 * abs(status.error_code())`, `openFile` returns `status.error_code()`.
-/

namespace PFS

open Lib

variable {Peer : Type} [DecidableEq Peer]

namespace Deployment

/-- The call opens one new file, under a number that no file of the client has had
    before, or it leaves the open files alone and returns a negative number. -/
def Separates (s : Deployment Peer) (peer : Peer) (filename : String) (mode : Char) : Prop :=
  let (value, s') := s.openFile peer filename mode
  (∃ file record, (s'.clients peer).openedFiles = (s.clients peer).openedFiles ++ [file] ∧ file.name = filename ∧
    s'.manager.files.lookup filename = some record ∧ record.isOpenedBy peer = true ∧
    value = asInt file.descriptor ∧ 0 ≤ value ∧
    ∀ past, Reachable Initial machine.Step past → Relation.ReflTransGen machine.Step past s →
      ∀ old ∈ (past.clients peer).openedFiles, asInt old.descriptor ≠ value) ∨
  ((s'.clients peer).openedFiles = (s.clients peer).openedFiles ∧ value < 0)

/-- The descriptors are numbered by the counter, which has not overflowed. -/
structure Numbered (s : Deployment Peer) : Prop where
  files : ∀ peer, ∀ file ∈ (s.clients peer).openedFiles, file.descriptor ≤ (s.clients peer).descriptorCount
  count : ∀ peer, (s.clients peer).descriptorCount ≤ intMax

variable {s s' : Deployment Peer}

theorem opened_client (s : Deployment Peer) (peer : Peer) (filename : String) (record : MMFile Peer) :
    ∃ file : ClientFile, file.descriptor = (s.clients peer).descriptorCount + 1 ∧ file.name = filename ∧
      ((s.opened peer filename record).clients peer).openedFiles = (s.clients peer).openedFiles ++ [file] ∧
      ((s.opened peer filename record).clients peer).descriptorCount = (s.clients peer).descriptorCount + 1 := by
  simp only [opened, setFiles, Function.update_self]
  exact ⟨_, rfl, rfl, rfl, rfl⟩

theorem opened_other {peer other : Peer} (different : other ≠ peer) (filename : String) (record : MMFile Peer) :
    (s.opened peer filename record).clients other = s.clients other := by
  simp only [opened, setFiles, Function.update_of_ne different]

omit [DecidableEq Peer] in
theorem Numbered.initial : ({} : Deployment Peer).Numbered := by
  constructor
  · intro peer file member
    cases member
  · intro peer
    exact Nat.zero_le _

/-- A step keeps the numbers and never turns a counter back. -/
theorem Numbered.step (h : s.Numbered) (step : machine.Step s s') :
    s'.Numbered ∧ ∀ peer, (s.clients peer).descriptorCount ≤ (s'.clients peer).descriptorCount := by
  obtain ⟨call, allowed, done⟩ := step
  rcases exec_cases done with quiet | ⟨peer, filename, mode, record, rfl, -, rfl⟩ | ⟨_, _, _, _, _, -, -, -, rfl⟩ |
      ⟨_, _, _, -, -, rfl⟩
  · refine ⟨⟨fun peer file member => ?_, fun peer => ?_⟩, fun peer => ?_⟩
    · obtain ⟨old, member', descriptor, -⟩ := (quiet.clients peer).files file member
      rw [descriptor, (quiet.clients peer).count]
      exact h.files peer old member'
    · rw [(quiet.clients peer).count]
      exact h.count peer
    · exact Nat.le_of_eq (quiet.clients peer).count.symm
  · obtain ⟨file, descriptor, -, files, count⟩ := s.opened_client peer filename record
    refine ⟨⟨fun other old member => ?_, fun other => ?_⟩, fun other => ?_⟩
    · by_cases same : other = peer
      · subst same
        rw [files] at member
        rw [count]
        rcases List.mem_append.mp member with before | new
        · exact Nat.le_succ_of_le (h.files other old before)
        · rw [List.mem_singleton.mp new, descriptor]
      · rw [opened_other same] at member ⊢
        exact h.files other old member
    · by_cases same : other = peer
      · subst same
        rw [count]
        exact allowed
      · rw [opened_other same]
        exact h.count other
    · by_cases same : other = peer
      · subst same
        rw [count]
        exact Nat.le_succ _
      · rw [opened_other same]
  · exact ⟨⟨h.files, h.count⟩, fun _ => Nat.le_refl _⟩
  · exact ⟨⟨h.files, h.count⟩, fun _ => Nat.le_refl _⟩

theorem Numbered.reachable (reach : Reachable Initial machine.Step s) : s.Numbered := by
  refine reach.invariant Numbered ?_ fun _ _ numbered step => (numbered.step step).1
  rintro s rfl
  exact .initial

/-- The counters only grow. -/
theorem Numbered.later (h : s.Numbered) (run : Relation.ReflTransGen machine.Step s s') :
    s'.Numbered ∧ ∀ peer, (s.clients peer).descriptorCount ≤ (s'.clients peer).descriptorCount := by
  induction run with
  | refl => exact ⟨h, fun _ => Nat.le_refl _⟩
  | tail _ step ih =>
      obtain ⟨numbered, grown⟩ := ih.1.step step
      exact ⟨numbered, fun peer => Nat.le_trans (ih.2 peer) (grown peer)⟩

/-- In every reachable state, `openFile` separates success from failure exactly when the
    client has no stub yet, or the manager accepts and the counter does not overflow. -/
theorem openFile_separates_iff (reach : Reachable Initial machine.Step s) (peer : Peer) (filename : String) (mode : Char) :
    s.Separates peer filename mode ↔
      s.started peer = false ∨ (s.Accepts peer filename ∧ (s.clients peer).descriptorCount < intMax) := by
  have numbered := Numbered.reachable reach
  by_cases accepts : s.started peer = true ∧ s.Accepts peer filename
  · obtain ⟨started, record, found, new⟩ := accepts
    obtain ⟨file, descriptor, name, files, -⟩ := s.opened_client peer filename record
    simp only [Separates, openFile_accepted started found new, files]
    constructor
    · rintro (⟨_, _, -, -, -, -, -, positive, -⟩ | ⟨same, -⟩)
      · refine .inr ⟨⟨record, found, new⟩, ?_⟩
        by_contra full
        have last : (s.clients peer).descriptorCount = intMax := Nat.le_antisymm (numbered.count peer) (by omega)
        rw [last] at positive
        exact absurd positive (by decide)
      · simp at same
    · rintro (absent | ⟨-, small⟩)
      · rw [started] at absent
        cases absent
      · refine .inl ⟨file, (record.open peer).1, rfl, name, MetadataManager.lookup_setFile _ _ _, ?_, ?_, ?_, ?_⟩
        · simp [MMFile.isOpenedBy_open]
        · rw [descriptor]
        · rw [asInt_of_le small]
          exact Int.natCast_nonneg _
        · intro past reach' run old member
          have before := (Numbered.reachable reach').files peer old member
          have grown := ((Numbered.reachable reach').later run).2 peer
          rw [asInt_of_le small, asInt_of_le (by omega)]
          omega
  · simp only [Separates, openFile_rejected accepts]
    cases started : s.started peer with
    | false => simp
    | true =>
        have rejects : ¬ s.Accepts peer filename := fun accepted => accepts ⟨started, accepted⟩
        simp [rejects]

/-- A client, and a file that it has created. -/
def oneFile : Deployment Nat :=
  (machine.run {} [.clientStart 1, .createFile 1 "f" 1 5 5]).get rfl

theorem oneFile_reachable : Reachable Initial machine.Step oneFile :=
  machine.run_reachable (.init rfl) (Option.some_get _).symm

theorem openFile_separates_iff_created : oneFile.Separates 1 "f" 'w' :=
  (openFile_separates_iff oneFile_reachable 1 "f" 'w').mpr (.inr ⟨⟨_, rfl, rfl⟩, by decide⟩)

/-- The client has opened the file. -/
def oneOpen : Deployment Nat := (machine.run oneFile [.openFile 1 "f" 'w']).get rfl

/-- Opening a file that is not there returns the descriptor of one that is open. -/
theorem openFile_missing : Reachable Initial machine.Step oneOpen ∧
    (oneOpen.clients 1).openedFiles.map (fun file => (file.descriptor, file.name)) = [(1, "f")] ∧
    (oneOpen.openFile 1 "g" 'w').1 = 1 ∧ ¬ oneOpen.Separates 1 "g" 'w' := by
  refine ⟨machine.run_reachable oneFile_reachable (Option.some_get _).symm, rfl, rfl, ?_⟩
  rintro (⟨file, record, files, -⟩ | ⟨-, negative⟩)
  · have length := congrArg List.length files
    rw [List.length_append] at length
    cases length
  · exact absurd negative (by decide)

end Deployment

end PFS
