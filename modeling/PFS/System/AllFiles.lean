import PFS.Client.FileCopies
import PFS.System.CacheHits
import PFS.System.Reopening

/-! # All files of the system

The bytes of all files at once, in runs of the whole system: files are created, opened, read,
written, closed and deleted by any number of clients, and every client has the blocks of all its
files in one cache.  As long as no grant meets a slip of `addPermission` or covers a stale copy, a
read returns what was written last, whichever file it is and whatever happens to the others.
-/

namespace PFS

open Lib

variable {Peer : Type} [DecidableEq Peer]

namespace MetadataManager

variable {m : MetadataManager Peer}

/-- The tokens of all files. -/
def cover (m : MetadataManager Peer) (peer : Peer) (write : Bool) (a : String × Nat) : Prop :=
  ∃ record, m.files.lookup a.1 = some record ∧ record.cover peer write a.2

/-- The table of every file is orderly. -/
def Orderly (m : MetadataManager Peer) : Prop := ∀ name record, m.files.lookup name = some record → record.Orderly

theorem cover_of_lookup {name : String} {record : MMFile Peer} (found : m.files.lookup name = some record) (peer : Peer)
    (write : Bool) (b : Nat) : m.cover peer write (name, b) ↔ record.cover peer write b := by
  simp only [cover, found, Option.some.injEq, exists_eq_left']

theorem cover_setFile (m : MetadataManager Peer) (name : String) (record : MMFile Peer) (peer : Peer) (write : Bool)
    (b : Nat) : (m.setFile name record).cover peer write (name, b) ↔ record.cover peer write b :=
  cover_of_lookup (lookup_setFile m name record) peer write b

theorem cover_setFile_ne (m : MetadataManager Peer) {name other : String} (different : other ≠ name)
    (record : MMFile Peer) (peer : Peer) (write : Bool) (b : Nat) :
    (m.setFile name record).cover peer write (other, b) ↔ m.cover peer write (other, b) := by
  simp only [cover, lookup_setFile_ne m different]

/-- A record is replaced by one that grants the same. -/
theorem cover_congr {name : String} {record : MMFile Peer}
    (same : ∀ peer write b, record.cover peer write b ↔ m.cover peer write (name, b)) :
    (m.setFile name record).cover = m.cover := by
  funext peer write ⟨other, b⟩
  by_cases here : other = name
  · subst here
    exact propext ((cover_setFile m other record peer write b).trans (same peer write b))
  · exact propext (cover_setFile_ne m here record peer write b)

/-- Nobody has a token for a file that is not there or that nobody has open. -/
theorem not_cover {name : String} (closed : ∀ record, m.files.lookup name = some record → ∀ q, record.tokens q = [])
    (peer : Peer) (write : Bool) (b : Nat) : ¬ m.cover peer write (name, b) := by
  rintro ⟨record, found, granted⟩
  rw [MMFile.cover, closed record found] at granted
  exact Grants.nil granted

/-- A client that closes a file has no token for it any more. -/
theorem cover_closed {name : String} {record record' : MMFile Peer} {peer : Peer}
    (found : m.files.lookup name = some record)
    (tokens : ∀ q, record'.tokens q = if q = peer then [] else record.tokens q) (q : Peer) (write : Bool)
    (a : String × Nat) : (m.setFile name record').cover q write a ↔ m.cover q write a ∧ ¬ (q = peer ∧ a.1 = name) := by
  obtain ⟨other, b⟩ := a
  by_cases here : other = name
  · subst here
    rw [cover_setFile, cover_of_lookup found, MMFile.cover, tokens]
    by_cases same : q = peer
    · rw [if_pos same]
      exact iff_of_false Grants.nil fun held => held.2 ⟨same, rfl⟩
    · rw [if_neg same]
      exact (and_iff_left fun both => same both.1).symm
  · rw [cover_setFile_ne m here]
    exact (and_iff_left fun both => here both.2).symm

theorem Orderly.setFile (h : m.Orderly) (name : String) {record : MMFile Peer} (own : record.Orderly) :
    (m.setFile name record).Orderly := by
  intro other record' found
  by_cases same : other = name
  · subst same
    rw [lookup_setFile] at found
    obtain rfl := Option.some.inj found
    exact own
  · rw [lookup_setFile_ne m same] at found
    exact h other record' found

theorem Orderly.deleteFile (h : m.Orderly) (name : String) : (m.deleteFile name).2.2.Orderly := by
  unfold MetadataManager.deleteFile
  split
  · exact h
  · split
    · exact h
    · intro other record found
      by_cases same : other = name
      · subst same
        rw [AList.lookup_erase] at found
        cases found
      · rw [AList.lookup_erase_ne same] at found
        exact h other record found

theorem tokens_of_not_isOpen {record : MMFile Peer} (closed : ¬ record.isOpen = true) (q : Peer) : record.tokens q = [] := by
  refine MMFile.tokens_of_absent (Option.not_isSome_iff_eq_none.mp fun opened => ?_)
  exact closed (MMFile.isOpen_of_isOpenedBy opened)

/-- A file that is deleted has no tokens. -/
theorem cover_deleteFile (m : MetadataManager Peer) (name : String) : (m.deleteFile name).2.2.cover = m.cover := by
  unfold MetadataManager.deleteFile
  split
  · rfl
  · next record found =>
      split
      · rfl
      · next closed =>
          funext peer write ⟨other, b⟩
          by_cases same : other = name
          · subst same
            have before : ¬ m.cover peer write (other, b) := by
              refine not_cover (fun record' found' => ?_) peer write b
              rw [found] at found'
              obtain rfl := Option.some.inj found'
              exact tokens_of_not_isOpen closed
            refine propext (iff_of_false ?_ before)
            rintro ⟨record', found', -⟩
            rw [AList.lookup_erase] at found'
            cases found'
          · simp only [cover, AList.lookup_erase_ne same]

end MetadataManager

namespace Deployment

variable {s s' : Deployment Peer} {cover : Peer → Bool → String × Nat → Prop} {latest : String → Nat → Option UInt8}

/-- The system as copies of the files under tokens. -/
def replicas (s : Deployment Peer) (cover : Peer → Bool → String × Nat → Prop) (latest : String → Nat → Option UInt8) :
    Replicas Peer (String × Nat) UInt8 :=
  ⟨cover, fun q => (s.clients q).fileCopies, Function.uncurry s.store, Function.uncurry latest⟩

theorem replicas_setFiles (s : Deployment Peer) (peer : Peer) (files : ManyFiles) :
    (s.setFiles peer files).replicas cover latest = ⟨cover,
      Function.update (fun q => (s.clients q).fileCopies) peer files.client.fileCopies, Function.uncurry files.store,
      Function.uncurry latest⟩ := by
  have same : (fun q => ((s.setFiles peer files).clients q).fileCopies) =
      Function.update (fun q => (s.clients q).fileCopies) peer files.client.fileCopies := by
    funext q
    by_cases here : q = peer
    · subst here
      rw [setFiles_self, Function.update_self]
    · rw [setFiles_other s files here, Function.update_of_ne here]
  rw [replicas, same]
  rfl

theorem replicas_drops {peer : Peer} {files : ManyFiles} {A : Set (String × Nat)}
    (drops : ManyFiles.Drops (s.files peer) files A) :
    (s.setFiles peer files).replicas cover latest = (s.replicas cover latest).evict peer A := by
  rw [replicas_setFiles, drops.copies, drops.store]
  rfl

/-- The open files of the clients have names and descriptors of their own. -/
theorem apart_of_tallies {c : PFSClient} {count : Nat} {e : Entries} (h : Tallies c.rows count e) : c.Apart := by
  have names := h.names
  have descriptors := h.descriptors
  rw [PFSClient.rows, List.map_map] at names descriptors
  exact ⟨names, descriptors⟩

theorem inv_setFiles {peer : Peer} {files : ManyFiles} (others : ∀ q, (s.files q).Inv) (own : files.Inv) (q : Peer) :
    ((s.setFiles peer files).files q).Inv := by
  by_cases here : q = peer
  · subst here
    exact own.restored (setFiles_self s q files)
  · exact (others q).restored (setFiles_other s files here)

/-! ## Getting a token -/

/-- The clients that serve the revocations of a request lose their copies. -/
structure Evicts (name : String) (start stop : Nat) (order : List Peer) (s s' : Deployment Peer) : Prop where
  manager : s'.manager = s.manager
  tidy : ∀ q, (s'.files q).Inv
  spared : ∀ q, q ∉ order → s'.clients q = s.clients q
  gone : ∀ q ∈ order, ∀ b ∈ bytesIn start stop, (s'.clients q).fileCopies (name, b) = none
  upToDate : ∀ cover latest, (s.replicas cover latest).UpToDate → (s'.replicas cover latest).UpToDate

theorem revokeAll_evicts {name : String} {start stop : Nat} (range : start ≤ stop) {order : List Peer}
    (distinct : order.Nodup) (tallies : ∀ q, ∃ count e, Tallies (s.clients q).rows count e) (tidy : ∀ q, (s.files q).Inv)
    (done : revokeAll name start stop order s = some s') : Evicts name start stop order s s' := by
  induction order generalizing s with
  | nil =>
      obtain rfl := Option.some.inj done
      exact ⟨rfl, tidy, fun _ _ => rfl, fun _ member => (List.not_mem_nil member).elim, fun _ _ => id⟩
  | cons peer rest ih =>
      obtain ⟨files, revoked, done⟩ := Option.bind_eq_some_iff.mp done
      obtain ⟨absent, distinct⟩ := List.nodup_cons.mp distinct
      obtain ⟨count, e, own⟩ := tallies peer
      have drops := (tidy peer).revokePermission_drops (apart_of_tallies own) revoked
      have evicts := ih (s := s.setFiles peer files) distinct
        (by
          intro q
          by_cases here : q = peer
          · subst here
            rw [setFiles_self, (ManyFiles.rows_revokePermission own revoked).1]
            exact ⟨count, _, own.retoken name _⟩
          · rw [setFiles_other s files here]
            exact tallies q)
        (inv_setFiles tidy ((tidy peer).revokePermission range revoked)) done
      refine ⟨evicts.manager, evicts.tidy, ?_, ?_, ?_⟩
      · intro q outside
        rw [List.mem_cons, not_or] at outside
        rw [evicts.spared q outside.2, setFiles_other s files outside.1]
      · intro q member b inside
        rcases List.mem_cons.mp member with rfl | member
        · rw [evicts.spared q absent, setFiles_self, drops.copies, Copies.drop,
            if_pos (mem_under.mpr (PFSClient.bytesIn_blocksFrom inside))]
        · exact evicts.gone q member b inside
      · intro cover latest before
        apply evicts.upToDate
        rw [replicas_drops drops]
        exact before.evict peer _

/-- The files of the clients, their tokens and their copies are in order. -/
structure Kept (s : Deployment Peer) (latest : String → Nat → Option UInt8) : Prop where
  tallied : s.Tallied
  tidy : ∀ q, (s.files q).Inv
  orderly : s.manager.Orderly
  upToDate : (s.replicas s.manager.cover latest).UpToDate

/-- An access needs no grant, or one that meets no slip of `addPermission`. -/
def CleanAccess (s : Deployment Peer) (peer : Peer) (filedes start stop : Nat) (write : Bool) : Prop :=
  ∀ file ∈ (s.clients peer).openedFiles.find? fun file => file.descriptor = filedes,
    ∀ record ∈ s.manager.files.lookup file.name, hasPermission start stop write file.permissions = true ∨
      GrantClean (record.tokens peer) (record.grantRange peer start stop write).1
        (record.grantRange peer start stop write).2 write

instance (s : Deployment Peer) (peer : Peer) (filedes start stop : Nat) (write : Bool) :
    Decidable (s.CleanAccess peer filedes start stop write) := inferInstanceAs (Decidable (∀ _ ∈ _, ∀ _ ∈ _, _ ∨ _))

/-- An access needs no grant, or one that covers no stale copies but those it writes itself. -/
def FreshAccess (s : Deployment Peer) (latest : String → Nat → Option UInt8) (peer : Peer) (filedes start stop : Nat)
    (write : Bool) : Prop :=
  ∀ file ∈ (s.clients peer).openedFiles.find? fun file => file.descriptor = filedes,
    ∀ record ∈ s.manager.files.lookup file.name, hasPermission start stop write file.permissions = true ∨
      ∀ b < (record.grantRange peer start stop write).2, (record.grantRange peer start stop write).1 ≤ b →
        (latest file.name b).isSome ∧ ¬ Grants (record.tokens peer) false b ∧
          ((s.clients peer).cache.byte file.descriptor b).isSome → write = true ∧ start ≤ b ∧ b < stop

instance (s : Deployment Peer) (latest : String → Nat → Option UInt8) (peer : Peer) (filedes start stop : Nat)
    (write : Bool) : Decidable (s.FreshAccess latest peer filedes start stop write) :=
  inferInstanceAs (Decidable (∀ _ ∈ _, ∀ _ ∈ _, _ ∨ ∀ _ < _, _))

/-- Nothing written has a copy at the client. -/
theorem FreshAccess.of_nothing {peer : Peer} {filedes : Nat}
    (nothing : ∀ file ∈ (s.clients peer).openedFiles.find? fun file => file.descriptor = filedes, ∀ b,
      latest file.name b = none ∨ (s.clients peer).cache.byte file.descriptor b = none) (start stop : Nat) (write : Bool) :
    s.FreshAccess latest peer filedes start stop write := by
  refine fun file found record _ => .inr fun b _ _ isStale => ?_
  obtain ⟨written, -, copy⟩ := isStale
  rcases nothing file found b with none | none
  · rw [none] at written
    cases written
  · rw [none] at copy
    cases copy

/-- The request is granted and the revocations are served; the caller drops the copies in `T`. -/
theorem Kept.served (h : s.Kept latest) {peer : Peer} {filedes start stop : Nat} {write : Bool} {order : List Peer}
    {file : ClientFile} {record record' : MMFile Peer} {grant : Grant Peer} (range : start ≤ stop) (small : stop ≤ intMax)
    (clean : GrantClean (record.tokens peer) (record.grantRange peer start stop write).1
      (record.grantRange peer start stop write).2 write)
    (served : Served s s' peer filedes start stop write order file record record' grant) {T : Set (String × Nat)}
    (fresh : ∀ b, grant.start ≤ b → b < grant.stop → (latest file.name b).isSome → ¬ record.cover peer false b →
      ((s.clients peer).fileCopies (file.name, b)).isSome → (file.name, b) ∈ T) :
    Evicts file.name start stop order { s with manager := s.manager.setFile file.name record' } s' ∧
      s'.manager.Orderly ∧ ((s'.replicas s'.manager.cover latest).evict peer T).UpToDate := by
  obtain ⟨outside, distinct⟩ := served.spared
  have evicts := revokeAll_evicts (s := { s with manager := s.manager.setFile file.name record' }) range distinct
    (fun q => ⟨_, _, h.tallied q⟩) h.tidy served.revoked
  have own : s'.clients peer = s.clients peer := evicts.spared peer outside
  have orderly := h.orderly _ _ served.known
  have before := (evicts.upToDate s.manager.cover latest h.upToDate).evict peer T
  have granted : s'.manager = s.manager.setFile file.name record' := evicts.manager
  have moves : ((s'.replicas s.manager.cover latest).evict peer T).Moves (s.manager.setFile file.name record').cover := by
    refine Replicas.Moves.of_part (k := file.name) before.toGuarded ?_ fun p m other b different =>
      s.manager.cover_setFile_ne different record' p m b
    rw [show (fun p m b => (s.manager.setFile file.name record').cover p m (file.name, b)) = record'.cover from
      funext fun p => funext fun m => funext fun b => propext (s.manager.cover_setFile file.name record' p m b)]
    refine orderly.moves range small clean served.asked ?_ ?_
    · exact funext fun p => funext fun m => funext fun b =>
        propext (MetadataManager.cover_of_lookup served.known p m b)
    · intro q clash b inside
      have other : q ≠ peer := (MMFile.mem_conflicting.mp clash).1
      simp only [Replicas.part, Replicas.evict, Copies.part, replicas, Function.update_of_ne other]
      exact evicts.gone q (served.perm.mem_iff.mpr clash) b inside
  rw [granted]
  refine ⟨evicts, h.orderly.setFile _ (orderly.serve range small clean served.asked), before.move moves ?_⟩
  rintro q ⟨name, b⟩ x c held written copy
  have held : (s.manager.setFile file.name record').cover q false (name, b) := held
  by_cases here : name = file.name
  · subst here
    rw [s.manager.cover_setFile] at held
    rcases MMFile.cover_after served.asked held with before | ⟨rfl, low, high⟩
    · exact .inl ((MetadataManager.cover_of_lookup served.known q false b).mpr before)
    · simp only [Replicas.evict, replicas, Function.update_self, own] at copy
      obtain ⟨outside, copy⟩ := Copies.drop_eq_some.mp copy
      by_cases readable : record.cover q false b
      · exact .inl ((MetadataManager.cover_of_lookup served.known q false b).mpr readable)
      · have written : latest file.name b = some x := written
        refine (outside (fresh b low high ?_ readable ?_)).elim
        · rw [written]; rfl
        · rw [copy]; rfl
  · rw [s.manager.cover_setFile_ne here] at held
    exact .inl held

/-- What a client has when `acquirePermission` returns. -/
structure Acquired (s s' : Deployment Peer) (latest : String → Nat → Option UInt8) (peer : Peer)
    (filedes start stop : Nat) (write : Bool) (i : Nat) (file : ClientFile) : Prop where
  tallied : s'.Tallied
  tidy : ∀ q, (s'.files q).Inv
  orderly : s'.manager.Orderly
  at_i : (s'.clients peer).openedFiles[i]? = some file
  descriptor : file.descriptor = filedes
  named : ((s.clients peer).openedFiles.find? fun file => file.descriptor = filedes).map ClientFile.name = some file.name
  covered : ∀ b ∈ bytesIn start stop, s'.manager.cover peer write (file.name, b)
  copies : (s'.clients peer).fileCopies = (s.clients peer).fileCopies
  upToDate : ((s'.replicas s'.manager.cover latest).evict peer
    {a | write = true ∧ a ∈ under file.name (bytesIn start stop) ∧ ¬ s.manager.cover peer false a}).UpToDate

theorem setFiles_files (s : Deployment Peer) (peer : Peer) : s.setFiles peer (s.files peer) = s := by
  simp only [setFiles, files, Function.update_eq_self]

/-- The client's list is the manager's, up to the locks. -/
theorem Tallied.grants_iff (h : s.Tallied) {peer : Peer} {file : ClientFile}
    (member : file ∈ (s.clients peer).openedFiles) (write : Bool) (b : Nat) :
    Grants file.permissions write b ↔ s.manager.cover peer write (file.name, b) := by
  obtain ⟨record, known, -, -, tokens⟩ := h.record member
  rw [MetadataManager.cover_of_lookup known, MMFile.cover, ← grants_bareList, tokens, grants_bareList]

/-- The client had the token already. -/
theorem Kept.acquired_held (h : s.Kept latest) {peer : Peer} {filedes start stop i : Nat} {write : Bool} {files : ManyFiles}
    (acquiring : (s.files peer).acquirePermission filedes start stop write none = some (files, some i)) :
    ∃ file, Acquired s (s.setFiles peer files) latest peer filedes start stop write i file := by
  unfold ManyFiles.acquirePermission at acquiring
  split at acquiring
  · cases acquiring
  · next j found =>
      obtain ⟨file, at_j, acquiring⟩ := Option.bind_eq_some_iff.mp acquiring
      split at acquiring
      · next held =>
          cases acquiring
          have at_j : (s.clients peer).openedFiles[i]? = some file := at_j
          have member := List.mem_of_getElem? at_j
          rw [setFiles_files]
          refine ⟨file, h.tallied, h.tidy, h.orderly, at_j, PFSClient.foundAt_descriptor found at_j, ?_, ?_, rfl,
            h.upToDate.evict peer _⟩
          · rw [List.find?_eq_bind_findIdx?_getElem?,
              show (s.clients peer).openedFiles.findIdx? (fun file => decide (file.descriptor = filedes)) = some i from found,
              Option.bind_some, at_j, Option.map_some]
          · exact fun b inside => (h.tallied.grants_iff member write b).mp (hasPermission_covers held inside.1 inside.2)
      · cases acquiring

/-- What the manager grants is the range or the whole file, and the client meets no slip either. -/
theorem Kept.cleanReply (h : s.Kept latest) {peer : Peer} {filedes offset nbyte : Nat} {write : Bool} {order : List Peer}
    {file : ClientFile} {record record' : MMFile Peer} {grant : Grant Peer}
    (served : Served s s' peer filedes offset (offset + nbyte) write order file record record' grant)
    (clean : GrantClean (record.tokens peer) (record.grantRange peer offset (offset + nbyte) write).1
      (record.grantRange peer offset (offset + nbyte) write).2 write) (own : s'.clients peer = s.clients peer) :
    ManyFiles.CleanReply (s'.files peer) filedes offset nbyte write { start := grant.start, stop := grant.stop } := by
  obtain ⟨granted, -⟩ := MMFile.waitAndGetPermissionFor_spec served.asked
  rw [granted] at clean
  refine ⟨?_, fun other member same => ?_⟩
  · rcases MMFile.grantRange_cases record peer offset (offset + nbyte) write with exactly | ⟨whole, -⟩
    · rw [granted, Prod.mk.injEq] at exactly
      exact .inl exactly
    · rw [granted, Prod.mk.injEq] at whole
      exact .inr whole
  · have descriptor : file.descriptor = filedes := by simpa using List.find?_some served.found
    rw [show (s'.files peer).client = s.clients peer from own] at member
    obtain rfl := (h.tidy peer).unique (List.mem_of_find?_eq_some served.found) member (same.trans descriptor.symm)
    obtain ⟨_, known, -, -, tokens⟩ := h.tallied.record member
    obtain rfl := Option.some.inj (served.known.symm.trans known)
    exact grantClean_congr tokens clean

/-- The manager grants the token, and the client adds it. -/
theorem Kept.acquired_served (h : s.Kept latest) {s₁ : Deployment Peer} {peer : Peer} {filedes offset nbyte i : Nat}
    {write : Bool} {order : List Peer} {file : ClientFile} {record record' : MMFile Peer} {grant : Grant Peer}
    {files : ManyFiles} (small : offset + nbyte ≤ intMax) (clean : s.CleanAccess peer filedes offset (offset + nbyte) write)
    (fresh : s.FreshAccess latest peer filedes offset (offset + nbyte) write)
    (served : Served s s₁ peer filedes offset (offset + nbyte) write order file record record' grant)
    (tallied : (s₁.setFiles peer files).Tallied)
    (acquiring : (s₁.files peer).acquirePermission filedes offset (offset + nbyte) write
      (some { start := grant.start, stop := grant.stop }) = some (files, some i)) :
    ∃ file', Acquired s (s₁.setFiles peer files) latest peer filedes offset (offset + nbyte) write i file' := by
  have range : offset ≤ offset + nbyte := Nat.le_add_right _ _
  have member := List.mem_of_find?_eq_some served.found
  have descriptor : file.descriptor = filedes := by simpa using List.find?_some served.found
  have lacks : ¬ hasPermission offset (offset + nbyte) write file.permissions = true := by simp [served.lacks]
  have cleanly := (clean file served.found record served.known).resolve_left lacks
  have freshly := (fresh file served.found record served.known).resolve_left lacks
  obtain ⟨granted, -⟩ := MMFile.waitAndGetPermissionFor_spec served.asked
  have apart := apart_of_tallies (h.tallied peer)
  have slot := apart.slot member
  obtain ⟨evicts, orderly, upToDate⟩ := h.served (T := {a | write = true ∧ a ∈ under file.name
      (bytesIn offset (offset + nbyte)) ∧ ¬ s.manager.cover peer false a}) range small cleanly served (by
    intro b low high written uncovered copy
    rw [granted] at freshly
    rw [PFSClient.fileCopies, slot, Option.bind_some] at copy
    obtain ⟨writes, inside⟩ := freshly b high low ⟨written, uncovered, copy⟩
    exact ⟨writes, mem_under.mpr inside, fun readable =>
      uncovered ((MetadataManager.cover_of_lookup served.known peer false b).mp readable)⟩)
  have own : s₁.clients peer = s.clients peer := evicts.spared peer served.spared.1
  obtain ⟨tidy, -⟩ := (evicts.tidy peer).acquirePermission small (by
    rintro _ ⟨⟩
    exact h.cleanReply served cleanly own) acquiring
  have found := served.found
  rw [List.find?_eq_bind_findIdx?_getElem?] at found
  obtain ⟨j, foundAt, at_j⟩ := Option.bind_eq_some_iff.mp found
  have client : (s₁.files peer).client = s.clients peer := own
  unfold ManyFiles.acquirePermission at acquiring
  simp only [client, PFSClient.foundAt, foundAt, at_j, served.lacks, Option.bind_eq_bind, Option.bind_some,
    Bool.false_eq_true, if_false] at acquiring
  obtain ⟨l, added, acquiring⟩ := Option.bind_eq_some_iff.mp acquiring
  cases acquiring
  have copies : ((s.clients peer).setFile i { file with permissions := l }).fileCopies = (s.clients peer).fileCopies :=
    PFSClient.fileCopies_congr (PFSClient.slot_setFile { file with permissions := l } at_j rfl rfl (s.clients peer).cache) rfl
  refine ⟨{ file with permissions := l }, tallied, inv_setFiles evicts.tidy tidy, orderly, ?_, descriptor, ?_, ?_, ?_, ?_⟩
  · rw [setFiles_self]
    exact List.getElem?_set_self (List.getElem?_eq_some_iff.mp at_j).1
  · rw [served.found, Option.map_some]
  · intro b inside
    rw [show (s₁.setFiles peer _).manager = s.manager.setFile file.name record' from evicts.manager, s.manager.cover_setFile]
    exact MMFile.gets range small served.asked inside
  · rw [setFiles_self]
    exact copies
  · rw [replicas_setFiles, copies, ← own, Function.update_eq_self]
    exact upToDate

theorem Kept.acquired (h : s.Kept latest) {s₁ : Deployment Peer} {peer : Peer} {filedes offset nbyte i : Nat} {write : Bool}
    {order : List Peer} {reply : Option PermissionReply} {files : ManyFiles} (small : offset + nbyte ≤ intMax)
    (clean : s.CleanAccess peer filedes offset (offset + nbyte) write)
    (fresh : s.FreshAccess latest peer filedes offset (offset + nbyte) write)
    (asked : s.requestPermission peer filedes offset (offset + nbyte) write order = some (s₁, reply))
    (acquiring : (s₁.files peer).acquirePermission filedes offset (offset + nbyte) write reply = some (files, some i)) :
    ∃ file, Acquired s (s₁.setFiles peer files) latest peer filedes offset (offset + nbyte) write i file := by
  obtain ⟨others, own⟩ := acquirePermission_tallied h.tallied asked acquiring
  rcases requestPermission_cases asked with ⟨rfl, rfl, -⟩ | ⟨file, record, record', grant, rfl, served⟩
  · exact h.acquired_held acquiring
  · exact h.acquired_served small clean fresh served (tallied_setFiles others own) acquiring

/-- A client that gets no token is refused it before anything happens. -/
theorem Kept.refused (h : s.Kept latest) {s₁ : Deployment Peer} {peer : Peer} {filedes start stop : Nat} {write : Bool}
    {order : List Peer} {reply : Option PermissionReply} {files : ManyFiles}
    (asked : s.requestPermission peer filedes start stop write order = some (s₁, reply))
    (acquiring : (s₁.files peer).acquirePermission filedes start stop write reply = some (files, none)) :
    s₁.setFiles peer files = s := by
  rcases requestPermission_cases asked with ⟨rfl, rfl, -⟩ | ⟨file, record, record', grant, rfl, served⟩
  · have same : files = s₁.files peer := by
      unfold ManyFiles.acquirePermission at acquiring
      split at acquiring
      · cases acquiring
        rfl
      · obtain ⟨file, -, acquiring⟩ := Option.bind_eq_some_iff.mp acquiring
        split at acquiring
        · cases acquiring
        · cases acquiring
          rfl
    rw [same, setFiles_files]
  · obtain ⟨-, outcome⟩ := ManyFiles.acquirePermission_cache acquiring
    obtain ⟨-, own, -⟩ := requestPermission_find (fun q => (h.tidy q).wf) asked
    have client : (s₁.files peer).client = s.clients peer := own
    rw [client] at outcome
    cases outcome.mpr ⟨file, served.found, .inr rfl⟩

/-! ## The calls -/

/-- The bytes that were written last, after a call of `writeFile`. -/
def writtenTo (s : Deployment Peer) (latest : String → Nat → Option UInt8) (peer : Peer) (filedes offset nbyte : Nat)
    (data : Nat → UInt8) (wrote : Bool) : String → Nat → Option UInt8 :=
  match (s.clients peer).openedFiles.find? fun file => file.descriptor = filedes with
  | none => latest
  | some file => Function.update latest file.name (latestAfter (latest file.name) offset nbyte data wrote)

omit [DecidableEq Peer] in
theorem writtenTo_false (s : Deployment Peer) (latest : String → Nat → Option UInt8) (peer : Peer)
    (filedes offset nbyte : Nat) (data : Nat → UInt8) :
    s.writtenTo latest peer filedes offset nbyte data false = latest := by
  unfold writtenTo
  split
  · rfl
  · next file _ =>
      have same : latestAfter (latest file.name) offset nbyte data false = latest file.name := by
        funext b
        simp [latestAfter]
      rw [same, Function.update_eq_self]

theorem files_setFiles (s : Deployment Peer) (peer : Peer) (files : ManyFiles) : (s.setFiles peer files).files peer = files := by
  simp only [setFiles, Deployment.files, Function.update_self]

theorem setFiles_setFiles (s : Deployment Peer) (peer : Peer) (files files' : ManyFiles) :
    (s.setFiles peer files).setFiles peer files' = s.setFiles peer files' := by
  simp only [setFiles, Function.update_idem]

/-- Once it has its token, a client reads or writes the range of one of its files. -/
theorem Acquired.grants {peer : Peer} {filedes start stop i : Nat} {write : Bool} {file : ClientFile}
    (got : Acquired s s' latest peer filedes start stop write i file) (b : Nat) (inside : b ∈ bytesIn start stop) :
    Grants file.permissions false b := by
  have held := (got.tallied.grants_iff (List.mem_of_getElem? got.at_i) write b).mpr (got.covered b inside)
  exact held.read

/-- The caller's files stay, and its copies are up to date after the call. -/
theorem Acquired.kept {peer : Peer} {filedes start stop i : Nat} {write : Bool} {file : ClientFile} {files files' : ManyFiles}
    {latest' : String → Nat → Option UInt8}
    (got : Acquired s (s'.setFiles peer files) latest peer filedes start stop write i file)
    (rows : files'.client.rows = files.client.rows) (count : files'.client.descriptorCount = files.client.descriptorCount)
    (inv : files'.Inv) (upToDate : ((s'.setFiles peer files').replicas s'.manager.cover latest').UpToDate) :
    (s'.setFiles peer files').Kept latest' := by
  refine ⟨?_, ?_, got.orderly, upToDate⟩
  · have own := got.tallied peer
    rw [setFiles_self, ← rows, ← count] at own
    rw [← setFiles_setFiles s' peer files]
    exact tallied_setFiles (fun q _ => got.tallied q) own
  · rw [← setFiles_setFiles s' peer files]
    exact inv_setFiles got.tidy inv

theorem Kept.read (h : s.Kept latest) {s₁ : Deployment Peer} {peer : Peer} {filedes offset nbyte : Nat} {order : List Peer}
    {reply : Option PermissionReply} {files : ManyFiles} {result : Option (Nat → UInt8)} (small : offset + nbyte ≤ intMax)
    (clean : s.CleanAccess peer filedes offset (offset + nbyte) false)
    (fresh : s.FreshAccess latest peer filedes offset (offset + nbyte) false)
    (asked : s.requestPermission peer filedes offset (offset + nbyte) false order = some (s₁, reply))
    (read : (s₁.files peer).readFile filedes offset nbyte reply = some (files, result)) :
    (s₁.setFiles peer files).Kept latest ∧ ∀ buffer, result = some buffer → ∀ name,
      ((s.clients peer).openedFiles.find? fun file => file.descriptor = filedes).map ClientFile.name = some name →
        ∀ k x, k < nbyte → latest name (offset + k) = some x → buffer k = x := by
  obtain ⟨⟨files₁, acquired⟩, acquiring, read⟩ := Option.bind_eq_some_iff.mp read
  cases acquired with
  | none =>
      obtain ⟨rfl, rfl⟩ := Prod.mk.inj (Option.some.inj read)
      rw [h.refused asked acquiring]
      refine ⟨h, ?_⟩
      rintro _ ⟨⟩
  | some i =>
      obtain ⟨file, got⟩ := h.acquired small clean fresh asked acquiring
      have at_i := got.at_i
      have tidy := got.tidy peer
      have apart := apart_of_tallies (got.tallied peer)
      rw [setFiles_self] at at_i apart
      rw [files_setFiles] at tidy
      obtain ⟨file', at_i', read⟩ := Option.bind_eq_some_iff.mp read
      obtain rfl := Option.some.inj (at_i.symm.trans at_i')
      obtain ⟨⟨c, copied⟩, bytes, read⟩ := Option.bind_eq_some_iff.mp read
      obtain ⟨rfl, rfl⟩ := Prod.mk.inj (Option.some.inj read)
      rw [← got.descriptor] at bytes
      obtain ⟨⟨A, loaded⟩, values⟩ := tidy.readBytes_loads apart at_i bytes
      obtain ⟨rows, count⟩ := PFSClient.rows_readBytes bytes
      have inv : ManyFiles.Inv ⟨c, files₁.store⟩ := tidy.readBytes at_i got.grants bytes files₁.store
      have nothing : {a : String × Nat | false = true ∧ a ∈ under file.name (bytesIn offset (offset + nbyte)) ∧
          ¬ s.manager.cover peer false a} = ∅ := by
        ext a
        simp
      have before := got.upToDate
      rw [nothing, Replicas.evict_empty] at before
      have step : (s₁.setFiles peer ⟨c, files₁.store⟩).replicas s₁.manager.cover latest =
          ((s₁.setFiles peer files₁).replicas s₁.manager.cover latest).load peer A := by
        rw [replicas_setFiles, replicas_setFiles, loaded]
        simp only [Replicas.load, Function.update_self, Function.update_idem]
      have after : ((s₁.setFiles peer ⟨c, files₁.store⟩).replicas s₁.manager.cover latest).UpToDate := by
        rw [step]
        exact before.load peer A
      refine ⟨got.kept rows count inv after, ?_⟩
      intro buffer same name named k x inside written
      obtain rfl := Option.some.inj same
      obtain rfl := Option.some.inj (got.named.symm.trans named)
      have here : offset + k ∈ bytesIn offset (offset + nbyte) := ⟨by omega, by omega⟩
      obtain ⟨d, copy⟩ := values _ here
      refine after.current peer (file.name, offset + k) x (copied (offset + k), d) (got.covered _ here) written ?_
      simp only [replicas, setFiles_self]
      exact copy

/-- The latest bytes after a write, cell by cell. -/
theorem uncurry_latestAfter (latest : String → Nat → Option UInt8) (name : String) (offset nbyte : Nat)
    (data : Nat → UInt8) (s : Replicas Peer (String × Nat) UInt8) (written : s.latest = Function.uncurry latest) (peer : Peer) :
    Function.uncurry (Function.update latest name (latestAfter (latest name) offset nbyte data true)) =
      (s.put peer (under name (bytesIn offset (offset + nbyte))) fun a => data (a.2 - offset)).latest := by
  rw [Replicas.put, written]
  refine eq_ite_under (fun b => ?_) fun other b different => ?_
  · simp only [Function.uncurry_apply_pair, Function.update_self, latestAfter, true_and, mem_bytesIn]
  · simp only [Function.uncurry_apply_pair, Function.update_of_ne different]

theorem Kept.write (h : s.Kept latest) {s₁ : Deployment Peer} {peer : Peer} {filedes offset nbyte : Nat}
    {data : Nat → UInt8} {order : List Peer} {reply : Option PermissionReply} {files : ManyFiles} {wrote : Bool}
    (small : offset + nbyte ≤ intMax) (clean : s.CleanAccess peer filedes offset (offset + nbyte) true)
    (fresh : s.FreshAccess latest peer filedes offset (offset + nbyte) true)
    (asked : s.requestPermission peer filedes offset (offset + nbyte) true order = some (s₁, reply))
    (written : (s₁.files peer).writeFile filedes offset nbyte data reply = some (files, wrote)) :
    (s₁.setFiles peer files).Kept (s.writtenTo latest peer filedes offset nbyte data wrote) := by
  obtain ⟨⟨files₁, acquired⟩, acquiring, written⟩ := Option.bind_eq_some_iff.mp written
  cases acquired with
  | none =>
      obtain ⟨rfl, rfl⟩ := Prod.mk.inj (Option.some.inj written)
      rw [h.refused asked acquiring, writtenTo_false]
      exact h
  | some i =>
      obtain ⟨file, got⟩ := h.acquired small clean fresh asked acquiring
      have at_i := got.at_i
      have tidy := got.tidy peer
      have apart := apart_of_tallies (got.tallied peer)
      have copies := got.copies
      rw [setFiles_self] at at_i apart copies
      rw [files_setFiles] at tidy
      obtain ⟨file', at_i', written⟩ := Option.bind_eq_some_iff.mp written
      obtain rfl := Option.some.inj (at_i.symm.trans at_i')
      obtain ⟨c, bytes, written⟩ := Option.bind_eq_some_iff.mp written
      obtain ⟨rfl, rfl⟩ := Prod.mk.inj (Option.some.inj written)
      rw [← got.descriptor] at bytes
      obtain ⟨A, stored⟩ := tidy.writeBytes_puts apart at_i bytes
      obtain ⟨rows, count⟩ := PFSClient.rows_writeBytes bytes
      have inv : ManyFiles.Inv ⟨c, files₁.store⟩ := tidy.writeBytes at_i got.grants bytes files₁.store
      obtain ⟨opened, found, named⟩ := Option.map_eq_some_iff.mp got.named
      have latest' : s.writtenTo latest peer filedes offset nbyte data true =
          Function.update latest file.name (latestAfter (latest file.name) offset nbyte data true) := by
        simp only [writtenTo, found, named]
      have step : (s₁.setFiles peer ⟨c, files₁.store⟩).replicas s₁.manager.cover
          (s.writtenTo latest peer filedes offset nbyte data true) =
          (((s₁.setFiles peer files₁).replicas s₁.manager.cover latest).load peer A).put peer
            (under file.name (bytesIn offset (offset + nbyte))) fun a => data (a.2 - offset) := by
        rw [latest', replicas_setFiles, uncurry_latestAfter latest file.name offset nbyte data
          (((s₁.setFiles peer files₁).replicas s₁.manager.cover latest).load peer A) rfl peer, replicas_setFiles, stored]
        simp only [Replicas.put, Replicas.load, Function.update_self, Function.update_idem]
      have after := (got.upToDate.load peer A).put (A := under file.name (bytesIn offset (offset + nbyte)))
        (fun a => data (a.2 - offset)) (by
          rintro ⟨name, b⟩ ⟨rfl, inside⟩
          exact got.covered b inside)
      rw [Replicas.evict_load_put (fun a inside => inside.2.1)] at after
      · refine got.kept rows count inv ?_
        rw [step]
        exact after
      · rintro a ⟨-, -, uncovered⟩ dirty
        simp only [replicas, setFiles_self, copies] at dirty
        exact uncovered (h.upToDate.readable peer a (h.upToDate.guarded peer a dirty))

theorem Kept.openFile (h : s.Kept latest) (peer : Peer) (filename : String) (mode : Char) :
    (s.openFile peer filename mode).2.Kept latest := by
  have tallied := openFile_tallied h.tallied peer filename mode
  by_cases accepts : s.started peer = true ∧ s.Accepts peer filename
  · obtain ⟨started, record, found, new⟩ := accepts
    rw [openFile_accepted started found new] at tallied ⊢
    have missing : (s.clients peer).slot filename = none := by
      have absent : s.manager.entries peer filename = none := by
        rw [MetadataManager.entries_of_lookup found, new]
        rfl
      rw [PFSClient.slot, Option.map_eq_none_iff, List.find?_eq_none]
      intro file member
      have other : file.name ≠ filename := (h.tallied peer).absent.mp absent file.row (List.mem_map_of_mem member)
      simpa using other
    refine ⟨tallied, inv_setFiles h.tidy ((h.tidy peer).openFile filename _), ?_, ?_⟩
    · exact h.orderly.setFile filename ((h.orderly _ _ found).congr (MMFile.tokens_open record peer))
    · have same : (s.manager.setFile filename (record.open peer).1).cover = s.manager.cover := by
        refine MetadataManager.cover_congr fun q write b => ?_
        rw [MetadataManager.cover_of_lookup found, MMFile.cover, MMFile.tokens_open, MMFile.cover]
      simp only [opened]
      rw [replicas_setFiles, (h.tidy peer).openFile_copies missing]
      simp only [setFiles, same, Deployment.files, Function.update_eq_self]
      exact h.upToDate
  · rw [openFile_rejected accepts]
    exact h

/-- The manager's records change, and the tokens do not. -/
theorem Kept.remanaged (h : s.Kept latest) (tallied : s'.Tallied) (clients : s'.clients = s.clients)
    (store : s'.store = s.store) (orderly : s'.manager.Orderly) (tokens : s'.manager.cover = s.manager.cover) :
    s'.Kept latest := by
  refine ⟨tallied, fun q => (h.tidy q).restored (congrFun clients q), orderly, ?_⟩
  have same : s'.replicas s'.manager.cover latest = s.replicas s.manager.cover latest := by
    rw [replicas, clients, store, tokens, replicas]
  rw [same]
  exact h.upToDate

theorem Kept.createFile (h : s.Kept latest) (peer : Peer) (filename : String) (stripeWidth : Int32)
    (creationTime lastModifiedTime : Nat) :
    (s.createFile peer filename stripeWidth creationTime lastModifiedTime).2.Kept latest := by
  have tallied := createFile_tallied h.tallied peer filename stripeWidth creationTime lastModifiedTime
  rw [createFile_eq] at tallied ⊢
  split at tallied
  · next new =>
      rw [if_pos new]
      have empty : ∀ q, (
          { name := filename, size := 0, creationTime, lastModifiedTime, stripWidth := stripeWidth.toUInt32.toNat } :
            MMFile Peer).tokens q = [] := fun q => MMFile.tokens_of_absent rfl
      refine h.remanaged tallied rfl rfl (h.orderly.setFile filename ⟨?_, ?_, MMFile.fresh_exclusive rfl⟩) ?_
      · intro q
        rw [empty]
        exact .nil
      · intro q
        rw [empty]
        exact .nil
      · refine MetadataManager.cover_congr fun q write b => iff_of_false ?_ ?_
        · rw [MMFile.cover, empty]
          exact Grants.nil
        · refine MetadataManager.not_cover (fun record found => ?_) q write b
          rw [new.2] at found
          cases found
  · next old =>
      rw [if_neg old]
      exact h

theorem Kept.deleteFile (h : s.Kept latest) (peer : Peer) (filename : String) : (s.deleteFile peer filename).2.Kept latest := by
  have tallied := deleteFile_tallied h.tallied peer filename
  have orderly := h.orderly.deleteFile filename
  have tokens := s.manager.cover_deleteFile filename
  unfold Deployment.deleteFile at tallied ⊢
  split
  · next started =>
      rw [if_pos started] at tallied
      split at tallied
      · next manager answered =>
          rw [answered] at orderly tokens
          exact h.remanaged tallied rfl rfl orderly tokens
      · next status manager other answered =>
          rw [answered] at orderly tokens
          exact h.remanaged tallied rfl rfl orderly tokens
  · exact h

/-- One client's copies change, and the manager's records do not. -/
theorem Kept.recopied (h : s.Kept latest) {peer : Peer} {files : ManyFiles} (tallied : (s.setFiles peer files).Tallied)
    (inv : files.Inv) (upToDate : ((s.setFiles peer files).replicas s.manager.cover latest).UpToDate) :
    (s.setFiles peer files).Kept latest := ⟨tallied, inv_setFiles h.tidy inv, h.orderly, upToDate⟩

theorem Kept.flush (h : s.Kept latest) {peer : Peer} {files : ManyFiles} (done : (s.files peer).flush = some files) :
    (s.setFiles peer files).Kept latest := by
  obtain ⟨A, copies, stored⟩ := (h.tidy peer).flush_cleans (apart_of_tallies (h.tallied peer)) done
  have step : (s.setFiles peer files).replicas s.manager.cover latest = (s.replicas s.manager.cover latest).clean peer A := by
    rw [replicas_setFiles, copies, stored]
    rfl
  refine h.recopied (flush_tallied h.tallied done) ((h.tidy peer).flush done) ?_
  rw [step]
  exact h.upToDate.clean peer A

theorem Kept.harvest (h : s.Kept latest) {peer : Peer} {files : ManyFiles} (done : (s.files peer).harvest = some files) :
    (s.setFiles peer files).Kept latest := by
  obtain ⟨A, drops⟩ := (h.tidy peer).harvest_drops (apart_of_tallies (h.tallied peer)) done
  refine h.recopied (harvest_tallied h.tallied done) ((h.tidy peer).harvest done) ?_
  rw [replicas_drops drops]
  exact h.upToDate.evict peer A

/-- A client that closes a file writes back what it has, and the manager forgets its tokens. -/
theorem Kept.closeFile (h : s.Kept latest) {peer : Peer} {filedes : Int} {now : Nat} {value : Int}
    (own : s.ClosesOwn (.closeFile peer filedes now)) (done : s.closeFile peer filedes now = some (value, s')) :
    s'.Kept latest := by
  have tallied := closeFile_tallied h.tallied own done
  cases started : s.started peer with
  | false =>
      rw [Deployment.closeFile, started] at done
      obtain ⟨-, rfl⟩ := Prod.mk.inj (Option.some.inj done)
      exact h
  | true =>
      obtain ⟨i, file, low, at_i, rfl⟩ := own.index
      obtain ⟨record, manager, found, opened, rfl, closes⟩ := closeFile_own h.tallied started low at_i now
      rw [closes] at done
      obtain ⟨⟨cache, bytes⟩, evicted, made⟩ := Option.map_eq_some_iff.mp done
      obtain ⟨-, rfl⟩ := Prod.mk.inj made
      have apart := apart_of_tallies (h.tallied peer)
      obtain ⟨drops, gone⟩ := (h.tidy peer).closed_drops apart at_i evicted
      have tokens : ∀ q, ((MetadataManager.recordClose now file.hasModified file.size record).close peer).1.tokens q =
          if q = peer then [] else record.tokens q := by
        intro q
        rw [MMFile.tokens_close]
        cases file.hasModified <;> rfl
      have covers := MetadataManager.cover_closed found tokens
      have index : (s.files peer).closeIndex file.descriptor = i := by
        have position : (s.files peer).closeIndex file.descriptor = min i 1 := (h.tidy peer).closeIndex_eq at_i rfl
        omega
      have there : (s.files peer).client.openedFiles[(s.files peer).closeIndex file.descriptor]? = some file := by
        rw [index]
        exact at_i
      have inv := (h.tidy peer).closeFile (ManyFiles.closeFile_eq there evicted .ok)
      rw [index] at inv
      refine ⟨tallied, inv_setFiles h.tidy inv, h.orderly.setFile file.name ((h.orderly _ _ found).closed tokens), ?_⟩
      refine Eq.mpr (congrArg Replicas.UpToDate (replicas_drops drops)) ?_
      refine (h.upToDate.evict peer (under file.name (bytesOf (PFSClient.tokenBlocks file.permissions)))).lose
        (fun q write a held => ((covers q write a).mp held).1) ?_ ?_
      · rintro q a ⟨record', found', held⟩
        exact ⟨record', found', held.read⟩
      · intro q a dirty held
        refine (covers q true a).mpr ⟨held, ?_⟩
        rintro ⟨rfl, here⟩
        obtain ⟨x, copy⟩ := dirty
        simp only [Replicas.evict, replicas, Function.update_self] at copy
        obtain ⟨name, b⟩ := a
        obtain rfl : name = file.name := here
        rw [show (s.clients q).fileCopies.drop _ = _ from drops.copies.symm, gone] at copy
        cases copy

/-- The grant a call needs, if it needs one, meets no slip. -/
def CleanCall (s : Deployment Peer) : Call Peer → Prop
  | .readFile peer filedes offset nbyte _ => s.CleanAccess peer filedes offset (offset + nbyte) false
  | .writeFile peer filedes offset nbyte _ _ => s.CleanAccess peer filedes offset (offset + nbyte) true
  | _ => True

instance (s : Deployment Peer) : (call : Call Peer) → Decidable (s.CleanCall call)
  | .readFile _ _ _ _ _ => inferInstanceAs (Decidable (CleanAccess _ _ _ _ _ _))
  | .writeFile _ _ _ _ _ _ => inferInstanceAs (Decidable (CleanAccess _ _ _ _ _ _))
  | .clientStart _ | .createFile .. | .createStrip _ | .openFile .. | .closeFile .. | .deleteFile .. | .flush _
  | .harvest _ => isTrue trivial

/-- It covers no stale copies. -/
def FreshCall (s : Deployment Peer) (latest : String → Nat → Option UInt8) : Call Peer → Prop
  | .readFile peer filedes offset nbyte _ => s.FreshAccess latest peer filedes offset (offset + nbyte) false
  | .writeFile peer filedes offset nbyte _ _ => s.FreshAccess latest peer filedes offset (offset + nbyte) true
  | _ => True

/-- The strips of a file are one array: a file has at least one strip, a name always has the same
    width, since the servers keep the first one they hear of, and nobody opens a file before all
    its strips are there. -/
def LaidOut (s : Deployment Peer) : Call Peer → Prop
  | .createFile _ filename stripeWidth _ _ =>
      1 ≤ stripeWidth.toInt ∧ ∀ handler ∈ s.creating, handler.1 = filename →
        handler.2.stripeWidth = stripeWidth.toUInt32.toNat
  | .openFile _ filename _ => ∀ handler ∈ s.creating, handler.1 = filename → handler.2.next = handler.2.stripeWidth
  | _ => True

instance (s : Deployment Peer) : (call : Call Peer) → Decidable (s.LaidOut call)
  | .createFile .. => inferInstanceAs (Decidable (_ ∧ ∀ _ ∈ _, _))
  | .openFile .. => inferInstanceAs (Decidable (∀ _ ∈ _, _))
  | .clientStart _ | .createStrip _ | .readFile .. | .writeFile .. | .closeFile .. | .deleteFile .. | .flush _
  | .harvest _ => isTrue trivial

end Deployment

/-- The system, and the bytes that were written last to each file since it was created. -/
structure Chronicle (Peer : Type) where
  system : Deployment Peer := {}
  latest : String → Nat → Option UInt8 := fun _ _ => none

namespace Chronicle

open Deployment (Call)

variable {s s' : Chronicle Peer}

def exec (s : Chronicle Peer) : Call Peer → Option (Chronicle Peer)
  | .createFile peer filename stripeWidth creationTime lastModifiedTime =>
      let created := s.system.createFile peer filename stripeWidth creationTime lastModifiedTime
      some ⟨created.2, if created.1 = 0 then Function.update s.latest filename fun _ => none else s.latest⟩
  | .writeFile peer filedes offset nbyte data order =>
      (s.system.writeFileHit peer filedes offset nbyte data order).map fun r =>
        ⟨r.1, s.system.writtenTo s.latest peer filedes offset nbyte data r.2.isSome⟩
  | call => (s.system.exec call).map fun system => { s with system := system }

/-- Runs of the system without slips and stale copies. -/
def machine : Machine (Chronicle Peer) (Call Peer) :=
  ⟨fun s call => Deployment.exactly.allowed s.system call ∧ s.system.LaidOut call ∧ s.system.CleanCall call ∧
    s.system.FreshCall s.latest call, exec⟩

def Initial (s : Chronicle Peer) : Prop := s = {}

def Kept (s : Chronicle Peer) : Prop := s.system.Kept s.latest

theorem kept_initial : ({} : Chronicle Peer).Kept := by
  refine ⟨.initial, fun q => .initial rfl, ?_, ⟨⟨?_, ?_, ?_⟩, ?_, ?_⟩⟩
  · intro name record found
    cases found
  · rintro p a ⟨record, found, -⟩
    cases found
  · rintro p q a distinct ⟨record, found, -⟩
    cases found
  · rintro p a ⟨x, copy⟩
    cases copy
  · rintro p a x c ⟨record, found, -⟩
    cases found
  · rintro a x ⟨⟩

theorem kept_write (h : s.Kept) {peer : Peer} {filedes offset nbyte : Nat} {data : Nat → UInt8} {order : List Peer}
    {system : Deployment Peer} {hit : Option Bool} (small : offset + nbyte ≤ intMax)
    (clean : s.system.CleanAccess peer filedes offset (offset + nbyte) true)
    (fresh : s.system.FreshAccess s.latest peer filedes offset (offset + nbyte) true)
    (done : s.system.writeFileHit peer filedes offset nbyte data order = some (system, hit)) :
    system.Kept (s.system.writtenTo s.latest peer filedes offset nbyte data hit.isSome) := by
  obtain ⟨⟨s₁, reply⟩, asked, done⟩ := Option.bind_eq_some_iff.mp done
  obtain ⟨⟨files, cacheHit⟩, writing, done⟩ := Option.bind_eq_some_iff.mp done
  obtain ⟨rfl, rfl⟩ := Prod.mk.inj (Option.some.inj done)
  obtain ⟨cached, -⟩ := Deployment.requestPermission_find (fun q => (h.tidy q).wf) asked
  rw [ManyFiles.writeFileHit_eq (cached peer)] at writing
  obtain ⟨⟨files', wrote⟩, written, shape⟩ := Option.map_eq_some_iff.mp writing
  obtain ⟨rfl, rfl⟩ := Prod.mk.inj shape
  have after := Deployment.Kept.write h small clean fresh asked written
  cases wrote with
  | false => exact after
  | true => exact after

theorem Kept.step (h : s.Kept) (step : machine.Step s s') : s'.Kept := by
  obtain ⟨call, ⟨⟨range, own⟩, -, clean, fresh⟩, done⟩ := step
  cases call with
  | clientStart peer =>
      obtain rfl := Option.some.inj done
      exact Deployment.Kept.remanaged h h.tallied rfl rfl h.orderly rfl
  | createFile peer filename stripeWidth creationTime lastModifiedTime =>
      obtain rfl := Option.some.inj done
      have kept := Deployment.Kept.createFile h peer filename stripeWidth creationTime lastModifiedTime
      refine ⟨kept.tallied, kept.tidy, kept.orderly, kept.upToDate.forget ?_⟩
      rintro ⟨name, b⟩ x written
      simp only [Function.uncurry_apply_pair] at written
      split at written
      · by_cases same : name = filename
        · subst same
          rw [Function.update_self] at written
          cases written
        · rw [Function.update_of_ne same] at written
          exact written
      · exact written
  | createStrip handler =>
      obtain ⟨system, ran, rfl⟩ := Option.map_eq_some_iff.mp done
      obtain ⟨⟨name, loop⟩, -, ran⟩ := Option.bind_eq_some_iff.mp ran
      obtain ⟨-, ran⟩ := Option.ite_none_right_eq_some.mp ran
      obtain rfl := Option.some.inj ran
      exact Deployment.Kept.remanaged h h.tallied rfl rfl h.orderly rfl
  | openFile peer filename mode =>
      obtain rfl := Option.some.inj done
      exact Deployment.Kept.openFile h peer filename mode
  | readFile peer filedes offset nbyte order =>
      obtain ⟨system, ran, rfl⟩ := Option.map_eq_some_iff.mp done
      obtain ⟨⟨s₁, reply⟩, asked, ran⟩ := Option.bind_eq_some_iff.mp ran
      obtain ⟨⟨files, result⟩, read, ran⟩ := Option.bind_eq_some_iff.mp ran
      obtain rfl := Option.some.inj ran
      exact (Deployment.Kept.read h range clean fresh asked read).1
  | writeFile peer filedes offset nbyte data order =>
      obtain ⟨⟨system, hit⟩, ran, rfl⟩ := Option.map_eq_some_iff.mp done
      exact kept_write h range clean fresh ran
  | closeFile peer filedes now =>
      obtain ⟨system, ran, rfl⟩ := Option.map_eq_some_iff.mp done
      obtain ⟨⟨value, _⟩, closed, rfl⟩ := Option.map_eq_some_iff.mp ran
      exact Deployment.Kept.closeFile h own closed
  | deleteFile peer filename =>
      obtain rfl := Option.some.inj done
      exact Deployment.Kept.deleteFile h peer filename
  | flush peer =>
      obtain ⟨system, ran, rfl⟩ := Option.map_eq_some_iff.mp done
      obtain ⟨files, flushed, rfl⟩ := Option.map_eq_some_iff.mp ran
      exact Deployment.Kept.flush h flushed
  | harvest peer =>
      obtain ⟨system, ran, rfl⟩ := Option.map_eq_some_iff.mp done
      obtain ⟨files, harvested, rfl⟩ := Option.map_eq_some_iff.mp ran
      exact Deployment.Kept.harvest h harvested

theorem Kept.reachable (reach : Reachable Initial machine.Step s) : s.Kept := by
  refine reach.invariant Kept ?_ fun _ _ kept step => kept.step step
  rintro s rfl
  exact kept_initial

/-- In these runs a read of any file returns, for every byte that has been written since the file
    was created, the byte of the latest `writeFile`, whichever client wrote it. -/
theorem every_file_read {s : Chronicle Peer} (reach : Reachable Initial machine.Step s) {peer : Peer}
    {filedes offset nbyte : Nat} {order : List Peer} {system : Deployment Peer} {buffer : Nat → UInt8} {hit : Bool}
    (allowed : machine.allowed s (.readFile peer filedes offset nbyte order))
    (read : s.system.readFileHit peer filedes offset nbyte order = some (system, some (buffer, hit))) {file : ClientFile}
    (opened : file ∈ (s.system.clients peer).openedFiles) (descriptor : file.descriptor = filedes) {k : Nat} {x : UInt8}
    (inside : k < nbyte) (written : s.latest file.name (offset + k) = some x) : buffer k = x := by
  have h := Kept.reachable reach
  obtain ⟨⟨range, -⟩, -, clean, fresh⟩ := allowed
  obtain ⟨⟨s₁, reply⟩, asked, done⟩ := Option.bind_eq_some_iff.mp read
  obtain ⟨⟨files, result⟩, reading, made⟩ := Option.bind_eq_some_iff.mp done
  obtain ⟨-, rfl⟩ := Prod.mk.inj (Option.some.inj made)
  obtain ⟨cached, -⟩ := Deployment.requestPermission_find (fun q => (h.tidy q).wf) asked
  rw [ManyFiles.readFileHit_eq (cached peer)] at reading
  obtain ⟨⟨files', answer⟩, bytes, shape⟩ := Option.map_eq_some_iff.mp reading
  obtain ⟨-, reported⟩ := Prod.mk.inj shape
  obtain ⟨buffer', returned, pair⟩ := Option.map_eq_some_iff.mp reported
  obtain ⟨rfl, -⟩ := Prod.mk.inj pair
  obtain ⟨-, reads⟩ := Deployment.Kept.read h range clean fresh asked bytes
  refine reads buffer' returned file.name ?_ k x inside written
  obtain ⟨i, at_i⟩ := List.getElem?_of_mem opened
  have index := PFSClient.findIdx_descriptor (h.tallied peer) at_i rfl
  simp only [Int.ofNat_inj] at index
  rw [List.find?_eq_bind_findIdx?_getElem?, ← descriptor, index, Option.bind_some, at_i, Option.map_some]

/-- Client 1 writes to two files, and client 2 has one of them open too. -/
def twoFiles : Option (Chronicle Nat) :=
  List.foldlM exec {} [.clientStart 1, .clientStart 2, .createFile 1 "f" 1 5 5, .createStrip 0, .createFile 1 "g" 1 6 6,
    .createStrip 1, .openFile 1 "f" 'w', .openFile 1 "g" 'w', .openFile 2 "f" 'r', .writeFile 1 1 0 2 (fun _ => 7) [],
    .writeFile 1 2 0 2 (fun _ => 9) []]

theorem twoFiles_reachable : Reachable Initial machine.Step (twoFiles.get rfl) := by
  have start : Reachable Initial machine.Step ({} : Chronicle Nat) := Reachable.init rfl
  have started₁ := start.tail ⟨.clientStart 1, ⟨by decide, trivial, trivial, trivial⟩, rfl⟩
  have started₂ := started₁.tail ⟨.clientStart 2, ⟨by decide, trivial, trivial, trivial⟩, rfl⟩
  have created₁ := started₂.tail ⟨.createFile 1 "f" 1 5 5, ⟨by decide, by decide, trivial, trivial⟩, rfl⟩
  have laid₁ := created₁.tail ⟨.createStrip 0, ⟨by decide, trivial, trivial, trivial⟩, rfl⟩
  have created₂ := laid₁.tail ⟨.createFile 1 "g" 1 6 6, ⟨by decide, by decide, trivial, trivial⟩, rfl⟩
  have laid₂ := created₂.tail ⟨.createStrip 1, ⟨by decide, trivial, trivial, trivial⟩, rfl⟩
  have opened₁ := laid₂.tail ⟨.openFile 1 "f" 'w', ⟨by decide, by decide, trivial, trivial⟩, rfl⟩
  have opened₂ := opened₁.tail ⟨.openFile 1 "g" 'w', ⟨by decide, by decide, trivial, trivial⟩, rfl⟩
  have opened₃ := opened₂.tail ⟨.openFile 2 "f" 'r', ⟨by decide, by decide, trivial, trivial⟩, rfl⟩
  have written := opened₃.tail ⟨.writeFile 1 1 0 2 (fun _ => 7) [], ⟨by decide, trivial, by decide,
    .of_nothing (by rintro _ ⟨⟩ b; exact .inl rfl) _ _ _⟩, rfl⟩
  exact written.tail ⟨.writeFile 1 2 0 2 (fun _ => 9) [], ⟨by decide, trivial, by decide,
    .of_nothing (by rintro _ ⟨⟩ b; exact .inl rfl) _ _ _⟩, rfl⟩

/-- The other client reads what client 1 wrote to the first file. -/
theorem every_file_read_twoFiles : ∃ system buffer hit,
    (twoFiles.get rfl).system.readFileHit 2 1 0 2 [1] = some (system, some (buffer, hit)) ∧ buffer 1 = 7 := by
  have allowed : machine.allowed (twoFiles.get rfl) (.readFile 2 1 0 2 [1]) := by
    refine ⟨by decide, trivial, by decide, .of_nothing ?_ _ _ _⟩
    rintro _ ⟨⟩ b
    exact .inr (Cache.init_byte _ b)
  obtain ⟨system, buffer, hit, read⟩ : ∃ system buffer hit,
      (twoFiles.get rfl).system.readFileHit 2 1 0 2 [1] = some (system, some (buffer, hit)) := ⟨_, _, _, rfl⟩
  obtain ⟨file, files, named, descriptor⟩ : ∃ file, ((twoFiles.get rfl).system.clients 2).openedFiles = [file] ∧
      file.name = "f" ∧ file.descriptor = 1 := ⟨_, rfl, rfl, rfl⟩
  have opened : file ∈ ((twoFiles.get rfl).system.clients 2).openedFiles := by
    rw [files]
    exact List.mem_cons_self
  refine ⟨system, buffer, hit, read, every_file_read twoFiles_reachable allowed read opened descriptor (by decide) ?_⟩
  rw [named]
  rfl

/-- Once nobody has a file open, the file servers have the latest byte of every write to it, also if
    the file has been deleted. -/
theorem every_file_at_rest {s : Chronicle Peer} (reach : Reachable Initial machine.Step s) {name : String}
    (closed : ∀ q, ∀ file ∈ (s.system.clients q).openedFiles, file.name ≠ name) {b : Nat} {x : UInt8}
    (written : s.latest name b = some x) : s.system.store name b = x := by
  have h := Kept.reachable reach
  refine h.upToDate.at_rest (a := (name, b)) ?_ written
  rintro q ⟨record, found, granted⟩
  have opened : record.isOpenedBy q = true := by
    by_contra absent
    have empty : record.tokens q = [] := MMFile.tokens_of_absent (by simpa [MMFile.isOpenedBy] using absent)
    rw [MMFile.cover, empty] at granted
    exact Grants.nil granted
  have entry : s.system.manager.entries q name = some (bareList (record.tokens q), record.stripWidth) := by
    rw [MetadataManager.entries_of_lookup found, if_pos opened]
  obtain ⟨r, member, named, -⟩ := ((h.tallied q).same _ _ _).mp entry
  obtain ⟨file, inside, rfl⟩ := List.mem_map.mp member
  exact closed q file inside named

theorem reachable_closeFile (reach : Reachable Initial machine.Step s) {peer : Peer} {filedes : Int} {now : Nat}
    {value : Int} {system : Deployment Peer} (own : s.system.ClosesOwn (.closeFile peer filedes now))
    (closes : s.system.closeFile peer filedes now = some (value, system)) :
    Reachable Initial machine.Step { s with system := system } := by
  have done : s.system.exec (.closeFile peer filedes now) = some system :=
    Option.map_eq_some_iff.mpr ⟨(value, system), closes, rfl⟩
  exact reach.tail ⟨.closeFile peer filedes now, ⟨⟨trivial, own⟩, trivial, trivial, trivial⟩,
    Option.map_eq_some_iff.mpr ⟨system, done, rfl⟩⟩

/-- One of two clients writes to a file. -/
def wroteOne : Option (Chronicle Bool) :=
  List.foldlM exec {} [.clientStart true, .createFile true "f" 1 5 5, .createStrip 0, .openFile true "f" 'w',
    .writeFile true 1 0 2 (fun _ => 7) []]

/-- It closes the file, and the file servers have the bytes. -/
theorem every_file_at_rest_wroteOne : ∃ system,
    (wroteOne.get rfl).system.closeFile true 1 9 = some (0, system) ∧ system.store "f" 1 = 7 := by
  have start : Reachable Initial machine.Step ({} : Chronicle Bool) := Reachable.init rfl
  have started := start.tail ⟨.clientStart true, ⟨by decide, trivial, trivial, trivial⟩, rfl⟩
  have created := started.tail ⟨.createFile true "f" 1 5 5, ⟨by decide, by decide, trivial, trivial⟩, rfl⟩
  have laid := created.tail ⟨.createStrip 0, ⟨by decide, trivial, trivial, trivial⟩, rfl⟩
  have opened := laid.tail ⟨.openFile true "f" 'w', ⟨by decide, by decide, trivial, trivial⟩, rfl⟩
  have reach : Reachable Initial machine.Step (wroteOne.get rfl) :=
    opened.tail ⟨.writeFile true 1 0 2 (fun _ => 7) [], ⟨by decide, trivial, by decide,
      .of_nothing (by rintro _ ⟨⟩ b; exact .inl rfl) _ _ _⟩, rfl⟩
  have kept := Kept.reachable reach
  obtain ⟨file, files, descriptor, named⟩ : ∃ file, ((wroteOne.get rfl).system.clients true).openedFiles = [file] ∧
      file.descriptor = 1 ∧ file.name = "f" := ⟨_, rfl, rfl, rfl⟩
  have at_0 : ((wroteOne.get rfl).system.clients true).openedFiles[0]? = some file := by
    rw [files]
    rfl
  obtain ⟨cache, bytes, evicted, -⟩ := (kept.tidy true).emptied (List.mem_of_getElem? at_0)
  obtain ⟨record, manager, -, -, -, closes⟩ := Deployment.closeFile_own kept.tallied rfl (Nat.zero_le 1) at_0 9
  have closes := closes.trans (congrArg (Option.map _) evicted)
  rw [Option.map_some, descriptor] at closes
  have own : (wroteOne.get rfl).system.ClosesOwn (.closeFile true 1 9) := by decide
  have rest := reachable_closeFile reach own closes
  refine ⟨_, closes, every_file_at_rest rest (fun q other member => ?_) rfl⟩
  cases q with
  | true =>
      simp only [Deployment.setFiles_self, files, List.eraseIdx_cons_zero] at member
      exact (List.not_mem_nil member).elim
  | false =>
      simp only [Deployment.setFiles_other _ _ Bool.false_ne_true] at member
      exact (List.not_mem_nil member).elim

end Chronicle

end PFS
