import PFS.Manager.Exclusion
import PFS.System.Agreement
import PFS.System.Deployment

/-! # Who has which file open

Every client has a table of its open files, the manager has one of its clients for every
file, and nothing but the calls keeps them in step.  While `closeFile` is called only for the
first two of a client's files, where its `bool` index is right, they agree on the names, the
stripe widths and the tokens, whatever is created, deleted, opened and closed in between.  So
no file is deleted while a client has it open, and the clients' own tokens are exclusive.
-/

namespace PFS

open Lib

/-- `struct pfs_stat`. -/
structure PfsStat where
  mtime : Nat
  ctime : Nat
  size : Nat

/-- An open file as its client knows it, without its size, its times and its locks. -/
structure OpenFile where
  descriptor : Nat
  name : String
  tokens : List Permission
  width : Nat

def ClientFile.row (file : ClientFile) : OpenFile :=
  ⟨file.descriptor, file.name, bareList file.permissions, file.stripWidth⟩

def PFSClient.rows (c : PFSClient) : List OpenFile := c.openedFiles.map ClientFile.row

/-- The tokens and the width of each file that is open. -/
abbrev Entries := String → Option (List Permission × Nat)

/-- The tokens of one file are changed. -/
def Entries.retoken (e : Entries) (name : String) (f : List Permission → List Permission) : Entries := fun n =>
  if n = name then (e n).map fun entry => (f entry.1, entry.2) else e n

def OpenFile.retoken (name : String) (f : List Permission → List Permission) (r : OpenFile) : OpenFile :=
  if r.name = name then { r with tokens := f r.tokens } else r

/-- The rows are those of the entries, under descriptors of their own. -/
structure Tallies (rows : List OpenFile) (count : Nat) (e : Entries) : Prop where
  names : (rows.map OpenFile.name).Nodup
  descriptors : (rows.map OpenFile.descriptor).Nodup
  numbered : ∀ r ∈ rows, r.descriptor ≤ count
  same : ∀ name tokens width, e name = some (tokens, width) ↔ ∃ r ∈ rows, r.name = name ∧ r.tokens = tokens ∧ r.width = width

namespace Tallies

variable {rows : List OpenFile} {count : Nat} {e : Entries}

theorem entry (h : Tallies rows count e) {r : OpenFile} (member : r ∈ rows) : e r.name = some (r.tokens, r.width) :=
  (h.same r.name r.tokens r.width).mpr ⟨r, member, rfl, rfl, rfl⟩

theorem absent (h : Tallies rows count e) {name : String} : e name = none ↔ ∀ r ∈ rows, r.name ≠ name := by
  constructor
  · rintro none r member rfl
    rw [h.entry member] at none
    cases none
  · intro missing
    cases found : e name with
    | none => rfl
    | some entry =>
        obtain ⟨r, member, named, -⟩ := (h.same name entry.1 entry.2).mp found
        exact (missing r member named).elim

theorem unique (h : Tallies rows count e) {r r' : OpenFile} (member : r ∈ rows) (member' : r' ∈ rows)
    (same : r.name = r'.name) : r = r' := List.inj_on_of_nodup_map h.names member member' same

theorem nothing : Tallies [] 0 fun _ => none := by
  refine ⟨List.nodup_nil, List.nodup_nil, fun r member => (List.not_mem_nil member).elim, fun name tokens width => ?_⟩
  constructor
  · intro none
    cases none
  · rintro ⟨r, member, -⟩
    exact (List.not_mem_nil member).elim

theorem «open» (h : Tallies rows count e) {name : String} (absent : e name = none) (width : Nat) :
    Tallies (rows ++ [⟨count + 1, name, [], width⟩]) (count + 1) (Function.update e name (some ([], width))) := by
  have others := h.absent.mp absent
  refine ⟨?_, ?_, ?_, fun name' tokens' width' => ?_⟩
  · rw [List.map_append, List.nodup_append']
    refine ⟨h.names, List.nodup_singleton _, ?_⟩
    intro a inside here
    obtain ⟨r, member, rfl⟩ := List.mem_map.mp inside
    exact others r member (List.mem_singleton.mp here)
  · rw [List.map_append, List.nodup_append']
    refine ⟨h.descriptors, List.nodup_singleton _, ?_⟩
    intro a inside here
    obtain ⟨r, member, rfl⟩ := List.mem_map.mp inside
    have low := h.numbered r member
    rw [List.mem_singleton.mp here] at low
    exact Nat.not_succ_le_self count low
  · intro r member
    rcases List.mem_append.mp member with old | new
    · exact Nat.le_succ_of_le (h.numbered r old)
    · rw [List.mem_singleton.mp new]
  · by_cases here : name' = name
    · subst here
      rw [Function.update_self]
      constructor
      · intro found
        obtain ⟨rfl, rfl⟩ := Prod.mk.inj (Option.some.inj found)
        exact ⟨_, List.mem_append_right _ List.mem_cons_self, rfl, rfl, rfl⟩
      · rintro ⟨r, member, named, rfl, rfl⟩
        rcases List.mem_append.mp member with old | new
        · exact (others r old named).elim
        · rw [List.mem_singleton.mp new]
    · rw [Function.update_of_ne here, h.same]
      constructor
      · rintro ⟨r, member, rest⟩
        exact ⟨r, List.mem_append_left _ member, rest⟩
      · rintro ⟨r, member, named, rest⟩
        rcases List.mem_append.mp member with old | new
        · exact ⟨r, old, named, rest⟩
        · rw [List.mem_singleton.mp new] at named
          exact (here named.symm).elim

theorem index_unique (h : Tallies rows count e) {i j : Nat} {r r' : OpenFile} (at_i : rows[i]? = some r)
    (at_j : rows[j]? = some r') (same : r.name = r'.name) : i = j := by
  obtain ⟨inside, -⟩ := List.getElem?_eq_some_iff.mp at_i
  refine (List.getElem?_inj (by rwa [List.length_map]) h.names).mp ?_
  rw [List.getElem?_map, List.getElem?_map, at_i, at_j, Option.map_some, Option.map_some, same]

theorem mem_eraseIdx (h : Tallies rows count e) {i : Nat} {r r' : OpenFile} (at_i : rows[i]? = some r) :
    r' ∈ rows.eraseIdx i ↔ r' ∈ rows ∧ r'.name ≠ r.name := by
  rw [List.mem_eraseIdx_iff_getElem?]
  constructor
  · rintro ⟨j, other, at_j⟩
    refine ⟨List.mem_of_getElem? at_j, fun same => ?_⟩
    exact other (h.index_unique at_j at_i same)
  · rintro ⟨member, other⟩
    obtain ⟨j, at_j⟩ := List.getElem?_of_mem member
    refine ⟨j, ?_, at_j⟩
    rintro rfl
    obtain rfl := Option.some.inj (at_i.symm.trans at_j)
    exact other rfl

theorem close (h : Tallies rows count e) {i : Nat} {r : OpenFile} (at_i : rows[i]? = some r) :
    Tallies (rows.eraseIdx i) count (Function.update e r.name none) := by
  refine ⟨h.names.sublist ((List.eraseIdx_sublist _ _).map _), h.descriptors.sublist ((List.eraseIdx_sublist _ _).map _),
    fun r' member => h.numbered r' ((h.mem_eraseIdx at_i).mp member).1, fun name tokens width => ?_⟩
  simp only [h.mem_eraseIdx at_i]
  by_cases here : name = r.name
  · subst here
    rw [Function.update_self]
    constructor
    · intro none
      cases none
    · rintro ⟨r', ⟨-, other⟩, named, -⟩
      exact (other named).elim
  · rw [Function.update_of_ne here, h.same]
    constructor
    · rintro ⟨r', member, rfl, rest⟩
      exact ⟨r', ⟨member, here⟩, rfl, rest⟩
    · rintro ⟨r', ⟨member, -⟩, rest⟩
      exact ⟨r', member, rest⟩

theorem retoken (h : Tallies rows count e) (name : String) (f : List Permission → List Permission) :
    Tallies (rows.map (OpenFile.retoken name f)) count (e.retoken name f) := by
  have names : ∀ r : OpenFile, (r.retoken name f).name = r.name := by
    intro r
    rw [OpenFile.retoken]
    split <;> rfl
  have descriptors : ∀ r : OpenFile, (r.retoken name f).descriptor = r.descriptor := by
    intro r
    rw [OpenFile.retoken]
    split <;> rfl
  refine ⟨?_, ?_, ?_, fun name' tokens width => ?_⟩
  · rw [List.map_map, show OpenFile.name ∘ OpenFile.retoken name f = OpenFile.name from funext names]
    exact h.names
  · rw [List.map_map, show OpenFile.descriptor ∘ OpenFile.retoken name f = OpenFile.descriptor from funext descriptors]
    exact h.descriptors
  · intro r member
    obtain ⟨old, inside, rfl⟩ := List.mem_map.mp member
    rw [descriptors]
    exact h.numbered old inside
  · rw [Entries.retoken]
    by_cases here : name' = name
    · subst here
      rw [if_pos rfl]
      constructor
      · intro found
        obtain ⟨entry, before, made⟩ := Option.map_eq_some_iff.mp found
        obtain ⟨rfl, rfl⟩ := Prod.mk.inj made
        obtain ⟨r, member, rfl, tokens, width⟩ := (h.same name' entry.1 entry.2).mp before
        refine ⟨_, List.mem_map_of_mem member, names r, ?_, ?_⟩
        · rw [OpenFile.retoken, if_pos rfl, tokens]
        · rw [OpenFile.retoken, if_pos rfl, width]
      · rintro ⟨r', member, named, rfl, rfl⟩
        obtain ⟨r, inside, rfl⟩ := List.mem_map.mp member
        rw [names] at named
        subst named
        rw [h.entry inside, Option.map_some, OpenFile.retoken, if_pos rfl]
    · rw [if_neg here, h.same]
      have other : ∀ r : OpenFile, r.name = name' → r.retoken name f = r := by
        rintro r rfl
        rw [OpenFile.retoken, if_neg here]
      constructor
      · rintro ⟨r, member, named, rest⟩
        exact ⟨r, List.mem_map.mpr ⟨r, member, other r named⟩, named, rest⟩
      · rintro ⟨r', member, named, rest⟩
        obtain ⟨r, inside, rfl⟩ := List.mem_map.mp member
        rw [names] at named
        rw [other r named] at rest
        exact ⟨r, inside, named, rest⟩

end Tallies

/-! ## The clients -/

namespace PFSClient

variable {c c' : PFSClient} {count : Nat} {e : Entries}

theorem rows_at {i : Nat} {file : ClientFile} (at_i : c.openedFiles[i]? = some file) : c.rows[i]? = some file.row := by
  rw [rows, List.getElem?_map, at_i, Option.map_some]

theorem rows_set (cache : Cache) (i : Nat) (file : ClientFile) :
    ({ c with cache := cache }.setFile i file).rows = c.rows.set i file.row := List.map_set

/-- A file is replaced by one with the same row. -/
theorem rows_setFile {i : Nat} {file file' : ClientFile} (at_i : c.openedFiles[i]? = some file)
    (same : file'.row = file.row) (cache : Cache) : ({ c with cache := cache }.setFile i file').rows = c.rows := by
  rw [rows_set, same]
  refine List.ext_getElem? fun j => ?_
  rw [List.getElem?_set]
  split
  · next here =>
      subst here
      rw [if_pos (List.getElem?_eq_some_iff.mp (rows_at at_i)).1, rows_at at_i]
  · rfl

/-- A file gets other tokens. -/
theorem rows_retoken (h : Tallies c.rows count e) {i : Nat} {file : ClientFile} (at_i : c.openedFiles[i]? = some file)
    {l : List Permission} (f : List Permission → List Permission) (tokens : bareList l = f (bareList file.permissions))
    (cache : Cache) : ({ c with cache := cache }.setFile i { file with permissions := l }).rows =
      c.rows.map (OpenFile.retoken file.name f) := by
  have row := rows_at at_i
  rw [rows_set]
  refine List.ext_getElem? fun j => ?_
  rw [List.getElem?_set, List.getElem?_map]
  split
  · next here =>
      subst here
      rw [if_pos (List.getElem?_eq_some_iff.mp row).1, row, Option.map_some, OpenFile.retoken]
      simp only [ClientFile.row, if_true, tokens]
  · next other =>
      cases at_j : c.rows[j]? with
      | none => rfl
      | some r =>
          have different : r.name ≠ file.name := by
            intro same
            exact other (h.index_unique row at_j same.symm)
          rw [Option.map_some, OpenFile.retoken, if_neg different]

theorem findIdx_descriptor (h : Tallies c.rows count e) {i : Nat} {file : ClientFile} {filedes : Int}
    (at_i : c.openedFiles[i]? = some file) (is : (file.descriptor : Int) = filedes) :
    (c.openedFiles.findIdx? fun file => (file.descriptor : Int) = filedes) = some i := by
  obtain ⟨inside, rfl⟩ := List.getElem?_eq_some_iff.mp at_i
  refine List.findIdx?_eq_some_iff_getElem.mpr ⟨inside, decide_eq_true is, ?_⟩
  intro j less found
  have other := of_decide_eq_true found
  have distinct := h.descriptors
  rw [rows, List.map_map] at distinct
  have different := List.pairwise_iff_getElem.mp distinct j i (by rw [List.length_map]; omega)
    (by rwa [List.length_map]) less
  simp only [List.getElem_map, Function.comp_apply, ClientFile.row] at different
  omega

theorem rows_revokePermission (h : Tallies c.rows count e) {bytes bytes' : FileBytes} {name : String} {start stop : Nat}
    (revoked : c.revokePermission bytes name start stop = some (c', bytes')) :
    c'.rows = c.rows.map (OpenFile.retoken name (PFS.revokePermission start stop)) ∧
      c'.descriptorCount = c.descriptorCount := by
  unfold PFSClient.revokePermission at revoked
  split at revoked
  · next missing =>
      obtain ⟨rfl, -⟩ := Prod.mk.inj (Option.some.inj revoked)
      refine ⟨?_, rfl⟩
      rw [rows, List.map_map]
      refine List.map_congr_left fun file member => ?_
      have other : file.row.name ≠ name := of_decide_eq_false (List.findIdx?_eq_none_iff.mp missing file member)
      rw [Function.comp_apply, OpenFile.retoken, if_neg other]
  · next i found =>
      simp only [Option.bind_eq_bind] at revoked
      obtain ⟨file, at_i, revoked⟩ := Option.bind_eq_some_iff.mp revoked
      obtain ⟨-, revoked⟩ := Option.ite_none_left_eq_some.mp revoked
      obtain ⟨⟨cache, flushed⟩, -, revoked⟩ := Option.bind_eq_some_iff.mp revoked
      obtain ⟨rfl, -⟩ := Prod.mk.inj (Option.some.inj revoked)
      have named : file.name = name := by
        obtain ⟨inside, named, -⟩ := List.findIdx?_eq_some_iff_getElem.mp found
        obtain ⟨-, rfl⟩ := List.getElem?_eq_some_iff.mp at_i
        exact of_decide_eq_true named
      refine ⟨?_, rfl⟩
      rw [← named]
      exact rows_retoken h at_i _ (revokePermission_bare start stop file.permissions).symm cache

theorem rows_readBytes {bytes : FileBytes} {i filedes offset nbyte : Nat} {buffer : Nat → UInt8}
    (done : c.readBytes bytes i filedes offset nbyte = some (c', buffer)) :
    c'.rows = c.rows ∧ c'.descriptorCount = c.descriptorCount := by
  simp only [PFSClient.readBytes, Option.bind_eq_bind] at done
  obtain ⟨⟨cache, buffer'⟩, -, done⟩ := Option.bind_eq_some_iff.mp done
  obtain ⟨file, at_i, done⟩ := Option.bind_eq_some_iff.mp done
  obtain ⟨rfl, -⟩ := Prod.mk.inj (Option.some.inj done)
  refine ⟨rows_setFile at_i ?_ cache, rfl⟩
  simp only [ClientFile.row, bareList_unlockPermission]

theorem rows_writeBytes {bytes : FileBytes} {i filedes offset nbyte : Nat} {data : Nat → UInt8}
    (done : c.writeBytes bytes i filedes offset nbyte data = some c') :
    c'.rows = c.rows ∧ c'.descriptorCount = c.descriptorCount := by
  simp only [PFSClient.writeBytes, Option.bind_eq_bind] at done
  obtain ⟨cache, -, done⟩ := Option.bind_eq_some_iff.mp done
  obtain ⟨file, at_i, done⟩ := Option.bind_eq_some_iff.mp done
  obtain rfl := Option.some.inj done
  refine ⟨rows_setFile at_i ?_ cache, rfl⟩
  simp only [ClientFile.row, bareList_unlockPermission]

end PFSClient

theorem ManyFiles.rows_revokePermission {f f' : ManyFiles} {count : Nat} {e : Entries} (h : Tallies f.client.rows count e)
    {name : String} {start stop : Nat} (done : f.revokePermission name start stop = some f') :
    f'.client.rows = f.client.rows.map (OpenFile.retoken name (PFS.revokePermission start stop)) ∧
      f'.client.descriptorCount = f.client.descriptorCount := by
  obtain ⟨⟨c, bytes⟩, revoked, rfl⟩ := Option.map_eq_some_iff.mp done
  exact PFSClient.rows_revokePermission h revoked

/-! ## The manager -/

namespace MetadataManager

variable {Peer : Type} [DecidableEq Peer] {m : MetadataManager Peer}

/-- The files that a peer has open. -/
def entries (m : MetadataManager Peer) (peer : Peer) : Entries := fun name =>
  (m.files.lookup name).bind fun record =>
    if record.isOpenedBy peer then some (bareList (record.tokens peer), record.stripWidth) else none

theorem entries_setFile {name : String} {record : MMFile Peer} {q : Peer} {entry : Option (List Permission × Nat)}
    (here : (if record.isOpenedBy q then some (bareList (record.tokens q), record.stripWidth) else none) = entry) :
    (m.setFile name record).entries q = Function.update (m.entries q) name entry := by
  funext other
  by_cases same : other = name
  · subst same
    rw [Function.update_self, entries, lookup_setFile, Option.bind_some, here]
  · rw [Function.update_of_ne same, entries, entries, lookup_setFile_ne m same]

theorem entries_of_lookup {name : String} {record : MMFile Peer} (found : m.files.lookup name = some record) (q : Peer) :
    m.entries q name =
      if record.isOpenedBy q then some (bareList (record.tokens q), record.stripWidth) else none := by
  rw [entries, found, Option.bind_some]

/-- A record is replaced by one that a peer has open as before. -/
theorem entries_setFile_same {name : String} {record record' : MMFile Peer} {q : Peer}
    (found : m.files.lookup name = some record) (opened : record'.isOpenedBy q = record.isOpenedBy q)
    (tokens : record'.tokens q = record.tokens q) (width : record'.stripWidth = record.stripWidth) :
    (m.setFile name record').entries q = m.entries q := by
  rw [entries_setFile rfl, opened, tokens, width, ← entries_of_lookup found]
  exact Function.update_eq_self _ _

/-- Nobody has a new file open. -/
theorem entries_create {name : String} (absent : m.files.lookup name = none) (creationTime lastModifiedTime width : Nat)
    (q : Peer) : (m.setFile name
      { name, size := 0, creationTime, lastModifiedTime, stripWidth := width }).entries q = m.entries q := by
  have none : m.entries q name = none := by rw [entries, absent, Option.bind_none]
  refine (entries_setFile (if_neg ?_)).trans (Function.update_eq_self_iff.mpr none.symm)
  exact Bool.false_ne_true

/-- Nobody had the file open that is deleted. -/
theorem entries_deleteFile (name : String) (q : Peer) : (m.deleteFile name).2.2.entries q = m.entries q := by
  unfold deleteFile
  split
  · rfl
  · next record found =>
      split
      · rfl
      · next closed =>
          have nobody : record.isOpenedBy q = false := by
            by_contra opened
            exact closed (MMFile.isOpen_of_isOpenedBy (by simpa using opened))
          funext other
          by_cases same : other = name
          · subst same
            rw [entries_of_lookup found, nobody, entries, AList.lookup_erase, Option.bind_none]
            rfl
          · rw [entries, entries, AList.lookup_erase_ne same]

theorem entries_open {name : String} {record : MMFile Peer} (found : m.files.lookup name = some record) {peer : Peer}
    (new : record.isOpenedBy peer = false) (q : Peer) : (m.setFile name (record.open peer).1).entries q =
      if q = peer then Function.update (m.entries q) name (some ([], record.stripWidth)) else m.entries q := by
  have width : (record.open peer).1.stripWidth = record.stripWidth := by
    rw [MMFile.open]
    split <;> rfl
  split
  · next here =>
      subst here
      refine entries_setFile ?_
      have empty : record.tokens q = [] := MMFile.tokens_of_absent (Option.isNone_iff_eq_none.mp (by
        rw [← Option.not_isSome, show (record.clientPermissions.lookup q).isSome = false from new]; rfl))
      rw [MMFile.isOpenedBy_open, MMFile.tokens_open, width, empty, decide_eq_true rfl, Bool.or_true, if_pos rfl]
      rfl
  · next other =>
      refine entries_setFile_same found ?_ (MMFile.tokens_open record peer q) width
      rw [MMFile.isOpenedBy_open, decide_eq_false other, Bool.or_false]

theorem entries_close {name : String} {record : MMFile Peer} (found : m.files.lookup name = some record) (now : Nat)
    (hasModified : Bool) (size : Nat) (peer q : Peer) :
    (m.setFile name ((recordClose now hasModified size record).close peer).1).entries q =
      if q = peer then Function.update (m.entries q) name none else m.entries q := by
  have tokens : ∀ p, (recordClose now hasModified size record).tokens p = record.tokens p := by
    intro p
    cases hasModified <;> rfl
  have opened : ∀ p, (recordClose now hasModified size record).isOpenedBy p = record.isOpenedBy p := by
    intro p
    cases hasModified <;> rfl
  have width : ((recordClose now hasModified size record).close peer).1.stripWidth = record.stripWidth := by
    rw [MMFile.close]
    cases hasModified <;> split <;> rfl
  split
  · next here =>
      subst here
      refine entries_setFile (if_neg ?_)
      rw [MMFile.isOpenedBy_close, decide_eq_true rfl, Bool.not_true, Bool.and_false]
      exact Bool.false_ne_true
  · next other =>
      refine entries_setFile_same found ?_ ?_ width
      · rw [MMFile.isOpenedBy_close, decide_eq_false other, Bool.not_false, Bool.and_true, opened]
      · rw [MMFile.tokens_close, if_neg other, tokens]

/-- A grant gives the peer its tokens and takes them from the peers in conflict. -/
theorem entries_grant {name : String} {record record' : MMFile Peer} (found : m.files.lookup name = some record)
    {peer : Peer} {start stop : Nat} {iswrite : Bool} {grant : Grant Peer}
    (asked : record.waitAndGetPermissionFor peer start stop iswrite = some (record', grant)) :
    (∀ q ∈ record.conflicting peer start stop iswrite, (m.setFile name record').entries q =
        (m.entries q).retoken name (revokePermission start stop)) ∧
      (∀ q, q ≠ peer → q ∉ record.conflicting peer start stop iswrite →
        (m.setFile name record').entries q = m.entries q) ∧
      (m.setFile name record').entries peer = (m.entries peer).retoken name fun _ => bareList (record'.tokens peer) := by
  obtain ⟨-, -, -, rest, opened⟩ := MMFile.waitAndGetPermissionFor_spec asked
  have width : record'.stripWidth = record.stripWidth := by
    simp only [MMFile.waitAndGetPermissionFor, Option.bind_eq_bind, Option.bind_eq_some_iff, Option.some.injEq,
      Prod.mk.injEq] at asked
    obtain ⟨_, -, _, -, rfl, -⟩ := asked
    rfl
  have retokened : ∀ q f, bareList (record'.tokens q) = f (bareList (record.tokens q)) →
      (m.setFile name record').entries q = (m.entries q).retoken name f := by
    intro q f tokens
    rw [entries_setFile rfl, opened, tokens, width]
    funext other
    by_cases here : other = name
    · subst here
      rw [Entries.retoken, if_pos rfl, Function.update_self, entries_of_lookup found]
      split <;> rfl
    · rw [Entries.retoken, if_neg here, Function.update_of_ne here]
  refine ⟨fun q member => ?_, fun q other outside => ?_, retokened peer _ rfl⟩
  · obtain ⟨other, clash⟩ := MMFile.mem_conflicting.mp member
    refine retokened q _ ?_
    rw [rest q other, MMFile.tokensAfter, if_pos clash, revokePermission_bare]
  · refine entries_setFile_same found (opened q) ?_ width
    rw [rest q other, MMFile.tokensAfter, if_neg fun clash => outside (MMFile.mem_conflicting.mpr ⟨other, clash⟩)]

/-- The tokens of every file are exclusive. -/
def Guarded (m : MetadataManager Peer) : Prop := ∀ name record, m.files.lookup name = some record → record.PairwiseExclusive

theorem Guarded.setFile (h : m.Guarded) (name : String) {record : MMFile Peer} (own : record.PairwiseExclusive) :
    (m.setFile name record).Guarded := by
  intro other record' found
  by_cases same : other = name
  · subst same
    rw [lookup_setFile] at found
    obtain rfl := Option.some.inj found
    exact own
  · rw [lookup_setFile_ne m same] at found
    exact h other record' found

theorem Guarded.deleteFile (h : m.Guarded) (name : String) : (m.deleteFile name).2.2.Guarded := by
  unfold MetadataManager.deleteFile
  split
  · exact h
  · split
    · exact h
    · intro other record found
      by_cases same : other = name
      · subst same
        rw [AList.lookup_erase] at found
        cases found
      · rw [AList.lookup_erase_ne same] at found
        exact h other record found

theorem recordClose_exclusive {record : MMFile Peer} (h : record.PairwiseExclusive) (now : Nat) (hasModified : Bool)
    (size : Nat) : (recordClose now hasModified size record).PairwiseExclusive := by
  cases hasModified with
  | false => exact h
  | true => exact h

end MetadataManager

/-! ## Runs of the system -/

namespace Deployment

variable {Peer : Type} [DecidableEq Peer] {s s' : Deployment Peer}

/-- The clients' rows are those of some entries. -/
def TalliedWith (s : Deployment Peer) (e : Peer → Entries) : Prop :=
  ∀ q, Tallies (s.clients q).rows (s.clients q).descriptorCount (e q)

/-- `getFileStat`.  The index of the file is kept in a `bool` here too, so the test for a
    file that is not open fails and the request goes out without a name. -/
def getFileStat (s : Deployment Peer) (peer : Peer) (filedes : Int) : Int × Option PfsStat :=
  if s.started peer then
    let name := (((s.clients peer).openedFiles.find? fun file => (file.descriptor : Int) = filedes).map
      ClientFile.name).getD ""
    match s.manager.getFileDesc name with
    | (.ok, reply) => (0, some ⟨reply.lastModified, reply.creationTime, reply.fileSize⟩)
    | (status, _) => (-status.errorCode, none)
  else (-1, none)

/-- The tables agree. -/
def Tallied (s : Deployment Peer) : Prop := s.TalliedWith s.manager.entries

/-- The manager's record of a file that a client has open. -/
theorem Tallied.record (h : s.Tallied) {peer : Peer} {file : ClientFile} (member : file ∈ (s.clients peer).openedFiles) :
    ∃ record, s.manager.files.lookup file.name = some record ∧ record.isOpenedBy peer = true ∧
      file.stripWidth = record.stripWidth ∧ bareList file.permissions = bareList (record.tokens peer) := by
  obtain ⟨record, found, here⟩ := Option.bind_eq_some_iff.mp ((h peer).entry (List.mem_map_of_mem member))
  obtain ⟨opened, here⟩ := Option.ite_none_right_eq_some.mp here
  obtain ⟨tokens, width⟩ := Prod.mk.inj (Option.some.inj here)
  exact ⟨record, found, opened, width.symm, tokens.symm⟩

/-- A client closes one of the first two of its files. -/
def ClosesOwn (s : Deployment Peer) : Call Peer → Prop
  | .closeFile peer filedes _ =>
      ∃ file ∈ (s.clients peer).openedFiles.take 2, (file.descriptor : Int) = filedes
  | _ => True

instance (s : Deployment Peer) : (call : Call Peer) → Decidable (s.ClosesOwn call)
  | .closeFile _ _ _ => inferInstanceAs (Decidable (∃ _ ∈ _, _))
  | .clientStart _ | .createFile .. | .createStrip _ | .openFile .. | .readFile .. | .writeFile .. | .deleteFile ..
  | .flush _ | .harvest _ => isTrue trivial

/-- The runs in which every close is of one of these. -/
def exactly : Machine (Deployment Peer) (Call Peer) := ⟨fun s call => s.allowed call ∧ s.ClosesOwn call, exec⟩

instance (s : Deployment Peer) (call : Call Peer) : Decidable (exactly.allowed s call) :=
  inferInstanceAs (Decidable (_ ∧ _))

theorem setFiles_self (s : Deployment Peer) (peer : Peer) (files : ManyFiles) :
    (s.setFiles peer files).clients peer = files.client := Function.update_self ..

theorem setFiles_other (s : Deployment Peer) {peer q : Peer} (files : ManyFiles) (other : q ≠ peer) :
    (s.setFiles peer files).clients q = s.clients q := Function.update_of_ne other ..

/-- One client has changed. -/
theorem tallied_setFiles {peer : Peer} {files : ManyFiles}
    (others : ∀ q, q ≠ peer → Tallies (s.clients q).rows (s.clients q).descriptorCount (s.manager.entries q))
    (own : Tallies files.client.rows files.client.descriptorCount (s.manager.entries peer)) :
    (s.setFiles peer files).Tallied := by
  intro q
  by_cases here : q = peer
  · subst here
    rw [setFiles_self]
    exact own
  · rw [setFiles_other s files here]
    exact others q here

theorem revokeAll_tallied {name : String} {start stop : Nat} {order : List Peer} (distinct : order.Nodup)
    (before after : Peer → Entries)
    (pending : ∀ q ∈ order, Tallies (s.clients q).rows (s.clients q).descriptorCount (before q))
    (served : ∀ q, q ∉ order → Tallies (s.clients q).rows (s.clients q).descriptorCount (after q))
    (moved : ∀ q ∈ order, after q = (before q).retoken name (revokePermission start stop))
    (done : revokeAll name start stop order s = some s') :
    s'.manager = s.manager ∧ s'.TalliedWith after ∧ ∀ q, q ∉ order → s'.clients q = s.clients q := by
  induction order generalizing s with
  | nil =>
      obtain rfl := Option.some.inj done
      exact ⟨rfl, fun q => served q List.not_mem_nil, fun _ _ => rfl⟩
  | cons peer rest ih =>
      obtain ⟨files, revoked, done⟩ := Option.bind_eq_some_iff.mp done
      obtain ⟨absent, distinct⟩ := List.nodup_cons.mp distinct
      have own := pending peer List.mem_cons_self
      obtain ⟨rows, count⟩ := ManyFiles.rows_revokePermission own revoked
      obtain ⟨manager, tallied, spared⟩ := ih (s := s.setFiles peer files) distinct
        (by
          intro q member
          rw [setFiles_other s files (by rintro rfl; exact absent member)]
          exact pending q (List.mem_cons_of_mem _ member))
        (by
          intro q outside
          by_cases here : q = peer
          · subst here
            rw [setFiles_self, rows, count, moved q List.mem_cons_self]
            exact own.retoken name _
          · rw [setFiles_other s files here]
            exact served q (by simp [here, outside]))
        (fun q member => moved q (List.mem_cons_of_mem _ member)) done
      refine ⟨manager, tallied, fun q outside => ?_⟩
      rw [List.mem_cons, not_or] at outside
      rw [spared q outside.2, setFiles_other s files outside.1]

/-- A request for tokens that the manager has granted. -/
structure Served (s s' : Deployment Peer) (peer : Peer) (filedes start stop : Nat) (write : Bool) (order : List Peer)
    (file : ClientFile) (record record' : MMFile Peer) (grant : Grant Peer) : Prop where
  found : (s.clients peer).openedFiles.find? (fun file => file.descriptor = filedes) = some file
  lacks : hasPermission start stop write file.permissions = false
  known : s.manager.files.lookup file.name = some record
  opened : record.isOpenedBy peer = true
  asked : record.waitAndGetPermissionFor peer start stop write = some (record', grant)
  perm : order.Perm (record.conflicting peer start stop write)
  revoked : revokeAll file.name start stop order { s with manager := s.manager.setFile file.name record' } = some s'

/-- Either nothing is granted and nothing happens, or the manager grants the request and the other
    clients serve the revocations. -/
theorem requestPermission_cases {peer : Peer} {filedes start stop : Nat} {write : Bool} {order : List Peer}
    {reply : Option PermissionReply}
    (done : s.requestPermission peer filedes start stop write order = some (s', reply)) :
    (reply = none ∧ s' = s ∧ ∀ file,
      (s.clients peer).openedFiles.find? (fun file => file.descriptor = filedes) = some file →
        hasPermission start stop write file.permissions = true ∨
          ∀ record, s.manager.files.lookup file.name = some record → record.isOpenedBy peer = false) ∨
    ∃ file record record' grant, reply = some { start := grant.start, stop := grant.stop } ∧
      Served s s' peer filedes start stop write order file record record' grant := by
  unfold requestPermission at done
  split at done
  · next missing =>
      obtain ⟨rfl, rfl⟩ := Prod.mk.inj (Option.some.inj done)
      refine .inl ⟨rfl, rfl, fun file found => ?_⟩
      rw [missing] at found
      cases found
  · next file found =>
      have only : ∀ other,
          (s.clients peer).openedFiles.find? (fun file => file.descriptor = filedes) = some other → file = other :=
        fun other first => Option.some.inj (found.symm.trans first)
      split at done
      · next held =>
          obtain ⟨rfl, rfl⟩ := Prod.mk.inj (Option.some.inj done)
          refine .inl ⟨rfl, rfl, fun other first => .inl ?_⟩
          rw [← only other first]
          exact held
      · next lacks =>
          obtain ⟨⟨status, answer, manager⟩, answered, done⟩ := Option.bind_eq_some_iff.mp done
          unfold MetadataManager.getPermission at answered
          split at answered
          · next missing =>
              cases answered
              obtain ⟨rfl, rfl⟩ := Prod.mk.inj (Option.some.inj done)
              refine .inl ⟨rfl, rfl, fun other first => .inr fun record known => ?_⟩
              rw [← only other first, missing] at known
              cases known
          · next record known =>
              split at answered
              · next opened =>
                  obtain ⟨⟨record', grant⟩, asked, made⟩ := Option.map_eq_some_iff.mp answered
                  cases made
                  simp only [known, Option.bind_eq_bind, Option.bind_some] at done
                  obtain ⟨perm, done⟩ := Option.ite_none_right_eq_some.mp done
                  obtain ⟨s₁, revoked, done⟩ := Option.bind_eq_some_iff.mp done
                  obtain ⟨rfl, rfl⟩ := Prod.mk.inj (Option.some.inj done)
                  exact .inr ⟨file, record, record', grant, rfl, found, by simpa using lacks, known, opened, asked, perm,
                    revoked⟩
              · next refused =>
                  cases answered
                  obtain ⟨rfl, rfl⟩ := Prod.mk.inj (Option.some.inj done)
                  refine .inl ⟨rfl, rfl, fun other first => .inr fun record' known' => ?_⟩
                  rw [← only other first, known] at known'
                  obtain rfl := Option.some.inj known'
                  simpa using refused

theorem Served.spared {peer : Peer} {filedes start stop : Nat} {write : Bool} {order : List Peer} {file : ClientFile}
    {record record' : MMFile Peer} {grant : Grant Peer}
    (served : Served s s' peer filedes start stop write order file record record' grant) :
    peer ∉ order ∧ order.Nodup := by
  refine ⟨?_, served.perm.nodup_iff.mpr (MMFile.conflicting_nodup _ _ _ _ _)⟩
  rw [served.perm.mem_iff, MMFile.mem_conflicting]
  exact fun clash => clash.1 rfl

/-- A request for tokens that was granted: the manager has the grant, the other clients have given up
    theirs, and the client has not yet seen the reply. -/
structure Granted (s s' : Deployment Peer) (peer : Peer) (filedes start stop : Nat) (write : Bool)
    (reply : PermissionReply) (file : ClientFile) (tokens : List Permission) : Prop where
  found : (s.clients peer).openedFiles.find? (fun file => file.descriptor = filedes) = some file
  lacks : hasPermission start stop write file.permissions = false
  own : s'.clients peer = s.clients peer
  added : addPermission reply.start reply.stop write (bareList file.permissions) false = some tokens
  tallied : s'.TalliedWith (Function.update s'.manager.entries peer (s.manager.entries peer))
  entries : s'.manager.entries peer = (s.manager.entries peer).retoken file.name fun _ => tokens
  manager : ∃ record record' grant, s.manager.files.lookup file.name = some record ∧
    record.waitAndGetPermissionFor peer start stop write = some (record', grant) ∧
    s'.manager = s.manager.setFile file.name record'

theorem requestPermission_tallied (h : s.Tallied) {peer : Peer} {filedes start stop : Nat} {write : Bool} {order : List Peer}
    {reply : Option PermissionReply}
    (done : s.requestPermission peer filedes start stop write order = some (s', reply)) :
    (reply = none ∧ s' = s) ∨ ∃ granted file tokens, reply = some granted ∧
      Granted s s' peer filedes start stop write granted file tokens := by
  rcases requestPermission_cases done with ⟨nothing, same, -⟩ | ⟨file, record, record', grant, replied, served⟩
  · exact .inl ⟨nothing, same⟩
  · obtain ⟨_, known, -, -, tokens⟩ := h.record (List.mem_of_find?_eq_some served.found)
    obtain rfl := Option.some.inj (served.known.symm.trans known)
    obtain ⟨-, -, added, -⟩ := MMFile.waitAndGetPermissionFor_spec served.asked
    obtain ⟨taken, spared, given⟩ := MetadataManager.entries_grant served.known served.asked
    obtain ⟨outside, distinct⟩ := served.spared
    obtain ⟨manager, tallied, kept⟩ := revokeAll_tallied
      (s := { s with manager := s.manager.setFile file.name record' }) distinct s.manager.entries
      (Function.update (s.manager.setFile file.name record').entries peer (s.manager.entries peer))
      (fun q _ => h q)
      (by
        intro q away
        by_cases here : q = peer
        · subst here
          rw [Function.update_self]
          exact h q
        · rw [Function.update_of_ne here, spared q here (fun clash => away (served.perm.mem_iff.mpr clash))]
          exact h q)
      (by
        intro q inside
        rw [Function.update_of_ne (by rintro rfl; exact outside inside), taken q (served.perm.mem_iff.mp inside)])
      served.revoked
    refine .inr ⟨_, file, bareList (record'.tokens peer), replied, served.found, served.lacks, kept peer outside, ?_, ?_, ?_,
      record, record', grant, served.known, served.asked, manager⟩
    · rw [tokens]
      exact addPermission_bare added
    · rw [manager]
      exact tallied
    · rw [manager]
      exact given

/-- The client adds what it was granted. -/
theorem acquirePermission_tallied (h : s.Tallied) {peer : Peer} {filedes start stop : Nat} {write : Bool} {order : List Peer}
    {reply : Option PermissionReply} {files : ManyFiles} {acquired : Option Nat}
    (asked : s.requestPermission peer filedes start stop write order = some (s', reply))
    (done : (s'.files peer).acquirePermission filedes start stop write reply = some (files, acquired)) :
    (∀ q, q ≠ peer → Tallies (s'.clients q).rows (s'.clients q).descriptorCount (s'.manager.entries q)) ∧
      Tallies files.client.rows files.client.descriptorCount (s'.manager.entries peer) := by
  rcases requestPermission_tallied h asked with ⟨rfl, rfl⟩ | ⟨granted, file, tokens, rfl, grant⟩
  · refine ⟨fun q _ => h q, ?_⟩
    have same : files.client = s'.clients peer := by
      unfold ManyFiles.acquirePermission at done
      split at done
      · obtain ⟨rfl, -⟩ := Prod.mk.inj (Option.some.inj done)
        rfl
      · obtain ⟨file, -, done⟩ := Option.bind_eq_some_iff.mp done
        split at done
        · obtain ⟨rfl, -⟩ := Prod.mk.inj (Option.some.inj done)
          rfl
        · obtain ⟨rfl, -⟩ := Prod.mk.inj (Option.some.inj done)
          rfl
    rw [same]
    exact h peer
  · refine ⟨fun q other => ?_, ?_⟩
    · have here := grant.tallied q
      rw [Function.update_of_ne other] at here
      exact here
    · have found := grant.found
      rw [List.find?_eq_bind_findIdx?_getElem?] at found
      obtain ⟨i, foundAt, at_i⟩ := Option.bind_eq_some_iff.mp found
      have client : (s'.files peer).client = s.clients peer := grant.own
      unfold ManyFiles.acquirePermission at done
      simp only [client, PFSClient.foundAt, foundAt, at_i, grant.lacks, Option.bind_eq_bind, Option.bind_some,
        Bool.false_eq_true, if_false] at done
      obtain ⟨l, added, done⟩ := Option.bind_eq_some_iff.mp done
      obtain ⟨rfl, -⟩ := Prod.mk.inj (Option.some.inj done)
      have tokens : bareList l = tokens := Option.some.inj ((addPermission_bare added).symm.trans grant.added)
      have rows := PFSClient.rows_retoken (h peer) at_i (fun _ => bareList l) rfl (s.clients peer).cache
      rw [grant.entries, ← tokens]
      rw [show ((s.clients peer).setFile i { file with permissions := l }).rows = _ from rows]
      exact (h peer).retoken file.name _

theorem readFile_tallied (h : s.Tallied) {peer : Peer} {filedes offset nbyte : Nat} {order : List Peer}
    (done : s.readFile peer filedes offset nbyte order = some s') : s'.Tallied := by
  obtain ⟨⟨s₁, reply⟩, asked, done⟩ := Option.bind_eq_some_iff.mp done
  obtain ⟨⟨files, result⟩, read, done⟩ := Option.bind_eq_some_iff.mp done
  obtain rfl := Option.some.inj done
  obtain ⟨⟨files₁, acquired⟩, first, read⟩ := Option.bind_eq_some_iff.mp read
  obtain ⟨others, own⟩ := acquirePermission_tallied h asked first
  simp only at read
  refine tallied_setFiles others ?_
  split at read
  · obtain ⟨rfl, -⟩ := Prod.mk.inj (Option.some.inj read)
    exact own
  · obtain ⟨file, -, read⟩ := Option.bind_eq_some_iff.mp read
    obtain ⟨⟨c, buffer⟩, looped, read⟩ := Option.bind_eq_some_iff.mp read
    obtain ⟨rfl, -⟩ := Prod.mk.inj (Option.some.inj read)
    obtain ⟨rows, count⟩ := PFSClient.rows_readBytes looped
    simp only [rows, count]
    exact own

theorem writeFile_tallied (h : s.Tallied) {peer : Peer} {filedes offset nbyte : Nat} {data : Nat → UInt8}
    {order : List Peer} (done : s.writeFile peer filedes offset nbyte data order = some s') : s'.Tallied := by
  obtain ⟨⟨s₁, reply⟩, asked, done⟩ := Option.bind_eq_some_iff.mp done
  obtain ⟨⟨files, wrote⟩, written, done⟩ := Option.bind_eq_some_iff.mp done
  obtain rfl := Option.some.inj done
  obtain ⟨⟨files₁, acquired⟩, first, written⟩ := Option.bind_eq_some_iff.mp written
  obtain ⟨others, own⟩ := acquirePermission_tallied h asked first
  simp only at written
  refine tallied_setFiles others ?_
  split at written
  · obtain ⟨rfl, -⟩ := Prod.mk.inj (Option.some.inj written)
    exact own
  · obtain ⟨file, -, written⟩ := Option.bind_eq_some_iff.mp written
    obtain ⟨c, looped, written⟩ := Option.bind_eq_some_iff.mp written
    obtain ⟨rfl, -⟩ := Prod.mk.inj (Option.some.inj written)
    obtain ⟨rows, count⟩ := PFSClient.rows_writeBytes looped
    simp only [rows, count]
    exact own

/-- What does not touch the open files. -/
theorem Tallied.recached (h : s.Tallied) {peer : Peer} {files : ManyFiles}
    (opened : files.client.openedFiles = (s.clients peer).openedFiles)
    (count : files.client.descriptorCount = (s.clients peer).descriptorCount) : (s.setFiles peer files).Tallied := by
  refine tallied_setFiles (fun q _ => h q) ?_
  rw [PFSClient.rows, opened, count]
  exact h peer

theorem flush_tallied (h : s.Tallied) {peer : Peer} {files : ManyFiles} (done : (s.files peer).flush = some files) :
    (s.setFiles peer files).Tallied := by
  obtain ⟨store, -, rfl⟩ := Option.map_eq_some_iff.mp done
  exact h.recached rfl rfl

theorem harvest_tallied (h : s.Tallied) {peer : Peer} {files : ManyFiles} (done : (s.files peer).harvest = some files) :
    (s.setFiles peer files).Tallied := by
  obtain ⟨⟨cache, block⟩, -, done⟩ := Option.bind_eq_some_iff.mp done
  obtain ⟨store, -, done⟩ := Option.bind_eq_some_iff.mp done
  obtain rfl := Option.some.inj done
  exact h.recached rfl rfl

theorem openFile_tallied (h : s.Tallied) (peer : Peer) (filename : String) (mode : Char) :
    (s.openFile peer filename mode).2.Tallied := by
  by_cases accepts : s.started peer = true ∧ s.Accepts peer filename
  · obtain ⟨started, record, found, new⟩ := accepts
    rw [openFile_accepted started found new]
    have entries := MetadataManager.entries_open found new
    refine tallied_setFiles (fun q other => ?_) ?_
    · simp only [entries q, if_neg other]
      exact h q
    · simp only [entries peer, if_pos]
      have absent : s.manager.entries peer filename = none := by
        rw [MetadataManager.entries_of_lookup found, new]
        rfl
      have rows : (((s.files peer).openFile filename (some
          { creationTime := record.creationTime, lastModified := record.lastModifiedTime, fileSize := record.size,
            stripWidth := record.stripWidth })).client).rows =
          (s.clients peer).rows ++ [⟨(s.clients peer).descriptorCount + 1, filename, [], record.stripWidth⟩] :=
        List.map_append
      rw [rows]
      exact (h peer).open absent record.stripWidth
  · rw [openFile_rejected accepts]
    exact h

theorem createFile_tallied (h : s.Tallied) (peer : Peer) (filename : String) (stripeWidth : Int32)
    (creationTime lastModifiedTime : Nat) :
    (s.createFile peer filename stripeWidth creationTime lastModifiedTime).2.Tallied := by
  rw [createFile_eq]
  split
  · next new =>
      intro q
      simp only [created, MetadataManager.entries_create new.2]
      exact h q
  · exact h

theorem deleteFile_tallied (h : s.Tallied) (peer : Peer) (filename : String) : (s.deleteFile peer filename).2.Tallied := by
  have entries := fun q => s.manager.entries_deleteFile filename q
  unfold deleteFile
  split
  · split
    · next manager answered =>
        intro q
        have here := entries q
        rw [answered] at here
        simp only at here ⊢
        rw [here]
        exact h q
    · next status manager _ answered =>
        intro q
        have here := entries q
        rw [answered] at here
        simp only at here ⊢
        rw [here]
        exact h q
  · exact h

/-- `closeFile` of one of the first two files of a client. -/
theorem closeFile_own (h : s.Tallied) {peer : Peer} (started : s.started peer = true) {i : Nat} {file : ClientFile}
    (low : i ≤ 1) (at_i : (s.clients peer).openedFiles[i]? = some file) (now : Nat) :
    ∃ record manager, s.manager.files.lookup file.name = some record ∧ record.isOpenedBy peer = true ∧
      manager = s.manager.setFile file.name
        ((MetadataManager.recordClose now file.hasModified file.size record).close peer).1 ∧
      s.closeFile peer file.descriptor now =
        (World.evictTokens (s.clients peer) file.descriptor file.permissions (s.clients peer).cache
          (s.store file.name)).map fun r => (0, setFiles { s with manager := manager } peer
            ⟨{ s.clients peer with cache := r.1, openedFiles := (s.clients peer).openedFiles.eraseIdx i },
              Function.update s.store file.name r.2⟩) := by
  obtain ⟨record, found', opened, -⟩ := h.record (List.mem_of_getElem? at_i)
  refine ⟨record, _, found', opened, rfl, ?_⟩
  have found := PFSClient.findIdx_descriptor (h peer) at_i rfl
  have index : (s.files peer).closeIndex file.descriptor = i := by
    rw [ManyFiles.closeIndex, show (s.files peer).client = s.clients peer from rfl, found]
    simp only [Option.some.injEq]
    split <;> omega
  have there : (s.files peer).client.openedFiles[(s.files peer).closeIndex file.descriptor]? = some file := by
    rw [index]
    exact at_i
  have named : (s.files peer).closeRequest file.descriptor file = ⟨file.name, file.hasModified, file.size⟩ := by
    rw [ManyFiles.closeRequest, show (s.files peer).client = s.clients peer from rfl, found, Option.bind_some, at_i]
    rfl
  have answered : s.manager.closeFile now peer file.name file.hasModified file.size = (.ok,
      s.manager.setFile file.name ((MetadataManager.recordClose now file.hasModified file.size record).close peer).1) := by
    have accepted : ((MetadataManager.recordClose now file.hasModified file.size record).close peer).2 = true := by
      rw [MMFile.close, if_pos (by rw [MetadataManager.recordClose_isOpenedBy]; exact opened)]
    rw [MetadataManager.closeFile, show s.manager.files.lookup file.name = some record from found']
    simp only [accepted, if_true]
  rw [closeFile, if_pos started]
  cases evicted : World.evictTokens (s.clients peer) file.descriptor file.permissions (s.clients peer).cache
      (s.store file.name) with
  | none =>
      cases closing : (s.files peer).closeFile file.descriptor .ok with
      | none => rfl
      | some r =>
          obtain ⟨file', at_index, rest⟩ := Option.bind_eq_some_iff.mp closing
          obtain rfl := Option.some.inj (there.symm.trans at_index)
          obtain ⟨_, evicts, -⟩ := Option.bind_eq_some_iff.mp rest
          cases evicted.symm.trans evicts
  | some r =>
      obtain ⟨cache, bytes⟩ := r
      have closes := ManyFiles.closeFile_eq (s := s.files peer) there evicted .ok
      rw [named, index] at closes
      simp only [closes, answered, Option.bind_eq_bind, Option.bind_some, Option.map_some]
      rfl

omit [DecidableEq Peer] in
theorem ClosesOwn.index {peer : Peer} {filedes : Int} {now : Nat} (own : s.ClosesOwn (.closeFile peer filedes now)) :
    ∃ i file, i ≤ 1 ∧ (s.clients peer).openedFiles[i]? = some file ∧ (file.descriptor : Int) = filedes := by
  obtain ⟨file, early, is⟩ := own
  obtain ⟨i, at_take⟩ := List.getElem?_of_mem early
  rw [List.getElem?_take] at at_take
  split at at_take
  · next low => exact ⟨i, file, by omega, at_take, is⟩
  · cases at_take

theorem closeFile_tallied (h : s.Tallied) {peer : Peer} {filedes : Int} {now : Nat} {value : Int}
    (own : s.ClosesOwn (.closeFile peer filedes now)) (done : s.closeFile peer filedes now = some (value, s')) :
    s'.Tallied := by
  cases started : s.started peer with
  | false =>
      rw [closeFile, started] at done
      obtain ⟨-, rfl⟩ := Prod.mk.inj (Option.some.inj done)
      exact h
  | true =>
      obtain ⟨i, file, low, at_i, rfl⟩ := own.index
      obtain ⟨record, manager, found, -, rfl, closes⟩ := closeFile_own h started low at_i now
      rw [closes] at done
      obtain ⟨⟨cache, bytes⟩, -, made⟩ := Option.map_eq_some_iff.mp done
      obtain ⟨-, rfl⟩ := Prod.mk.inj made
      have entries := MetadataManager.entries_close found now file.hasModified file.size peer
      refine tallied_setFiles (fun q other => ?_) ?_
      · simp only
        rw [entries q, if_neg other]
        exact h q
      · simp only
        have rows : PFSClient.rows { s.clients peer with
            cache := cache, openedFiles := (s.clients peer).openedFiles.eraseIdx i } =
            (s.clients peer).rows.eraseIdx i := (List.eraseIdx_map ..).symm
        rw [entries peer, if_pos rfl, rows]
        exact (h peer).close (PFSClient.rows_at at_i)

/-- No step but a close of another file makes the tables differ. -/
theorem Tallied.step (h : s.Tallied) (step : exactly.Step s s') : s'.Tallied := by
  obtain ⟨call, ⟨-, own⟩, done⟩ := step
  cases call with
  | clientStart peer =>
      obtain rfl := Option.some.inj done
      exact h
  | createFile peer filename stripeWidth creationTime lastModifiedTime =>
      obtain rfl := Option.some.inj done
      exact createFile_tallied h peer filename stripeWidth creationTime lastModifiedTime
  | createStrip handler =>
      obtain ⟨⟨name, loop⟩, -, done⟩ := Option.bind_eq_some_iff.mp done
      obtain ⟨-, done⟩ := Option.ite_none_right_eq_some.mp done
      obtain rfl := Option.some.inj done
      exact h
  | openFile peer filename mode =>
      obtain rfl := Option.some.inj done
      exact openFile_tallied h peer filename mode
  | readFile peer filedes offset nbyte order => exact readFile_tallied h done
  | writeFile peer filedes offset nbyte data order => exact writeFile_tallied h done
  | closeFile peer filedes now =>
      obtain ⟨⟨value, _⟩, closed, rfl⟩ := Option.map_eq_some_iff.mp done
      exact closeFile_tallied h own closed
  | deleteFile peer filename =>
      obtain rfl := Option.some.inj done
      exact deleteFile_tallied h peer filename
  | flush peer =>
      obtain ⟨files, flushed, rfl⟩ := Option.map_eq_some_iff.mp done
      exact flush_tallied h flushed
  | harvest peer =>
      obtain ⟨files, harvested, rfl⟩ := Option.map_eq_some_iff.mp done
      exact harvest_tallied h harvested

theorem Tallied.initial : ({} : Deployment Peer).Tallied := fun _ => Tallies.nothing

theorem Tallied.reachable (reach : Reachable Initial exactly.Step s) : s.Tallied := by
  refine reach.invariant Tallied ?_ fun _ _ tallied step => tallied.step step
  rintro s rfl
  exact .initial

/-- In every run in which a client closes only one of the first two of its files, the manager
    lists a client for a file exactly if the client has the file open, once; and then the
    client has the width and the tokens that the manager has for it. -/
theorem open_tables_agree {s : Deployment Peer} (reach : Reachable Initial exactly.Step s) (peer : Peer) :
    ((s.clients peer).openedFiles.map ClientFile.name).Nodup ∧
      (∀ name, (∃ record, s.manager.files.lookup name = some record ∧ record.isOpenedBy peer = true) ↔
        ∃ file ∈ (s.clients peer).openedFiles, file.name = name) ∧
      ∀ file ∈ (s.clients peer).openedFiles, ∃ record, s.manager.files.lookup file.name = some record ∧
        file.stripWidth = record.stripWidth ∧ bareList file.permissions = bareList (record.tokens peer) := by
  have tallied := Tallied.reachable reach
  have h := tallied peer
  refine ⟨?_, fun name => ⟨?_, ?_⟩, ?_⟩
  · have names := h.names
    rwa [PFSClient.rows, List.map_map] at names
  · rintro ⟨record, found, opened⟩
    have entry : s.manager.entries peer name = some (bareList (record.tokens peer), record.stripWidth) := by
      rw [MetadataManager.entries_of_lookup found, if_pos opened]
    obtain ⟨r, member, named, -⟩ := (h.same _ _ _).mp entry
    obtain ⟨file, inside, rfl⟩ := List.mem_map.mp member
    exact ⟨file, inside, named⟩
  · rintro ⟨file, member, rfl⟩
    obtain ⟨record, found, opened, -⟩ := tallied.record member
    exact ⟨record, found, opened⟩
  · intro file member
    obtain ⟨record, found, -, rest⟩ := tallied.record member
    exact ⟨record, found, rest⟩

/-- Two clients write to a file that one of them has created, while that one has another open. -/
def sharing : Option (Deployment Nat) :=
  exactly.run {} [.clientStart 1, .clientStart 2, .createFile 1 "f" 1 5 5, .createFile 1 "g" 2 6 6, .openFile 1 "f" 'w',
    .openFile 1 "g" 'w', .openFile 2 "f" 'w', .writeFile 1 1 0 8 (fun _ => 7) [], .writeFile 2 1 4 2 (fun _ => 9) [1],
    .closeFile 1 2 9]

theorem sharing_reachable : Reachable Initial exactly.Step (sharing.get rfl) :=
  exactly.run_reachable (Reachable.init rfl) (Option.some_get _).symm

theorem open_tables_agree_sharing : ((sharing.get rfl).clients 1).openedFiles.map ClientFile.name = ["f"] ∧
    ∀ file ∈ ((sharing.get rfl).clients 1).openedFiles, ∃ record,
      (sharing.get rfl).manager.files.lookup file.name = some record ∧ file.stripWidth = record.stripWidth ∧
      bareList file.permissions = bareList (record.tokens 1) :=
  ⟨rfl, (open_tables_agree sharing_reachable 1).2.2⟩

/-! ## The clients' tokens -/

theorem requestPermission_guarded (h : s.Tallied) (guarded : s.manager.Guarded) {peer : Peer} {filedes start stop : Nat}
    {write : Bool} {order : List Peer} {reply : Option PermissionReply}
    (done : s.requestPermission peer filedes start stop write order = some (s', reply)) : s'.manager.Guarded := by
  rcases requestPermission_tallied h done with ⟨-, rfl⟩ | ⟨granted, file, tokens, -, grant⟩
  · exact guarded
  · obtain ⟨record, record', grant, found, asked, manager⟩ := grant.manager
    rw [manager]
    exact guarded.setFile file.name (MMFile.getPermission_exclusive (guarded _ _ found) asked)

theorem openFile_guarded (guarded : s.manager.Guarded) (peer : Peer) (filename : String) (mode : Char) :
    (s.openFile peer filename mode).2.manager.Guarded := by
  by_cases accepts : s.started peer = true ∧ s.Accepts peer filename
  · obtain ⟨started, record, found, new⟩ := accepts
    rw [openFile_accepted started found new]
    exact guarded.setFile filename (MMFile.step_exclusive (guarded _ _ found) ⟨.open peer, trivial, rfl⟩)
  · rw [openFile_rejected accepts]
    exact guarded

theorem closeFile_guarded (h : s.Tallied) (guarded : s.manager.Guarded) {peer : Peer} {filedes : Int} {now : Nat}
    {value : Int} (own : s.ClosesOwn (.closeFile peer filedes now))
    (done : s.closeFile peer filedes now = some (value, s')) : s'.manager.Guarded := by
  cases started : s.started peer with
  | false =>
      rw [closeFile, started] at done
      obtain ⟨-, rfl⟩ := Prod.mk.inj (Option.some.inj done)
      exact guarded
  | true =>
      obtain ⟨i, file, low, at_i, rfl⟩ := own.index
      obtain ⟨record, manager, found, opened, rfl, closes⟩ := closeFile_own h started low at_i now
      rw [closes] at done
      obtain ⟨_, -, made⟩ := Option.map_eq_some_iff.mp done
      obtain ⟨-, rfl⟩ := Prod.mk.inj made
      refine guarded.setFile file.name (MMFile.step_exclusive
        (MetadataManager.recordClose_exclusive (guarded _ _ found) now file.hasModified file.size) ⟨.close peer, ?_, rfl⟩)
      exact (MetadataManager.recordClose_isOpenedBy ..).trans opened

theorem deleteFile_guarded (guarded : s.manager.Guarded) (peer : Peer) (filename : String) :
    (s.deleteFile peer filename).2.manager.Guarded := by
  have deleted := guarded.deleteFile filename
  unfold deleteFile
  split
  · split
    · next manager answered =>
        rw [answered] at deleted
        exact deleted
    · next status manager _ answered =>
        rw [answered] at deleted
        exact deleted
  · exact guarded

theorem guarded_step (h : s.Tallied) (guarded : s.manager.Guarded) (step : exactly.Step s s') : s'.manager.Guarded := by
  obtain ⟨call, ⟨-, own⟩, done⟩ := step
  cases call with
  | clientStart peer =>
      obtain rfl := Option.some.inj done
      exact guarded
  | createFile peer filename stripeWidth creationTime lastModifiedTime =>
      obtain rfl := Option.some.inj done
      rw [createFile_eq]
      split
      · exact guarded.setFile filename (MMFile.fresh_exclusive rfl)
      · exact guarded
  | createStrip handler =>
      obtain ⟨⟨name, loop⟩, -, done⟩ := Option.bind_eq_some_iff.mp done
      obtain ⟨-, done⟩ := Option.ite_none_right_eq_some.mp done
      obtain rfl := Option.some.inj done
      exact guarded
  | openFile peer filename mode =>
      obtain rfl := Option.some.inj done
      exact openFile_guarded guarded peer filename mode
  | readFile peer filedes offset nbyte order =>
      obtain ⟨⟨s₁, reply⟩, asked, done⟩ := Option.bind_eq_some_iff.mp done
      obtain ⟨files, -, done⟩ := Option.bind_eq_some_iff.mp done
      obtain rfl := Option.some.inj done
      have granted : s₁.manager.Guarded := requestPermission_guarded h guarded asked
      exact granted
  | writeFile peer filedes offset nbyte data order =>
      obtain ⟨⟨s₁, reply⟩, asked, done⟩ := Option.bind_eq_some_iff.mp done
      obtain ⟨files, -, done⟩ := Option.bind_eq_some_iff.mp done
      obtain rfl := Option.some.inj done
      have granted : s₁.manager.Guarded := requestPermission_guarded h guarded asked
      exact granted
  | closeFile peer filedes now =>
      obtain ⟨⟨value, _⟩, closed, rfl⟩ := Option.map_eq_some_iff.mp done
      exact closeFile_guarded h guarded own closed
  | deleteFile peer filename =>
      obtain rfl := Option.some.inj done
      exact deleteFile_guarded guarded peer filename
  | flush peer =>
      obtain ⟨files, -, rfl⟩ := Option.map_eq_some_iff.mp done
      exact guarded
  | harvest peer =>
      obtain ⟨files, -, rfl⟩ := Option.map_eq_some_iff.mp done
      exact guarded

/-- In these runs the tokens that the clients themselves have are exclusive, for every file:
    while one may write a byte, no other has a token for it. -/
theorem client_tokens_exclusive {s : Deployment Peer} (reach : Reachable Initial exactly.Step s) {p q : Peer}
    (distinct : p ≠ q) {file other : ClientFile} (mine : file ∈ (s.clients p).openedFiles)
    (theirs : other ∈ (s.clients q).openedFiles) (same : file.name = other.name) (b : Nat)
    (writes : Grants file.permissions true b) : ¬ Grants other.permissions false b := by
  have both : s.Tallied ∧ s.manager.Guarded := by
    refine reach.invariant (fun s => s.Tallied ∧ s.manager.Guarded) ?_ fun _ _ both step =>
      ⟨both.1.step step, guarded_step both.1 both.2 step⟩
    rintro s rfl
    refine ⟨.initial, fun name record found => ?_⟩
    cases found
  obtain ⟨tallied, guarded⟩ := both
  obtain ⟨record, found, -, -, tokens⟩ := tallied.record mine
  obtain ⟨record', found', -, -, tokens'⟩ := tallied.record theirs
  rw [same, found'] at found
  obtain rfl := Option.some.inj found
  have writes' : Grants (record'.tokens p) true b := by
    rw [← grants_bareList, ← tokens]
    exact grants_bareList.mpr writes
  rw [← grants_bareList, tokens', grants_bareList]
  exact (guarded _ _ found' p q distinct b).1 writes'

theorem client_tokens_exclusive_sharing : ∃ file ∈ ((sharing.get rfl).clients 2).openedFiles,
    Grants file.permissions true 5 ∧
      ∀ other ∈ ((sharing.get rfl).clients 1).openedFiles, file.name = other.name → ¬ Grants other.permissions false 5 := by
  obtain ⟨file, files, writes⟩ : ∃ file, ((sharing.get rfl).clients 2).openedFiles = [file] ∧
      Grants file.permissions true 5 := ⟨_, rfl, by decide⟩
  have member : file ∈ ((sharing.get rfl).clients 2).openedFiles := by
    rw [files]
    exact List.mem_cons_self
  exact ⟨file, member, writes, fun other theirs same =>
    client_tokens_exclusive sharing_reachable (by decide) member theirs same 5 writes⟩

/-! ## Asking for a file -/

omit [DecidableEq Peer] in
theorem getFileStat_eq {peer : Peer} (started : s.started peer = true) {filedes : Int} {name : String}
    (named : (((s.clients peer).openedFiles.find? fun file => (file.descriptor : Int) = filedes).map
      ClientFile.name).getD "" = name) : s.getFileStat peer filedes =
      ((s.manager.files.lookup name).map fun record =>
        ((0 : Int), some (PfsStat.mk record.lastModifiedTime record.creationTime record.size))).getD (-1, none) := by
  subst named
  rw [getFileStat, if_pos started]
  simp only [MetadataManager.getFileDesc]
  cases s.manager.files.lookup _ with
  | none => rfl
  | some record => rfl

/-- In these runs `getFileStat` of an open file returns what the manager has recorded for
    that file, and nobody can delete the file; of any other descriptor it returns what
    there is about a file without a name. -/
theorem getFileStat_spec {s : Deployment Peer} (reach : Reachable Initial exactly.Step s) {peer : Peer}
    (started : s.started peer = true) :
    (∀ file ∈ (s.clients peer).openedFiles, ∃ record, s.manager.files.lookup file.name = some record ∧
      s.getFileStat peer file.descriptor =
        (0, some ⟨record.lastModifiedTime, record.creationTime, record.size⟩) ∧
      ∀ q, s.deleteFile q file.name = (-1, s)) ∧
    ∀ filedes : Int, (∀ file ∈ (s.clients peer).openedFiles, (file.descriptor : Int) ≠ filedes) →
      ((s.getFileStat peer filedes).1 = 0 ↔ (s.manager.files.lookup "").isSome = true) := by
  have h := Tallied.reachable reach
  constructor
  · intro file member
    obtain ⟨record, found, opened, -⟩ := h.record member
    refine ⟨record, found, ?_, fun q => ?_⟩
    · obtain ⟨i, at_i⟩ := List.getElem?_of_mem member
      have named : (((s.clients peer).openedFiles.find? fun other => (other.descriptor : Int) = file.descriptor).map
          ClientFile.name).getD "" = file.name := by
        rw [List.find?_eq_bind_findIdx?_getElem?, PFSClient.findIdx_descriptor (h peer) at_i rfl, Option.bind_some, at_i]
        rfl
      rw [getFileStat_eq started named, found]
      rfl
    · rw [deleteFile, MetadataManager.deleteFile, found]
      simp only [MMFile.isOpen_of_isOpenedBy opened, if_true]
      split <;> rfl
  · intro filedes closed
    have named : (((s.clients peer).openedFiles.find? fun file => (file.descriptor : Int) = filedes).map
        ClientFile.name).getD "" = "" := by
      rw [List.find?_eq_none.mpr fun file member => by simpa using closed file member]
      rfl
    rw [getFileStat_eq started named]
    cases s.manager.files.lookup "" with
    | none => simp
    | some record => simp

theorem getFileStat_spec_sharing : (sharing.get rfl).deleteFile 1 "f" = (-1, sharing.get rfl) := by
  obtain ⟨file, files⟩ : ∃ file, ((sharing.get rfl).clients 2).openedFiles = [file] := ⟨_, rfl⟩
  have named : file.name = "f" := by
    have names : ((sharing.get rfl).clients 2).openedFiles.map ClientFile.name = ["f"] := rfl
    rw [files] at names
    exact (List.cons.inj names).1
  obtain ⟨record, -, -, kept⟩ := (getFileStat_spec sharing_reachable rfl).1 file (by rw [files]; exact List.mem_cons_self)
  rw [named] at kept
  exact kept 1

end Deployment

end PFS
