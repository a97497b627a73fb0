import PFS.FileServer.Striping
import PFS.Manager.MetadataManager
import Mathlib.Data.List.Induction

/-! # Stripe geometry over the life of a name

The manager keeps the stripe width of a file, and so does each server that hosts
one of its strips.  Deleting a file removes the manager's record only; a server that
is asked for a strip of a name it knows adds the strip to the record it has, with
the width it was first given.
-/

namespace PFS

open Lib

/-- The metadata manager and the file servers, for names without '/', of which every strip
    file can be made, and requests for blocks that end at `INT_MAX` or before. -/
structure Installation (Peer : Type) where
  manager : MetadataManager Peer := {}
  cluster : Cluster := Cluster.start

/-- A request that makes or removes a name. -/
inductive NameRequest where
  | createFile (name : String) (width creationTime lastModifiedTime : Nat)
  | deleteFile (name : String)

namespace Installation

variable {Peer : Type}

/-- `CreateFile` with its requests to the file servers, which always succeed. -/
def createFile (s : Installation Peer) (name : String) (width creationTime lastModifiedTime : Nat) : Installation Peer :=
  match s.manager.createFile creationTime lastModifiedTime name width with
  | (.ok, _, manager) => ⟨manager, s.cluster.createStrips name width width⟩
  | (_, _, manager) => { s with manager := manager }

/-- `DeleteFile`; the servers are not told. -/
def deleteFile (s : Installation Peer) (name : String) : Installation Peer :=
  { s with manager := (s.manager.deleteFile name).2.2 }

def handle (s : Installation Peer) : NameRequest → Installation Peer
  | .createFile name width creationTime lastModifiedTime => s.createFile name width creationTime lastModifiedTime
  | .deleteFile name => s.deleteFile name

/-- The requests one after another. -/
def serve (s : Installation Peer) (requests : List NameRequest) : Installation Peer := requests.foldl handle s

end Installation

/-- The servers know a file as the manager does, and accept every request for one
    of its blocks that a client sends. -/
structure Cluster.Agrees (c : Cluster) (name : String) (width : Nat) : Prop where
  records : ∀ server, (∃ strip < width, strip % numFileServers = server) → ∃ file,
    (c.servers server).files name = some file ∧ file.stripWidth = width ∧
      ∀ strip, file.stripPaths strip =
        if strip < width ∧ strip % numFileServers = server then some (stripPath name strip) else none
  reads : ∀ addr buffer, addr % pfsBlockSizeInBytes = 0 → addr + stripBytes ≤ intMax →
    ((c.serverFor width addr).readBlock c.disk name addr buffer).isSome = true
  writes : ∀ addr data dirty, addr % pfsBlockSizeInBytes = 0 → addr + stripBytes ≤ intMax →
    ((c.serverFor width addr).writeBlock c.disk name addr data dirty).isSome = true

/-- Servers with exactly the strips of a width, and their files. -/
theorem Cluster.agrees_of_strips {c : Cluster} {name : String} {width : Nat} (wide : 1 ≤ width)
    (records : ∀ i, (c.servers i).files name = recordAfter none name width width i)
    (disk : ∀ strip, strip < width → (c.disk (stripPath name strip)).isSome = true) : c.Agrees name width := by
  have located : ∀ addr, addr % pfsBlockSizeInBytes = 0 → addr + stripBytes ≤ intMax →
      ∃ content, (c.serverFor width addr).locate name addr pfsBlockSizeInBytes =
        some (stripPath name (stripOf width addr), stripPosition width addr) ∧
        c.disk (stripPath name (stripOf width addr)) = some content := by
    intro addr aligned small
    have inside : stripOf width addr < width := Nat.mod_lt _ wide
    have found := (records (stripOf width addr % numFileServers)).trans (if_pos ⟨_, inside, rfl⟩)
    obtain ⟨content, onDisk⟩ := Option.isSome_iff_exists.mp (disk (stripOf width addr) inside)
    refine ⟨content, FileServer.locate_strip found rfl (if_pos ⟨inside, rfl⟩) wide ?_ small, onDisk⟩
    simp only [stripBytes, stripSize, pfsBlockSizeInBytes] at *
    omega
  refine ⟨fun server hosts => ?_, fun addr buffer aligned small => ?_, fun addr data dirty aligned small => ?_⟩
  · exact ⟨_, (records server).trans (if_pos hosts), rfl, fun _ => rfl⟩
  · obtain ⟨content, place, onDisk⟩ := located addr aligned small
    simp [FileServer.readBlock, place, onDisk]
  · obtain ⟨content, place, onDisk⟩ := located addr aligned small
    simp [FileServer.writeBlock, place, onDisk]

namespace NameRequest

/-- The stripe widths a client can ask for. -/
def Wide : NameRequest → Prop
  | createFile _ width _ _ => 1 ≤ width ∧ width ≤ intMax
  | deleteFile _ => True

instance : (request : NameRequest) → Decidable request.Wide
  | createFile _ _ _ _ => inferInstanceAs (Decidable (_ ∧ _))
  | deleteFile _ => isTrue trivial

/-- The width of the first `CreateFile` for a name. -/
def firstWidth (requests : List NameRequest) (name : String) : Option Nat :=
  requests.findSome? fun request =>
    match request with
    | createFile created width _ _ => if created = name then some width else none
    | deleteFile _ => none

/-- The width of the file with a name, when it exists. -/
def liveWidth (requests : List NameRequest) (name : String) : Option Nat :=
  requests.foldl (fun width request =>
    match request with
    | createFile created width' _ _ => if created = name then width.or (some width') else width
    | deleteFile deleted => if deleted = name then none else width) none

/-- A name that is created again is created with the width it had first. -/
def SameWidths (requests : List NameRequest) : Prop :=
  ∀ before name width creationTime lastModifiedTime,
    before ++ [createFile name width creationTime lastModifiedTime] <+: requests →
    liveWidth before name = none → ∀ first, firstWidth before name = some first → width = first

section Widths

variable {requests : List NameRequest} {name other : String} {width creationTime lastModifiedTime : Nat}

theorem firstWidth_create : firstWidth (requests ++ [createFile name width creationTime lastModifiedTime]) other =
    (firstWidth requests other).or (if name = other then some width else none) := by
  simp only [firstWidth, List.findSome?_append, List.findSome?_cons, List.findSome?_nil]
  split <;> simp_all

theorem firstWidth_delete : firstWidth (requests ++ [deleteFile name]) other = firstWidth requests other := by
  simp [firstWidth]

theorem liveWidth_create : liveWidth (requests ++ [createFile name width creationTime lastModifiedTime]) other =
    if name = other then (liveWidth requests other).or (some width) else liveWidth requests other := by
  simp [liveWidth]

theorem liveWidth_delete : liveWidth (requests ++ [deleteFile name]) other =
    if name = other then none else liveWidth requests other := by
  simp [liveWidth]

/-- A file that exists has been created. -/
theorem liveWidth_of_firstWidth_none (h : firstWidth requests name = none) : liveWidth requests name = none := by
  induction requests using List.reverseRecOn with
  | nil => rfl
  | append_singleton requests last ih =>
      cases last with
      | createFile created width creationTime lastModifiedTime =>
          rw [firstWidth_create, Option.or_eq_none_iff] at h
          have different : ¬ created = name := by
            rintro rfl
            rw [if_pos rfl] at h
            cases h.2
          rw [liveWidth_create, if_neg different]
          exact ih h.1
      | deleteFile deleted =>
          rw [firstWidth_delete] at h
          rw [liveWidth_delete]
          split
          · rfl
          · exact ih h

theorem SameWidths.sub {before : List NameRequest} (h : SameWidths requests) (sub : before <+: requests) :
    SameWidths before := fun front name width creationTime lastModifiedTime here =>
  h front name width creationTime lastModifiedTime (here.trans sub)

/-- With one width a name, the width of a file that exists is that width. -/
theorem SameWidths.live (h : SameWidths requests) (live : liveWidth requests name = some width) :
    firstWidth requests name = some width := by
  induction requests using List.reverseRecOn with
  | nil => cases live
  | append_singleton requests last ih =>
      have front := h.sub (List.prefix_append requests [last])
      cases last with
      | createFile created width' creationTime lastModifiedTime =>
          rw [liveWidth_create] at live
          rw [firstWidth_create]
          by_cases same : created = name
          · subst same
            rw [if_pos rfl] at live ⊢
            cases before : liveWidth requests created with
            | some old =>
                rw [before] at live
                obtain rfl : old = width := by simpa using live
                rw [ih front before]
                rfl
            | none =>
                rw [before] at live
                obtain rfl : width' = width := by simpa using live
                cases first : firstWidth requests created with
                | none => rfl
                | some old =>
                    rw [h requests created width' creationTime lastModifiedTime List.prefix_rfl before old first]
                    rfl
          · rw [if_neg same] at live ⊢
            rw [ih front live]
            rfl
      | deleteFile deleted =>
          rw [liveWidth_delete] at live
          rw [firstWidth_delete]
          split at live
          · cases live
          · exact ih front live

end Widths

end NameRequest

namespace Installation

open NameRequest

variable {Peer : Type} {s : Installation Peer} {requests : List NameRequest}

/-! ## What every sequence of requests leaves behind -/

/-- The manager has the files that exist; a server that hosts the first strip of a
    name has the width of its first `CreateFile`. -/
structure Tracks (s : Installation Peer) (requests : List NameRequest) : Prop where
  dirs : ∀ i, (s.cluster.servers i).filesDirectory = serverDirectory i
  live : ∀ name, (s.manager.files.lookup name).map MMFile.stripWidth = liveWidth requests name
  closed : ∀ name file, s.manager.files.lookup name = some file → file.isOpen = false
  absent : ∀ name, firstWidth requests name = none → ∀ i, (s.cluster.servers i).files name = none
  first : ∀ name first, firstWidth requests name = some first →
    ((s.cluster.servers 0).files name).map FSFile.stripWidth = some first

theorem createFile_rejected {name : String} {file : MMFile Peer} (found : s.manager.files.lookup name = some file)
    (width creationTime lastModifiedTime : Nat) : s.createFile name width creationTime lastModifiedTime = s := by
  simp only [createFile, MetadataManager.createFile, found]

theorem createFile_accepted {name : String} (absent : s.manager.files.lookup name = none)
    (width creationTime lastModifiedTime : Nat) : s.createFile name width creationTime lastModifiedTime =
      ⟨s.manager.setFile name { name, size := 0, creationTime, lastModifiedTime, stripWidth := width },
        s.cluster.createStrips name width width⟩ := by
  simp only [createFile, MetadataManager.createFile, absent]

/-- A request that is rejected because the file exists changes nothing. -/
theorem Tracks.exists (h : s.Tracks requests) {name : String} {file : MMFile Peer}
    (found : s.manager.files.lookup name = some file) (width creationTime lastModifiedTime : Nat) :
    (∃ first, firstWidth requests name = some first) ∧
      (∀ other, firstWidth (requests ++ [.createFile name width creationTime lastModifiedTime]) other =
        firstWidth requests other) ∧
      ∀ other, liveWidth (requests ++ [.createFile name width creationTime lastModifiedTime]) other =
        liveWidth requests other := by
  have live := h.live name
  rw [found] at live
  obtain ⟨first, known⟩ : ∃ first, firstWidth requests name = some first := by
    cases known : firstWidth requests name with
    | none =>
        rw [liveWidth_of_firstWidth_none known] at live
        cases live
    | some first => exact ⟨first, rfl⟩
  refine ⟨⟨first, known⟩, fun other => ?_, fun other => ?_⟩
  · rw [firstWidth_create]
    split
    · next same => rw [← same, known]; rfl
    · exact Option.or_none
  · rw [liveWidth_create]
    split
    · next same => rw [← same, ← live]; rfl
    · rfl

theorem Tracks.createFile (h : s.Tracks requests) {name : String} {width creationTime lastModifiedTime : Nat}
    (wide : 1 ≤ width) : (s.createFile name width creationTime lastModifiedTime).Tracks
      (requests ++ [.createFile name width creationTime lastModifiedTime]) := by
  cases found : s.manager.files.lookup name with
  | some file =>
      obtain ⟨-, first, live⟩ := h.exists found width creationTime lastModifiedTime
      rw [createFile_rejected found]
      refine ⟨h.dirs, fun other => ?_, h.closed, fun other unknown => ?_, fun other width' known => ?_⟩
      · rw [live]; exact h.live other
      · rw [first] at unknown; exact h.absent other unknown
      · rw [first] at known; exact h.first other width' known
  | none =>
      have made := Cluster.createStrips_made name width h.dirs width
      have dead := h.live name
      rw [found] at dead
      rw [createFile_accepted found]
      refine ⟨fun i => (made.dirs i).trans (h.dirs i), ?_, ?_, ?_, ?_⟩
      · intro other
        rw [liveWidth_create]
        by_cases same : name = other
        · subst same
          rw [if_pos rfl, ← dead]
          rw [MetadataManager.lookup_setFile]
          rfl
        · rw [if_neg same]
          rw [MetadataManager.lookup_setFile_ne _ (Ne.symm same)]
          exact h.live other
      · intro other file there
        by_cases same : other = name
        · subst same
          rw [MetadataManager.lookup_setFile, Option.some.injEq] at there
          rw [← there]
          rfl
        · rw [MetadataManager.lookup_setFile_ne _ same] at there
          exact h.closed other file there
      · intro other unknown i
        rw [firstWidth_create, Option.or_eq_none_iff] at unknown
        have different : other ≠ name := by
          rintro rfl
          rw [if_pos rfl] at unknown
          cases unknown.2
        rw [made.others i other different]
        exact h.absent other unknown.1 i
      · intro other first known
        rw [firstWidth_create] at known
        by_cases same : name = other
        · subst same
          rw [made.records 0, Cluster.recordAfter, if_pos ⟨0, by omega, rfl⟩, Option.map_some]
          rw [if_pos rfl] at known
          simp only [Cluster.madeRecord]
          cases before : firstWidth requests name with
          | none =>
              rw [before] at known
              rw [h.absent name before 0]
              exact known
          | some old =>
              rw [before] at known
              rw [h.first name old before]
              exact known
        · rw [if_neg same, Option.or_none] at known
          rw [made.others 0 other (Ne.symm same)]
          exact h.first other first known

theorem Tracks.deleteFile (h : s.Tracks requests) (name : String) :
    (s.deleteFile name).Tracks (requests ++ [.deleteFile name]) := by
  have files : ∀ other, (s.deleteFile name).manager.files.lookup other =
      if name = other then none else s.manager.files.lookup other := by
    intro other
    simp only [Installation.deleteFile, MetadataManager.deleteFile]
    cases found : s.manager.files.lookup name with
    | none =>
        by_cases same : name = other
        · rw [if_pos same, ← same]
          exact found
        · rw [if_neg same]
    | some file =>
        simp only [h.closed name file found, Bool.false_eq_true, if_false]
        by_cases same : name = other
        · rw [if_pos same, ← same, AList.lookup_erase]
        · rw [if_neg same, AList.lookup_erase_ne (Ne.symm same)]
  refine ⟨h.dirs, fun other => ?_, fun other file there => ?_, fun other unknown => ?_, fun other first known => ?_⟩
  · rw [files, liveWidth_delete]
    split
    · rfl
    · exact h.live other
  · rw [files] at there
    split at there
    · cases there
    · exact h.closed other file there
  · rw [firstWidth_delete] at unknown
    exact h.absent other unknown
  · rw [firstWidth_delete] at known
    exact h.first other first known

/-! ## Names with one width -/

/-- The servers have exactly the strips of the width of a name. -/
structure Settled (s : Installation Peer) (requests : List NameRequest) : Prop where
  records : ∀ name width, firstWidth requests name = some width →
    ∀ i, (s.cluster.servers i).files name = Cluster.recordAfter none name width width i
  disk : ∀ name width strip, firstWidth requests name = some width → strip < width →
    (s.cluster.disk (stripPath name strip)).isSome = true

/-- Creating the strips once more adds nothing. -/
theorem recordAfter_again (name : String) (width i : Nat) :
    Cluster.recordAfter (Cluster.recordAfter none name width width i) name width width i =
      Cluster.recordAfter none name width width i := by
  unfold Cluster.recordAfter
  split
  · simp only [Cluster.madeRecord, Option.some.injEq, FSFile.mk.injEq]
    refine ⟨rfl, ?_⟩
    funext strip
    split
    · rfl
    · next outside =>
        rw [Option.bind_some]
        exact if_neg outside
  · rfl

theorem Settled.createFile (h : s.Settled requests) (tracks : s.Tracks requests) {name : String}
    {width creationTime lastModifiedTime : Nat}
    (same : liveWidth requests name = none → ∀ first, firstWidth requests name = some first → width = first) :
    (s.createFile name width creationTime lastModifiedTime).Settled
      (requests ++ [.createFile name width creationTime lastModifiedTime]) := by
  cases found : s.manager.files.lookup name with
  | some file =>
      obtain ⟨-, first, -⟩ := tracks.exists found width creationTime lastModifiedTime
      rw [createFile_rejected found]
      refine ⟨fun other width' known => ?_, fun other width' strip known => ?_⟩
      · rw [first] at known; exact h.records other width' known
      · rw [first] at known; exact h.disk other width' strip known
  | none =>
      have made := Cluster.createStrips_made name width tracks.dirs width
      have dead := tracks.live name
      rw [found] at dead
      have known' : firstWidth (requests ++ [.createFile name width creationTime lastModifiedTime]) name =
          some width := by
        rw [firstWidth_create, if_pos rfl]
        cases before : firstWidth requests name with
        | none => rfl
        | some old => rw [same dead.symm old before]; rfl
      rw [createFile_accepted found]
      refine ⟨fun other width' known => ?_, fun other width' strip known small => ?_⟩
      · by_cases here : other = name
        · subst here
          obtain rfl := Option.some.inj (known'.symm.trans known)
          intro i
          rw [made.records i]
          cases before : firstWidth requests other with
          | none => rw [tracks.absent other before i]
          | some old =>
              obtain rfl := same dead.symm old before
              rw [h.records other width before i, recordAfter_again]
        · rw [firstWidth_create, if_neg (Ne.symm here), Option.or_none] at known
          intro i
          rw [made.others i other here]
          exact h.records other width' known i
      · rw [made.disk]
        split
        · rfl
        · next untouched =>
            by_cases here : other = name
            · subst here
              obtain rfl := Option.some.inj (known'.symm.trans known)
              exact (untouched ⟨strip, small, rfl⟩).elim
            · rw [firstWidth_create, if_neg (Ne.symm here), Option.or_none] at known
              exact h.disk other width' strip known small

/-- The server a client asks for a block has its strip. -/
theorem Settled.agrees (h : s.Settled requests) {name : String} {width : Nat} (wide : 1 ≤ width)
    (known : firstWidth requests name = some width) : s.cluster.Agrees name width :=
  Cluster.agrees_of_strips wide (h.records name width known) fun strip => h.disk name width strip known

/-! ## Sequences of requests -/

theorem serve_snoc (requests : List NameRequest) (last : NameRequest) :
    s.serve (requests ++ [last]) = (s.serve requests).handle last := by
  rw [serve, List.foldl_append]
  rfl

theorem serve_tracks (wide : ∀ request ∈ requests, request.Wide) :
    (({} : Installation Peer).serve requests).Tracks requests := by
  induction requests using List.reverseRecOn with
  | nil =>
      refine ⟨fun _ => rfl, fun _ => rfl, fun name file found => ?_, fun _ _ _ => rfl, nofun⟩
      cases found
  | append_singleton requests last ih =>
      have front := ih (fun request member => wide request (List.mem_append_left _ member))
      have here := wide last (by simp)
      rw [serve_snoc]
      cases last with
      | createFile name width creationTime lastModifiedTime => exact front.createFile here.1
      | deleteFile name => exact front.deleteFile name

theorem serve_settled (wide : ∀ request ∈ requests, request.Wide) (same : SameWidths requests) :
    (({} : Installation Peer).serve requests).Settled requests := by
  induction requests using List.reverseRecOn with
  | nil => exact ⟨nofun, nofun⟩
  | append_singleton requests last ih =>
      have wide' : ∀ request ∈ requests, request.Wide := fun request member =>
        wide request (List.mem_append_left _ member)
      have front := ih wide' (same.sub (List.prefix_append _ _))
      rw [serve_snoc]
      cases last with
      | createFile name width creationTime lastModifiedTime =>
          exact front.createFile (serve_tracks wide')
            (same requests name width creationTime lastModifiedTime List.prefix_rfl)
      | deleteFile name =>
          refine ⟨fun other width known => ?_, fun other width strip known => ?_⟩
          · rw [firstWidth_delete] at known
            exact front.records other width known
          · rw [firstWidth_delete] at known
            exact front.disk other width strip known

/-- The first width of a name is one of those that were asked for. -/
theorem firstWidth_wide (wide : ∀ request ∈ requests, request.Wide) {name : String} {width : Nat}
    (known : firstWidth requests name = some width) : 1 ≤ width := by
  obtain ⟨request, member, found⟩ := List.exists_of_findSome?_eq_some known
  cases request with
  | createFile created width' creationTime lastModifiedTime =>
      simp only [Option.ite_none_right_eq_some, Option.some.injEq] at found
      rw [← found.2]
      exact (wide _ member).1
  | deleteFile deleted => cases found

/-- After every request of a sequence the servers know each file as the manager
    does, exactly when no name is created again with another width. -/
theorem geometry_iff (Peer : Type) {requests : List NameRequest} (wide : ∀ request ∈ requests, request.Wide) :
    (∀ before, before <+: requests → ∀ name file,
      (({} : Installation Peer).serve before).manager.files.lookup name = some file →
      (({} : Installation Peer).serve before).cluster.Agrees name file.stripWidth) ↔ SameWidths requests := by
  have wideSub : ∀ {before : List NameRequest}, before <+: requests → ∀ request ∈ before, request.Wide :=
    fun sub request member => wide request (sub.subset member)
  constructor
  · intro agree before name width creationTime lastModifiedTime sub dead first known
    have tracks : (({} : Installation Peer).serve before).Tracks before :=
      serve_tracks (wideSub ((List.prefix_append _ _).trans sub))
    have after : (({} : Installation Peer).serve (before ++ [.createFile name width creationTime lastModifiedTime])).Tracks
        (before ++ [.createFile name width creationTime lastModifiedTime]) := serve_tracks (wideSub sub)
    have hosts : 1 ≤ width := (wideSub sub (.createFile name width creationTime lastModifiedTime) (by simp)).1
    have live : liveWidth (before ++ [.createFile name width creationTime lastModifiedTime]) name = some width := by
      rw [liveWidth_create, if_pos rfl, dead]
      rfl
    obtain ⟨file, found, fileWidth⟩ := Option.map_eq_some_iff.mp ((after.live name).trans live)
    obtain ⟨record, atZero, recordWidth, -⟩ := (agree _ sub name file found).records 0 ⟨0, by omega, rfl⟩
    have kept : firstWidth (before ++ [.createFile name width creationTime lastModifiedTime]) name = some first := by
      rw [firstWidth_create, known]
      rfl
    have old := after.first name first kept
    rw [atZero, Option.map_some, Option.some.injEq] at old
    omega
  · intro same before sub name file found
    have tracks : (({} : Installation Peer).serve before).Tracks before := serve_tracks (wideSub sub)
    have settled : (({} : Installation Peer).serve before).Settled before :=
      serve_settled (wideSub sub) (same.sub sub)
    have live := tracks.live name
    rw [found, Option.map_some] at live
    have known := (same.sub sub).live live.symm
    exact settled.agrees (firstWidth_wide (wideSub sub) known) known

/-- A file that is deleted and created again with the same width. -/
def twice : List NameRequest := [.createFile "f" 2 5 5, .deleteFile "f", .createFile "f" 2 9 9]

theorem geometry_iff_twice :
    (∀ request ∈ twice, request.Wide) ∧ (({} : Installation Nat).serve twice).cluster.Agrees "f" 2 := by
  have wide : ∀ request ∈ twice, request.Wide := by decide
  refine ⟨wide, (geometry_iff Nat wide).mpr ?_ twice List.prefix_rfl "f" _ rfl⟩
  intro before name width creationTime lastModifiedTime sub dead first known
  match before with
  | [] => cases known
  | [_] => simp [twice] at sub
  | [_, _] =>
      simp only [twice, List.cons_append, List.nil_append, List.cons_prefix_cons, createFile.injEq] at sub
      obtain ⟨rfl, rfl, ⟨rfl, rfl, -⟩, -⟩ := sub
      exact Option.some.inj known
  | _ :: _ :: _ :: rest => simp [twice] at sub

/-- The same with another width. -/
def widened : List NameRequest := [.createFile "f" 2 5 5, .deleteFile "f", .createFile "f" 3 9 9]

/-- The manager says 3 strips, server 0 says 2 and does not know what to do with the
    fourth block. -/
theorem widths_differ :
    ((({} : Installation Nat).serve widened).manager.files.lookup "f").map MMFile.stripWidth = some 3 ∧
      (((({} : Installation Nat).serve widened).cluster.servers 0).files "f").map FSFile.stripWidth = some 2 ∧
      (((({} : Installation Nat).serve widened).cluster.serverFor 3 3072).readBlock
        (({} : Installation Nat).serve widened).cluster.disk "f" 3072 fun _ => 0).isNone = true :=
  ⟨rfl, rfl, rfl⟩

end Installation

end PFS
