import PFS.System.Deployment
import Mathlib.Data.List.Induction

/-! # The widths that are divided by

The stripe width of a file is given to `createFile`, recorded by the manager, sent with
the requests for the strips to the file servers and with the reply to `OpenFile` to the
clients.  Clients and servers divide by it.  Nobody looks at it on the way: what
`createFile` is given is what is divided by.
-/

namespace PFS

open Lib

variable {Peer : Type}

/-- The bits of an `int` that is sent as a `uint32` and stored in an `int` again. -/
theorem asInt_toUInt32 (n : Int32) : asInt n.toUInt32.toNat = n.toInt := by
  have bits : n.toUInt32.toNat = n.toBitVec.toNat := rfl
  have value : n.toInt = n.toBitVec.toInt := rfl
  have small : n.toBitVec.toNat < 2 ^ 32 := n.toBitVec.isLt
  rw [bits, value, BitVec.toInt_eq_toNat_cond, asInt]
  by_cases low : n.toBitVec.toNat ≤ intMax
  · rw [if_pos low, if_pos (by simp only [intMax] at low; omega)]
  · rw [if_neg low, if_neg (by simp only [intMax] at low; omega)]
    rfl

/-- A server records the width of the request it hears of a file first. -/
theorem Cluster.createStrip_width {c : Cluster} {name other : String} {width id i : Nat} {file : FSFile}
    (found : ((c.createStrip name width id).servers i).files other = some file) :
    file.stripWidth = width ∨ ∃ old, (c.servers i).files other = some old ∧ file.stripWidth = old.stripWidth := by
  by_cases here : i = id % numFileServers
  · subst here
    simp only [createStrip, FileServer.createFile, Function.update_self] at found
    by_cases same : other = name
    · subst same
      rw [Function.update_self] at found
      obtain rfl := Option.some.inj found
      cases known : (c.servers (id % numFileServers)).files other with
      | none => exact .inl rfl
      | some old => exact .inr ⟨old, rfl, rfl⟩
    · rw [Function.update_of_ne same] at found
      exact .inr ⟨file, found, rfl⟩
  · simp only [createStrip, Function.update_of_ne here] at found
    exact .inr ⟨file, found, rfl⟩

namespace Deployment

/-- Every recorded width is positive: the manager's, those the clients divide by in
    `flush` and `getBlockFromFileServer`, and those the four handlers of the servers
    divide by. -/
structure PositiveWidths (s : Deployment Peer) : Prop where
  manager : ∀ name file, s.manager.files.lookup name = some file → 1 ≤ asInt file.stripWidth
  clients : ∀ peer, ∀ file ∈ (s.clients peer).openedFiles, 1 ≤ asInt file.stripWidth
  servers : ∀ i name file, (s.cluster.servers i).files name = some file → 1 ≤ asInt file.stripWidth

/-- A `createFile` that the manager accepts is given a positive width. -/
def CreatesWide (s : Deployment Peer) : Call Peer → Prop
  | .createFile peer filename stripeWidth _ _ =>
      s.started peer = true → s.manager.files.lookup filename = none → 1 ≤ stripeWidth.toInt
  | _ => True

/-- The widths that the handlers are still to send included. -/
structure AllPositive (s : Deployment Peer) : Prop extends s.PositiveWidths where
  sending : ∀ handler ∈ s.creating, 1 ≤ asInt handler.2.stripeWidth

namespace AllPositive

variable {s s' : Deployment Peer}

theorem initial : ({} : Deployment Peer).AllPositive := by
  refine ⟨⟨?_, ?_, ?_⟩, ?_⟩
  · intro name file found
    cases found
  · intro peer file member
    cases member
  · intro i name file found
    cases found
  · intro handler member
    cases member

theorem setFile (h : s.AllPositive) {filename : String} {record : MMFile Peer} (wide : 1 ≤ asInt record.stripWidth)
    (name : String) (file : MMFile Peer) (known : (s.manager.setFile filename record).files.lookup name = some file) :
    1 ≤ asInt file.stripWidth := by
  by_cases same : name = filename
  · subst same
    rw [MetadataManager.lookup_setFile] at known
    obtain rfl := Option.some.inj known
    exact wide
  · rw [MetadataManager.lookup_setFile_ne _ same] at known
    exact h.manager name file known

theorem quiet (h : s.AllPositive) (quiet : Quiet s s') : s'.AllPositive := by
  refine ⟨⟨?_, ?_, ?_⟩, ?_⟩
  · intro name file found
    have known : s'.manager.widthOf name = some file.stripWidth := by
      rw [MetadataManager.widthOf, found, Option.map_some]
    obtain ⟨old, found', width⟩ := Option.map_eq_some_iff.mp (quiet.widths name file.stripWidth known)
    rw [← width]
    exact h.manager name old found'
  · intro peer file member
    obtain ⟨old, member', -, width⟩ := (quiet.clients peer).files file member
    rw [width]
    exact h.clients peer old member'
  · rw [quiet.cluster]
    exact h.servers
  · rw [quiet.creating]
    exact h.sending

theorem created (h : s.AllPositive) (filename : String) {width : Nat} (wide : 1 ≤ asInt width)
    (creationTime lastModifiedTime : Nat) : (s.created filename width creationTime lastModifiedTime).AllPositive := by
  refine ⟨⟨h.setFile wide, h.clients, h.servers⟩, ?_⟩
  intro handler member
  rcases List.mem_append.mp member with old | new
  · exact h.sending handler old
  · rw [List.mem_singleton.mp new]
    exact wide

theorem createStrip (h : s.AllPositive) {handler : Nat} {name : String} {loop : StripLoop}
    (here : s.creating[handler]? = some (name, loop)) :
    AllPositive { s with
      cluster := s.cluster.createStrip name loop.stripeWidth loop.next
      creating := s.creating.set handler (name, { loop with next := loop.next + 1 }) } := by
  have wide : 1 ≤ asInt loop.stripeWidth := h.sending (name, loop) (List.mem_of_getElem? here)
  refine ⟨⟨h.manager, h.clients, ?_⟩, ?_⟩
  · intro i other file found
    rcases Cluster.createStrip_width found with new | ⟨old, known, same⟩
    · rw [new]
      exact wide
    · rw [same]
      exact h.servers i other old known
  · intro other member
    rcases List.mem_or_eq_of_mem_set member with old | rfl
    · exact h.sending other old
    · exact wide

variable [DecidableEq Peer]

theorem opened (h : s.AllPositive) (peer : Peer) {filename : String} {record : MMFile Peer}
    (found : s.manager.files.lookup filename = some record) : (s.opened peer filename record).AllPositive := by
  have wide : 1 ≤ asInt record.stripWidth := h.manager filename record found
  have wide' : 1 ≤ asInt (record.open peer).1.stripWidth := by
    unfold MMFile.open
    split <;> exact wide
  refine ⟨⟨h.setFile wide', ?_, h.servers⟩, h.sending⟩
  intro other file member
  by_cases same : other = peer
  · subst same
    simp only [Deployment.opened, setFiles, Function.update_self, ManyFiles.openFile, files, List.mem_append,
      List.mem_singleton] at member
    rcases member with old | rfl
    · exact h.clients other file old
    · exact wide
  · simp only [Deployment.opened, setFiles, Function.update_of_ne same] at member
    exact h.clients other file member

theorem step {call : Call Peer} (h : s.AllPositive) (wide : s.CreatesWide call) (done : s.exec call = some s') :
    s'.AllPositive := by
  rcases exec_cases done with quiet | ⟨peer, filename, mode, record, rfl, found, rfl⟩ |
      ⟨peer, filename, stripeWidth, _, _, rfl, started, absent, rfl⟩ | ⟨handler, name, loop, rfl, here, rfl⟩
  · exact h.quiet quiet
  · exact h.opened peer found
  · refine h.created filename ?_ _ _
    rw [asInt_toUInt32]
    exact wide started absent
  · exact h.createStrip here

end AllPositive

variable {s : Deployment Peer} [DecidableEq Peer]

theorem run_allPositive {before : List (Call Peer)}
    (wide : ∀ earlier call, earlier ++ [call] <+: before → ∀ s, machine.run {} earlier = some s → s.CreatesWide call)
    (ran : machine.run {} before = some s) : s.AllPositive := by
  induction before using List.reverseRecOn generalizing s with
  | nil =>
      obtain rfl := Option.some.inj ran
      exact .initial
  | append_singleton before call ih =>
      obtain ⟨u, front, -, done⟩ := machine.run_snoc.mp ran
      have positive := ih (fun earlier call sub => wide earlier call (sub.trans (List.prefix_append _ _))) front
      exact positive.step (wide before call (List.prefix_refl _) u front) done

/-- In every run all the widths that are recorded, and so all that are divided by, are
    positive as long as each `createFile` that the manager accepts is given a positive
    width; and they are not from the first one on that is not. -/
theorem positiveWidths_iff (calls : List (Call Peer)) :
    (∀ before, before <+: calls → ∀ s, machine.run {} before = some s → s.PositiveWidths) ↔
      ∀ before call, before ++ [call] <+: calls → ∀ s, machine.run {} before = some s → s.CreatesWide call := by
  constructor
  · intro positive before call sub s ran
    cases call with
    | createFile peer filename stripeWidth creationTime lastModifiedTime =>
        intro started absent
        have next : machine.run {} (before ++ [.createFile peer filename stripeWidth creationTime lastModifiedTime]) =
            some (s.created filename stripeWidth.toUInt32.toNat creationTime lastModifiedTime) := by
          have done := createFile_eq s peer filename stripeWidth creationTime lastModifiedTime
          rw [if_pos ⟨started, absent⟩] at done
          rw [Machine.run_append, ran, ← done]
          rfl
        have record := (positive _ sub _ next).manager filename _ (MetadataManager.lookup_setFile _ _ _)
        rw [asInt_toUInt32] at record
        exact record
    | clientStart | createStrip | openFile | readFile | writeFile | closeFile | deleteFile | flush | harvest =>
        exact trivial
  · intro wide before sub s ran
    exact (run_allPositive (fun earlier call sub' => wide earlier call (sub'.trans sub)) ran).toPositiveWidths

/-- A client that has started. -/
def oneClient : Deployment Nat := (machine.run {} [.clientStart 1]).get rfl

/-- The client has created a file of no strips and opened it. -/
def noStrips : Deployment Nat :=
  (machine.run oneClient [.createFile 1 "f" 0 5 5, .openFile 1 "f" 'w']).get rfl

/-- The manager accepts the width 0, and the client divides by it. -/
theorem noStrips_divides : (oneClient.createFile 1 "f" 0 5 5).1 = 0 ∧ Reachable Initial machine.Step noStrips ∧
    (noStrips.clients 1).openedFiles.map ClientFile.stripWidth = [0] ∧ ¬ noStrips.PositiveWidths := by
  have first : Reachable Initial machine.Step oneClient :=
    machine.run_reachable (.init rfl) (Option.some_get _).symm
  refine ⟨rfl, machine.run_reachable first (Option.some_get _).symm, rfl, fun positive => ?_⟩
  exact absurd (positive.clients 1 _ List.mem_cons_self) (by decide)

end Deployment

end PFS
