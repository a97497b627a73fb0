import PFS.Bare
import PFS.Lib.Table
import PFS.Lib.Reachable

/-! # The metadata manager's token table

`MMFile` keeps, for every client that has the file open, the list of its
tokens.  A request revokes the requested range from every other client that has
a conflicting token, and grants the range to the caller; when no other client
holds any token the grant is the whole file.

The peer's identity is only ever compared, so its type is a parameter.
-/

namespace PFS

open Lib

variable {Peer : Type} [DecidableEq Peer]

/-- `class MMFile`. -/
structure MMFile (Peer : Type) where
  name : String
  size : Nat := 0
  creationTime : Nat := 0
  lastModifiedTime : Nat := 0
  stripWidth : Nat
  clientPermissions : Table Peer (List Permission) := ∅

/-- What `waitAndGetPermissionFor` answers: the granted range, and the peers to
    which it sends a `RevokePermission` for the requested range. -/
structure Grant (Peer : Type) where
  start : Nat
  stop : Nat
  revoked : List Peer

namespace MMFile

/-- The tokens of a peer, none for a peer that has not opened the file. -/
def tokens (f : MMFile Peer) (peer : Peer) : List Permission := (f.clientPermissions.lookup peer).getD []

/-- `isOpenedBy`. -/
def isOpenedBy (f : MMFile Peer) (peer : Peer) : Bool := (f.clientPermissions.lookup peer).isSome

/-- `isOpen`. -/
def isOpen (f : MMFile Peer) : Bool := !f.clientPermissions.entries.isEmpty

/-- `open`; the result says whether the peer was new. -/
def «open» (f : MMFile Peer) (peer : Peer) : MMFile Peer × Bool :=
  if f.isOpenedBy peer then (f, false)
  else ({ f with clientPermissions := f.clientPermissions.insert peer [] }, true)

/-- `close`; the result says whether the peer had the file open. -/
def close (f : MMFile Peer) (peer : Peer) : MMFile Peer × Bool :=
  if f.isOpenedBy peer then ({ f with clientPermissions := f.clientPermissions.erase peer }, true)
  else (f, false)

/-- The other peers' entries, which the loop of `waitAndGetPermissionFor` visits. -/
def others (f : MMFile Peer) (peer : Peer) : List (Σ _ : Peer, List Permission) :=
  f.clientPermissions.entries.filter (fun x => x.1 ≠ peer)

/-- The peers that a request of `peer` takes tokens from. -/
def conflicting (f : MMFile Peer) (peer : Peer) (start stop : Nat) (iswrite : Bool) : List Peer :=
  ((f.others peer).filter (fun x => Conflicts x.2 start stop iswrite)).map (fun x => x.1)

/-- The range a request is granted. -/
def grantRange (f : MMFile Peer) (peer : Peer) (start stop : Nat) (iswrite : Bool) : Nat × Nat :=
  let firstPermit := (f.others peer).all (fun x => x.2.isEmpty)
  if !(f.conflicting peer start stop iswrite).isEmpty || !firstPermit then (start, stop) else (0, intMax)

/-- The table after the revocations of a request. -/
def revokeOthers (f : MMFile Peer) (peer : Peer) (start stop : Nat) (iswrite : Bool) :
    Table Peer (List Permission) :=
  Table.mapEntries (fun q l =>
    if q ≠ peer ∧ Conflicts l start stop iswrite then revokePermission start stop l else l)
    f.clientPermissions

/-- `waitAndGetPermissionFor`, up to the joins: the table changes before the
    revocation threads are waited for.  A peer without an entry makes the code
    dereference a null list: `none`. -/
def waitAndGetPermissionFor (f : MMFile Peer) (peer : Peer) (start stop : Nat) (iswrite : Bool) :
    Option (MMFile Peer × Grant Peer) := do
  let table := f.revokeOthers peer start stop iswrite
  let range := f.grantRange peer start stop iswrite
  let own ← table.lookup peer
  let own' ← addPermission range.1 range.2 iswrite own false
  some ({ f with clientPermissions := table.insert peer own' },
    ⟨range.1, range.2, f.conflicting peer start stop iswrite⟩)

/-! ## The table after one call -/

theorem tokens_of_lookup {f : MMFile Peer} {q : Peer} {l : List Permission}
    (stored : f.clientPermissions.lookup q = some l) : f.tokens q = l := by
  simp [tokens, stored]

theorem tokens_of_absent {f : MMFile Peer} {q : Peer}
    (absent : f.clientPermissions.lookup q = none) : f.tokens q = [] := by
  simp [tokens, absent]

theorem tokens_open (f : MMFile Peer) (peer q : Peer) : (f.open peer).1.tokens q = f.tokens q := by
  by_cases opened : f.isOpenedBy peer = true
  · rw [«open», if_pos opened]
  · rw [«open», if_neg opened]
    by_cases same : q = peer
    · subst same
      have absent : f.clientPermissions.lookup q = none := by simpa [isOpenedBy] using opened
      rw [tokens_of_absent absent, tokens_of_lookup (AList.lookup_insert _)]
    · simp only [tokens, AList.lookup_insert_ne same]

theorem tokens_close (f : MMFile Peer) (peer q : Peer) :
    (f.close peer).1.tokens q = if q = peer then [] else f.tokens q := by
  by_cases opened : f.isOpenedBy peer = true
  · rw [close, if_pos opened]
    by_cases same : q = peer
    · subst same
      rw [if_pos rfl, tokens_of_absent (AList.lookup_erase _ _)]
    · simp only [tokens, AList.lookup_erase_ne same, if_neg same]
  · rw [close, if_neg opened]
    by_cases same : q = peer
    · subst same
      rw [if_pos rfl, tokens_of_absent (by simpa [isOpenedBy] using opened)]
    · rw [if_neg same]

theorem isOpenedBy_open (f : MMFile Peer) (peer q : Peer) :
    (f.open peer).1.isOpenedBy q = (f.isOpenedBy q || decide (q = peer)) := by
  by_cases opened : f.isOpenedBy peer = true
  · rw [«open», if_pos opened]
    by_cases same : q = peer
    · subst same; simp [opened]
    · simp [same]
  · rw [«open», if_neg opened]
    by_cases same : q = peer
    · subst same
      simp [isOpenedBy]
    · simp [isOpenedBy, AList.lookup_insert_ne same, same]

theorem isOpenedBy_close (f : MMFile Peer) (peer q : Peer) :
    (f.close peer).1.isOpenedBy q = (f.isOpenedBy q && !decide (q = peer)) := by
  by_cases opened : f.isOpenedBy peer = true
  · rw [close, if_pos opened]
    by_cases same : q = peer
    · subst same
      simp [isOpenedBy]
    · simp [isOpenedBy, AList.lookup_erase_ne same, same]
  · rw [close, if_neg opened]
    by_cases same : q = peer
    · subst same; simp [opened]
    · simp [same]

theorem isOpen_of_isOpenedBy {f : MMFile Peer} {peer : Peer} (opened : f.isOpenedBy peer = true) :
    f.isOpen = true := by
  obtain ⟨l, stored⟩ := Option.isSome_iff_exists.mp opened
  have member := Table.mem_entries.mpr stored
  rw [isOpen, Bool.not_eq_true', List.isEmpty_eq_false_iff]
  exact List.ne_nil_of_mem member

/-- The tokens of the other peers after a request. -/
def tokensAfter (f : MMFile Peer) (start stop : Nat) (iswrite : Bool) (q : Peer) : List Permission :=
  if Conflicts (f.tokens q) start stop iswrite then revokePermission start stop (f.tokens q)
  else f.tokens q

theorem lookup_revokeOthers (f : MMFile Peer) {peer q : Peer} (start stop : Nat) (iswrite : Bool)
    (other : q ≠ peer) :
    ((f.revokeOthers peer start stop iswrite).lookup q).getD [] = f.tokensAfter start stop iswrite q := by
  simp only [revokeOthers, Table.lookup_mapEntries, tokensAfter]
  cases stored : f.clientPermissions.lookup q with
  | none =>
      rw [tokens_of_absent stored, if_neg]
      · rfl
      · rintro ⟨p, member, -⟩
        cases member
  | some l =>
      rw [tokens_of_lookup stored]
      simp [other]

/-- Everything one request does to the table. -/
theorem waitAndGetPermissionFor_spec {f f' : MMFile Peer} {peer start stop iswrite grant}
    (h : f.waitAndGetPermissionFor peer start stop iswrite = some (f', grant)) :
    f.grantRange peer start stop iswrite = (grant.start, grant.stop) ∧
      grant.revoked = f.conflicting peer start stop iswrite ∧
      addPermission grant.start grant.stop iswrite (f.tokens peer) false = some (f'.tokens peer) ∧
      (∀ q, q ≠ peer → f'.tokens q = f.tokensAfter start stop iswrite q) ∧
      ∀ q, f'.isOpenedBy q = f.isOpenedBy q := by
  simp only [waitAndGetPermissionFor, Option.bind_eq_bind, Option.bind_eq_some_iff, Option.some.injEq,
    Prod.mk.injEq] at h
  obtain ⟨own, found, own', added, rfl, rfl⟩ := h
  have ownEq : own = f.tokens peer := by
    simp only [revokeOthers, Table.lookup_mapEntries] at found
    obtain ⟨l, stored, rfl⟩ := Option.map_eq_some_iff.mp found
    simp [tokens, stored]
  refine ⟨rfl, rfl, ?_, ?_, ?_⟩
  · simpa [tokens, ownEq] using added
  · intro q other
    simp only [tokens, AList.lookup_insert_ne other]
    exact lookup_revokeOthers f start stop iswrite other
  · intro q
    by_cases same : q = peer
    · subst same
      simp only [isOpenedBy, AList.lookup_insert, Option.isSome_some]
      simp only [revokeOthers, Table.lookup_mapEntries] at found
      obtain ⟨l, stored, -⟩ := Option.map_eq_some_iff.mp found
      simp [stored]
    · simp only [isOpenedBy, AList.lookup_insert_ne same, revokeOthers, Table.lookup_mapEntries,
        Option.isSome_map]

theorem waitAndGetPermissionFor_name {f f' : MMFile Peer} {peer start stop iswrite grant}
    (h : f.waitAndGetPermissionFor peer start stop iswrite = some (f', grant)) : f'.name = f.name := by
  simp only [waitAndGetPermissionFor, Option.bind_eq_bind, Option.bind_eq_some_iff, Option.some.injEq,
    Prod.mk.injEq] at h
  obtain ⟨_, -, _, -, rfl, -⟩ := h
  rfl

/-- A peer that has the file open is always answered. -/
theorem waitAndGetPermissionFor_answers {f : MMFile Peer} {peer : Peer} (opened : f.isOpenedBy peer = true)
    (start stop : Nat) (iswrite : Bool) :
    ∃ r, f.waitAndGetPermissionFor peer start stop iswrite = some r := by
  obtain ⟨l, stored⟩ := Option.isSome_iff_exists.mp opened
  simp only [waitAndGetPermissionFor, revokeOthers, Table.lookup_mapEntries, stored, Option.map_some,
    Option.bind_eq_bind, Option.bind_some]
  obtain ⟨l', added⟩ := addPermission_unlocked (f.grantRange peer start stop iswrite).1
    (f.grantRange peer start stop iswrite).2 iswrite
    (if peer ≠ peer ∧ Conflicts l start stop iswrite then revokePermission start stop l else l)
  simp only [added, Option.bind_some]
  exact ⟨_, rfl⟩

theorem mem_conflicting {f : MMFile Peer} {peer q : Peer} {start stop : Nat} {iswrite : Bool} :
    q ∈ f.conflicting peer start stop iswrite ↔ q ≠ peer ∧ Conflicts (f.tokens q) start stop iswrite := by
  simp only [conflicting, others, List.mem_map, List.mem_filter, decide_eq_true_eq]
  constructor
  · rintro ⟨⟨k, l⟩, ⟨⟨member, other⟩, clash⟩, rfl⟩
    have stored := Table.mem_entries.mp member
    exact ⟨other, by simpa [tokens, stored] using clash⟩
  · rintro ⟨other, clash⟩
    cases stored : f.clientPermissions.lookup q with
    | none =>
        simp only [tokens, stored, Option.getD_none] at clash
        obtain ⟨p, member, -⟩ := clash
        cases member
    | some l =>
        refine ⟨⟨q, l⟩, ⟨⟨Table.mem_entries.mpr stored, other⟩, ?_⟩, rfl⟩
        simpa [tokens, stored] using clash

/-- The whole file is granted only when no other peer holds a token. -/
theorem grantRange_cases (f : MMFile Peer) (peer : Peer) (start stop : Nat) (iswrite : Bool) :
    f.grantRange peer start stop iswrite = (start, stop) ∨
      (f.grantRange peer start stop iswrite = (0, intMax) ∧ ∀ q, q ≠ peer → f.tokens q = []) := by
  simp only [grantRange]
  split
  · exact .inl rfl
  · next alone =>
      refine .inr ⟨rfl, fun q other => ?_⟩
      have empty : (f.others peer).all (fun x => x.2.isEmpty) = true := by
        simp only [Bool.or_eq_true, Bool.not_eq_eq_eq_not, Bool.not_true, not_or,
          Bool.not_eq_false] at alone
        exact alone.2
      cases stored : f.clientPermissions.lookup q with
      | none => simp [tokens, stored]
      | some l =>
          have member : (⟨q, l⟩ : Σ _ : Peer, List Permission) ∈ f.others peer := by
            simp only [others, List.mem_filter, decide_eq_true_eq]
            exact ⟨Table.mem_entries.mpr stored, other⟩
          have := List.all_eq_true.mp empty _ member
          simpa [tokens, stored] using this

/-- The granted range has the requested one in it. -/
theorem grantRange_le (f : MMFile Peer) (peer : Peer) {start stop : Nat} (iswrite : Bool) (range : start ≤ stop)
    (smallStop : stop ≤ intMax) : (f.grantRange peer start stop iswrite).1 ≤ start ∧
      stop ≤ (f.grantRange peer start stop iswrite).2 ∧
      (f.grantRange peer start stop iswrite).2 ≤ intMax ∧
      (f.grantRange peer start stop iswrite).1 ≤ (f.grantRange peer start stop iswrite).2 := by
  rcases grantRange_cases f peer start stop iswrite with exactly | ⟨whole, -⟩
  · rw [exactly]
    exact ⟨Nat.le_refl _, Nat.le_refl _, smallStop, range⟩
  · rw [whole]
    exact ⟨Nat.zero_le _, smallStop, Nat.le_refl _, Nat.zero_le _⟩

/-- A request inside the `int` range keeps the table in it. -/
theorem waitAndGetPermissionFor_bounded {f f' : MMFile Peer} {peer : Peer} {start stop : Nat} {iswrite : Bool}
    {grant : Grant Peer} (small : ∀ q, Bounded (f.tokens q)) (range : start ≤ stop) (smallStop : stop ≤ intMax)
    (asked : f.waitAndGetPermissionFor peer start stop iswrite = some (f', grant)) (q : Peer) : Bounded (f'.tokens q) := by
  obtain ⟨granted, -, added, rest, -⟩ := waitAndGetPermissionFor_spec asked
  obtain ⟨-, -, smallEnd, forward⟩ := grantRange_le f peer iswrite range smallStop
  rw [granted] at smallEnd forward
  simp only at smallEnd forward
  by_cases same : q = peer
  · subst same
    exact addPermission_bounded added (small q) (by omega) smallEnd
  · rw [rest q same, tokensAfter]
    split
    · exact revokePermission_bounded (small q) (by omega) smallStop
    · exact small q

/-- A peer that is alone with its tokens is granted the whole file. -/
theorem grantRange_alone {f : MMFile Peer} {peer : Peer} (alone : ∀ q, q ≠ peer → f.tokens q = []) (start stop : Nat)
    (iswrite : Bool) : f.grantRange peer start stop iswrite = (0, intMax) := by
  have empty : ∀ x ∈ f.others peer, x.2 = [] := by
    intro x member
    obtain ⟨inside, other⟩ := List.mem_filter.mp member
    have stored : f.clientPermissions.lookup x.1 = some x.2 := AList.mem_lookup_iff.mpr inside
    rw [← tokens_of_lookup stored]
    exact alone x.1 (by simpa using other)
  have noConflict : f.conflicting peer start stop iswrite = [] := by
    rw [conflicting, List.map_eq_nil_iff, List.filter_eq_nil_iff]
    intro x member
    simp [empty x member, Conflicts]
  have noToken : (f.others peer).all (fun x => x.2.isEmpty) = true := by
    rw [List.all_eq_true]
    intro x member
    rw [empty x member]
    rfl
  simp [grantRange, noConflict, noToken]

end MMFile

end PFS
