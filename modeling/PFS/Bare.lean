import PFS.Coverage

/-! # Locks do not steer the token operations

The manager keeps its tokens unlocked, the clients lock theirs.  Forgetting the
locks and waiting lists commutes with every operation on token lists, so the
two tables stay equal as lists of ranges as long as they see the same
operations in the same order.
-/

namespace PFS

open Permission

/-- The ranges and modes of a token list. -/
def bareList (l : List Permission) : List Permission := l.map bare

@[simp] theorem bareList_nil : bareList [] = [] := rfl

@[simp] theorem bareList_cons (p : Permission) (l : List Permission) :
    bareList (p :: l) = p.bare :: bareList l := rfl

@[simp] theorem bareList_append (l m : List Permission) :
    bareList (l ++ m) = bareList l ++ bareList m := List.map_append

@[simp] theorem grants_bareList {l : List Permission} {w b} :
    Grants (bareList l) w b ↔ Grants l w b := Grants.map_bare

@[simp] theorem isShared_bare (p : Permission) (s e : Nat) : p.bare.isShared s e = p.isShared s e := rfl

@[simp] theorem isInclusiveShared_bare (p : Permission) (s e : Nat) :
    p.bare.isInclusiveShared s e = p.isInclusiveShared s e := rfl

section Cuts

variable (q : Permission → Bool) (same : ∀ p, q p.bare = q p)

include same

theorem takeWhile_bare (l : List Permission) : (bareList l).takeWhile q = bareList (l.takeWhile q) := by
  induction l with
  | nil => rfl
  | cons p l ih =>
      simp only [bareList_cons, List.takeWhile_cons, same]
      split
      · rw [ih]; rfl
      · rfl

theorem dropWhile_bare (l : List Permission) : (bareList l).dropWhile q = bareList (l.dropWhile q) := by
  induction l with
  | nil => rfl
  | cons p l ih =>
      simp only [bareList_cons, List.dropWhile_cons, same]
      split
      · exact ih
      · rfl

theorem rtakeWhile_bare (l : List Permission) : (bareList l).rtakeWhile q = bareList (l.rtakeWhile q) := by
  have flip := takeWhile_bare q same l.reverse
  simp only [bareList, List.map_reverse] at flip ⊢
  simp only [List.rtakeWhile, flip, List.map_reverse]

theorem rdropWhile_bare (l : List Permission) : (bareList l).rdropWhile q = bareList (l.rdropWhile q) := by
  have flip := dropWhile_bare q same l.reverse
  simp only [bareList, List.map_reverse] at flip ⊢
  simp only [List.rdropWhile, flip, List.map_reverse]

theorem all_bare (l : List Permission) : (bareList l).all q = l.all q := by
  simp only [bareList, List.all_map, Function.comp_def, same]

theorem filter_bare (l : List Permission) : (bareList l).filter q = bareList (l.filter q) := by
  simp only [bareList, List.filter_map, Function.comp_def, same]

end Cuts

theorem getLastD_bare (l : List Permission) (p : Permission) :
    (bareList l).getLastD p.bare = (l.getLastD p).bare := by
  simp only [bareList, List.getLastD_map]

/-! ## Adding -/

def Scan.bare (sc : Scan) : Scan :=
  ⟨bareList sc.before, sc.first.bare, bareList sc.run, bareList sc.after⟩

theorem scan_bare (start stop : Nat) (l : List Permission) :
    scan start stop (bareList l) = (scan start stop l).map Scan.bare := by
  have same : ∀ p : Permission, p.bare.isInclusiveShared start stop = p.isInclusiveShared start stop :=
    fun _ => rfl
  have differ : ∀ p : Permission, (!p.bare.isInclusiveShared start stop) = !p.isInclusiveShared start stop :=
    fun _ => rfl
  simp only [scan, dropWhile_bare (fun p => !p.isInclusiveShared start stop) differ,
    takeWhile_bare (fun p => !p.isInclusiveShared start stop) differ]
  cases l.dropWhile (fun p => !p.isInclusiveShared start stop) with
  | nil => rfl
  | cons first rest =>
      simp only [bareList_cons, all_bare (fun p => p.isInclusiveShared start stop) same,
        takeWhile_bare (fun p => p.isInclusiveShared start stop) same, Option.map_some, Scan.bare,
        Option.some.injEq, Scan.mk.injEq, true_and]
      split
      · exact ⟨rfl, rfl⟩
      · refine ⟨rfl, ?_⟩
        simp only [bareList, List.length_map, List.map_drop]

theorem Scan.last_bare (sc : Scan) : sc.bare.last = sc.last.bare := getLastD_bare sc.run sc.first

theorem mergeWrite_bare (sc : Scan) (start stop : Nat) (lockNew : Bool) :
    mergeWrite sc.bare start stop false = bareList (mergeWrite sc start stop lockNew) := by
  have first : sc.bare.first = sc.first.bare := rfl
  simp only [mergeWrite, Scan.sPermit, Scan.ePermit, Scan.writeStart, Scan.writeEnd, Scan.last_bare,
    first, bare_start, bare_stop, bare_write, bareList_append, bareList_cons]
  congr 1
  · split <;> rfl
  · congr 1
    split <;> rfl

theorem lockIf_bare {lockNew p q} (h : lockIf lockNew p = some q) : q.bare = p.bare := by
  obtain ⟨hs, he, hw⟩ := lockIf_fields h
  simp only [bare, hs, he, hw]

theorem fillGaps_bare {lockNew} : ∀ {ws newEnd acc bound merged},
    fillGaps lockNew ws newEnd acc = some (bound, merged) →
    fillGaps false (bareList ws) newEnd (bareList acc) = some (bound, bareList merged) := by
  intro ws
  induction ws with
  | nil =>
      intro newEnd acc bound merged h
      simp only [fillGaps, Option.some.injEq, Prod.mk.injEq] at h
      obtain ⟨rfl, rfl⟩ := h
      rfl
  | cons w ws ih =>
      intro newEnd acc bound merged h
      simp only [fillGaps, Option.bind_eq_bind, Option.bind_eq_some_iff] at h
      obtain ⟨kept, locked, h⟩ := h
      have step := ih h
      rw [bareList_cons, lockIf_bare locked] at step
      exact step

theorem fillFrom_bare {lockNew ws newEnd bound merged}
    (h : fillFrom lockNew newEnd ws = some (bound, merged)) :
    fillFrom false newEnd (bareList ws) = some (bound, bareList merged) := by
  cases ws with
  | nil =>
      simp only [fillFrom, Option.some.injEq, Prod.mk.injEq] at h
      obtain ⟨rfl, rfl⟩ := h
      rfl
  | cons w ws =>
      simp only [fillFrom] at h
      split at h
      · next reach =>
          refine (if_pos reach).trans ?_
          simp only [Option.bind_eq_bind, Option.bind_eq_some_iff] at h
          obtain ⟨kept, locked, h⟩ := h
          have step := fillGaps_bare h
          rw [bareList_cons, lockIf_bare locked] at step
          exact step
      · next short => exact (if_neg short).trans (fillGaps_bare h)

theorem Scan.writePermits_bare (sc : Scan) :
    sc.bare.writePermits.reverse = bareList sc.writePermits.reverse := by
  have filtered := filter_bare (fun p => p.write) (fun _ => rfl) (sc.first :: sc.run)
  simp only [bareList, List.map_reverse] at filtered ⊢
  exact congrArg List.reverse filtered

theorem mergeRead_bare {sc : Scan} {start stop : Nat} {lockNew : Bool} {merged}
    (done : mergeRead sc start stop lockNew = some merged) :
    mergeRead sc.bare start stop false = some (bareList merged) := by
  have first : sc.bare.first = sc.first.bare := rfl
  have empty : sc.bare.writePermits.isEmpty = sc.writePermits.isEmpty := by
    have flip := congrArg List.isEmpty sc.writePermits_bare
    simpa [bareList] using flip
  have lower : sc.bare.readStart start = sc.readStart start := by
    simp only [Scan.readStart, first, bare_write, bare_start]
  have upper : sc.bare.readEnd stop = sc.readEnd stop := by
    simp only [Scan.readEnd, Scan.last_bare, bare_write, bare_stop]
  simp only [mergeRead, empty, lower, upper, Scan.writePermits_bare] at done ⊢
  split at done
  · next none =>
      rw [if_pos none]
      obtain rfl := Option.some.inj done
      rfl
  · next some' =>
      rw [if_neg some']
      simp only [Option.bind_eq_bind, Option.bind_eq_some_iff] at done ⊢
      obtain ⟨⟨bound, rest⟩, filled, done⟩ := done
      refine ⟨(bound, bareList rest), fillFrom_bare filled, ?_⟩
      split at done
      · next signed =>
          obtain rfl := Option.some.inj done
          exact if_pos signed
      · next signed =>
          obtain rfl := Option.some.inj done
          exact if_neg signed

/-- Whatever `addPermission` does to a client's locked tokens, it does to the
    manager's. -/
theorem addPermission_bare {start stop write l lockNew l'}
    (done : addPermission start stop write l lockNew = some l') :
    addPermission start stop write (bareList l) false = some (bareList l') := by
  simp only [addPermission, scan_bare] at done ⊢
  cases found : scan start stop l with
  | none =>
      simp only [found, Option.map_none] at done ⊢
      obtain rfl := Option.some.inj done
      simp only [insertPermit, rdropWhile_bare (fun p => !decide (p.stop < start)) (fun _ => rfl),
        rtakeWhile_bare (fun p => !decide (p.stop < start)) (fun _ => rfl), bareList_append, bareList_cons]
      rfl
  | some sc =>
      simp only [found, Option.map_some] at done ⊢
      split at done
      · next writes =>
          rw [if_pos writes]
          obtain rfl := Option.some.inj done
          simp only [bareList_append, mergeWrite_bare sc start stop lockNew]
          rfl
      · next reads =>
          rw [if_neg reads]
          obtain ⟨merged, mergeDone, rfl⟩ := Option.map_eq_some_iff.mp done
          simp only [mergeRead_bare mergeDone, Option.map_some, bareList_append]
          rfl

/-- Without locking, adding a token never blocks. -/
theorem addPermission_unlocked (start stop : Nat) (write : Bool) (l : List Permission) :
    ∃ l', addPermission start stop write l false = some l' := by
  have gaps : ∀ (ws : List Permission) newEnd acc, ∃ r, fillGaps false ws newEnd acc = some r := by
    intro ws
    induction ws with
    | nil => exact fun newEnd acc => ⟨_, rfl⟩
    | cons w ws ih => exact fun newEnd acc => ih w.start _
  have from' : ∀ (ws : List Permission) newEnd, ∃ r, fillFrom false newEnd ws = some r := by
    intro ws newEnd
    cases ws with
    | nil => exact ⟨_, rfl⟩
    | cons w ws =>
        simp only [fillFrom]
        split
        · exact gaps ws w.start [w]
        · exact gaps (w :: ws) newEnd []
  unfold addPermission
  split
  · next sc found =>
      split
      · exact ⟨_, rfl⟩
      · obtain ⟨r, filled⟩ := from' sc.writePermits.reverse (sc.readEnd stop)
        simp only [mergeRead, filled, Option.bind_eq_bind, Option.bind_some]
        split
        · exact ⟨_, rfl⟩
        · split <;> exact ⟨_, rfl⟩
  · exact ⟨_, rfl⟩

/-! ## Revoking and testing -/

theorem cutRun_bare (start stop : Nat) (l : List Permission) :
    cutRun start stop (bareList l) = bareList (cutRun start stop l) := by
  match l with
  | [] => rfl
  | [p] =>
      simp only [cutRun, cutOne, bareList_append, apply_ite bareList]
      rfl
  | p :: q :: rest =>
      simp only [cutRun, bareList_append, apply_ite bareList]
      simp only [bareList_cons, getLastD_bare]
      rfl

theorem revokePermission_bare (start stop : Nat) (l : List Permission) :
    revokePermission start stop (bareList l) = bareList (revokePermission start stop l) := by
  have same : ∀ p : Permission, (!p.bare.isShared start stop) = !p.isShared start stop := fun _ => rfl
  simp only [revokePermission, takeWhile_bare (fun p => !p.isShared start stop) same,
    dropWhile_bare (fun p => !p.isShared start stop) same,
    rdropWhile_bare (fun p => !p.isShared start stop) same,
    rtakeWhile_bare (fun p => !p.isShared start stop) same, cutRun_bare, bareList_append]

end PFS
