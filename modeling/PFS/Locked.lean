import PFS.Bare
import PFS.Ordered

/-! # Locked tokens in ordered lists

The tokens a reply brings are locked and stay together in the list: what stands
in front of them ends where the granted range starts or before, what stands behind
them starts there or later.  A revocation that avoids them leaves them as they are.
-/

namespace PFS

/-! ## The tokens a reply locks -/

theorem fillGaps_locked : ∀ {ws newEnd acc bound merged}, fillGaps true ws newEnd acc = some (bound, merged) →
    (∀ p ∈ acc, p.locked = true) → ∀ p ∈ merged, p.locked = true := by
  intro ws
  induction ws with
  | nil =>
      intro newEnd acc bound merged done locked
      obtain ⟨-, rfl⟩ := Prod.mk.inj (Option.some.inj done)
      exact locked
  | cons w ws ih =>
      intro newEnd acc bound merged done locked
      simp only [fillGaps, Option.bind_eq_bind, Option.bind_eq_some_iff] at done
      obtain ⟨kept, lock, done⟩ := done
      refine ih done (fun p member => ?_)
      rcases List.mem_cons.mp member with rfl | member
      · rw [Permission.lock_eq_some lock]
      · rcases List.mem_cons.mp member with rfl | member
        · rfl
        · exact locked p member

theorem fillFrom_locked {ws newEnd bound merged} (done : fillFrom true newEnd ws = some (bound, merged)) :
    ∀ p ∈ merged, p.locked = true := by
  cases ws with
  | nil =>
      obtain ⟨-, rfl⟩ := Prod.mk.inj (Option.some.inj done)
      exact nofun
  | cons w ws =>
      simp only [fillFrom] at done
      split at done
      · simp only [Option.bind_eq_bind, Option.bind_eq_some_iff] at done
        obtain ⟨kept, lock, done⟩ := done
        refine fillGaps_locked done (fun p member => ?_)
        rw [List.mem_singleton.mp member, Permission.lock_eq_some lock]
      · exact fillGaps_locked done nofun

theorem mergeRead_locked {sc : Scan} {start stop : Nat} {merged} (done : mergeRead sc start stop true = some merged) :
    ∀ p ∈ merged, p.locked = true := by
  unfold mergeRead at done
  split at done
  · obtain rfl := Option.some.inj done
    intro p member
    rw [List.mem_singleton.mp member]
  · simp only [Option.bind_eq_bind, Option.bind_eq_some_iff] at done
    obtain ⟨filled, fill, done⟩ := done
    split at done
    · obtain rfl := Option.some.inj done
      intro p member
      rcases List.mem_cons.mp member with rfl | member
      · rfl
      · exact fillFrom_locked fill p member
    · obtain rfl := Option.some.inj done
      exact fillFrom_locked fill

/-- The tokens that adding a read token makes lie where the range and the tokens
    it touches lie. -/
theorem fillGaps_between {lockNew low high} : ∀ {ws newEnd acc bound merged},
    fillGaps lockNew ws newEnd acc = some (bound, merged) →
    (∀ w ∈ ws, (low ≤ w.start ∧ w.start ≤ high) ∧ low ≤ w.stop ∧ w.stop ≤ high) → low ≤ newEnd ∧ newEnd ≤ high →
    (∀ p ∈ acc, low ≤ p.start ∧ p.stop ≤ high) →
    (low ≤ bound ∧ bound ≤ high) ∧ ∀ p ∈ merged, low ≤ p.start ∧ p.stop ≤ high := by
  intro ws
  induction ws with
  | nil =>
      intro newEnd acc bound merged done _ ends inside
      obtain ⟨rfl, rfl⟩ := Prod.mk.inj (Option.some.inj done)
      exact ⟨ends, inside⟩
  | cons w ws ih =>
      intro newEnd acc bound merged done tokens ends inside
      simp only [fillGaps, Option.bind_eq_bind, Option.bind_eq_some_iff] at done
      obtain ⟨kept, lock, done⟩ := done
      obtain ⟨keptStart, keptStop, -⟩ := lockIf_fields lock
      obtain ⟨atStart, atStop⟩ := tokens w List.mem_cons_self
      refine ih done (fun x member => tokens x (List.mem_cons_of_mem _ member)) atStart (fun p member => ?_)
      rcases List.mem_cons.mp member with rfl | member
      · omega
      · rcases List.mem_cons.mp member with rfl | member
        · simp only
          omega
        · exact inside p member

theorem fillFrom_between {lockNew ws newEnd bound merged} (low high : Nat)
    (done : fillFrom lockNew newEnd ws = some (bound, merged))
    (tokens : ∀ w ∈ ws, (low ≤ w.start ∧ w.start ≤ high) ∧ low ≤ w.stop ∧ w.stop ≤ high)
    (ends : low ≤ newEnd ∧ newEnd ≤ high) :
    (low ≤ bound ∧ bound ≤ high) ∧ ∀ p ∈ merged, low ≤ p.start ∧ p.stop ≤ high := by
  cases ws with
  | nil =>
      obtain ⟨rfl, rfl⟩ := Prod.mk.inj (Option.some.inj done)
      exact ⟨ends, nofun⟩
  | cons w ws =>
      simp only [fillFrom] at done
      split at done
      · simp only [Option.bind_eq_bind, Option.bind_eq_some_iff] at done
        obtain ⟨kept, lock, done⟩ := done
        obtain ⟨keptStart, keptStop, -⟩ := lockIf_fields lock
        obtain ⟨atStart, atStop⟩ := tokens w List.mem_cons_self
        refine fillGaps_between done (fun x member => tokens x (List.mem_cons_of_mem _ member)) atStart
          (fun p member => ?_)
        rw [List.mem_singleton.mp member]
        omega
      · exact fillGaps_between done tokens ends nofun

theorem mergeRead_between {lockNew low high start stop l sc merged} (h : scan start stop l = some sc)
    (done : mergeRead sc start stop lockNew = some merged) (range : start ≤ stop) (lower : low ≤ start)
    (upper : stop ≤ high) (tokens : ∀ p ∈ sc.first :: sc.run, low ≤ p.start ∧ p.stop ≤ high) :
    ∀ p ∈ merged, low ≤ p.start ∧ p.stop ≤ high := by
  have touched := Scan.touched h
  have first := tokens sc.first List.mem_cons_self
  have last := tokens sc.last sc.last_mem
  have startLow : low ≤ sc.readStart start := by
    unfold Scan.readStart
    split <;> omega
  have endHigh : sc.readEnd stop ≤ high := by
    unfold Scan.readEnd
    split <;> omega
  have endLow := sc.le_readEnd stop
  unfold mergeRead at done
  split at done
  · obtain rfl := Option.some.inj done
    intro p member
    rw [List.mem_singleton.mp member]
    exact ⟨startLow, endHigh⟩
  · simp only [Option.bind_eq_bind, Option.bind_eq_some_iff] at done
    obtain ⟨⟨bound, rest⟩, filled, done⟩ := done
    obtain ⟨bounds, inside⟩ := fillFrom_between low high filled
      (by
        intro w member
        have member := (List.mem_filter.mp (List.mem_reverse.mp member)).1
        have := touched w member
        have := tokens w member
        omega)
      (by omega)
    split at done
    · obtain rfl := Option.some.inj done
      intro p member
      rcases List.mem_cons.mp member with rfl | member
      · exact ⟨startLow, bounds.2⟩
      · exact inside p member
    · obtain rfl := Option.some.inj done
      exact inside

/-- The tokens of `l'` that a reply has locked, between the others. -/
structure LockedRun (start stop : Nat) (write : Bool) (l l' A K B : List Permission) : Prop where
  split : l' = A ++ K ++ B
  front : ∀ p ∈ A, p.stop ≤ start
  back : ∀ p ∈ B, start ≤ p.start
  locked : ∀ p ∈ K, p.locked = true
  covers : ∀ b, start ≤ b → b < stop → Grants K write b
  between : ∀ low high, low ≤ start → stop ≤ high →
    (∀ t ∈ touching start stop l, low ≤ t.start ∧ t.stop ≤ high) → ∀ p ∈ K, low ≤ p.start ∧ p.stop ≤ high

section LockedRun

variable {start stop : Nat} {write : Bool} {l l' : List Permission} {sc : Scan}

theorem Scan.mem_touching (found : scan start stop l = some sc) :
    ∀ p ∈ sc.first :: sc.run, p ∈ touching start stop l := by
  intro p member
  refine List.mem_filter.mpr ⟨?_, Permission.isInclusiveShared_iff.mpr (Scan.touched found p member)⟩
  rw [← Scan.split found]
  exact List.mem_append_left _ (List.mem_append_right _ member)

theorem Ordered.start_le_after (ordered : Ordered l) (found : scan start stop l = some sc) :
    ∀ p ∈ sc.after, start ≤ p.start := by
  intro p member
  rw [← Scan.split found] at ordered
  have behind := (Ordered.append_iff.mp ordered).2.2 sc.first (by simp) p member
  have touched := Scan.touched found sc.first List.mem_cons_self
  omega

/-- A write token over some others: it is the run. -/
theorem mergeWrite_locks (ordered : Ordered l) (range : start ≤ stop) (found : scan start stop l = some sc) :
    LockedRun start stop write l (sc.before ++ mergeWrite sc start stop true ++ sc.after)
      (sc.before ++ sc.sPermit start) [⟨sc.writeStart start, sc.writeEnd stop, true, true, []⟩]
      (sc.ePermit stop ++ sc.after) := by
  refine ⟨?_, ?_, ?_, ?_, ?_, ?_⟩
  · simp [mergeWrite]
  · intro p member
    rcases List.mem_append.mp member with member | member
    · exact Nat.le_of_lt (ordered.scan_before found p member)
    · simp only [Scan.sPermit] at member
      split at member
      · rw [List.mem_singleton.mp member]
      · cases member
  · intro p member
    rcases List.mem_append.mp member with member | member
    · simp only [Scan.ePermit] at member
      split at member
      · rw [List.mem_singleton.mp member]
        exact range
      · cases member
    · exact ordered.start_le_after found p member
  · intro p member
    rw [List.mem_singleton.mp member]
  · intro b low high
    have := sc.writeStart_le start
    have := sc.le_writeEnd stop
    exact Grants.cons.mpr (.inl ⟨fun _ => rfl, by simp only; omega, by simp only; omega⟩)
  · intro low high lower upper tokens p member
    have first := tokens sc.first (Scan.mem_touching found _ List.mem_cons_self)
    have last := tokens sc.last (Scan.mem_touching found _ sc.last_mem)
    rw [List.mem_singleton.mp member]
    simp only [Scan.writeStart, Scan.writeEnd]
    constructor
    · split <;> omega
    · split <;> omega

/-- A token that touches none: it is the run. -/
theorem insertPermit_locks (ordered : Ordered l) (range : start ≤ stop) (none : scan start stop l = none) :
    ∃ A B, LockedRun start stop write l (insertPermit ⟨start, stop, write, true, []⟩ l) A
      [⟨start, stop, write, true, []⟩] B := by
  have clear : ∀ p ∈ l, stop < p.start ∨ p.stop < start := fun p member => untouched_iff.mp (scan_none none p member)
  refine ⟨_, l.rtakeWhile (fun p => !decide (p.stop < start)), ?_,
    insertPermit_before ⟨start, stop, write, true, []⟩ ordered, ?_, ?_, ?_, ?_⟩
  · rw [insertPermit, List.append_assoc]
    rfl
  · intro p member
    have := insertPermit_behind ⟨start, stop, write, true, []⟩ clear p member
    simp only at this
    omega
  · intro p member
    rw [List.mem_singleton.mp member]
  · intro b low high
    exact Grants.cons.mpr (.inl ⟨id, low, high⟩)
  · intro low high lower upper _ p member
    rw [List.mem_singleton.mp member]
    exact ⟨lower, upper⟩

theorem addPermission_locks (ordered : Ordered l) (range : start ≤ stop) (smallStop : stop ≤ intMax)
    (done : addPermission start stop write l true = some l') : ∃ A K B, LockedRun start stop write l l' A K B := by
  unfold addPermission at done
  split at done
  · next sc found =>
      split at done
      · obtain rfl := Option.some.inj done
        exact ⟨_, _, _, mergeWrite_locks ordered range found⟩
      · next reads =>
          obtain ⟨merged, mergeDone, rfl⟩ := Option.map_eq_some_iff.mp done
          refine ⟨sc.before, merged, sc.after, rfl, fun p member => Nat.le_of_lt (ordered.scan_before found p member),
            ordered.start_le_after found, mergeRead_locked mergeDone, ?_, ?_⟩
          · intro b low high
            have reading : write = false := by simpa using reads
            subst reading
            exact mergeRead_ge found mergeDone smallStop ((sc.readStart_le start).trans low)
              (high.trans_le (sc.le_readEnd stop))
          · intro low high lower upper tokens
            exact mergeRead_between found mergeDone range lower upper
              (fun p member => tokens p (Scan.mem_touching found p member))
  · next none =>
      obtain rfl := Option.some.inj done
      obtain ⟨A, B, locked⟩ := insertPermit_locks ordered range none
      exact ⟨A, _, B, locked⟩

end LockedRun

/-! ## Revocations beside locked tokens -/

theorem revokePermission_untouched_append {start stop : Nat} {A C : List Permission}
    (clear : ∀ p ∈ A, p.isShared start stop = false) :
    revokePermission start stop (A ++ C) = A ++ revokePermission start stop C := by
  have untouched : ∀ p ∈ A, (!p.isShared start stop) = true := fun p member => by rw [clear p member]; rfl
  simp only [revokePermission, List.takeWhile_append_of_pos untouched, List.dropWhile_append_of_pos untouched,
    List.append_assoc]

theorem revokePermission_append_untouched {start stop : Nat} {A C : List Permission}
    (clear : ∀ p ∈ C, p.isShared start stop = false) :
    revokePermission start stop (A ++ C) = revokePermission start stop A ++ C := by
  have untouched : ∀ p ∈ C, (!p.isShared start stop) = true := fun p member => by rw [clear p member]; rfl
  have reversed : ∀ p ∈ C.reverse, (!p.isShared start stop) = true :=
    fun p member => untouched p (List.mem_reverse.mp member)
  by_cases all : ∀ p ∈ A, (!p.isShared start stop) = true
  · have whole : ∀ p ∈ A ++ C, (!p.isShared start stop) = true :=
      fun p member => (List.mem_append.mp member).elim (all p) (untouched p)
    simp only [revokePermission, List.takeWhile_eq_self_iff.mpr whole, List.dropWhile_eq_nil_iff.mpr whole,
      List.takeWhile_eq_self_iff.mpr all, List.dropWhile_eq_nil_iff.mpr all, List.rdropWhile_nil, List.rtakeWhile_nil,
      cutRun, List.append_nil]
  · have some : ¬ (A.dropWhile (fun p => !p.isShared start stop)).isEmpty = true := by
      rw [List.isEmpty_iff, List.dropWhile_eq_nil_iff]
      exact all
    have front : (A ++ C).takeWhile (fun p => !p.isShared start stop) = A.takeWhile (fun p => !p.isShared start stop) := by
      rw [List.takeWhile_append, if_neg]
      intro same
      apply all
      rw [← List.takeWhile_eq_self_iff]
      exact (List.takeWhile_prefix _).eq_of_length same
    simp only [revokePermission, front, List.dropWhile_append, if_neg some, List.rdropWhile, List.rtakeWhile,
      List.reverse_append, List.dropWhile_append_of_pos reversed, List.takeWhile_append_of_pos reversed,
      List.reverse_reverse, List.append_assoc]

theorem cutRun_stop_le {start stop g : Nat} {l : List Permission} (below : start ≤ g) (all : ∀ p ∈ l, p.stop ≤ g) :
    ∀ p ∈ cutRun start stop l, p.stop ≤ g := by
  match l with
  | [] => exact nofun
  | [q] =>
      have := all q (by simp)
      intro p member
      simp only [cutRun, cutOne, List.mem_append, List.mem_ite_nil_right, List.mem_singleton] at member
      rcases member with ⟨-, rfl⟩ | ⟨-, rfl⟩
      · exact below
      · exact this
  | q :: q' :: rest =>
      have inside : rest.getLastD q' ∈ q :: q' :: rest :=
        List.mem_cons_of_mem _ (List.mem_of_getLast? (by simp [List.getLast?_cons]))
      have := all _ inside
      intro p member
      simp only [cutRun, List.mem_append, List.mem_ite_nil_right, List.mem_singleton] at member
      rcases member with ⟨-, rfl⟩ | ⟨-, rfl⟩
      · exact below
      · exact this

theorem cutRun_le_start {start stop g : Nat} {l : List Permission} (above : g ≤ stop) (all : ∀ p ∈ l, g ≤ p.start) :
    ∀ p ∈ cutRun start stop l, g ≤ p.start := by
  match l with
  | [] => exact nofun
  | [q] =>
      have := all q (by simp)
      intro p member
      simp only [cutRun, cutOne, List.mem_append, List.mem_ite_nil_right, List.mem_singleton] at member
      rcases member with ⟨-, rfl⟩ | ⟨-, rfl⟩
      · exact this
      · exact above
  | q :: q' :: rest =>
      have := all q (by simp)
      intro p member
      simp only [cutRun, List.mem_append, List.mem_ite_nil_right, List.mem_singleton] at member
      rcases member with ⟨-, rfl⟩ | ⟨-, rfl⟩
      · exact this
      · exact above

theorem revokePermission_stop_le {start stop g : Nat} {l : List Permission} (below : start ≤ g)
    (all : ∀ p ∈ l, p.stop ≤ g) : ∀ p ∈ revokePermission start stop l, p.stop ≤ g := by
  obtain ⟨before, run, after, whole, result, -⟩ := revokePermission_parts start stop l
  rw [whole] at all
  intro p member
  rw [result] at member
  simp only [List.mem_append] at member all
  rcases member with (member | member) | member
  · exact all p (.inl (.inl member))
  · exact cutRun_stop_le below (fun q inside => all q (.inl (.inr inside))) p member
  · exact all p (.inr member)

theorem revokePermission_le_start {start stop g : Nat} {l : List Permission} (above : g ≤ stop)
    (all : ∀ p ∈ l, g ≤ p.start) : ∀ p ∈ revokePermission start stop l, g ≤ p.start := by
  obtain ⟨before, run, after, whole, result, -⟩ := revokePermission_parts start stop l
  rw [whole] at all
  intro p member
  rw [result] at member
  simp only [List.mem_append] at member all
  rcases member with (member | member) | member
  · exact all p (.inl (.inl member))
  · exact cutRun_le_start above (fun q inside => all q (.inl (.inr inside))) p member
  · exact all p (.inr member)

/-- A revocation that avoids the tokens `K` around a byte `g` leaves them in the
    list, and the others on their sides of `g`. -/
theorem revokePermission_around {start stop g : Nat} {A K B : List Permission} (range : start ≤ stop)
    (front : ∀ p ∈ A, p.stop ≤ g) (back : ∀ p ∈ B, g ≤ p.start) (center : ∃ p ∈ K, p.Covers g)
    (avoids : ∀ p ∈ K, p.isShared start stop = false) :
    ∃ A' B', revokePermission start stop (A ++ K ++ B) = A' ++ K ++ B' ∧ (∀ p ∈ A', p.stop ≤ g) ∧
      ∀ p ∈ B', g ≤ p.start := by
  have unshared : ∀ {p : Permission}, stop ≤ p.start ∨ p.stop ≤ start → p.isShared start stop = false := by
    intro p apart
    rw [← Bool.not_eq_true, Permission.isShared_iff]
    omega
  obtain ⟨k, inside, low, high⟩ := center
  have away := avoids k inside
  rw [← Bool.not_eq_true, Permission.isShared_iff] at away
  by_cases early : stop ≤ g
  · have clear : ∀ p ∈ K ++ B, p.isShared start stop = false := by
      intro p member
      rcases List.mem_append.mp member with member | member
      · exact avoids p member
      · exact unshared (.inl (early.trans (back p member)))
    refine ⟨revokePermission start stop A, B, ?_, revokePermission_stop_le (range.trans early) front, back⟩
    rw [List.append_assoc, revokePermission_append_untouched clear, List.append_assoc]
  · have late : g < start := by omega
    have clear : ∀ p ∈ A ++ K, p.isShared start stop = false := by
      intro p member
      rcases List.mem_append.mp member with member | member
      · exact unshared (.inr ((front p member).trans (Nat.le_of_lt late)))
      · exact avoids p member
    refine ⟨A, revokePermission start stop B, ?_, front, revokePermission_le_start (by omega) back⟩
    rw [revokePermission_untouched_append clear]

/-! ## Locks and semaphores -/

theorem Permission.fields_of_bare {p q : Permission} (same : p.bare = q.bare) :
    p.start = q.start ∧ p.stop = q.stop ∧ p.write = q.write := by
  simp only [bare, Permission.mk.injEq] at same
  exact ⟨same.1, same.2.1, same.2.2.1⟩

/-- Order and bounds do not depend on locks and semaphores. -/
theorem ordered_congr {l l' : List Permission} (same : bareList l' = bareList l) (h : Ordered l) : Ordered l' := by
  have bare : ∀ m : List Permission, Ordered (bareList m) ↔ Ordered m := by
    intro m
    constructor
    · intro h
      refine ⟨fun p member => h.forward p.bare (List.mem_map_of_mem member), ?_⟩
      exact List.pairwise_map.mp h.apart
    · intro h
      refine ⟨fun p member => ?_, List.pairwise_map.mpr h.apart⟩
      obtain ⟨q, inside, rfl⟩ := List.mem_map.mp member
      exact h.forward q inside
  rw [← bare l', same, bare]
  exact h

theorem bounded_congr {l l' : List Permission} (same : bareList l' = bareList l) (h : Bounded l) : Bounded l' := by
  intro p member
  have inside : p.bare ∈ bareList l := by
    rw [← same]
    exact List.mem_map_of_mem member
  obtain ⟨q, held, equal⟩ := List.mem_map.mp inside
  obtain ⟨startEq, stopEq, -⟩ := Permission.fields_of_bare equal
  rw [← startEq, ← stopEq]
  exact h q held

theorem grants_congr {l l' : List Permission} (same : bareList l' = bareList l) {m : Bool} {b : Nat}
    (h : Grants l m b) : Grants l' m b := by
  rw [← grants_bareList, same, grants_bareList]
  exact h

end PFS
