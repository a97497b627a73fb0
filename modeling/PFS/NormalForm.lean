import PFS.Ordered

/-! # Token lists in normal form

Tokens that hold at least one byte each, one behind the other.  On a list of this
form the condition under which `addPermission` keeps the form can be read off the
tokens the range touches: besides the two slips that `GrantClean` rules out, adding
a read token over two write tokens that adjoin leaves a token without bytes between
them, and a write token that is locked already is locked again.
-/

namespace PFS

/-- Every token has bytes, and each ends where the next one starts or before. -/
structure WellFormed (l : List Permission) : Prop where
  positive : ∀ p ∈ l, p.start < p.stop
  apart : l.IsChain (fun p q => p.stop ≤ q.start)

theorem WellFormed.ordered {l : List Permission} (h : WellFormed l) : Ordered l := by
  induction l with
  | nil => exact Ordered.nil
  | cons p rest ih =>
      have tail := ih ⟨fun q member => h.positive q (List.mem_cons_of_mem p member), h.apart.of_cons⟩
      refine Ordered.cons_iff.mpr ⟨Nat.le_of_lt (h.positive p List.mem_cons_self), ?_, tail⟩
      intro q member
      cases rest with
      | nil => cases member
      | cons r rest =>
          have next : p.stop ≤ r.start := (List.isChain_cons_cons.mp h.apart).1
          rcases List.mem_cons.mp member with rfl | member
          · exact next
          · obtain ⟨forward, behind, -⟩ := Ordered.cons_iff.mp tail
            exact next.trans (forward.trans (behind q member))

theorem wellFormed_iff {l : List Permission} : WellFormed l ↔ (∀ p ∈ l, p.start < p.stop) ∧ Ordered l :=
  ⟨fun h => ⟨h.positive, h.ordered⟩, fun h => ⟨h.1, h.2.apart.isChain⟩⟩

instance (l : List Permission) : Decidable (WellFormed l) :=
  decidable_of_iff _ wellFormed_iff.symm

/-- The tokens `addPermission` takes out of the list: those the range touches, but
    only the first of them when the list ends with tokens it touches. -/
def replaced (start stop : Nat) (l : List Permission) : List Permission :=
  if l.getLast?.any (fun p => p.isInclusiveShared start stop) then (touching start stop l).take 1
  else touching start stop l

/-- The range can be added without breaking the form and without waiting for a lock. -/
structure KeepsForm (l : List Permission) (start stop : Nat) (write lockNew : Bool) : Prop where
  clean : GrantClean l start stop write
  gaps : write = false → ∀ p ∈ replaced start stop l, ∀ q ∈ replaced start stop l,
    p.write = true → q.write = true → p.stop ≠ q.start
  unlocked : write = false → lockNew = true → ∀ p ∈ replaced start stop l, p.write = true → p.locked = false

instance (l : List Permission) (start stop : Nat) (write lockNew : Bool) :
    Decidable (KeepsForm l start stop write lockNew) :=
  decidable_of_iff (GrantClean l start stop write ∧
    (write = false → ∀ p ∈ replaced start stop l, ∀ q ∈ replaced start stop l,
      p.write = true → q.write = true → p.stop ≠ q.start) ∧
    (write = false → lockNew = true → ∀ p ∈ replaced start stop l, p.write = true → p.locked = false))
    ⟨fun h => ⟨h.1, h.2.1, h.2.2⟩, fun h => ⟨h.clean, h.gaps, h.unlocked⟩⟩

/-! ## What the scan takes out -/

section Scanned

variable {start stop : Nat} {write : Bool} {l : List Permission} {sc : Scan}

theorem Ordered.scan_replaced (ordered : Ordered l) (found : scan start stop l = some sc) :
    replaced start stop l = sc.first :: sc.run := by
  rcases ordered.scan_touching found with ⟨noRun, tokens, ends⟩ | ⟨tokens, -, goesOn⟩
  · rw [replaced, if_pos ends, tokens, noRun]
    rfl
  · rw [replaced, goesOn, if_neg Bool.false_ne_true, tokens]

/-- The two slips, read off the scan. -/
theorem Ordered.grantClean_iff (ordered : Ordered l) (found : scan start stop l = some sc) :
    GrantClean l start stop write ↔ (∀ p ∈ sc.after, stop ≤ p.start) ∧
      (write = true → sc.last.write = false → stop < sc.last.stop → sc.run = []) := by
  constructor
  · intro clean
    have h := cleanScan ordered clean found
    exact ⟨h.after, h.tail⟩
  · rintro ⟨after, tail⟩
    rcases ordered.scan_touching found with ⟨-, tokens, ends⟩ | ⟨tokens, -, goesOn⟩
    · right
      rw [if_pos ends, tokens]
      exact after
    · by_cases alone : sc.run = []
      · left
        rw [tokens, alone]
        exact Nat.le_refl 1
      · right
        rw [goesOn, if_neg Bool.false_ne_true, tokens, sc.getLast?_run]
        simp only [Option.all_some, Bool.or_eq_true, Bool.not_eq_true', decide_eq_true_eq]
        by_contra slip
        push Not at slip
        obtain ⟨⟨writes, reads⟩, far⟩ := slip
        exact alone (tail (by simpa using writes) (by simpa using reads) far)

theorem WellFormed.scanned (h : WellFormed l) (found : scan start stop l = some sc) :
    (∀ p ∈ sc.before ++ sc.after, p.start < p.stop) ∧ WellFormed (sc.first :: sc.run) := by
  have list := Scan.split found
  have ordered := h.ordered
  have positive := h.positive
  rw [← list] at ordered positive
  constructor
  · intro p member
    apply positive
    rcases List.mem_append.mp member with member | member
    · exact List.mem_append_left _ (List.mem_append_left _ member)
    · exact List.mem_append_right _ member
  · refine wellFormed_iff.mpr ⟨fun p member => ?_, ?_⟩
    · exact positive p (List.mem_append_left _ (List.mem_append_right _ member))
    · exact (Ordered.append_iff.mp (Ordered.append_iff.mp ordered).1).2.1

/-! ## Tokens without bytes -/

theorem mergeWrite_positive (range : start < stop) (tail : sc.last.write = false → stop < sc.last.stop → sc.run = [])
    (lockNew : Bool) : ∀ p ∈ mergeWrite sc start stop lockNew, p.start < p.stop := by
  have lower := sc.writeStart_le start
  have upper := sc.le_writeEnd stop
  intro p member
  simp only [mergeWrite, List.mem_append, List.mem_cons, Scan.sPermit, Scan.ePermit, List.mem_ite_nil_right,
    Bool.and_eq_true, Bool.not_eq_true', decide_eq_true_eq, List.not_mem_nil, or_false] at member
  rcases member with ⟨⟨-, early⟩, rfl⟩ | rfl | ⟨⟨reads, far⟩, rfl⟩
  · exact early
  · simp only
    omega
  · have same : sc.last = sc.first := by rw [Scan.last, tail reads far]; rfl
    rw [same] at far
    exact far

end Scanned

theorem WellFormed.of_reverse_cons {w : Permission} {ws : List Permission} (h : WellFormed (w :: ws).reverse) :
    WellFormed ws.reverse ∧ w.start < w.stop ∧ ∀ v ∈ ws, v.stop ≤ w.start := by
  rw [List.reverse_cons] at h
  obtain ⟨front, -, apart⟩ := Ordered.append_iff.mp h.ordered
  refine ⟨wellFormed_iff.mpr ⟨fun p member => h.positive p (List.mem_append_left _ member), front⟩, ?_, ?_⟩
  · exact h.positive w (by simp)
  · intro v member
    exact apart v (List.mem_reverse.mpr member) w (List.mem_singleton_self w)

/-- No token adjoins another one of `w :: ws`, which has them from the last to the first. -/
theorem WellFormed.adjoin_cons {w : Permission} {ws : List Permission} (h : WellFormed (w :: ws).reverse) :
    (∀ p ∈ w :: ws, ∀ q ∈ w :: ws, p.stop ≠ q.start) ↔
      (∀ v ∈ ws, v.stop ≠ w.start) ∧ ∀ p ∈ ws, ∀ q ∈ ws, p.stop ≠ q.start := by
  obtain ⟨front, here, below⟩ := h.of_reverse_cons
  have back : ∀ q ∈ ws, w.stop ≠ q.start := by
    intro q member
    have := below q member
    have := front.positive q (List.mem_reverse.mpr member)
    omega
  simp only [List.forall_mem_cons]
  constructor
  · rintro ⟨-, rest⟩
    exact ⟨fun v member => (rest v member).1, fun p member => (rest p member).2⟩
  · rintro ⟨first, rest⟩
    exact ⟨⟨by omega, back⟩, fun p member => ⟨first p member, rest p member⟩⟩

/-- The gap in front of a write token is empty when the one before it adjoins. -/
theorem fillGaps_positive {lockNew : Bool} : ∀ {ws newEnd acc bound merged},
    fillGaps lockNew ws newEnd acc = some (bound, merged) → WellFormed ws.reverse → (∀ w ∈ ws, w.stop ≤ newEnd) →
    ((∀ p ∈ merged, p.start < p.stop) ↔ (∀ p ∈ acc, p.start < p.stop) ∧ (∀ w ∈ ws, w.stop ≠ newEnd) ∧
      ∀ p ∈ ws, ∀ q ∈ ws, p.stop ≠ q.start) := by
  intro ws
  induction ws with
  | nil =>
      intro newEnd acc bound merged done _ _
      obtain ⟨-, rfl⟩ := Prod.mk.inj (Option.some.inj done)
      simp
  | cons w ws ih =>
      intro newEnd acc bound merged done form inside
      simp only [fillGaps, Option.bind_eq_bind, Option.bind_eq_some_iff] at done
      obtain ⟨kept, lock, done⟩ := done
      obtain ⟨startEq, stopEq, -⟩ := lockIf_fields lock
      obtain ⟨front, here, below⟩ := form.of_reverse_cons
      have reach := inside w List.mem_cons_self
      have gap : w.stop < newEnd ↔ ∀ v ∈ w :: ws, v.stop ≠ newEnd := by
        constructor
        · intro short v member
          rcases List.mem_cons.mp member with rfl | member
          · omega
          · have := below v member
            omega
        · intro all
          have := all w List.mem_cons_self
          omega
      rw [ih done front below, form.adjoin_cons, ← gap]
      simp only [List.forall_mem_cons, startEq, stopEq, here, true_and]
      tauto

theorem fillFrom_positive {lockNew : Bool} {newEnd bound : Nat} {ws merged : List Permission}
    (done : fillFrom lockNew newEnd ws = some (bound, merged)) (form : WellFormed ws.reverse)
    (inside : ∀ w ∈ ws, w.start ≤ newEnd) :
    (∀ p ∈ merged, p.start < p.stop) ↔ ∀ p ∈ ws, ∀ q ∈ ws, p.stop ≠ q.start := by
  cases ws with
  | nil =>
      obtain ⟨-, rfl⟩ := Prod.mk.inj (Option.some.inj done)
      simp
  | cons w ws =>
      obtain ⟨front, here, below⟩ := form.of_reverse_cons
      have reach := inside w List.mem_cons_self
      simp only [fillFrom] at done
      split at done
      · simp only [Option.bind_eq_bind, Option.bind_eq_some_iff] at done
        obtain ⟨kept, lock, done⟩ := done
        obtain ⟨startEq, stopEq, -⟩ := lockIf_fields lock
        rw [fillGaps_positive done front below, form.adjoin_cons]
        simp only [List.forall_mem_cons, startEq, stopEq, here, List.not_mem_nil, false_imp_iff, implies_true, true_and]
      · next short =>
          have far : ∀ v ∈ w :: ws, v.stop < newEnd := by
            intro v member
            rcases List.mem_cons.mp member with rfl | member
            · omega
            · have := below v member
              omega
          rw [fillGaps_positive done form (fun v member => Nat.le_of_lt (far v member))]
          constructor
          · exact fun h => h.2.2
          · exact fun h => ⟨fun p none => absurd none List.not_mem_nil, fun v member => Nat.ne_of_lt (far v member), h⟩

/-! ## Tokens that are locked already -/

theorem lockIf_returns {lockNew : Bool} {p : Permission} :
    (∃ q, lockIf lockNew p = some q) ↔ (lockNew = true → p.locked = false) := by
  cases lockNew with
  | false => simp [lockIf]
  | true => cases locked : p.locked <;> simp [lockIf, Permission.lock, locked]

theorem fillGaps_returns {lockNew : Bool} : ∀ {ws newEnd acc},
    (∃ filled, fillGaps lockNew ws newEnd acc = some filled) ↔ ∀ w ∈ ws, lockNew = true → w.locked = false := by
  intro ws
  induction ws with
  | nil => simp [fillGaps]
  | cons w ws ih =>
      intro newEnd acc
      rw [List.forall_mem_cons, ← lockIf_returns]
      simp only [fillGaps, Option.bind_eq_bind, Option.bind_eq_some_iff]
      constructor
      · rintro ⟨filled, kept, lock, done⟩
        exact ⟨⟨kept, lock⟩, ih.mp ⟨filled, done⟩⟩
      · rintro ⟨⟨kept, lock⟩, rest⟩
        obtain ⟨filled, done⟩ := ih.mpr rest
        exact ⟨filled, kept, lock, done⟩

theorem fillFrom_returns {lockNew : Bool} {newEnd : Nat} {ws : List Permission} :
    (∃ filled, fillFrom lockNew newEnd ws = some filled) ↔ ∀ w ∈ ws, lockNew = true → w.locked = false := by
  cases ws with
  | nil => simp [fillFrom]
  | cons w ws =>
      rw [fillFrom]
      split
      · rw [List.forall_mem_cons, ← lockIf_returns]
        simp only [Option.bind_eq_bind, Option.bind_eq_some_iff]
        constructor
        · rintro ⟨filled, kept, lock, done⟩
          exact ⟨⟨kept, lock⟩, fillGaps_returns.mp ⟨filled, done⟩⟩
        · rintro ⟨⟨kept, lock⟩, rest⟩
          obtain ⟨filled, done⟩ := fillGaps_returns.mpr rest
          exact ⟨filled, kept, lock, done⟩
      · exact fillGaps_returns

theorem mergeRead_returns {sc : Scan} {start stop : Nat} {lockNew : Bool} :
    (∃ merged, mergeRead sc start stop lockNew = some merged) ↔
      ∀ w ∈ sc.writePermits, lockNew = true → w.locked = false := by
  have reversed : (∃ filled, fillFrom lockNew (sc.readEnd stop) sc.writePermits.reverse = some filled) ↔
      ∀ w ∈ sc.writePermits, lockNew = true → w.locked = false := by
    rw [fillFrom_returns]
    simp only [List.mem_reverse]
  rw [← reversed]
  unfold mergeRead
  split
  · next none =>
      rw [List.isEmpty_iff.mp none]
      simp [fillFrom]
  · simp only [Option.bind_eq_bind, Option.bind_eq_some_iff]
    constructor
    · rintro ⟨-, filled, done, -⟩
      exact ⟨filled, done⟩
    · rintro ⟨filled, done⟩
      by_cases front : asInt (sc.readStart start) < asInt filled.1
      · exact ⟨_, filled, done, if_pos front⟩
      · exact ⟨_, filled, done, if_neg front⟩

/-- `addPermission` returns unless it waits for the lock of a write token that it keeps. -/
theorem addPermission_returns_iff (start stop : Nat) (write lockNew : Bool) (l : List Permission) :
    (∃ l', addPermission start stop write l lockNew = some l') ↔
      (write = false → lockNew = true → ∀ sc, scan start stop l = some sc → ∀ p ∈ sc.writePermits, p.locked = false) := by
  unfold addPermission
  cases found : scan start stop l with
  | none => simp
  | some sc =>
      cases write with
      | true => simp
      | false =>
          have merges : (∃ merged, mergeRead sc start stop lockNew = some merged) ↔ _ := mergeRead_returns
          simp only [Bool.false_eq_true, if_false, Option.map_eq_some_iff, true_imp_iff, Option.some.injEq, forall_eq']
          constructor
          · rintro ⟨-, merged, done, -⟩ locks w member
            exact merges.mp ⟨merged, done⟩ w member locks
          · intro unlocked
            obtain ⟨merged, done⟩ := merges.mpr fun w member locks => unlocked locks w member
            exact ⟨_, merged, done, rfl⟩

/-! ## Adding a token -/

section Adding

variable {start stop : Nat} {write lockNew : Bool} {l : List Permission} {sc : Scan} {merged : List Permission}

theorem mergeRead_positive (form : WellFormed (sc.first :: sc.run)) (range : start < stop) (small : stop ≤ intMax)
    (found : scan start stop l = some sc) (done : mergeRead sc start stop lockNew = some merged) :
    (∀ p ∈ merged, p.start < p.stop) ↔ ∀ p ∈ sc.writePermits, ∀ q ∈ sc.writePermits, p.stop ≠ q.start := by
  have lower := sc.readStart_le start
  have upper := sc.le_readEnd stop
  unfold mergeRead at done
  split at done
  · next none =>
      obtain rfl := Option.some.inj done
      rw [List.isEmpty_iff.mp none]
      simp only [List.forall_mem_singleton, List.not_mem_nil, false_imp_iff, implies_true, iff_true]
      omega
  · next nonempty =>
      simp only [Option.bind_eq_bind, Option.bind_eq_some_iff] at done
      obtain ⟨⟨bound, rest⟩, filled, done⟩ := done
      have writes : WellFormed sc.writePermits.reverse.reverse := by
        rw [List.reverse_reverse]
        refine wellFormed_iff.mpr ⟨fun p member => ?_, form.ordered.sublist List.filter_sublist⟩
        exact form.positive p (List.mem_of_mem_filter member)
      have positive := fillFrom_positive filled writes (by
        intro w member
        have := (Scan.touched found w (List.mem_filter.mp (List.mem_reverse.mp member)).1).1
        omega)
      simp only [List.mem_reverse] at positive
      rw [← positive]
      have boundSmall := fillFrom_bound_le found filled nonempty
      split at done
      · next front =>
          obtain rfl := Option.some.inj done
          simp only at front
          rw [asInt_of_le (by omega), asInt_of_le (by omega)] at front
          simp only [List.forall_mem_cons]
          constructor
          · exact fun h => h.2
          · exact fun h => ⟨by omega, h⟩
      · obtain rfl := Option.some.inj done
        exact Iff.rfl

/-- What takes the place of the run reaches the end of the range. -/
theorem mergeRead_reaches (range : start < stop) (small : stop ≤ intMax) (found : scan start stop l = some sc)
    (done : mergeRead sc start stop lockNew = some merged) : ∃ p ∈ merged, stop ≤ p.stop := by
  have lower := sc.readStart_le start
  have upper := sc.le_readEnd stop
  obtain ⟨p, member, -, -, inside⟩ :=
    mergeRead_ge found done small (b := stop - 1) (by omega) (by omega)
  exact ⟨p, member, by omega⟩

theorem WellFormed.split {A B C : List Permission} (h : WellFormed (A ++ B ++ C)) :
    (∀ p ∈ B, p.start < p.stop) ∧ ∀ p ∈ B, ∀ q ∈ C, p.stop ≤ q.start := by
  constructor
  · intro p member
    exact h.positive p (List.mem_append_left _ (List.mem_append_right _ member))
  · intro p member q later
    exact (Ordered.append_iff.mp h.ordered).2.2 p (List.mem_append_right _ member) q later

theorem addPermission_read_wellFormed (form : WellFormed l) (range : start < stop) (small : stop ≤ intMax)
    (found : scan start stop l = some sc) :
    (∃ l', addPermission start stop false l lockNew = some l' ∧ WellFormed l') ↔
      KeepsForm l start stop false lockNew := by
  obtain ⟨outer, run⟩ := form.scanned found
  have taken := form.ordered.scan_replaced found
  have writes : ∀ {p}, p ∈ sc.writePermits ↔ p ∈ replaced start stop l ∧ p.write = true := by
    intro p
    rw [taken, Scan.writePermits, List.mem_filter]
  constructor
  · rintro ⟨l', done, form'⟩
    have same := done
    simp only [addPermission, found, Bool.false_eq_true, if_false] at same
    obtain ⟨merged, mergeDone, rfl⟩ := Option.map_eq_some_iff.mp same
    obtain ⟨positive, apart⟩ := form'.split
    refine ⟨(form.ordered.grantClean_iff found).mpr ⟨?_, nofun⟩, ?_, ?_⟩
    · intro q later
      obtain ⟨p, member, reach⟩ := mergeRead_reaches range small found mergeDone
      exact reach.trans (apart p member q later)
    · intro _ p inside q member writesP writesQ
      exact (mergeRead_positive run range small found mergeDone).mp positive p (writes.mpr ⟨inside, writesP⟩) q
        (writes.mpr ⟨member, writesQ⟩)
    · intro _ locks p inside writesP
      exact mergeRead_returns.mp ⟨merged, mergeDone⟩ p (writes.mpr ⟨inside, writesP⟩) locks
  · intro keeps
    obtain ⟨merged, mergeDone⟩ : ∃ merged, mergeRead sc start stop lockNew = some merged := by
      apply mergeRead_returns.mpr
      intro p member locks
      exact keeps.unlocked rfl locks p (writes.mp member).1 (writes.mp member).2
    have done : addPermission start stop false l lockNew = some (sc.before ++ merged ++ sc.after) := by
      simp [addPermission, found, mergeDone]
    have ordered := addPermission_ordered form.ordered (Nat.le_of_lt range) small keeps.clean done
    have positive := (mergeRead_positive run range small found mergeDone).mpr (fun p inside q member =>
      keeps.gaps rfl p (writes.mp inside).1 q (writes.mp member).1 (writes.mp inside).2 (writes.mp member).2)
    refine ⟨_, done, wellFormed_iff.mpr ⟨fun p member => ?_, ordered⟩⟩
    simp only [List.mem_append] at member outer
    rcases member with (member | member) | member
    · exact outer p (.inl member)
    · exact positive p member
    · exact outer p (.inr member)

theorem addPermission_write_wellFormed (form : WellFormed l) (range : start < stop) (small : stop ≤ intMax)
    (found : scan start stop l = some sc) :
    (∃ l', addPermission start stop true l lockNew = some l' ∧ WellFormed l') ↔
      KeepsForm l start stop true lockNew := by
  obtain ⟨outer, run⟩ := form.scanned found
  have done : addPermission start stop true l lockNew =
      some (sc.before ++ mergeWrite sc start stop lockNew ++ sc.after) := by
    simp [addPermission, found]
  constructor
  · rintro ⟨l', same, form'⟩
    rw [done] at same
    obtain rfl := Option.some.inj same
    obtain ⟨positive, apart⟩ := form'.split
    refine ⟨(form.ordered.grantClean_iff found).mpr ⟨?_, ?_⟩, nofun, nofun⟩
    · intro q later
      have reach : stop ≤ sc.writeEnd stop := sc.le_writeEnd stop
      exact reach.trans (apart ⟨sc.writeStart start, sc.writeEnd stop, true, lockNew, []⟩ (by simp [mergeWrite]) q later)
    · intro _ reads far
      by_contra more
      have backwards : (⟨stop, sc.first.stop, false, false, []⟩ : Permission) ∈ mergeWrite sc start stop lockNew := by
        simp [mergeWrite, Scan.ePermit, reads, far]
      have ahead : stop < sc.first.stop := positive _ backwards
      obtain ⟨p, member⟩ := List.exists_mem_of_ne_nil _ more
      have next := (Ordered.cons_iff.mp run.ordered).2.1 p member
      have touched := Scan.touched found p (List.mem_cons_of_mem _ member)
      omega
  · intro keeps
    have clean := (form.ordered.grantClean_iff found).mp keeps.clean
    have ordered := addPermission_ordered form.ordered (Nat.le_of_lt range) small keeps.clean done
    have positive := mergeWrite_positive range (clean.2 rfl) lockNew
    refine ⟨_, done, wellFormed_iff.mpr ⟨fun p member => ?_, ordered⟩⟩
    simp only [List.mem_append] at member outer
    rcases member with (member | member) | member
    · exact outer p (.inl member)
    · exact positive p member
    · exact outer p (.inr member)

/-- `addPermission` returns a list in normal form exactly when the range meets
    none of its slips, no empty gap and no held lock. -/
theorem addPermission_wellFormed_iff (form : WellFormed l) (range : start < stop) (small : stop ≤ intMax) :
    (∃ l', addPermission start stop write l lockNew = some l' ∧ WellFormed l') ↔
      KeepsForm l start stop write lockNew := by
  cases found : scan start stop l with
  | some sc =>
      cases write with
      | false => exact addPermission_read_wellFormed form range small found
      | true => exact addPermission_write_wellFormed form range small found
  | none =>
      have clear := scan_none found
      have nothing : touching start stop l = [] := touching_none clear
      have untaken : replaced start stop l = [] := by
        rw [replaced, nothing]
        split <;> rfl
      have clean : GrantClean l start stop write := .inl (by rw [nothing]; exact Nat.zero_le 1)
      have done : addPermission start stop write l lockNew =
          some (insertPermit ⟨start, stop, write, lockNew, []⟩ l) := by
        simp [addPermission, found]
      have ordered := addPermission_ordered form.ordered (Nat.le_of_lt range) small clean done
      constructor
      · intro _
        refine ⟨clean, ?_, ?_⟩
        · rw [untaken]
          exact fun _ => nofun
        · rw [untaken]
          exact fun _ _ => nofun
      · intro _
        refine ⟨_, done, wellFormed_iff.mpr ⟨fun p member => ?_, ordered⟩⟩
        rcases List.mem_append.mp member with member | member
        · exact form.positive p ((List.rdropWhile_prefix _ _).subset member)
        · rcases List.mem_cons.mp member with rfl | member
          · exact range
          · exact form.positive p ((List.rtakeWhile_suffix _ _).subset member)

end Adding

theorem addPermission_wellFormed_iff_split :
    KeepsForm [⟨0, 8, true, false, []⟩, ⟨20, 24, false, false, []⟩] 4 12 false true ∧
      ∃ l', addPermission 4 12 false [⟨0, 8, true, false, []⟩, ⟨20, 24, false, false, []⟩] true = some l' ∧
        WellFormed l' :=
  ⟨by decide, (addPermission_wellFormed_iff (by decide) (by decide) (by decide)).mpr (by decide)⟩

/-- A write token over two read tokens at the end of the list replaces only the
    first of them. -/
theorem addPermission_overlaps :
    WellFormed [⟨0, 1, false, false, []⟩, ⟨2, 5, false, false, []⟩] ∧ 4 ≤ intMax ∧
      addPermission 0 4 true [⟨0, 1, false, false, []⟩, ⟨2, 5, false, false, []⟩] false =
        some [⟨0, 4, true, false, []⟩, ⟨2, 5, false, false, []⟩] ∧
      ¬ WellFormed [⟨0, 4, true, false, []⟩, ⟨2, 5, false, false, []⟩] :=
  ⟨by decide, by decide, by rfl, by decide⟩

end PFS
