import PFS.NormalForm
import Mathlib.Order.MinMax

/-! # The level of a byte

A token list gives every byte a level: nothing, reading or writing.  On lists in
normal form the three operations are read off the levels.  `hasPermission` decides
whether a range has a level, `revokePermission` takes a range down to nothing and
leaves the rest, and `addPermission` raises a range and leaves the rest, unless it
cuts off the end of a read token behind the range.
-/

namespace PFS

inductive Level where
  | none
  | read
  | write
  deriving DecidableEq, Repr

namespace Level

def rank : Level → Nat
  | none => 0
  | read => 1
  | write => 2

theorem rank_injective : Function.Injective rank := by
  intro x y same
  cases x <;> cases y <;> first | rfl | cases same

instance : LinearOrder Level := LinearOrder.lift' rank rank_injective

/-- The level a request for a token asks for. -/
def requested (write : Bool) : Level := if write then .write else .read

theorem requested_le_requested {m write : Bool} : requested m ≤ requested write ↔ (m = true → write = true) := by
  revert m write
  decide

theorem not_requested_le_none {m : Bool} : ¬ requested m ≤ none := by
  revert m
  decide

/-- A level is known by the requests it is enough for. -/
theorem eq_iff {x y : Level} : x = y ↔ ∀ m, requested m ≤ x ↔ requested m ≤ y := by
  cases x <;> cases y <;> decide

end Level

/-- The level the tokens of `l` give to byte `b`. -/
def level (l : List Permission) (b : Nat) : Level :=
  if Grants l true b then .write
  else if Grants l false b then .read
  else .none

theorem requested_le_level {l : List Permission} {m : Bool} {b : Nat} :
    Level.requested m ≤ level l b ↔ Grants l m b := by
  unfold level
  by_cases writes : Grants l true b
  · rw [if_pos writes]
    cases m with
    | true => exact iff_of_true (by decide) writes
    | false => exact iff_of_true (by decide) writes.read
  · rw [if_neg writes]
    by_cases reads : Grants l false b
    · rw [if_pos reads]
      cases m with
      | true => exact iff_of_false (by decide) writes
      | false => exact iff_of_true (by decide) reads
    · rw [if_neg reads]
      refine iff_of_false Level.not_requested_le_none ?_
      exact fun held => reads held.read

theorem level_eq_iff {l l' : List Permission} {b : Nat} :
    level l' b = level l b ↔ ∀ m, Grants l' m b ↔ Grants l m b := by
  simp only [Level.eq_iff, requested_le_level]

theorem level_eq_max_iff {l l' : List Permission} {write : Bool} {b : Nat} :
    level l' b = max (level l b) (Level.requested write) ↔
      ∀ m, Grants l' m b ↔ Grants l m b ∨ (m = true → write = true) := by
  simp only [Level.eq_iff, le_max_iff, requested_le_level, Level.requested_le_requested]

theorem level_le_iff {l l' : List Permission} {b : Nat} :
    level l' b ≤ level l b ↔ ∀ m, Grants l' m b → Grants l m b := by
  constructor
  · intro below m held
    exact requested_le_level.mp ((requested_le_level.mpr held).trans below)
  · intro keeps
    have raised : level l b = max (level l b) (level l' b) := by
      simp only [Level.eq_iff, le_max_iff, requested_le_level]
      exact fun m => ⟨.inl, fun held => held.elim id (keeps m)⟩
    exact max_eq_left_iff.mp raised.symm

/-! ## Adding a token -/

/-- From `l` to `l'` the range is raised to the mode and nothing else changes. -/
def Raises (start stop : Nat) (write : Bool) (l l' : List Permission) : Prop :=
  ∀ b, level l' b = if start ≤ b ∧ b < stop then max (level l b) (Level.requested write) else level l b

theorem raises_iff {start stop : Nat} {write : Bool} {l l' : List Permission} :
    Raises start stop write l l' ↔
      ∀ b m, Grants l' m b ↔ Grants l m b ∨ (start ≤ b ∧ b < stop ∧ (m = true → write = true)) := by
  refine forall_congr' fun b => ?_
  by_cases inside : start ≤ b ∧ b < stop
  · rw [if_pos inside, level_eq_max_iff]
    simp only [inside.1, inside.2, true_and]
  · rw [if_neg inside, level_eq_iff]
    simp only [← and_assoc, inside, false_and, or_false]

/-- A write token does not cut off the end of a read token behind another one, and
    a read token does not wait for the lock of a write token. -/
structure KeepsLevels (l : List Permission) (start stop : Nat) (write lockNew : Bool) : Prop where
  tail : write = true → (replaced start stop l).length ≤ 1 ∨
    (replaced start stop l).getLast?.all (fun p => p.write || decide (p.stop ≤ stop))
  unlocked : write = false → lockNew = true → ∀ p ∈ replaced start stop l, p.write = true → p.locked = false

instance (l : List Permission) (start stop : Nat) (write lockNew : Bool) :
    Decidable (KeepsLevels l start stop write lockNew) :=
  decidable_of_iff ((write = true → (replaced start stop l).length ≤ 1 ∨
      (replaced start stop l).getLast?.all (fun p => p.write || decide (p.stop ≤ stop))) ∧
    (write = false → lockNew = true → ∀ p ∈ replaced start stop l, p.write = true → p.locked = false))
    ⟨fun h => ⟨h.1, h.2⟩, fun h => ⟨h.tail, h.unlocked⟩⟩

section Adding

variable {start stop : Nat} {write lockNew : Bool} {l l' : List Permission} {sc : Scan}

theorem Ordered.tail_iff (ordered : Ordered l) (found : scan start stop l = some sc) :
    (replaced start stop l).length ≤ 1 ∨
        (replaced start stop l).getLast?.all (fun p => p.write || decide (p.stop ≤ stop)) ↔
      (sc.last.write = false → stop < sc.last.stop → sc.run = []) := by
  rw [ordered.scan_replaced found, sc.getLast?_run, List.length_cons, Option.all_some, Bool.or_eq_true,
    decide_eq_true_eq]
  constructor
  · rintro (short | writes | near) reads far
    · exact List.length_eq_zero_iff.mp (by omega)
    · rw [reads] at writes
      cases writes
    · omega
  · intro tail
    cases writes : sc.last.write with
    | true => exact .inr (.inl rfl)
    | false =>
        by_cases far : stop < sc.last.stop
        · left
          rw [tail writes far]
          exact Nat.le_refl 1
        · exact .inr (.inr (by omega))

/-- `addPermission` comes back unless it waits for the lock of a write token. -/
theorem Ordered.addPermission_returns (ordered : Ordered l) :
    (∃ l', addPermission start stop write l lockNew = some l') ↔
      (write = false → lockNew = true → ∀ p ∈ replaced start stop l, p.write = true → p.locked = false) := by
  cases found : scan start stop l with
  | none =>
      have untaken : replaced start stop l = [] := by
        rw [replaced, touching_none (scan_none found)]
        split <;> rfl
      rw [untaken]
      have done : addPermission start stop write l lockNew = some (insertPermit ⟨start, stop, write, lockNew, []⟩ l) := by
        simp only [addPermission, found]
      refine iff_of_true ⟨_, done⟩ ?_
      exact fun _ _ p member => absurd member List.not_mem_nil
  | some sc =>
      cases write with
      | true =>
          have done : addPermission start stop true l lockNew =
              some (sc.before ++ mergeWrite sc start stop lockNew ++ sc.after) := by
            simp only [addPermission, found, if_true]
          refine iff_of_true ⟨_, done⟩ ?_
          exact fun reads => absurd reads.symm Bool.false_ne_true
      | false =>
          have merge : (∃ l', addPermission start stop false l lockNew = some l') ↔
              ∃ merged, mergeRead sc start stop lockNew = some merged := by
            simp only [addPermission, found, Bool.false_eq_true, if_false, Option.map_eq_some_iff]
            constructor
            · rintro ⟨_, merged, done, -⟩
              exact ⟨merged, done⟩
            · rintro ⟨merged, done⟩
              exact ⟨_, merged, done, rfl⟩
          rw [merge, mergeRead_returns, ordered.scan_replaced found]
          simp only [Scan.writePermits, List.mem_filter]
          constructor
          · exact fun free _ locks p member writes => free p ⟨member, writes⟩ locks
          · exact fun free w member locks => free trivial locks w member.1 member.2

/-- A read token that reaches beyond the range and lies behind another one that is
    touched loses the first byte behind the range. -/
theorem Ordered.write_loses (ordered : Ordered l) (found : scan start stop l = some sc) (range : start ≤ stop)
    (reads : sc.last.write = false) (far : stop < sc.last.stop) (more : sc.run ≠ []) (lockNew : Bool) :
    Grants l false stop ∧
      ¬ Grants (sc.before ++ mergeWrite sc start stop lockNew ++ sc.after) false stop := by
  have touched := Scan.touched found
  have list := Scan.split found
  constructor
  · rw [← list]
    simp only [Grants.append]
    exact .inl (.inr (sc.last_grants ⟨(touched sc.last sc.last_mem).1, far⟩ (Not.elim Bool.false_ne_true)))
  · obtain ⟨q, member⟩ := List.exists_mem_of_ne_nil _ more
    have next := (Ordered.cons_iff.mp (ordered.scan_run found)).2.1 q member
    have near := (touched q (List.mem_cons_of_mem _ member)).1
    have behind : ∀ p ∈ sc.after, stop < p.start := by
      rcases ordered.scan_touching found with ⟨noRun, -⟩ | ⟨-, behind, -⟩
      · exact absurd noRun more
      · exact behind
    simp only [mergeWrite, Grants.append, Grants.cons, Scan.sPermit, Scan.ePermit, Scan.writeEnd, reads,
      Bool.false_eq_true, if_false]
    rintro ((⟨p, member, -, low, high⟩ | held | ⟨-, -, high⟩ | held) | ⟨p, member, -, low, high⟩)
    · have := ordered.scan_before found p member
      omega
    · split at held
      · obtain ⟨p, member, -, low, high⟩ := held
        rw [List.mem_singleton.mp member] at high
        simp only at high
        omega
      · exact Grants.nil held
    · simp only at high
      omega
    · split at held
      · obtain ⟨p, member, -, low, high⟩ := held
        rw [List.mem_singleton.mp member] at high
        simp only at high
        omega
      · exact Grants.nil held
    · have := behind p member
      omega

/-- `addPermission` grants what is asked and changes nothing else exactly when it
    does not cut off the end of a read token and does not wait for a lock. -/
theorem addPermission_raises_iff (form : WellFormed l) (range : start < stop) (small : stop ≤ intMax) :
    (∃ l', addPermission start stop write l lockNew = some l' ∧ Raises start stop write l l') ↔
      KeepsLevels l start stop write lockNew := by
  have ordered := form.ordered
  constructor
  · rintro ⟨l', done, raises⟩
    refine ⟨?_, ordered.addPermission_returns.mp ⟨l', done⟩⟩
    intro writes
    subst writes
    cases found : scan start stop l with
    | none =>
        left
        rw [replaced, touching_none (scan_none found)]
        split <;> exact Nat.zero_le 1
    | some sc =>
        rw [ordered.tail_iff found]
        intro reads far
        by_contra more
        obtain ⟨held, lost⟩ := ordered.write_loses found (Nat.le_of_lt range) reads far more lockNew
        simp only [addPermission, found, if_true, Option.some.injEq] at done
        rw [done] at lost
        exact lost ((raises_iff.mp raises stop false).mpr (.inl held))
  · intro keeps
    obtain ⟨l', done⟩ := ordered.addPermission_returns.mpr keeps.unlocked
    refine ⟨l', done, raises_iff.mpr fun b m => ⟨addPermission_le done, ?_⟩⟩
    rintro (held | ⟨low, high, mode⟩)
    · refine addPermission_keeps_of_tail ordered (Nat.le_of_lt range) small ?_ done held
      intro sc found writes
      exact (ordered.tail_iff found).mp (keeps.tail writes)
    · obtain ⟨p, member, writes, covers⟩ := addPermission_ge done small low high
      exact ⟨p, member, fun writing => writes (mode writing), covers⟩

end Adding

theorem addPermission_raises_iff_between :
    KeepsLevels [⟨0, 8, false, false, []⟩, ⟨8, 10, true, false, []⟩, ⟨20, 24, false, false, []⟩] 4 9 true true ∧
      ∃ l', addPermission 4 9 true [⟨0, 8, false, false, []⟩, ⟨8, 10, true, false, []⟩, ⟨20, 24, false, false, []⟩]
          true = some l' ∧
        Raises 4 9 true [⟨0, 8, false, false, []⟩, ⟨8, 10, true, false, []⟩, ⟨20, 24, false, false, []⟩] l' :=
  ⟨by decide, (addPermission_raises_iff (by decide) (by decide) (by decide)).mpr (by decide)⟩

/-- The read token behind the range ends with it: bytes 4 to 7 are lost. -/
theorem addPermission_cuts_read :
    WellFormed [⟨0, 1, false, false, []⟩, ⟨2, 8, false, false, []⟩, ⟨20, 24, false, false, []⟩] ∧ 4 ≤ intMax ∧
      addPermission 0 4 true [⟨0, 1, false, false, []⟩, ⟨2, 8, false, false, []⟩, ⟨20, 24, false, false, []⟩] false =
        some [⟨0, 4, true, false, []⟩, ⟨4, 1, false, false, []⟩, ⟨20, 24, false, false, []⟩] ∧
      level [⟨0, 1, false, false, []⟩, ⟨2, 8, false, false, []⟩, ⟨20, 24, false, false, []⟩] 5 = .read ∧
      level [⟨0, 4, true, false, []⟩, ⟨4, 1, false, false, []⟩, ⟨20, 24, false, false, []⟩] 5 = .none :=
  ⟨by decide, by decide, by rfl, by decide, by decide⟩

/-! ## Revoking a range -/

theorem cutRun_positive {start stop : Nat} {l : List Permission} : ∀ p ∈ cutRun start stop l, p.start < p.stop := by
  intro x member
  match l with
  | [] => cases member
  | [p] =>
      simp only [cutRun, cutOne, List.mem_append, List.mem_ite_nil_right, List.mem_singleton] at member
      rcases member with ⟨early, rfl⟩ | ⟨late, rfl⟩
      · exact early
      · exact late
  | p :: q :: rest =>
      simp only [cutRun, List.mem_append, List.mem_ite_nil_right, List.mem_singleton] at member
      rcases member with ⟨early, rfl⟩ | ⟨late, rfl⟩
      · exact early
      · exact late

theorem revokePermission_wellFormed {start stop : Nat} {l : List Permission} (form : WellFormed l)
    (range : start ≤ stop) : WellFormed (revokePermission start stop l) := by
  refine wellFormed_iff.mpr ⟨?_, revokePermission_ordered form.ordered range⟩
  obtain ⟨before, run, after, whole, result, -⟩ := revokePermission_parts start stop l
  rw [result]
  intro p member
  have positive := form.positive p
  rw [whole] at positive
  rcases List.mem_append.mp member with member | member
  · rcases List.mem_append.mp member with member | member
    · exact positive (List.mem_append_left _ (List.mem_append_left _ member))
    · exact cutRun_positive p member
  · exact positive (List.mem_append_right _ member)

/-- Nothing covers a revoked byte, whatever the list was. -/
theorem revokePermission_uncovers {start stop : Nat} {l : List Permission} {b : Nat} (low : start ≤ b) (high : b < stop) :
    ∀ p ∈ revokePermission start stop l, ¬ p.Covers b := by
  intro p member covers
  have held : Grants (revokePermission start stop l) false b := ⟨p, member, Not.elim Bool.false_ne_true, covers⟩
  exact revokePermission_clears held ⟨low, high⟩

/-- `revokePermission` takes exactly its range out of a list in normal form, and
    out of any list at least its range. -/
theorem revokePermission_exact {start stop : Nat} (range : start < stop) :
    (∀ l, WellFormed l →
      (∀ b, start ≤ b → b < stop → ∀ p ∈ revokePermission start stop l, ¬ p.Covers b) ∧
      (∀ b, ¬ (start ≤ b ∧ b < stop) → level (revokePermission start stop l) b = level l b) ∧
      WellFormed (revokePermission start stop l)) ∧
    ∀ l, (∀ b, start ≤ b → b < stop → ∀ p ∈ revokePermission start stop l, ¬ p.Covers b) ∧
      ∀ b, level (revokePermission start stop l) b ≤ level l b := by
  constructor
  · intro l form
    refine ⟨fun b low high => revokePermission_uncovers low high, ?_, ?_⟩
    · intro b outside
      exact level_eq_iff.mpr fun m => ⟨revokePermission_le, revokePermission_keeps form.ordered outside⟩
    · exact revokePermission_wellFormed form (Nat.le_of_lt range)
  · intro l
    refine ⟨fun b low high => revokePermission_uncovers low high, ?_⟩
    exact fun b => level_le_iff.mpr fun m => revokePermission_le

theorem revokePermission_exact_split :
    revokePermission 4 6 [⟨0, 8, true, false, []⟩] = [⟨0, 4, true, false, []⟩, ⟨6, 8, true, false, []⟩] ∧
      WellFormed (revokePermission 4 6 [⟨0, 8, true, false, []⟩]) :=
  ⟨rfl, ((revokePermission_exact (by decide)).1 [⟨0, 8, true, false, []⟩] (by decide)).2.2⟩

/-! ## Looking tokens up -/

/-- `permissions[s..e]` for the rest of the list from `permissions[s]` on. -/
def reaching (stop : Nat) (rest : List Permission) : List Permission :=
  match rest.findIdx? (fun p => p.stop ≥ stop) with
  | some k => rest.take (k + 1)
  | none => rest

theorem reaching_of_le {stop : Nat} {p : Permission} {rest : List Permission} (near : stop ≤ p.stop) :
    reaching stop (p :: rest) = [p] := by
  simp [reaching, List.findIdx?_cons, near]

theorem reaching_of_lt {stop : Nat} {p : Permission} {rest : List Permission} (short : p.stop < stop) :
    reaching stop (p :: rest) = p :: reaching stop rest := by
  have further : ¬ stop ≤ p.stop := by omega
  simp only [reaching, List.findIdx?_cons, ge_iff_le, decide_eq_true_eq, further, if_false]
  cases rest.findIdx? (fun p => decide (stop ≤ p.stop)) with
  | none => rfl
  | some k => rfl

/-- The search for `permissions[s]` stops at the token that covers `start`. -/
theorem candidates_of_covers {start stop : Nat} {before rest : List Permission} {p : Permission}
    (ordered : Ordered (before ++ p :: rest)) (covers : p.Covers start) :
    candidates start stop (before ++ p :: rest) = some (reaching stop (p :: rest)) := by
  obtain ⟨-, tail, across⟩ := Ordered.append_iff.mp ordered
  obtain ⟨-, behind, -⟩ := Ordered.cons_iff.mp tail
  obtain ⟨low, high⟩ := covers
  have early : before.findIdx? (fun p => decide (p.start > start)) = none := by
    rw [List.findIdx?_eq_none_iff]
    intro q member
    have next := across q member p List.mem_cons_self
    have forward := ordered.forward q (List.mem_append_left _ member)
    simp only [decide_eq_false_iff_not]
    omega
  have dropped : (before ++ p :: rest).drop before.length = p :: rest := List.drop_left
  cases rest with
  | nil =>
      have index : (before ++ [p]).findIdx? (fun p => decide (p.start > start)) = none := by
        simp [List.findIdx?_append, early, List.findIdx?_cons, low]
      simp only [candidates, index, Option.map_some, List.length_append, List.length_singleton, Nat.add_sub_cancel,
        dropped]
      rfl
  | cons q rest =>
      have next := behind q List.mem_cons_self
      have later : start < q.start := by omega
      have index : (before ++ p :: q :: rest).findIdx? (fun p => decide (p.start > start)) =
          some (before.length + 1) := by
        simp [List.findIdx?_append, early, List.findIdx?_cons, low.not_gt, later, Nat.add_comm]
      simp only [candidates, index, Option.map_some, dropped]
      rfl

/-- When every byte up to `stop` is granted, the tokens from the one that covers the
    first byte on adjoin until one reaches `stop`. -/
theorem reaching_chain {stop : Nat} {write : Bool} : ∀ {rest : List Permission} {p : Permission} {start : Nat},
    WellFormed (p :: rest) → p.Covers start → start < stop →
    (∀ b, start ≤ b → b < stop → Grants (p :: rest) write b) →
    ∃ chain, reaching stop (p :: rest) = p :: chain ∧ stop ≤ (chain.getLastD p).stop ∧
      (write = true → ∀ q ∈ p :: chain, q.write = true) ∧ adjoining (p :: chain) = true := by
  intro rest
  induction rest with
  | nil =>
      intro p start form covers range granted
      obtain ⟨low, high⟩ := covers
      have reach : stop ≤ p.stop := by
        by_contra short
        obtain ⟨q, member, -, -, inside⟩ := granted (stop - 1) (by omega) (by omega)
        rw [List.mem_singleton.mp member] at inside
        omega
      refine ⟨[], reaching_of_le reach, reach, ?_, rfl⟩
      intro writes q member
      obtain ⟨x, here, mode, -⟩ := granted start (Nat.le_refl _) range
      rw [List.mem_singleton.mp here] at mode
      rw [List.mem_singleton.mp member]
      exact mode writes
  | cons q rest ih =>
      intro p start form covers range granted
      obtain ⟨low, high⟩ := covers
      obtain ⟨-, behind, -⟩ := Ordered.cons_iff.mp form.ordered
      have mode : write = true → p.write = true := by
        obtain ⟨x, member, mode, inside, -⟩ := granted start (Nat.le_refl _) range
        rcases List.mem_cons.mp member with rfl | member
        · exact mode
        · have := behind x member
          omega
      by_cases reach : stop ≤ p.stop
      · refine ⟨[], reaching_of_le reach, reach, ?_, rfl⟩
        intro writes x member
        rw [List.mem_singleton.mp member]
        exact mode writes
      · have form' : WellFormed (q :: rest) :=
          ⟨fun x member => form.positive x (List.mem_cons_of_mem p member), form.apart.of_cons⟩
        have granted' : ∀ b, p.stop ≤ b → b < stop → Grants (q :: rest) write b := by
          intro b far inside
          rcases Grants.cons.mp (granted b (by omega) inside) with ⟨-, -, near⟩ | held
          · omega
          · exact held
        have next := behind q List.mem_cons_self
        have positive := form'.positive q List.mem_cons_self
        have adjoins : p.stop = q.start := by
          obtain ⟨x, member, -, inside, -⟩ := granted' p.stop (Nat.le_refl _) (by omega)
          rcases List.mem_cons.mp member with rfl | member
          · omega
          · have := (Ordered.cons_iff.mp form'.ordered).2.1 x member
            omega
        obtain ⟨chain, reached, reach', writes', adjoining'⟩ :=
          ih form' ⟨by omega, by omega⟩ (by omega) granted'
        refine ⟨q :: chain, ?_, ?_, ?_, ?_⟩
        · rw [reaching_of_lt (by omega), reached]
        · rwa [List.getLastD_cons]
        · intro writes x member
          rcases List.mem_cons.mp member with rfl | member
          · exact mode writes
          · exact writes' writes x member
        · simp only [adjoining, adjoins, decide_true, Bool.true_and]
          exact adjoining'

/-- `hasPermission` decides whether a list in normal form grants the whole range. -/
theorem hasPermission_iff {l : List Permission} {start stop : Nat} {write : Bool} (form : WellFormed l)
    (range : start < stop) :
    hasPermission start stop write l = true ↔
      ∀ b, start ≤ b → b < stop → ∃ p ∈ l, p.Covers b ∧ (write = true → p.write = true) := by
  constructor
  · intro has b low high
    obtain ⟨p, member, mode, covers⟩ := hasPermission_covers has low high
    exact ⟨p, member, covers, mode⟩
  · intro held
    obtain ⟨p, member, covers, -⟩ := held start (Nat.le_refl _) range
    obtain ⟨before, rest, rfl⟩ := List.append_of_mem member
    have ordered := form.ordered
    obtain ⟨-, tail, across⟩ := Ordered.append_iff.mp ordered
    have form' : WellFormed (p :: rest) :=
      wellFormed_iff.mpr ⟨fun q inside => form.positive q (List.mem_append_right _ inside), tail⟩
    have granted : ∀ b, start ≤ b → b < stop → Grants (p :: rest) write b := by
      intro b low high
      obtain ⟨q, inside, coversQ, mode⟩ := held b low high
      rcases List.mem_append.mp inside with inside | inside
      · have := across q inside p List.mem_cons_self
        have := coversQ.2
        have := covers.1
        omega
      · exact ⟨q, inside, mode, coversQ⟩
    obtain ⟨chain, reached, reach, writes, adjoins⟩ := reaching_chain form' covers range granted
    have nonempty : (before ++ p :: rest).isEmpty = false := by simp
    have low := covers.1
    simp only [hasPermission, nonempty, candidates_of_covers ordered covers, reached, Bool.false_eq_true, if_false, low,
      reach, adjoins, decide_true, Bool.true_and, Bool.and_true, Bool.or_eq_true, Bool.not_eq_true', List.all_eq_true]
    cases write with
    | false => exact .inl rfl
    | true => exact .inr (writes rfl)

theorem hasPermission_iff_chain :
    hasPermission 2 12 true [⟨0, 8, true, false, []⟩, ⟨8, 16, true, false, []⟩] = true ∧
      ∀ b, 2 ≤ b → b < 12 → ∃ p ∈ [⟨0, 8, true, false, []⟩, ⟨8, 16, true, false, []⟩],
        Permission.Covers p b ∧ (true = true → p.write = true) :=
  ⟨rfl, (hasPermission_iff (by decide) (by decide)).mp rfl⟩

end PFS
