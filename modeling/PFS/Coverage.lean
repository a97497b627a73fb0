import PFS.File

/-! # Coverage of arbitrary token lists

`addPermission` grants no more than the list had plus the requested range, and
grants all of the requested range; `revokePermission` grants nothing inside its
range and nothing the list did not grant before.  None of this needs a sorted
or disjoint list.
-/

namespace PFS

namespace Scan

/-- The cut puts the list back together. -/
theorem list_eq {start stop l sc} (h : scan start stop l = some sc) : sc.list = l := by
  unfold scan at h
  split at h
  · cases h
  · next first rest found =>
      obtain rfl := Option.some.inj h
      have whole := List.takeWhile_append_dropWhile
        (p := fun p : Permission => !p.isInclusiveShared start stop) (l := l)
      rw [found] at whole
      simp only [list]
      conv_rhs => rw [← whole]
      congr 2
      apply List.prefix_iff_eq_append.mp
      split
      · exact List.nil_prefix
      · exact List.takeWhile_prefix _

theorem before_untouched {start stop l sc} (h : scan start stop l = some sc) :
    ∀ p ∈ sc.before, p.isInclusiveShared start stop = false := by
  unfold scan at h
  split at h
  · cases h
  · obtain rfl := Option.some.inj h
    intro p member
    have := List.mem_takeWhile_imp member
    simpa using this

theorem first_touched {start stop l sc} (h : scan start stop l = some sc) :
    sc.first.isInclusiveShared start stop = true := by
  unfold scan at h
  split at h
  · cases h
  · next first rest found =>
      obtain rfl := Option.some.inj h
      have nonempty : l.dropWhile (fun p => !p.isInclusiveShared start stop) ≠ [] := by simp [found]
      have := List.head_dropWhile_not (fun p : Permission => !p.isInclusiveShared start stop) nonempty
      simpa [found] using this

theorem run_touched {start stop l sc} (h : scan start stop l = some sc) :
    ∀ p ∈ sc.run, p.isInclusiveShared start stop = true := by
  unfold scan at h
  split at h
  · cases h
  · obtain rfl := Option.some.inj h
    intro p member
    simp only at member
    split at member
    · cases member
    · exact List.mem_takeWhile_imp (p := fun p : Permission => p.isInclusiveShared start stop) member

theorem last_mem (sc : Scan) : sc.last ∈ sc.first :: sc.run := by
  cases empty : sc.run with
  | nil => simp [last, empty]
  | cons p rest =>
      have : sc.last = (p :: rest).getLast (by simp) := by
        simp only [last, empty, List.getLastD_cons, List.getLast_eq_getLastD]
      rw [this]
      exact List.mem_cons_of_mem _ (List.getLast_mem _)

theorem touched {start stop l sc} (h : scan start stop l = some sc) :
    ∀ p ∈ sc.first :: sc.run, p.start ≤ stop ∧ start ≤ p.stop := by
  intro p member
  rcases List.mem_cons.mp member with rfl | member
  · exact Permission.isInclusiveShared_iff.mp (first_touched h)
  · exact Permission.isInclusiveShared_iff.mp (run_touched h p member)

end Scan

theorem scan_none {start stop l} (h : scan start stop l = none) :
    ∀ p ∈ l, p.isInclusiveShared start stop = false := by
  unfold scan at h
  split at h
  · next found =>
      intro p member
      have := List.dropWhile_eq_nil_iff.mp found p member
      simpa using this
  · cases h

/-! ## Adding a token -/

theorem lockIf_fields {lockNew p q} (h : lockIf lockNew p = some q) :
    q.start = p.start ∧ q.stop = p.stop ∧ q.write = p.write := by
  unfold lockIf at h
  split at h
  · rw [Permission.lock_eq_some h]; exact ⟨rfl, rfl, rfl⟩
  · obtain rfl := Option.some.inj h; exact ⟨rfl, rfl, rfl⟩

theorem lockIf_covers {lockNew p q} (h : lockIf lockNew p = some q) {w b} :
    ((w = true → q.write = true) ∧ q.Covers b) ↔ ((w = true → p.write = true) ∧ p.Covers b) := by
  obtain ⟨hs, he, hw⟩ := lockIf_fields h
  simp only [Permission.Covers, hs, he, hw]

/-- The loop keeps every write token, and its read tokens lie between `low`,
    where every write token has ended, and the first bound `high`. -/
theorem fillGaps_le {lockNew low high} : ∀ {ws newEnd acc bound merged},
    fillGaps lockNew ws newEnd acc = some (bound, merged) →
    (∀ w ∈ ws, low ≤ w.stop ∧ w.start ≤ high) → newEnd ≤ high →
    bound ≤ high ∧ ∀ m b, Grants merged m b →
      Grants acc m b ∨ Grants ws m b ∨ (m = false ∧ low ≤ b ∧ b < high) := by
  intro ws
  induction ws with
  | nil =>
      intro newEnd acc bound merged h _ small
      simp only [fillGaps, Option.some.injEq, Prod.mk.injEq] at h
      obtain ⟨rfl, rfl⟩ := h
      exact ⟨small, fun m b g => .inl g⟩
  | cons w ws ih =>
      intro newEnd acc bound merged h inside small
      simp only [fillGaps, Option.bind_eq_bind, Option.bind_eq_some_iff] at h
      obtain ⟨kept, locked, h⟩ := h
      obtain ⟨lower, upper⟩ := inside w (by simp)
      obtain ⟨top, sub⟩ := ih h (fun x hx => inside x (by simp [hx])) upper
      refine ⟨top, fun m b g => ?_⟩
      rcases sub m b g with g | g | g
      · simp only [Grants.cons, lockIf_covers locked] at g ⊢
        rcases g with g | ⟨mode, low', high'⟩ | g
        · exact .inr (.inl (.inl g))
        · simp only at mode low' high'
          exact .inr (.inr ⟨by simpa using mode, by omega, by omega⟩)
        · exact .inl g
      · exact .inr (.inl (Grants.cons.mpr (.inr g)))
      · exact .inr (.inr g)

/-- The loop loses nothing and leaves no hole above the bound it returns. -/
theorem fillGaps_ge {lockNew} : ∀ {ws newEnd acc bound merged},
    fillGaps lockNew ws newEnd acc = some (bound, merged) →
    (∀ m b, Grants acc m b ∨ Grants ws m b → Grants merged m b) ∧
      ∀ b, bound ≤ b → b < newEnd → Grants merged false b := by
  intro ws
  induction ws with
  | nil =>
      intro newEnd acc bound merged h
      simp only [fillGaps, Option.some.injEq, Prod.mk.injEq] at h
      obtain ⟨rfl, rfl⟩ := h
      refine ⟨fun m b g => ?_, fun b low high => by omega⟩
      simpa using g
  | cons w ws ih =>
      intro newEnd acc bound merged h
      simp only [fillGaps, Option.bind_eq_bind, Option.bind_eq_some_iff] at h
      obtain ⟨kept, locked, h⟩ := h
      obtain ⟨keep, fill⟩ := ih h
      constructor
      · intro m b g
        apply keep
        simp only [Grants.cons, lockIf_covers locked] at g ⊢
        tauto
      · intro b low high
        by_cases below : b < w.start
        · exact fill b low below
        · apply keep
          simp only [Grants.cons, lockIf_covers locked]
          by_cases inside : b < w.stop
          · exact .inl (.inl ⟨Not.elim Bool.false_ne_true, by omega, inside⟩)
          · exact .inl (.inr (.inl ⟨Not.elim Bool.false_ne_true, by simp only; omega, high⟩))

theorem fillFrom_le {lockNew low high ws newEnd bound merged}
    (h : fillFrom lockNew newEnd ws = some (bound, merged))
    (inside : ∀ w ∈ ws, low ≤ w.stop ∧ w.start ≤ high) (small : newEnd ≤ high) :
    bound ≤ high ∧ ∀ m b, Grants merged m b → Grants ws m b ∨ (m = false ∧ low ≤ b ∧ b < high) := by
  cases ws with
  | nil =>
      simp only [fillFrom, Option.some.injEq, Prod.mk.injEq] at h
      obtain ⟨rfl, rfl⟩ := h
      exact ⟨small, fun m b g => (Grants.nil g).elim⟩
  | cons w ws =>
      simp only [fillFrom] at h
      split at h
      · simp only [Option.bind_eq_bind, Option.bind_eq_some_iff] at h
        obtain ⟨kept, locked, h⟩ := h
        obtain ⟨top, sub⟩ := fillGaps_le h (fun x hx => inside x (by simp [hx])) (inside w (by simp)).2
        refine ⟨top, fun m b g => ?_⟩
        rcases sub m b g with g | g | g
        · simp only [Grants.cons, Grants.nil, or_false, lockIf_covers locked] at g ⊢
          exact .inl (.inl g)
        · exact .inl (Grants.cons.mpr (.inr g))
        · exact .inr g
      · obtain ⟨top, sub⟩ := fillGaps_le h inside small
        refine ⟨top, fun m b g => ?_⟩
        rcases sub m b g with g | g
        · exact (Grants.nil g).elim
        · exact g

theorem fillFrom_ge {lockNew ws newEnd bound merged}
    (h : fillFrom lockNew newEnd ws = some (bound, merged)) :
    (∀ m b, Grants ws m b → Grants merged m b) ∧
      ∀ b, bound ≤ b → b < newEnd → Grants merged false b := by
  cases ws with
  | nil =>
      simp only [fillFrom, Option.some.injEq, Prod.mk.injEq] at h
      obtain ⟨rfl, rfl⟩ := h
      exact ⟨fun m b g => g, fun b low high => by omega⟩
  | cons w ws =>
      simp only [fillFrom] at h
      split at h
      · next reach =>
          simp only [Option.bind_eq_bind, Option.bind_eq_some_iff] at h
          obtain ⟨kept, locked, h⟩ := h
          obtain ⟨keep, fill⟩ := fillGaps_ge h
          constructor
          · intro m b g
            apply keep
            simp only [Grants.cons, Grants.nil, or_false, lockIf_covers locked] at g ⊢
            exact g
          · intro b low high
            by_cases below : b < w.start
            · exact fill b low below
            · apply keep
              simp only [Grants.cons, Grants.nil, or_false, lockIf_covers locked]
              exact .inl ⟨Not.elim Bool.false_ne_true, by omega, by omega⟩
      · obtain ⟨keep, fill⟩ := fillGaps_ge h
        exact ⟨fun m b g => keep m b (.inr g), fill⟩

theorem grants_writePermits {sc : Scan} {m b} (g : Grants sc.writePermits.reverse m b) :
    Grants (sc.first :: sc.run) m b := by
  apply g.mono
  intro p member
  exact (List.mem_filter.mp (List.mem_reverse.mp member)).1

namespace Scan

/-- What the outer tokens of the run grant, said of the bytes they cover. -/
theorem first_grants (sc : Scan) {b m} (covers : sc.first.Covers b)
    (mode : m = true → sc.first.write = true) : Grants (sc.first :: sc.run) m b :=
  ⟨sc.first, by simp, mode, covers⟩

theorem last_grants (sc : Scan) {b m} (covers : sc.last.Covers b)
    (mode : m = true → sc.last.write = true) : Grants (sc.first :: sc.run) m b :=
  ⟨sc.last, sc.last_mem, mode, covers⟩

theorem writeStart_le (sc : Scan) (start : Nat) : sc.writeStart start ≤ start := by
  unfold writeStart
  split <;> omega

theorem le_writeEnd (sc : Scan) (stop : Nat) : stop ≤ sc.writeEnd stop := by
  unfold writeEnd
  split <;> omega

theorem readStart_le (sc : Scan) (start : Nat) : sc.readStart start ≤ start := by
  simp only [readStart, Bool.and_eq_true, decide_eq_true_eq]
  split <;> omega

theorem le_readEnd (sc : Scan) (stop : Nat) : stop ≤ sc.readEnd stop := by
  simp only [readEnd, Bool.and_eq_true, decide_eq_true_eq]
  split <;> omega

/-- Between the widened bounds every byte is requested or held already. -/
theorem write_bounds {start stop l sc} (h : scan start stop l = some sc) {b : Nat}
    (low : sc.writeStart start ≤ b) (high : b < sc.writeEnd stop) :
    Grants (sc.first :: sc.run) true b ∨ (start ≤ b ∧ b < stop) := by
  obtain ⟨firstStart, firstStop⟩ := touched h sc.first (by simp)
  obtain ⟨lastStart, lastStop⟩ := touched h sc.last sc.last_mem
  simp only [writeStart] at low
  simp only [writeEnd] at high
  by_cases below : b < start
  · split at low
    · next writes => exact .inl (sc.first_grants ⟨by omega, by omega⟩ (fun _ => writes))
    · omega
  · by_cases above : stop ≤ b
    · split at high
      · next writes => exact .inl (sc.last_grants ⟨by omega, by omega⟩ (fun _ => writes))
      · omega
    · exact .inr ⟨by omega, by omega⟩

theorem read_bounds {start stop l sc} (h : scan start stop l = some sc) {b : Nat}
    (low : sc.readStart start ≤ b) (high : b < sc.readEnd stop) :
    Grants (sc.first :: sc.run) false b ∨ (start ≤ b ∧ b < stop) := by
  obtain ⟨firstStart, firstStop⟩ := touched h sc.first (by simp)
  obtain ⟨lastStart, lastStop⟩ := touched h sc.last sc.last_mem
  simp only [readStart] at low
  simp only [readEnd] at high
  by_cases below : b < start
  · split at low
    · exact .inl (sc.first_grants ⟨low, by omega⟩ nofun)
    · omega
  · by_cases above : stop ≤ b
    · split at high
      · exact .inl (sc.last_grants ⟨by omega, high⟩ nofun)
      · omega
    · exact .inr ⟨by omega, by omega⟩

end Scan

theorem mergeWrite_le {start stop l sc lockNew} (h : scan start stop l = some sc) {m b}
    (g : Grants (mergeWrite sc start stop lockNew) m b) :
    Grants (sc.first :: sc.run) m b ∨ (start ≤ b ∧ b < stop) := by
  obtain ⟨firstStart, firstStop⟩ := Scan.touched h sc.first (by simp)
  simp only [mergeWrite, Grants.append, Grants.cons] at g
  rcases g with g | ⟨-, low, high⟩ | g
  · simp only [Scan.sPermit] at g
    split at g
    · simp only [Grants.cons, Grants.nil, or_false, Permission.Covers] at g
      exact .inl (sc.first_grants ⟨g.2.1, by omega⟩ (fun writes => absurd (g.1 writes) Bool.false_ne_true))
    · exact (Grants.nil g).elim
  · refine (Scan.write_bounds h low high).imp ?_ id
    rintro ⟨p, member, mode, covers⟩
    exact ⟨p, member, fun _ => mode rfl, covers⟩
  · simp only [Scan.ePermit] at g
    split at g
    · simp only [Grants.cons, Grants.nil, or_false, Permission.Covers] at g
      exact .inl (sc.first_grants ⟨by omega, g.2.2⟩ (fun writes => absurd (g.1 writes) Bool.false_ne_true))
    · exact (Grants.nil g).elim

theorem mergeWrite_ge (sc : Scan) {start stop b : Nat} (lockNew m : Bool)
    (low : start ≤ b) (high : b < stop) : Grants (mergeWrite sc start stop lockNew) m b := by
  have lower := sc.writeStart_le start
  have upper := sc.le_writeEnd stop
  simp only [mergeWrite, Grants.append, Grants.cons, Permission.Covers]
  exact .inr (.inl ⟨fun _ => trivial, by omega, by omega⟩)

theorem mergeRead_le {start stop l sc lockNew merged} (h : scan start stop l = some sc)
    (done : mergeRead sc start stop lockNew = some merged) {m b} (g : Grants merged m b) :
    Grants (sc.first :: sc.run) m b ∨ (m = false ∧ start ≤ b ∧ b < stop) := by
  have between : ∀ {b}, m = false → sc.readStart start ≤ b → b < sc.readEnd stop →
      Grants (sc.first :: sc.run) m b ∨ (m = false ∧ start ≤ b ∧ b < stop) := by
    rintro b rfl low high
    exact (Scan.read_bounds h low high).imp id (fun inside => ⟨rfl, inside⟩)
  unfold mergeRead at done
  split at done
  · obtain rfl := Option.some.inj done
    simp only [Grants.cons, Grants.nil, or_false, Permission.Covers] at g
    exact between (by simpa using g.1) g.2.1 g.2.2
  · simp only [Option.bind_eq_bind, Option.bind_eq_some_iff] at done
    obtain ⟨⟨bound, rest⟩, filled, done⟩ := done
    have inside : ∀ w ∈ sc.writePermits.reverse, start ≤ w.stop ∧ w.start ≤ sc.readEnd stop := by
      intro w member
      obtain ⟨low, high⟩ := Scan.touched h w (List.mem_filter.mp (List.mem_reverse.mp member)).1
      exact ⟨high, low.trans (sc.le_readEnd stop)⟩
    obtain ⟨small, sub⟩ := fillFrom_le filled inside le_rfl
    have kept : Grants rest m b → Grants (sc.first :: sc.run) m b ∨ (m = false ∧ start ≤ b ∧ b < stop) := by
      intro g
      rcases sub m b g with g | ⟨reading, low, high⟩
      · exact .inl (grants_writePermits g)
      · exact between reading ((sc.readStart_le start).trans low) high
    split at done
    · obtain rfl := Option.some.inj done
      rcases Grants.cons.mp g with ⟨mode, low, high⟩ | g
      · exact between (by simpa using mode) low (Nat.lt_of_lt_of_le high small)
      · exact kept g
    · obtain rfl := Option.some.inj done
      exact kept g

theorem asInt_of_le {n : Nat} (small : n ≤ intMax) : asInt n = n := if_pos small

/-- Every bound of the list fits a non-negative `int`, as the offsets the
    clients may use do. -/
def Bounded (l : List Permission) : Prop := ∀ p ∈ l, p.start ≤ intMax ∧ p.stop ≤ intMax

theorem Scan.readEnd_le {sc : Scan} {stop : Nat} (small : Bounded (sc.first :: sc.run))
    (smallStop : stop ≤ intMax) : sc.readEnd stop ≤ intMax := by
  unfold readEnd
  split
  · exact (small sc.last sc.last_mem).2
  · exact smallStop

/-- The loop ends at the start of the first write token. -/
theorem fillGaps_bound {lockNew} : ∀ {ws newEnd acc bound merged},
    fillGaps lockNew ws newEnd acc = some (bound, merged) →
    bound = (ws.getLast?.map fun w => w.start).getD newEnd := by
  intro ws
  induction ws with
  | nil =>
      intro newEnd acc bound merged h
      obtain ⟨rfl, -⟩ := Prod.mk.inj (Option.some.inj h)
      rfl
  | cons w ws ih =>
      intro newEnd acc bound merged h
      simp only [fillGaps, Option.bind_eq_bind, Option.bind_eq_some_iff] at h
      obtain ⟨kept, -, h⟩ := h
      rw [ih h, List.getLast?_cons]
      cases ws.getLast? <;> rfl

theorem fillFrom_bound {lockNew ws newEnd bound merged} (h : fillFrom lockNew newEnd ws = some (bound, merged)) :
    bound = (ws.getLast?.map fun w => w.start).getD newEnd := by
  cases ws with
  | nil =>
      obtain ⟨rfl, -⟩ := Prod.mk.inj (Option.some.inj h)
      rfl
  | cons w ws =>
      simp only [fillFrom] at h
      split at h
      · simp only [Option.bind_eq_bind, Option.bind_eq_some_iff] at h
        obtain ⟨kept, -, h⟩ := h
        rw [fillGaps_bound h, List.getLast?_cons]
        cases ws.getLast? <;> rfl
      · exact fillGaps_bound h

theorem fillFrom_bound_head {sc : Scan} {lockNew newEnd bound merged}
    (filled : fillFrom lockNew newEnd sc.writePermits.reverse = some (bound, merged))
    (nonempty : ¬ sc.writePermits.isEmpty = true) : ∃ w, sc.writePermits.head? = some w ∧ bound = w.start := by
  have bound_eq := fillFrom_bound filled
  rw [List.getLast?_reverse] at bound_eq
  cases ws : sc.writePermits with
  | nil => rw [ws] at nonempty; exact (nonempty rfl).elim
  | cons w rest => rw [ws] at bound_eq; exact ⟨w, rfl, bound_eq⟩

/-- The read token in front of the write tokens starts and ends inside what is
    asked for or held, so its signed comparison is the plain one. -/
theorem fillFrom_bound_le {start stop l sc lockNew newEnd bound merged} (h : scan start stop l = some sc)
    (filled : fillFrom lockNew newEnd sc.writePermits.reverse = some (bound, merged))
    (nonempty : ¬ sc.writePermits.isEmpty = true) : bound ≤ stop := by
  obtain ⟨w, isHead, rfl⟩ := fillFrom_bound_head filled nonempty
  exact (Scan.touched h w (List.mem_filter.mp (List.mem_of_head? isHead)).1).1

/-- When the tokens it touches start below `INT_MAX` the signed comparison leaves no
    gap, and the whole widened range is granted. -/
theorem mergeRead_covers {sc : Scan} {start stop : Nat} {lockNew : Bool} {merged}
    (done : mergeRead sc start stop lockNew = some merged) (small : ∀ p ∈ sc.first :: sc.run, p.start ≤ intMax)
    {b} (low : sc.readStart start ≤ b) (high : b < sc.readEnd stop) : Grants merged false b := by
  unfold mergeRead at done
  split at done
  · obtain rfl := Option.some.inj done
    simp only [Grants.cons, Grants.nil, or_false, Permission.Covers]
    exact ⟨Not.elim Bool.false_ne_true, by omega, by omega⟩
  · next writes =>
      simp only [Option.bind_eq_bind, Option.bind_eq_some_iff] at done
      obtain ⟨⟨bound, rest⟩, filled, done⟩ := done
      obtain ⟨w, isHead, rfl⟩ := fillFrom_bound_head filled writes
      have boundSmall := small w (List.mem_filter.mp (List.mem_of_head? isHead)).1
      obtain ⟨-, fill⟩ := fillFrom_ge filled
      split at done
      · obtain rfl := Option.some.inj done
        by_cases below : b < w.start
        · exact Grants.cons.mpr (.inl ⟨Not.elim Bool.false_ne_true, by simp only; omega, below⟩)
        · exact Grants.cons.mpr (.inr (fill b (by omega) (by omega)))
      · next signed =>
          obtain rfl := Option.some.inj done
          simp only [asInt_of_le boundSmall] at signed
          by_cases startSmall : sc.readStart start ≤ intMax
          · rw [asInt_of_le startSmall] at signed
            exact fill b (by omega) (by omega)
          · exact fill b (by omega) (by omega)

theorem mergeRead_ge {start stop l sc lockNew merged} (h : scan start stop l = some sc)
    (done : mergeRead sc start stop lockNew = some merged) (smallStop : stop ≤ intMax)
    {b} (low : sc.readStart start ≤ b) (high : b < sc.readEnd stop) : Grants merged false b :=
  mergeRead_covers done (fun p member => (Scan.touched h p member).1.trans smallStop) low high

/-- Adding a token grants at most what was held and what was asked for. -/
theorem addPermission_le {start stop write l lockNew l'}
    (done : addPermission start stop write l lockNew = some l') {m b} (g : Grants l' m b) :
    Grants l m b ∨ (start ≤ b ∧ b < stop ∧ (m = true → write = true)) := by
  unfold addPermission at done
  split at done
  · next sc h =>
      have run_le : Grants (sc.first :: sc.run) m b → Grants l m b := by
        intro g
        rw [← Scan.list_eq h]
        simp only [Scan.list, Grants.append, Grants.cons] at g ⊢
        tauto
      have outer_le : Grants sc.before m b ∨ Grants sc.after m b → Grants l m b := by
        intro g
        rw [← Scan.list_eq h]
        simp only [Scan.list, Grants.append, Grants.cons]
        tauto
      split at done
      · next writes =>
          obtain rfl := Option.some.inj done
          simp only [Grants.append] at g
          rcases g with (g | g) | g
          · exact .inl (outer_le (.inl g))
          · exact (mergeWrite_le h g).imp run_le (fun inside => ⟨inside.1, inside.2, fun _ => writes⟩)
          · exact .inl (outer_le (.inr g))
      · obtain ⟨merged, mergeDone, rfl⟩ := Option.map_eq_some_iff.mp done
        simp only [Grants.append] at g
        rcases g with (g | g) | g
        · exact .inl (outer_le (.inl g))
        · refine (mergeRead_le h mergeDone g).imp run_le ?_
          rintro ⟨rfl, low, high⟩
          exact ⟨low, high, Not.elim Bool.false_ne_true⟩
        · exact .inl (outer_le (.inr g))
  · obtain rfl := Option.some.inj done
    simp only [insertPermit, Grants.append, Grants.cons, Permission.Covers] at g
    rcases g with g | ⟨mode, low, high⟩ | g
    · exact .inl (g.mono (fun p member => (List.rdropWhile_prefix _ _).subset member))
    · exact .inr ⟨low, high, mode⟩
    · exact .inl (g.mono (fun p member => (List.rtakeWhile_suffix _ _).subset member))

/-- Adding a token grants all that was asked for, unless the signed comparison meets a
    token behind `INT_MAX`. -/
theorem addPermission_covers {start stop write l lockNew l'}
    (done : addPermission start stop write l lockNew = some l')
    (small : ∀ p ∈ l, p.start ≤ stop → p.start ≤ intMax) {b} (low : start ≤ b) (high : b < stop) :
    Grants l' write b := by
  unfold addPermission at done
  split at done
  · next sc h =>
      split at done
      · next writes =>
          obtain rfl := Option.some.inj done
          simp only [Grants.append]
          exact .inl (.inr (mergeWrite_ge sc lockNew write low high))
      · next reads =>
          obtain ⟨merged, mergeDone, rfl⟩ := Option.map_eq_some_iff.mp done
          have reading : write = false := by simpa using reads
          subst reading
          have smallRun : ∀ p ∈ sc.first :: sc.run, p.start ≤ intMax := by
            intro p member
            refine small p ?_ (Scan.touched h p member).1
            rw [← Scan.list_eq h]
            simp only [Scan.list, List.mem_append, List.mem_cons] at member ⊢
            tauto
          simp only [Grants.append]
          exact .inl (.inr (mergeRead_covers mergeDone smallRun ((sc.readStart_le start).trans low)
            (high.trans_le (sc.le_readEnd stop))))
  · obtain rfl := Option.some.inj done
    simp only [insertPermit, Grants.append, Grants.cons, Permission.Covers]
    exact .inr (.inl ⟨id, low, high⟩)

theorem addPermission_ge {start stop write l lockNew l'}
    (done : addPermission start stop write l lockNew = some l')
    (smallStop : stop ≤ intMax) {b} (low : start ≤ b) (high : b < stop) :
    Grants l' write b := addPermission_covers done (fun _ _ touched => touched.trans smallStop) low high

/-! ## Revoking a range -/

theorem cutRun_le {start stop : Nat} {l : List Permission}
    (shared : ∀ p, l.head? = some p ∨ l.getLast? = some p → p.isShared start stop = true) {m b}
    (g : Grants (cutRun start stop l) m b) : Grants l m b ∧ ¬ (start ≤ b ∧ b < stop) := by
  match l with
  | [] => exact (Grants.nil g).elim
  | [p] =>
      obtain ⟨low, high⟩ := Permission.isShared_iff.mp (shared p (by simp))
      simp only [cutRun, cutOne, Grants.append] at g
      simp only [Grants.cons, Grants.nil, or_false, Permission.Covers]
      rcases g with g | g
      · split at g
        · simp only [Grants.cons, Grants.nil, or_false, Permission.Covers] at g
          exact ⟨⟨g.1, by omega, by omega⟩, by omega⟩
        · exact (Grants.nil g).elim
      · split at g
        · simp only [Grants.cons, Grants.nil, or_false, Permission.Covers] at g
          exact ⟨⟨g.1, by omega, by omega⟩, by omega⟩
        · exact (Grants.nil g).elim
  | p :: q :: rest =>
      have lastEq : (p :: q :: rest).getLast? = some (rest.getLastD q) := by
        simp [List.getLast?_cons]
      have lastMem : rest.getLastD q ∈ q :: rest := by
        exact List.mem_of_getLast? (by simpa [List.getLast?_cons_cons] using lastEq)
      obtain ⟨low, high⟩ := Permission.isShared_iff.mp (shared p (by simp))
      obtain ⟨low', high'⟩ := Permission.isShared_iff.mp (shared _ (.inr lastEq))
      simp only [cutRun, Grants.append] at g
      rcases g with g | g
      · split at g
        · simp only [Grants.cons, Grants.nil, or_false, Permission.Covers] at g
          exact ⟨⟨p, by simp, g.1, by omega, by omega⟩, by omega⟩
        · exact (Grants.nil g).elim
      · split at g
        · simp only [Grants.cons, Grants.nil, or_false, Permission.Covers] at g
          exact ⟨⟨_, List.mem_cons_of_mem _ lastMem, g.1, by omega, by omega⟩, by omega⟩
        · exact (Grants.nil g).elim

theorem untouched_clear {start stop : Nat} {l : List Permission}
    (untouched : ∀ p ∈ l, p.isShared start stop = false) {m b} (g : Grants l m b) :
    ¬ (start ≤ b ∧ b < stop) := by
  obtain ⟨p, member, -, low, high⟩ := g
  rintro ⟨lower, upper⟩
  have touched : p.isShared start stop = true := Permission.isShared_iff.mpr ⟨by omega, by omega⟩
  rw [untouched p member] at touched
  cases touched

/-- `revokePermission` cuts the list at the first and the last token that the
    range touches. -/
theorem revokePermission_parts (start stop : Nat) (l : List Permission) :
    ∃ before run after, l = before ++ run ++ after ∧
      revokePermission start stop l = before ++ cutRun start stop run ++ after ∧
      (∀ p ∈ before, p.isShared start stop = false) ∧ (∀ p ∈ after, p.isShared start stop = false) ∧
      ∀ p, run.head? = some p ∨ run.getLast? = some p → p.isShared start stop = true := by
  let untouched := fun p : Permission => !p.isShared start stop
  let rest := l.dropWhile untouched
  refine ⟨l.takeWhile untouched, rest.rdropWhile untouched, rest.rtakeWhile untouched, ?_, rfl, ?_, ?_, ?_⟩
  · rw [List.append_assoc, List.rdropWhile_append_rtakeWhile, List.takeWhile_append_dropWhile]
  · intro p member
    simpa [untouched] using List.mem_takeWhile_imp member
  · intro p member
    simpa [untouched] using List.mem_rtakeWhile_imp member
  · intro p ends
    have nonempty : rest.rdropWhile untouched ≠ [] := by
      rintro empty
      simp [empty] at ends
    have restNonempty : rest ≠ [] := by
      rintro empty
      exact nonempty (by simp [empty])
    rcases ends with ends | ends
    · have sameHead : rest.head? = some p := by
        have whole := List.rdropWhile_append_rtakeWhile (p := untouched) (l := rest)
        rw [← whole, List.head?_append, ends]
        rfl
      have headEq : rest.head restNonempty = p := by
        simpa [List.head?_eq_some_head restNonempty] using sameHead
      have touched := List.head_dropWhile_not untouched restNonempty
      rw [headEq] at touched
      simpa [untouched] using touched
    · have lastEq : (rest.rdropWhile untouched).getLast nonempty = p := by
        simpa [List.getLast?_eq_some_getLast nonempty] using ends
      have touched := List.rdropWhile_last_not untouched rest nonempty
      rw [lastEq] at touched
      simpa [untouched] using touched

/-- Revocation grants nothing new. -/
theorem revokePermission_le {start stop : Nat} {l : List Permission} {m b}
    (g : Grants (revokePermission start stop l) m b) : Grants l m b := by
  obtain ⟨before, run, after, whole, result, -, -, ends⟩ := revokePermission_parts start stop l
  rw [result] at g
  rw [whole]
  simp only [Grants.append] at g ⊢
  rcases g with (g | g) | g
  · exact .inl (.inl g)
  · exact .inl (.inr (cutRun_le ends g).1)
  · exact .inr g

/-- Revocation leaves nothing of the range, whatever the list was. -/
theorem revokePermission_clears {start stop : Nat} {l : List Permission} {m b}
    (g : Grants (revokePermission start stop l) m b) : ¬ (start ≤ b ∧ b < stop) := by
  obtain ⟨before, run, after, -, result, left, right, ends⟩ := revokePermission_parts start stop l
  rw [result] at g
  simp only [Grants.append] at g
  rcases g with (g | g) | g
  · exact untouched_clear left g
  · exact (cutRun_le ends g).2
  · exact untouched_clear right g

/-! ## Bounds -/

theorem Bounded.sub {l m : List Permission} (h : Bounded m) (sub : ∀ p ∈ l, p ∈ m) : Bounded l :=
  fun p member => h p (sub p member)

theorem Bounded.append {l m : List Permission} (hl : Bounded l) (hm : Bounded m) : Bounded (l ++ m) :=
  fun p member => (List.mem_append.mp member).elim (hl p) (hm p)

theorem Bounded.cons {p : Permission} {l : List Permission} (start : p.start ≤ intMax)
    (stop : p.stop ≤ intMax) (h : Bounded l) : Bounded (p :: l) := by
  intro q member
  rcases List.mem_cons.mp member with rfl | member
  · exact ⟨start, stop⟩
  · exact h q member

theorem Bounded.nil : Bounded [] := nofun

theorem fillGaps_bounded {lockNew} : ∀ {ws newEnd acc bound merged},
    fillGaps lockNew ws newEnd acc = some (bound, merged) →
    Bounded ws → newEnd ≤ intMax → Bounded acc → bound ≤ intMax ∧ Bounded merged := by
  intro ws
  induction ws with
  | nil =>
      intro newEnd acc bound merged h _ small smallAcc
      simp only [fillGaps, Option.some.injEq, Prod.mk.injEq] at h
      obtain ⟨rfl, rfl⟩ := h
      exact ⟨small, smallAcc⟩
  | cons w ws ih =>
      intro newEnd acc bound merged h smallWs small smallAcc
      simp only [fillGaps, Option.bind_eq_bind, Option.bind_eq_some_iff] at h
      obtain ⟨kept, locked, h⟩ := h
      obtain ⟨hs, he, -⟩ := lockIf_fields locked
      obtain ⟨smallStart, smallStop⟩ := smallWs w (by simp)
      refine ih h (smallWs.sub (fun _ => List.mem_cons_of_mem w)) smallStart (.cons ?_ ?_ (.cons smallStop small smallAcc))
      · rw [hs]; exact smallStart
      · rw [he]; exact smallStop

theorem fillFrom_bounded {lockNew ws newEnd bound merged}
    (h : fillFrom lockNew newEnd ws = some (bound, merged)) (smallWs : Bounded ws)
    (small : newEnd ≤ intMax) : bound ≤ intMax ∧ Bounded merged := by
  cases ws with
  | nil =>
      simp only [fillFrom, Option.some.injEq, Prod.mk.injEq] at h
      obtain ⟨rfl, rfl⟩ := h
      exact ⟨small, .nil⟩
  | cons w ws =>
      simp only [fillFrom] at h
      split at h
      · simp only [Option.bind_eq_bind, Option.bind_eq_some_iff] at h
        obtain ⟨kept, locked, h⟩ := h
        obtain ⟨hs, he, -⟩ := lockIf_fields locked
        obtain ⟨smallStart, smallStop⟩ := smallWs w (by simp)
        refine fillGaps_bounded h (smallWs.sub (fun _ => List.mem_cons_of_mem w)) smallStart (.cons ?_ ?_ .nil)
        · rw [hs]; exact smallStart
        · rw [he]; exact smallStop
      · exact fillGaps_bounded h smallWs small .nil

theorem mergeWrite_bounded {sc : Scan} {start stop : Nat} {lockNew : Bool}
    (small : Bounded (sc.first :: sc.run)) (smallStart : start ≤ intMax) (smallStop : stop ≤ intMax) :
    Bounded (mergeWrite sc start stop lockNew) := by
  obtain ⟨firstStart, firstStop⟩ := small sc.first (by simp)
  obtain ⟨-, lastStop⟩ := small sc.last sc.last_mem
  refine .append ?_ (.cons ?_ ?_ ?_)
  · simp only [Scan.sPermit]
    split
    · exact .cons firstStart smallStart .nil
    · exact .nil
  · exact (sc.writeStart_le start).trans smallStart
  · simp only [Scan.writeEnd]
    split <;> omega
  · simp only [Scan.ePermit]
    split
    · exact .cons smallStop firstStop .nil
    · exact .nil

theorem mergeRead_bounded {sc : Scan} {start stop : Nat} {lockNew : Bool} {merged}
    (done : mergeRead sc start stop lockNew = some merged) (small : Bounded (sc.first :: sc.run))
    (smallStart : start ≤ intMax) (smallStop : stop ≤ intMax) : Bounded merged := by
  have lower := (sc.readStart_le start).trans smallStart
  have upper := Scan.readEnd_le small smallStop
  unfold mergeRead at done
  split at done
  · obtain rfl := Option.some.inj done
    exact .cons lower upper .nil
  · simp only [Option.bind_eq_bind, Option.bind_eq_some_iff] at done
    obtain ⟨⟨bound, rest⟩, filled, done⟩ := done
    have smallWs : Bounded sc.writePermits.reverse :=
      small.sub (fun p member => (List.mem_filter.mp (List.mem_reverse.mp member)).1)
    obtain ⟨smallBound, smallRest⟩ := fillFrom_bounded filled smallWs upper
    split at done
    · obtain rfl := Option.some.inj done
      exact .cons lower smallBound smallRest
    · obtain rfl := Option.some.inj done
      exact smallRest

theorem addPermission_bounded {start stop write l lockNew l'}
    (done : addPermission start stop write l lockNew = some l') (small : Bounded l)
    (smallStart : start ≤ intMax) (smallStop : stop ≤ intMax) : Bounded l' := by
  unfold addPermission at done
  split at done
  · next sc h =>
      rw [← Scan.list_eq h] at small
      have smallBefore : Bounded sc.before := small.sub (by simp +contextual [Scan.list])
      have smallAfter : Bounded sc.after := small.sub (by simp +contextual [Scan.list])
      have smallRun : Bounded (sc.first :: sc.run) := by
        apply small.sub
        intro p member
        simp only [Scan.list, List.mem_append, List.mem_cons] at member ⊢
        tauto
      split at done
      · obtain rfl := Option.some.inj done
        exact .append (.append smallBefore (mergeWrite_bounded smallRun smallStart smallStop)) smallAfter
      · obtain ⟨merged, mergeDone, rfl⟩ := Option.map_eq_some_iff.mp done
        exact .append (.append smallBefore (mergeRead_bounded mergeDone smallRun smallStart smallStop))
          smallAfter
  · obtain rfl := Option.some.inj done
    exact .append (small.sub (fun p member => (List.rdropWhile_prefix _ _).subset member))
      (.cons smallStart smallStop (small.sub (fun p member => (List.rtakeWhile_suffix _ _).subset member)))

theorem cutRun_bounded {start stop : Nat} {l : List Permission} (small : Bounded l)
    (smallStart : start ≤ intMax) (smallStop : stop ≤ intMax) : Bounded (cutRun start stop l) := by
  match l with
  | [] => exact .nil
  | [p] =>
      obtain ⟨pStart, pStop⟩ := small p (by simp)
      simp only [cutRun, cutOne]
      refine .append ?_ ?_
      · split
        · exact .cons pStart smallStart .nil
        · exact .nil
      · split
        · exact .cons smallStop pStop .nil
        · exact .nil
  | p :: q :: rest =>
      have lastMem : rest.getLastD q ∈ q :: rest := by
        apply List.mem_of_getLast?
        simp [List.getLast?_cons]
      obtain ⟨pStart, -⟩ := small p (by simp)
      obtain ⟨-, lastStop⟩ := small _ (List.mem_cons_of_mem p lastMem)
      simp only [cutRun]
      refine .append ?_ ?_
      · split
        · exact .cons pStart smallStart .nil
        · exact .nil
      · split
        · exact .cons smallStop lastStop .nil
        · exact .nil

theorem revokePermission_bounded {start stop : Nat} {l : List Permission} (small : Bounded l)
    (smallStart : start ≤ intMax) (smallStop : stop ≤ intMax) :
    Bounded (revokePermission start stop l) := by
  obtain ⟨before, run, after, whole, result, -⟩ := revokePermission_parts start stop l
  rw [result]
  rw [whole] at small
  exact .append (.append (small.sub (by simp +contextual)) (cutRun_bounded (small.sub (by simp +contextual))
    smallStart smallStop)) (small.sub (by simp +contextual))

end PFS
