import PFS.Coverage

/-! # Ordered token lists

A list whose tokens lie one behind the other.  On such lists `revokePermission`
takes exactly its range and `addPermission` keeps what was held, unless it runs
into one of its two slips; `GrantClean` says that it does not.  Both keep the list
ordered.
-/

namespace PFS

/-- Each token ends before the next one starts. -/
structure Ordered (l : List Permission) : Prop where
  forward : ∀ p ∈ l, p.start ≤ p.stop
  apart : l.Pairwise (fun p q => p.stop ≤ q.start)

instance (l : List Permission) : Decidable (Ordered l) :=
  decidable_of_iff ((∀ p ∈ l, p.start ≤ p.stop) ∧ l.Pairwise (fun p q => p.stop ≤ q.start))
    ⟨fun h => ⟨h.1, h.2⟩, fun h => ⟨h.forward, h.apart⟩⟩

/-- The tokens a new range touches. -/
def touching (start stop : Nat) (l : List Permission) : List Permission :=
  l.filter (fun p => p.isInclusiveShared start stop)

/-- Adding the range does not meet a slip of `addPermission`.  It touches at most
    one token; or the list ends with tokens it touches and only the first of these
    starts inside the range; or the list goes on behind them and a write token is
    not added over the front of a read token. -/
def GrantClean (l : List Permission) (start stop : Nat) (write : Bool) : Prop :=
  (touching start stop l).length ≤ 1 ∨
    if l.getLast?.any (fun p => p.isInclusiveShared start stop) then ∀ p ∈ (touching start stop l).tail, stop ≤ p.start
    else (touching start stop l).getLast?.all (fun p => !write || p.write || decide (p.stop ≤ stop))

instance (l : List Permission) (start stop : Nat) (write : Bool) : Decidable (GrantClean l start stop write) :=
  inferInstanceAs (Decidable (_ ∨ ite _ _ _))

namespace Ordered

theorem nil : Ordered [] := ⟨nofun, List.Pairwise.nil⟩

theorem append_iff {l m : List Permission} :
    Ordered (l ++ m) ↔ Ordered l ∧ Ordered m ∧ ∀ p ∈ l, ∀ q ∈ m, p.stop ≤ q.start := by
  constructor
  · intro h
    obtain ⟨left, right, across⟩ := List.pairwise_append.mp h.apart
    exact ⟨⟨fun p member => h.forward p (List.mem_append_left _ member), left⟩,
      ⟨fun p member => h.forward p (List.mem_append_right _ member), right⟩, across⟩
  · rintro ⟨left, right, across⟩
    refine ⟨?_, List.pairwise_append.mpr ⟨left.apart, right.apart, across⟩⟩
    intro p member
    exact (List.mem_append.mp member).elim (left.forward p) (right.forward p)

theorem cons_iff {p : Permission} {l : List Permission} :
    Ordered (p :: l) ↔ p.start ≤ p.stop ∧ (∀ q ∈ l, p.stop ≤ q.start) ∧ Ordered l := by
  constructor
  · intro h
    obtain ⟨first, rest⟩ := List.pairwise_cons.mp h.apart
    exact ⟨h.forward p List.mem_cons_self, first, fun q member => h.forward q (List.mem_cons_of_mem _ member), rest⟩
  · rintro ⟨forward, first, rest⟩
    refine ⟨?_, List.pairwise_cons.mpr ⟨first, rest.apart⟩⟩
    intro q member
    rcases List.mem_cons.mp member with rfl | member
    · exact forward
    · exact rest.forward q member

theorem sublist {l m : List Permission} (h : Ordered m) (sub : l.Sublist m) : Ordered l :=
  ⟨fun p member => h.forward p (sub.subset member), h.apart.sublist sub⟩

end Ordered

/-- An ordered list between two positions. -/
structure Fits (low high : Nat) (l : List Permission) : Prop where
  ordered : Ordered l
  inside : ∀ p ∈ l, low ≤ p.start ∧ p.stop ≤ high

namespace Fits

variable {low high : Nat} {l m : List Permission}

theorem nil : Fits low high [] := ⟨Ordered.nil, nofun⟩

theorem cons {p : Permission} {mid : Nat} (start : low ≤ p.start) (forward : p.start ≤ p.stop) (next : p.stop ≤ mid)
    (bound : mid ≤ high) (h : Fits mid high l) : Fits low high (p :: l) where
  ordered := Ordered.cons_iff.mpr ⟨forward, fun q member => next.trans (h.inside q member).1, h.ordered⟩
  inside q member := by
    rcases List.mem_cons.mp member with rfl | member
    · exact ⟨start, next.trans bound⟩
    · have inside := h.inside q member
      omega

/-- A middle part is replaced by one that stays between its neighbours. -/
theorem sandwich {before after : List Permission} (h : Fits low high l) (front : Ordered before)
    (back : Ordered after) (lower : ∀ p ∈ before, p.stop ≤ low) (upper : ∀ p ∈ after, high ≤ p.start)
    (apart : ∀ p ∈ before, ∀ q ∈ after, p.stop ≤ q.start) : Ordered (before ++ l ++ after) := by
  apply Ordered.append_iff.mpr
  refine ⟨Ordered.append_iff.mpr ⟨front, h.ordered, ?_⟩, back, ?_⟩
  · intro p left q right
    exact (lower p left).trans (h.inside q right).1
  · intro p left q right
    rcases List.mem_append.mp left with left | left
    · exact apart p left q right
    · exact (h.inside p left).2.trans (upper q right)

end Fits

/-! ## The scan of an ordered list -/

/-- What the loops at the head of `addPermission` find in an ordered list when
    no slip happens. -/
structure CleanScan (start stop : Nat) (write : Bool) (l : List Permission) (sc : Scan) : Prop where
  list : sc.before ++ (sc.first :: sc.run) ++ sc.after = l
  before : ∀ p ∈ sc.before, p.stop < start
  touched : ∀ p ∈ sc.first :: sc.run, p.start ≤ stop ∧ start ≤ p.stop
  after : ∀ p ∈ sc.after, stop ≤ p.start
  tail : write = true → sc.last.write = false → stop < sc.last.stop → sc.run = []

theorem untouched_iff {p : Permission} {start stop : Nat} :
    p.isInclusiveShared start stop = false ↔ stop < p.start ∨ p.stop < start := by
  rw [← Bool.not_eq_true, Permission.isInclusiveShared_iff]
  omega

theorem touching_append (start stop : Nat) (l m : List Permission) :
    touching start stop (l ++ m) = touching start stop l ++ touching start stop m := List.filter_append _ _

theorem touching_all {start stop : Nat} {l : List Permission} (all : ∀ p ∈ l, p.isInclusiveShared start stop = true) :
    touching start stop l = l := List.filter_eq_self.mpr all

theorem touching_none {start stop : Nat} {l : List Permission} (none : ∀ p ∈ l, p.isInclusiveShared start stop = false) :
    touching start stop l = [] := by
  apply List.filter_eq_nil_iff.mpr
  intro p member
  simp [none p member]

/-- Behind an untouched token that follows a touched one, nothing is touched. -/
theorem Ordered.after_untouched {start stop : Nat} {first p : Permission} {rest : List Permission}
    (ordered : Ordered (first :: rest)) (touched : start ≤ first.stop) (member : p ∈ rest)
    (untouched : p.isInclusiveShared start stop = false) : stop < p.start := by
  obtain ⟨-, behind, tail⟩ := Ordered.cons_iff.mp ordered
  have next := behind p member
  have forward := tail.forward p member
  rcases untouched_iff.mp untouched with above | below
  · exact above
  · omega

/-- The run is the touched part of what the scan has in front of it. -/
theorem scan_parts {start stop : Nat} {l : List Permission} {sc : Scan} (h : scan start stop l = some sc) :
    (sc.run = [] ∧ ∀ p ∈ sc.after, p.isInclusiveShared start stop = true) ∨
      ∃ p rest, sc.after = p :: rest ∧ p.isInclusiveShared start stop = false := by
  unfold scan at h
  split at h
  · cases h
  · next first rest found =>
      obtain rfl := Option.some.inj h
      by_cases all : rest.all (fun p => p.isInclusiveShared start stop) = true
      · left
        simp only [all, if_true, List.length_nil, List.drop_zero, true_and]
        exact fun p member => List.all_eq_true.mp all p member
      · right
        simp only [if_neg all]
        have cut : rest.drop (rest.takeWhile (fun p => p.isInclusiveShared start stop)).length =
            rest.dropWhile (fun p => p.isInclusiveShared start stop) := by
          have behind : (rest.takeWhile (fun p => p.isInclusiveShared start stop) ++
              rest.dropWhile (fun p => p.isInclusiveShared start stop)).drop
                (rest.takeWhile (fun p => p.isInclusiveShared start stop)).length =
              rest.dropWhile (fun p => p.isInclusiveShared start stop) := List.drop_left
          rwa [List.takeWhile_append_dropWhile] at behind
        rw [cut]
        cases tail : rest.dropWhile (fun p => p.isInclusiveShared start stop) with
        | nil =>
            have := List.dropWhile_eq_nil_iff.mp tail
            exact (all (List.all_eq_true.mpr this)).elim
        | cons p more =>
            refine ⟨p, more, rfl, ?_⟩
            have nonempty : rest.dropWhile (fun p => p.isInclusiveShared start stop) ≠ [] := by simp [tail]
            have := List.head_dropWhile_not (fun p : Permission => p.isInclusiveShared start stop) nonempty
            simpa [tail] using this

theorem Scan.split {start stop : Nat} {l : List Permission} {sc : Scan} (h : scan start stop l = some sc) :
    sc.before ++ (sc.first :: sc.run) ++ sc.after = l := by
  rw [List.append_assoc, List.cons_append]
  exact Scan.list_eq h

/-- Of an ordered list, what the scan leaves in front ends before the range. -/
theorem Ordered.scan_before {start stop : Nat} {l : List Permission} {sc : Scan} (ordered : Ordered l)
    (h : scan start stop l = some sc) : ∀ p ∈ sc.before, p.stop < start := by
  have list := Scan.split h
  have front := Scan.before_untouched h
  obtain ⟨firstStart, firstStop⟩ := Scan.touched h sc.first List.mem_cons_self
  intro p member
  have forward := ordered.forward p (by rw [← list]; simp [member])
  rw [← list, List.append_assoc] at ordered
  have next := (Ordered.append_iff.mp ordered).2.2 p member sc.first (by simp)
  rcases untouched_iff.mp (front p member) with above | below
  · omega
  · exact below

/-- The touched tokens of an ordered list are the run; when the list ends with
    touched tokens, they are the first one and all that follows it. -/
theorem Ordered.scan_touching {start stop : Nat} {l : List Permission} {sc : Scan} (ordered : Ordered l)
    (h : scan start stop l = some sc) :
    (sc.run = [] ∧ touching start stop l = sc.first :: sc.after ∧
      l.getLast?.any (fun p => p.isInclusiveShared start stop) = true) ∨
    (touching start stop l = sc.first :: sc.run ∧ (∀ p ∈ sc.after, stop < p.start) ∧
      l.getLast?.any (fun p => p.isInclusiveShared start stop) = false) := by
  have list := Scan.split h
  have touched := Scan.touched h
  have around : touching start stop l = (sc.first :: sc.run) ++ touching start stop sc.after := by
    rw [← list, touching_append, touching_append, touching_none (Scan.before_untouched h), List.nil_append]
    rw [touching_all]
    intro p member
    exact Permission.isInclusiveShared_iff.mpr (touched p member)
  rcases scan_parts h with ⟨noRun, all⟩ | ⟨q, more, cut, untouched⟩
  · left
    rw [noRun, touching_all all] at around
    refine ⟨noRun, around, ?_⟩
    obtain ⟨p, isLast⟩ : ∃ p, (sc.first :: sc.after).getLast? = some p := by simp [List.getLast?_cons]
    have whole : l.getLast? = some p := by
      rw [← list, noRun, List.append_assoc, List.getLast?_append, List.singleton_append, isLast]
      rfl
    rw [whole]
    rcases List.mem_cons.mp (List.mem_of_getLast? isLast) with rfl | member
    · exact Scan.first_touched h
    · exact all p member
  · right
    rw [← list, List.append_assoc, List.cons_append] at ordered
    have middle := (Ordered.append_iff.mp ordered).2.1
    have tailOrdered := (Ordered.append_iff.mp (Ordered.cons_iff.mp middle).2.2).2.1
    have above : stop < q.start :=
      middle.after_untouched (touched sc.first List.mem_cons_self).2
        (List.mem_append_right _ (by rw [cut]; exact List.mem_cons_self)) untouched
    have behind : ∀ p ∈ sc.after, stop < p.start := by
      intro p member
      rw [cut] at member tailOrdered
      rcases List.mem_cons.mp member with rfl | member
      · exact above
      · obtain ⟨forward, next, -⟩ := Ordered.cons_iff.mp tailOrdered
        have := next p member
        omega
    have clear : ∀ p ∈ sc.after, p.isInclusiveShared start stop = false :=
      fun p member => untouched_iff.mpr (.inl (behind p member))
    rw [touching_none clear, List.append_nil] at around
    refine ⟨around, behind, ?_⟩
    obtain ⟨p, isLast⟩ : ∃ p, sc.after.getLast? = some p := by rw [cut]; simp [List.getLast?_cons]
    have whole : l.getLast? = some p := by
      rw [← list, List.getLast?_append, isLast]
      rfl
    rw [whole]
    exact clear p (List.mem_of_getLast? isLast)

theorem Scan.getLast?_run (sc : Scan) : (sc.first :: sc.run).getLast? = some sc.last := by
  rw [Scan.last, List.getLast?_cons]
  cases sc.run using List.reverseRecOn with
  | nil => rfl
  | append_singleton xs x _ => simp

theorem cleanScan {start stop : Nat} {write : Bool} {l : List Permission} {sc : Scan} (ordered : Ordered l)
    (clean : GrantClean l start stop write) (h : scan start stop l = some sc) : CleanScan start stop write l sc := by
  have list := Scan.split h
  have touched := Scan.touched h
  have before := ordered.scan_before h
  rcases ordered.scan_touching h with ⟨noRun, tokens, ends⟩ | ⟨tokens, behind, goesOn⟩
  · refine ⟨list, before, touched, ?_, fun _ _ _ => noRun⟩
    intro p member
    rcases clean with short | clean
    · rw [tokens, List.length_cons] at short
      have empty : sc.after = [] := List.length_eq_zero_iff.mp (by omega)
      rw [empty] at member
      cases member
    · rw [if_pos ends, tokens] at clean
      exact clean p member
  · refine ⟨list, before, touched, fun p member => Nat.le_of_lt (behind p member), ?_⟩
    intro writes reads far
    rcases clean with short | clean
    · rw [tokens, List.length_cons] at short
      exact List.length_eq_zero_iff.mp (by omega)
    · rw [goesOn, if_neg Bool.false_ne_true, tokens, sc.getLast?_run] at clean
      simp only [Option.all_some, writes, reads, Bool.not_true, Bool.false_or, decide_eq_true_eq] at clean
      omega

namespace Scan

variable {start stop : Nat} {sc : Scan}

/-- Of an ordered run, only the first token starts in front of the range. -/
theorem first_start_le (run : Ordered (sc.first :: sc.run)) (touched : start ≤ sc.first.stop) {p : Permission}
    (member : p ∈ sc.first :: sc.run) : sc.first.start ≤ p.start ∧ (p = sc.first ∨ start ≤ p.start) := by
  obtain ⟨forward, behind, -⟩ := Ordered.cons_iff.mp run
  rcases List.mem_cons.mp member with rfl | member
  · exact ⟨Nat.le_refl _, .inl rfl⟩
  · have next := behind p member
    exact ⟨by omega, .inr (by omega)⟩

/-- And only the last one ends behind it. -/
theorem stop_le_last (run : Ordered (sc.first :: sc.run)) (touched : sc.last.start ≤ stop) {p : Permission}
    (member : p ∈ sc.first :: sc.run) : p.stop ≤ sc.last.stop ∧ (p = sc.last ∨ p.stop ≤ stop) := by
  have forward := run.forward sc.last sc.last_mem
  obtain ⟨init, cut⟩ := List.getLast?_eq_some_iff.mp sc.getLast?_run
  rw [cut] at member run
  rcases List.mem_append.mp member with member | member
  · have next := (Ordered.append_iff.mp run).2.2 p member sc.last (List.mem_singleton_self _)
    exact ⟨by omega, .inr (by omega)⟩
  · rw [List.mem_singleton.mp member]
    exact ⟨Nat.le_refl _, .inl rfl⟩

end Scan

/-- The tokens the scan takes out of an ordered list. -/
theorem Ordered.scan_run {start stop : Nat} {l : List Permission} {sc : Scan} (ordered : Ordered l)
    (found : scan start stop l = some sc) : Ordered (sc.first :: sc.run) := by
  rw [← Scan.split found, List.append_assoc] at ordered
  exact (Ordered.append_iff.mp (Ordered.append_iff.mp ordered).2.1).1

/-- Nothing of the run is lost, unless a read token that reaches beyond the range is
    cut at the end of another one. -/
theorem Scan.mergeWrite_keeps {start stop : Nat} {sc : Scan} (run : Ordered (sc.first :: sc.run))
    (range : start ≤ stop) (touched : ∀ p ∈ sc.first :: sc.run, p.start ≤ stop ∧ start ≤ p.stop)
    (tail : sc.last.write = false → stop < sc.last.stop → sc.run = []) {lockNew m : Bool} {b : Nat}
    (g : Grants (sc.first :: sc.run) m b) : Grants (mergeWrite sc start stop lockNew) m b := by
  have firstTouched := (touched sc.first List.mem_cons_self).2
  have lastTouched := (touched sc.last sc.last_mem).1
  obtain ⟨p, member, mode, low, high⟩ := g
  have lower := sc.writeStart_le start
  have upper := sc.le_writeEnd stop
  by_cases below : b < start
  · obtain rfl : p = sc.first := (Scan.first_start_le run firstTouched member).2.resolve_right (by omega)
    cases writes : sc.first.write with
    | true =>
        simp only [mergeWrite, Grants.append, Grants.cons, Permission.Covers]
        simp only [Scan.writeStart, writes, if_true]
        exact .inr (.inl ⟨fun _ => trivial, by omega, by omega⟩)
    | false =>
        have reading : m = false := by
          cases m with
          | false => rfl
          | true => rw [writes] at mode; exact (mode rfl).symm
        subst reading
        simp only [mergeWrite, Grants.append, Scan.sPermit, writes]
        left
        rw [if_pos (by simp; omega)]
        exact Grants.cons.mpr (.inl ⟨Not.elim Bool.false_ne_true, low, below⟩)
  · by_cases above : b < stop
    · exact mergeWrite_ge sc lockNew m (by omega) above
    · obtain rfl : p = sc.last := (Scan.stop_le_last run lastTouched member).2.resolve_right (by omega)
      cases writes : sc.last.write with
      | true =>
          simp only [mergeWrite, Grants.append, Grants.cons, Permission.Covers]
          simp only [Scan.writeEnd, writes, if_true]
          exact .inr (.inl ⟨fun _ => trivial, by omega, by omega⟩)
      | false =>
          have reading : m = false := by
            cases m with
            | false => rfl
            | true => rw [writes] at mode; exact (mode rfl).symm
          subst reading
          have noRun := tail writes (by omega)
          have same : sc.last = sc.first := by rw [Scan.last, noRun]; rfl
          simp only [mergeWrite, Grants.append, Grants.cons, Scan.ePermit, writes]
          right; right
          rw [if_pos (by simp; omega)]
          rw [same] at high
          exact Grants.cons.mpr (.inl ⟨Not.elim Bool.false_ne_true, by simp only; omega, high⟩)

namespace CleanScan

variable {start stop : Nat} {write : Bool} {l : List Permission} {sc : Scan}

theorem run_ordered (h : CleanScan start stop write l sc) (ordered : Ordered l) : Ordered (sc.first :: sc.run) := by
  rw [← h.list, List.append_assoc] at ordered
  exact (Ordered.append_iff.mp (Ordered.append_iff.mp ordered).2.1).1

/-- The neighbours of the run leave it the space up to where they start. -/
theorem replace (h : CleanScan start stop write l sc) (ordered : Ordered l) {merged : List Permission}
    (fits : Fits (min sc.first.start start) (max sc.last.stop stop) merged) :
    Ordered (sc.before ++ merged ++ sc.after) := by
  rw [← h.list, List.append_assoc] at ordered
  obtain ⟨front, middle, early⟩ := Ordered.append_iff.mp ordered
  obtain ⟨-, back, late⟩ := Ordered.append_iff.mp middle
  refine fits.sandwich front back ?_ ?_ ?_
  · intro p member
    have := h.before p member
    have := early p member sc.first (by simp)
    omega
  · intro p member
    have := h.after p member
    have := late sc.last sc.last_mem p member
    omega
  · intro p member q later
    exact early p member q (List.mem_append_right _ later)

/-! ## Adding a write token -/

theorem mergeWrite_fits (h : CleanScan start stop true l sc) (ordered : Ordered l) (range : start ≤ stop)
    (lockNew : Bool) : Fits (min sc.first.start start) (max sc.last.stop stop) (mergeWrite sc start stop lockNew) := by
  have run := h.run_ordered ordered
  have firstForward := run.forward sc.first List.mem_cons_self
  have lastForward := run.forward sc.last sc.last_mem
  obtain ⟨firstStart, firstStop⟩ := h.touched sc.first List.mem_cons_self
  obtain ⟨lastStart, lastStop⟩ := h.touched sc.last sc.last_mem
  have tail : Fits (sc.writeEnd stop) (max sc.last.stop stop) (sc.ePermit stop) := by
    cases writes : sc.last.write with
    | true =>
        simp only [Scan.ePermit, writes, Bool.not_true, Bool.false_and, Bool.false_eq_true, if_false]
        exact .nil
    | false =>
        simp only [Scan.ePermit, Scan.writeEnd, writes, Bool.not_false, Bool.true_and, decide_eq_true_eq,
          Bool.false_eq_true, if_false]
        split
        · next far =>
            have same : sc.last = sc.first := by rw [Scan.last, h.tail rfl writes far]; rfl
            rw [same] at far ⊢
            exact .cons (Nat.le_refl _) (by simp only; omega) (by simp only; omega) (Nat.le_refl _) .nil
        · exact .nil
  have upper := sc.le_writeEnd stop
  have top : sc.writeEnd stop ≤ max sc.last.stop stop := by
    unfold Scan.writeEnd
    split <;> omega
  have lower := sc.writeStart_le start
  have middle : Fits (sc.writeStart start) (max sc.last.stop stop)
      (⟨sc.writeStart start, sc.writeEnd stop, true, lockNew, []⟩ :: sc.ePermit stop) :=
    .cons (Nat.le_refl _) (by simp only; omega) (Nat.le_refl _) top tail
  rw [mergeWrite]
  cases writes : sc.first.write with
  | true =>
      simp only [Scan.sPermit, writes, Bool.not_true, Bool.false_and, Bool.false_eq_true, if_false, List.nil_append]
      refine ⟨middle.ordered, fun p member => ?_⟩
      have inside := middle.inside p member
      simp only [Scan.writeStart, writes, if_true] at inside
      omega
  | false =>
      have same : sc.writeStart start = start := by simp [Scan.writeStart, writes]
      rw [same] at middle ⊢
      simp only [Scan.sPermit, writes, Bool.not_false, Bool.true_and, decide_eq_true_eq]
      split
      · next early =>
          exact .cons (by simp only; omega) (by simp only; omega) (Nat.le_refl start) (by omega) middle
      · refine ⟨middle.ordered, fun p member => ?_⟩
        have inside := middle.inside p member
        omega

/-! ## Adding a read token -/

/-- The write tokens of the run are kept. -/
theorem mergeRead_writes {lockNew : Bool} {merged : List Permission}
    (done : mergeRead sc start stop lockNew = some merged) {p : Permission} (member : p ∈ sc.first :: sc.run)
    (writes : p.write = true) {m : Bool} {b : Nat} (covers : p.Covers b) : Grants merged m b := by
  have kept : p ∈ sc.writePermits := List.mem_filter.mpr ⟨member, writes⟩
  unfold mergeRead at done
  split at done
  · next none =>
      rw [List.isEmpty_iff.mp none] at kept
      cases kept
  · simp only [Option.bind_eq_bind, Option.bind_eq_some_iff] at done
    obtain ⟨⟨bound, rest⟩, filled, done⟩ := done
    have here : Grants rest m b :=
      (fillFrom_ge filled).1 m b ⟨p, List.mem_reverse.mpr kept, fun _ => writes, covers⟩
    split at done
    · obtain rfl := Option.some.inj done
      exact Grants.cons.mpr (.inr here)
    · obtain rfl := Option.some.inj done
      exact here

end CleanScan

theorem Scan.mergeRead_keeps {start stop : Nat} {l : List Permission} {sc : Scan} (run : Ordered (sc.first :: sc.run))
    (smallStop : stop ≤ intMax) {lockNew : Bool} {merged : List Permission}
    (found : scan start stop l = some sc) (done : mergeRead sc start stop lockNew = some merged) {m : Bool} {b : Nat}
    (g : Grants (sc.first :: sc.run) m b) : Grants merged m b := by
  have firstTouched := (Scan.touched found sc.first List.mem_cons_self).2
  have lastTouched := (Scan.touched found sc.last sc.last_mem).1
  obtain ⟨p, member, mode, low, high⟩ := g
  cases writes : p.write with
  | true => exact CleanScan.mergeRead_writes done member writes ⟨low, high⟩
  | false =>
      have reading : m = false := by
        cases m with
        | false => rfl
        | true => rw [writes] at mode; exact (mode rfl).symm
      subst reading
      apply mergeRead_ge found done smallStop
      · by_cases below : b < start
        · obtain rfl : p = sc.first := (Scan.first_start_le run firstTouched member).2.resolve_right (by omega)
          simp only [Scan.readStart, writes, Bool.not_false, Bool.true_and, decide_eq_true_eq]
          split <;> omega
        · exact (sc.readStart_le start).trans (by omega)
      · by_cases above : b < stop
        · exact above.trans_le (sc.le_readEnd stop)
        · obtain rfl : p = sc.last := (Scan.stop_le_last run lastTouched member).2.resolve_right (by omega)
          simp only [Scan.readEnd, writes, Bool.not_false, Bool.true_and, decide_eq_true_eq]
          split <;> omega

/-- The write tokens go back one behind the other, with read tokens between
    them; `ws` has them from the last to the first. -/
theorem fillGaps_fits {lockNew : Bool} {low high : Nat} : ∀ {ws newEnd acc bound merged},
    fillGaps lockNew ws newEnd acc = some (bound, merged) → Ordered ws.reverse →
    (∀ w ∈ ws, low ≤ w.start ∧ w.stop ≤ newEnd) → low ≤ newEnd → newEnd ≤ high → Fits newEnd high acc →
    low ≤ bound ∧ bound ≤ newEnd ∧ Fits bound high merged := by
  intro ws
  induction ws with
  | nil =>
      intro newEnd acc bound merged done _ _ lower _ fits
      simp only [fillGaps, Option.some.injEq, Prod.mk.injEq] at done
      obtain ⟨rfl, rfl⟩ := done
      exact ⟨lower, Nat.le_refl _, fits⟩
  | cons w rest ih =>
      intro newEnd acc bound merged done ordered inside lower upper fits
      simp only [fillGaps, Option.bind_eq_bind, Option.bind_eq_some_iff] at done
      obtain ⟨kept, locked, done⟩ := done
      obtain ⟨startEq, stopEq, -⟩ := lockIf_fields locked
      rw [List.reverse_cons] at ordered
      obtain ⟨restOrdered, single, apart⟩ := Ordered.append_iff.mp ordered
      have forward := single.forward w (List.mem_singleton_self w)
      obtain ⟨wLow, wHigh⟩ := inside w List.mem_cons_self
      have gap : Fits w.stop high (⟨w.stop, newEnd, false, lockNew, []⟩ :: acc) :=
        .cons (Nat.le_refl _) wHigh (Nat.le_refl newEnd) upper fits
      have fits' : Fits w.start high (kept :: ⟨w.stop, newEnd, false, lockNew, []⟩ :: acc) :=
        .cons (by omega) (by omega) (by rw [stopEq]) (by omega) gap
      obtain ⟨lower', upper', done'⟩ := ih done restOrdered
        (fun v member => ⟨(inside v (List.mem_cons_of_mem _ member)).1,
          apart v (List.mem_reverse.mpr member) w (List.mem_singleton_self w)⟩) wLow (by omega) fits'
      exact ⟨lower', by omega, done'⟩

theorem fillFrom_fits {lockNew : Bool} (low high : Nat) {newEnd bound : Nat} {ws merged : List Permission}
    (done : fillFrom lockNew newEnd ws = some (bound, merged)) (ordered : Ordered ws.reverse)
    (inside : ∀ w ∈ ws, low ≤ w.start ∧ w.start ≤ newEnd ∧ w.stop ≤ high) (lower : low ≤ newEnd) (upper : newEnd ≤ high) :
    low ≤ bound ∧ bound ≤ newEnd ∧ Fits bound high merged := by
  cases ws with
  | nil =>
      simp only [fillFrom, Option.some.injEq, Prod.mk.injEq] at done
      obtain ⟨rfl, rfl⟩ := done
      exact ⟨lower, Nat.le_refl _, .nil⟩
  | cons w rest =>
      have ordered' := ordered
      rw [List.reverse_cons] at ordered'
      obtain ⟨restOrdered, single, apart⟩ := Ordered.append_iff.mp ordered'
      have forward := single.forward w (List.mem_singleton_self w)
      obtain ⟨wLow, wMid, wHigh⟩ := inside w List.mem_cons_self
      have below : ∀ v ∈ rest, v.stop ≤ w.start := fun v member =>
        apart v (List.mem_reverse.mpr member) w (List.mem_singleton_self w)
      simp only [fillFrom] at done
      split at done
      · simp only [Option.bind_eq_bind, Option.bind_eq_some_iff] at done
        obtain ⟨kept, locked, done⟩ := done
        obtain ⟨startEq, stopEq, -⟩ := lockIf_fields locked
        have alone : Fits w.start high [kept] :=
          .cons (by omega) (by omega) (by rw [stopEq]) wHigh .nil
        obtain ⟨lower', upper', fits⟩ := fillGaps_fits done restOrdered
          (fun v member => ⟨(inside v (List.mem_cons_of_mem _ member)).1, below v member⟩) wLow (by omega) alone
        exact ⟨lower', by omega, fits⟩
      · next short =>
          refine fillGaps_fits done ordered (fun v member => ?_) lower upper .nil
          refine ⟨(inside v member).1, ?_⟩
          rcases List.mem_cons.mp member with rfl | member
          · omega
          · have := below v member
            omega

namespace CleanScan

variable {start stop : Nat} {write : Bool} {l : List Permission} {sc : Scan}

theorem mergeRead_fits (h : CleanScan start stop write l sc) (ordered : Ordered l)
    (smallStop : stop ≤ intMax) (range : start ≤ stop) {lockNew : Bool} {merged : List Permission}
    (found : scan start stop l = some sc) (done : mergeRead sc start stop lockNew = some merged) :
    Fits (min sc.first.start start) (max sc.last.stop stop) merged := by
  have run := h.run_ordered ordered
  have lower := sc.readStart_le start
  have upper := sc.le_readEnd stop
  have top : sc.readEnd stop ≤ max sc.last.stop stop := by
    unfold Scan.readEnd
    split <;> omega
  have bottom : min sc.first.start start ≤ sc.readStart start := by
    unfold Scan.readStart
    split <;> omega
  unfold mergeRead at done
  split at done
  · obtain rfl := Option.some.inj done
    exact .cons bottom (by simp only; omega) (Nat.le_refl _) top .nil
  · next nonempty =>
      simp only [Option.bind_eq_bind, Option.bind_eq_some_iff] at done
      obtain ⟨⟨bound, rest⟩, filled, done⟩ := done
      have writes : Ordered sc.writePermits.reverse.reverse := by
        rw [List.reverse_reverse]
        exact run.sublist List.filter_sublist
      obtain ⟨boundLow, boundHigh, fits⟩ := fillFrom_fits (min sc.first.start start)
        (max sc.last.stop stop) filled writes (by
          intro w member
          have inside := (List.mem_filter.mp (List.mem_reverse.mp member)).1
          have := (Scan.first_start_le run (h.touched sc.first List.mem_cons_self).2 inside).1
          have := (Scan.stop_le_last run (h.touched sc.last sc.last_mem).1 inside).1
          have := h.touched w inside
          omega) (by omega) top
      have boundSmall := fillFrom_bound_le found filled nonempty
      split at done
      · next front =>
          obtain rfl := Option.some.inj done
          simp only at front
          rw [asInt_of_le (by omega), asInt_of_le (by omega)] at front
          exact .cons bottom (by simp only; omega) (Nat.le_refl bound) (by omega) fits
      · obtain rfl := Option.some.inj done
        refine ⟨fits.ordered, fun p member => ?_⟩
        have inside := fits.inside p member
        omega

end CleanScan

/-! ## Adding a token -/

/-- Where the range touches nothing, the new token goes between those that end
    before it and those that start behind it. -/
theorem insertPermit_behind (permit : Permission) {l : List Permission}
    (clear : ∀ p ∈ l, permit.stop < p.start ∨ p.stop < permit.start) :
    ∀ p ∈ l.rtakeWhile (fun p => !decide (p.stop < permit.start)), permit.stop < p.start := by
  intro p member
  have here := List.mem_rtakeWhile_imp member
  simp only [Bool.not_eq_true', decide_eq_false_iff_not] at here
  exact (clear p ((List.rtakeWhile_suffix _ _).subset member)).resolve_right here

theorem insertPermit_before (permit : Permission) {l : List Permission} (ordered : Ordered l) :
    ∀ p ∈ l.rdropWhile (fun p => !decide (p.stop < permit.start)), p.stop ≤ permit.start := by
  intro p member
  have front : Ordered (l.rdropWhile (fun p => !decide (p.stop < permit.start))) :=
    ordered.sublist (List.rdropWhile_prefix _ _).sublist
  have nonempty := List.ne_nil_of_mem member
  have last := List.rdropWhile_last_not (fun p : Permission => !decide (p.stop < permit.start)) l nonempty
  simp only [Bool.not_eq_true', decide_eq_false_iff_not, not_not] at last
  have cut := List.dropLast_append_getLast nonempty
  rw [← cut] at front member
  obtain ⟨-, single, early⟩ := Ordered.append_iff.mp front
  rcases List.mem_append.mp member with member | member
  · have := early p member _ (List.mem_singleton_self _)
    have := single.forward _ (List.mem_singleton_self _)
    omega
  · rw [List.mem_singleton.mp member]
    omega

theorem insertPermit_ordered {permit : Permission} {l : List Permission} (ordered : Ordered l)
    (range : permit.start ≤ permit.stop) (clear : ∀ p ∈ l, permit.stop < p.start ∨ p.stop < permit.start) :
    Ordered (insertPermit permit l) := by
  have before := insertPermit_before permit ordered
  have behind := insertPermit_behind permit clear
  rw [insertPermit]
  rw [← List.rdropWhile_append_rtakeWhile (p := fun p : Permission => !decide (p.stop < permit.start)) (l := l)] at ordered
  obtain ⟨front, back, apart⟩ := Ordered.append_iff.mp ordered
  have alone : Fits permit.start permit.stop [permit] :=
    .cons (Nat.le_refl _) range (Nat.le_refl permit.stop) (Nat.le_refl _) .nil
  have result := alone.sandwich front back before (fun p member => Nat.le_of_lt (behind p member)) apart
  rwa [List.append_assoc] at result

theorem addPermission_ordered {start stop : Nat} {write lockNew : Bool} {l l' : List Permission} (ordered : Ordered l)
    (range : start ≤ stop) (smallStop : stop ≤ intMax) (clean : GrantClean l start stop write)
    (done : addPermission start stop write l lockNew = some l') : Ordered l' := by
  unfold addPermission at done
  split at done
  · next sc found =>
      have h := cleanScan ordered clean found
      split at done
      · next writes =>
          obtain rfl := Option.some.inj done
          subst writes
          exact h.replace ordered (h.mergeWrite_fits ordered range lockNew)
      · obtain ⟨merged, mergeDone, rfl⟩ := Option.map_eq_some_iff.mp done
        exact h.replace ordered (h.mergeRead_fits ordered smallStop range found mergeDone)
  · next found =>
      obtain rfl := Option.some.inj done
      apply insertPermit_ordered ordered range
      intro p member
      exact untouched_iff.mp (scan_none found p member)

/-- Nothing that was held is lost, unless a write token is added over several tokens
    and the last of them is a read token that reaches beyond it. -/
theorem addPermission_keeps_of_tail {start stop : Nat} {write lockNew : Bool} {l l' : List Permission}
    (ordered : Ordered l) (range : start ≤ stop) (smallStop : stop ≤ intMax)
    (tail : ∀ sc, scan start stop l = some sc → write = true → sc.last.write = false → stop < sc.last.stop → sc.run = [])
    (done : addPermission start stop write l lockNew = some l') {m : Bool} {b : Nat} (g : Grants l m b) :
    Grants l' m b := by
  unfold addPermission at done
  split at done
  · next sc found =>
      have run := ordered.scan_run found
      rw [← Scan.split found] at g
      simp only [Grants.append] at g
      split at done
      · next writes =>
          obtain rfl := Option.some.inj done
          simp only [Grants.append]
          rcases g with (g | g) | g
          · exact .inl (.inl g)
          · exact .inl (.inr (Scan.mergeWrite_keeps run range (Scan.touched found) (tail sc found writes) g))
          · exact .inr g
      · obtain ⟨merged, mergeDone, rfl⟩ := Option.map_eq_some_iff.mp done
        simp only [Grants.append]
        rcases g with (g | g) | g
        · exact .inl (.inl g)
        · exact .inl (.inr (Scan.mergeRead_keeps run smallStop found mergeDone g))
        · exact .inr g
  · obtain rfl := Option.some.inj done
    have whole := List.rdropWhile_append_rtakeWhile (p := fun p : Permission => !decide (p.stop < start)) (l := l)
    rw [← whole] at g
    simp only [insertPermit, Grants.append, Grants.cons] at g ⊢
    rcases g with g | g
    · exact .inl g
    · exact .inr (.inr g)

theorem addPermission_keeps {start stop : Nat} {write lockNew : Bool} {l l' : List Permission} (ordered : Ordered l)
    (range : start ≤ stop) (smallStop : stop ≤ intMax) (clean : GrantClean l start stop write)
    (done : addPermission start stop write l lockNew = some l') {m : Bool} {b : Nat} (g : Grants l m b) :
    Grants l' m b :=
  addPermission_keeps_of_tail ordered range smallStop (fun _ found => (cleanScan ordered clean found).tail) done g

/-! ## Revoking -/

/-- Of an ordered run, everything outside the range stays. -/
theorem cutRun_keeps {start stop : Nat} {l : List Permission} (ordered : Ordered l)
    (ends : ∀ p, l.head? = some p ∨ l.getLast? = some p → p.isShared start stop = true) {m : Bool} {b : Nat}
    (outside : ¬ (start ≤ b ∧ b < stop)) (g : Grants l m b) : Grants (cutRun start stop l) m b := by
  match l with
  | [] => exact (Grants.nil g).elim
  | [p] =>
      obtain ⟨q, member, mode, low, high⟩ := g
      obtain rfl := List.mem_singleton.mp member
      simp only [cutRun, cutOne, Grants.append]
      by_cases below : b < start
      · left
        rw [if_pos (by omega)]
        exact Grants.cons.mpr (.inl ⟨mode, low, below⟩)
      · right
        rw [if_pos (by omega)]
        exact Grants.cons.mpr (.inl ⟨mode, by simp only; omega, high⟩)
  | p :: q :: rest =>
      have lastEq : (p :: q :: rest).getLast? = some (rest.getLastD q) := by
        rw [List.getLast?_cons_cons, List.getLast?_cons, List.getLastD_eq_getLast?]
      obtain ⟨firstLow, firstHigh⟩ := Permission.isShared_iff.mp (ends p (.inl rfl))
      obtain ⟨lastLow, lastHigh⟩ := Permission.isShared_iff.mp (ends _ (.inr lastEq))
      obtain ⟨forward, behind, tail⟩ := Ordered.cons_iff.mp ordered
      obtain ⟨init, cut⟩ := List.getLast?_eq_some_iff.mp lastEq
      obtain ⟨x, member, mode, low, high⟩ := g
      simp only [cutRun, Grants.append]
      by_cases below : b < start
      · left
        have isFirst : x = p := by
          rcases List.mem_cons.mp member with same | member
          · exact same
          · have := behind x member
            omega
        subst isFirst
        rw [if_pos (by omega)]
        exact Grants.cons.mpr (.inl ⟨mode, low, below⟩)
      · right
        have isLast : x = rest.getLastD q := by
          rw [cut] at member ordered
          rcases List.mem_append.mp member with member | member
          · have := (Ordered.append_iff.mp ordered).2.2 x member _ (List.mem_singleton_self _)
            omega
          · exact List.mem_singleton.mp member
        subst isLast
        rw [if_pos (by omega)]
        exact Grants.cons.mpr (.inl ⟨mode, by simp only; omega, high⟩)

theorem revokePermission_keeps {start stop : Nat} {l : List Permission} (ordered : Ordered l) {m : Bool} {b : Nat}
    (outside : ¬ (start ≤ b ∧ b < stop)) (g : Grants l m b) : Grants (revokePermission start stop l) m b := by
  obtain ⟨before, run, after, whole, result, -, -, ends⟩ := revokePermission_parts start stop l
  rw [result]
  rw [whole] at g ordered
  simp only [Grants.append] at g ⊢
  rcases g with (g | g) | g
  · exact .inl (.inl g)
  · exact .inl (.inr (cutRun_keeps (Ordered.append_iff.mp (Ordered.append_iff.mp ordered).1).2.1 ends outside g))
  · exact .inr g

theorem cut_fits {start stop low high : Nat} {c d : Prop} [Decidable c] [Decidable d] {x y : Permission}
    (range : start ≤ stop) (front : c → low ≤ x.start ∧ x.start ≤ x.stop ∧ x.stop ≤ start ∧ x.stop ≤ high)
    (back : d → low ≤ y.start ∧ stop ≤ y.start ∧ y.start ≤ y.stop ∧ y.stop ≤ high) :
    Fits low high ((if c then [x] else []) ++ if d then [y] else []) := by
  have alone : d → Fits y.start high [y] := fun holds =>
    .cons (Nat.le_refl _) (back holds).2.2.1 (Nat.le_refl y.stop) (back holds).2.2.2 .nil
  by_cases hc : c
  · obtain ⟨lower, forward, below, upper⟩ := front hc
    by_cases hd : d
    · rw [if_pos hc, if_pos hd]
      have := back hd
      exact .cons lower forward (by omega) (by omega) (alone hd)
    · rw [if_pos hc, if_neg hd]
      exact .cons lower forward (Nat.le_refl x.stop) upper .nil
  · by_cases hd : d
    · rw [if_neg hc, if_pos hd]
      refine ⟨(alone hd).ordered, fun p member => ?_⟩
      obtain rfl := List.mem_singleton.mp member
      have := back hd
      omega
    · rw [if_neg hc, if_neg hd]
      exact .nil

theorem cutRun_fits {start stop low high : Nat} {l : List Permission} (ordered : Ordered l) (range : start ≤ stop)
    (ends : ∀ p, l.head? = some p ∨ l.getLast? = some p → p.isShared start stop = true)
    (inside : ∀ p ∈ l, low ≤ p.start ∧ p.stop ≤ high) : Fits low high (cutRun start stop l) := by
  match l with
  | [] => exact .nil
  | [p] =>
      obtain ⟨shareLow, shareHigh⟩ := Permission.isShared_iff.mp (ends p (.inl rfl))
      obtain ⟨pLow, pHigh⟩ := inside p (List.mem_singleton_self p)
      apply cut_fits range
      · intro early
        simp only
        omega
      · intro late
        simp only
        omega
  | p :: q :: rest =>
      have lastEq : (p :: q :: rest).getLast? = some (rest.getLastD q) := by
        rw [List.getLast?_cons_cons, List.getLast?_cons, List.getLastD_eq_getLast?]
      obtain ⟨firstLow, firstHigh⟩ := Permission.isShared_iff.mp (ends p (.inl rfl))
      obtain ⟨lastLow, lastHigh⟩ := Permission.isShared_iff.mp (ends _ (.inr lastEq))
      obtain ⟨pLow, pHigh⟩ := inside p List.mem_cons_self
      obtain ⟨zLow, zHigh⟩ := inside _ (List.mem_of_getLast? lastEq)
      apply cut_fits range
      · intro early
        simp only
        omega
      · intro late
        simp only
        omega

theorem revokePermission_ordered {start stop : Nat} {l : List Permission} (ordered : Ordered l) (range : start ≤ stop) :
    Ordered (revokePermission start stop l) := by
  obtain ⟨before, run, after, whole, result, -, -, ends⟩ := revokePermission_parts start stop l
  rw [result]
  rw [whole, List.append_assoc] at ordered
  obtain ⟨front, middle, early⟩ := Ordered.append_iff.mp ordered
  obtain ⟨runOrdered, back, late⟩ := Ordered.append_iff.mp middle
  cases run with
  | nil =>
      rw [cutRun, List.append_nil]
      exact Ordered.append_iff.mpr ⟨front, back, fun p left q right => early p left q right⟩
  | cons first rest =>
      obtain ⟨last, isLast⟩ : ∃ last, (first :: rest).getLast? = some last := by simp [List.getLast?_cons]
      obtain ⟨init, cut⟩ := List.getLast?_eq_some_iff.mp isLast
      have fits : Fits first.start last.stop (cutRun start stop (first :: rest)) := by
        apply cutRun_fits runOrdered range ends
        intro p member
        constructor
        · obtain ⟨forward, behind, -⟩ := Ordered.cons_iff.mp runOrdered
          rcases List.mem_cons.mp member with rfl | member
          · exact Nat.le_refl _
          · have := behind p member
            omega
        · rw [cut] at member runOrdered
          obtain ⟨-, single, apart⟩ := Ordered.append_iff.mp runOrdered
          rcases List.mem_append.mp member with member | member
          · have := apart p member last (List.mem_singleton_self _)
            have := single.forward last (List.mem_singleton_self _)
            omega
          · rw [List.mem_singleton.mp member]
      refine fits.sandwich front back ?_ ?_ ?_
      · exact fun p member => early p member first (by simp)
      · exact fun p member => late last (List.mem_of_getLast? isLast) p member
      · exact fun p left q right => early p left q (List.mem_append_right _ right)

/-! ## Looking tokens up -/

/-- Adjoining tokens have no gaps. -/
theorem adjoining_covers {m : Bool} {b : Nat} : ∀ {p : Permission} {rest : List Permission},
    adjoining (p :: rest) = true → (∀ q ∈ p :: rest, m = true → q.write = true) → p.start ≤ b →
    b < (rest.getLastD p).stop → Grants (p :: rest) m b := by
  intro p rest
  induction rest generalizing p with
  | nil =>
      intro _ mode low high
      exact ⟨p, List.mem_singleton_self p, mode p (List.mem_singleton_self p), low, high⟩
  | cons q rest ih =>
      intro joined mode low high
      simp only [adjoining, Bool.and_eq_true, decide_eq_true_eq] at joined
      by_cases here : b < p.stop
      · exact ⟨p, List.mem_cons_self, mode p List.mem_cons_self, low, here⟩
      · apply Grants.mono (fun x member => List.mem_cons_of_mem p member)
        refine ih joined.2 (fun x member => mode x (List.mem_cons_of_mem p member)) (by omega) ?_
        rwa [List.getLastD_cons] at high

/-- A list that has a permission covers it, ordered or not. -/
theorem hasPermission_covers {start stop : Nat} {write : Bool} {l : List Permission}
    (has : hasPermission start stop write l = true) {b : Nat} (low : start ≤ b) (high : b < stop) :
    Grants l write b := by
  unfold hasPermission at has
  split at has
  · cases has
  · split at has
    · cases has
    · cases has
    · next p rest found =>
        simp only [Bool.and_eq_true, decide_eq_true_eq] at has
        obtain ⟨⟨⟨startLow, stopHigh⟩, mode⟩, joined⟩ := has
        have part : ∀ x ∈ p :: rest, x ∈ l := by
          simp only [candidates, Option.map_eq_some_iff] at found
          obtain ⟨s, -, found⟩ := found
          intro x member
          rw [← found] at member
          split at member
          · exact List.mem_of_mem_drop (List.mem_of_mem_take member)
          · exact List.mem_of_mem_drop member
        apply Grants.mono part
        apply adjoining_covers joined
        · intro q member writes
          subst writes
          simp only [Bool.not_true, Bool.false_or, List.all_eq_true] at mode
          exact mode q member
        · omega
        · omega

end PFS
