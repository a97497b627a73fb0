import PFS.Config
import Mathlib.Data.List.DropRight

/-! # Tokens

A token (`Permission`) is a half-open byte range with a mode.  The lists of
tokens the metadata manager and the clients keep are plain lists of these
records; nothing in the code forces them to be sorted or disjoint, so the
coverage predicates here are stated for arbitrary lists.
-/

namespace PFS

/-- `class Permission`.  `stop` is the field `end` of the source; `locked`
    stands for the held `permitLock` together with the flag of that name. -/
structure Permission where
  start : Nat
  stop : Nat
  write : Bool
  locked : Bool := false
  waitingSemaphores : List Nat := []
  deriving DecidableEq, Repr

namespace Permission

def isShared (p : Permission) (s e : Nat) : Bool :=
  if e ≤ p.start then false
  else if s ≥ p.stop then false
  else true

def isInclusiveShared (p : Permission) (s e : Nat) : Bool :=
  if e < p.start then false
  else if s > p.stop then false
  else true

/-- `lock` takes `permitLock`, so on a token that is already locked the caller
    blocks: `none`. -/
def lock (p : Permission) : Option Permission :=
  if p.locked then none else some { p with locked := true }

/-- The waiting semaphores are posted, not removed. -/
def unlock (p : Permission) : Permission := { p with locked := false }

def addWaitingSemaphore (p : Permission) (sem : Nat) : Permission × Bool :=
  if p.locked then ({ p with waitingSemaphores := p.waitingSemaphores ++ [sem] }, true)
  else (p, false)

/-- The byte `b` lies in the range of `p`. -/
def Covers (p : Permission) (b : Nat) : Prop := p.start ≤ b ∧ b < p.stop

instance (p : Permission) (b : Nat) : Decidable (p.Covers b) :=
  inferInstanceAs (Decidable (_ ∧ _))

@[simp] theorem isShared_iff {p : Permission} {s e : Nat} :
    p.isShared s e = true ↔ p.start < e ∧ s < p.stop := by
  unfold isShared
  split
  · simp; omega
  · split
    · simp; omega
    · simp; omega

@[simp] theorem isInclusiveShared_iff {p : Permission} {s e : Nat} :
    p.isInclusiveShared s e = true ↔ p.start ≤ e ∧ s ≤ p.stop := by
  unfold isInclusiveShared
  split
  · simp; omega
  · split
    · simp; omega
    · simp; omega

/-- What the two tables of the system have in common: the token without its
    lock and its waiting list. -/
def bare (p : Permission) : Permission := ⟨p.start, p.stop, p.write, false, []⟩

@[simp] theorem bare_start (p : Permission) : p.bare.start = p.start := rfl
@[simp] theorem bare_stop (p : Permission) : p.bare.stop = p.stop := rfl
@[simp] theorem bare_write (p : Permission) : p.bare.write = p.write := rfl
@[simp] theorem bare_locked (p : Permission) : p.bare.locked = false := rfl
@[simp] theorem bare_bare (p : Permission) : p.bare.bare = p.bare := rfl

theorem lock_eq_some {p q : Permission} (h : p.lock = some q) : q = { p with locked := true } := by
  unfold lock at h
  split at h
  · cases h
  · exact (Option.some.inj h).symm

end Permission

/-- The list `l` holds a token on byte `b` that allows mode `w`: any token
    allows reading (`w = false`), only write tokens allow writing. -/
def Grants (l : List Permission) (w : Bool) (b : Nat) : Prop :=
  ∃ p ∈ l, (w = true → p.write = true) ∧ p.Covers b

instance (l : List Permission) (w : Bool) (b : Nat) : Decidable (Grants l w b) :=
  inferInstanceAs (Decidable (∃ p ∈ l, _))

namespace Grants

theorem read {l : List Permission} {w b} (h : Grants l w b) : Grants l false b := by
  obtain ⟨p, member, -, inside⟩ := h
  exact ⟨p, member, nofun, inside⟩

theorem mono {l m : List Permission} {w b} (sub : ∀ p ∈ l, p ∈ m) (h : Grants l w b) :
    Grants m w b := by
  obtain ⟨p, member, mode, inside⟩ := h
  exact ⟨p, sub p member, mode, inside⟩

@[simp] theorem nil {w b} : ¬ Grants [] w b := by
  rintro ⟨p, member, -⟩
  cases member

@[simp] theorem cons {p : Permission} {l : List Permission} {w b} :
    Grants (p :: l) w b ↔ ((w = true → p.write = true) ∧ p.Covers b) ∨ Grants l w b := by
  simp only [Grants, List.mem_cons, exists_eq_or_imp]

@[simp] theorem append {l m : List Permission} {w b} :
    Grants (l ++ m) w b ↔ Grants l w b ∨ Grants m w b := by
  simp only [Grants, List.mem_append, or_and_right, exists_or]

@[simp] theorem map_bare {l : List Permission} {w b} :
    Grants (l.map Permission.bare) w b ↔ Grants l w b := by
  induction l with
  | nil => simp
  | cons p l ih => simp [ih, Permission.Covers]

end Grants

/-- No byte is writable through one list and held at all through the other. -/
def Exclusive (l m : List Permission) : Prop :=
  ∀ b, (Grants l true b → ¬ Grants m false b) ∧ (Grants m true b → ¬ Grants l false b)

theorem Exclusive.symm {l m : List Permission} (h : Exclusive l m) : Exclusive m l :=
  fun b => ⟨(h b).2, (h b).1⟩

theorem Exclusive.left {l l' m : List Permission} (h : Exclusive l m)
    (sub : ∀ w b, Grants l' w b → Grants l w b) : Exclusive l' m :=
  fun b => ⟨fun hl => (h b).1 (sub true b hl), fun hm hl => (h b).2 hm (sub false b hl)⟩

theorem Exclusive.right {l m m' : List Permission} (h : Exclusive l m)
    (sub : ∀ w b, Grants m' w b → Grants m w b) : Exclusive l m' :=
  (h.symm.left sub).symm

/-- Some token of `l` stands in the way of mode `w` on `[start, stop)`; the test
    `waitAndGetPermissionFor` makes before it revokes. -/
def Conflicts (l : List Permission) (start stop : Nat) (w : Bool) : Prop :=
  ∃ p ∈ l, (p.write = true ∨ w = true) ∧ p.isShared start stop = true

instance (l : List Permission) (start stop : Nat) (w : Bool) : Decidable (Conflicts l start stop w) :=
  inferInstanceAs (Decidable (∃ p ∈ l, _))

/-- A list without a conflicting token has no write token inside the range, and
    no token at all when the range is wanted for writing. -/
theorem not_conflicts {l : List Permission} {start stop : Nat} {w : Bool}
    (clear : ¬ Conflicts l start stop w) {b : Nat} (lower : start ≤ b) (upper : b < stop) :
    ¬ Grants l true b ∧ (w = true → ¬ Grants l false b) := by
  constructor
  · rintro ⟨p, member, mode, inside⟩
    apply clear
    refine ⟨p, member, .inl (mode rfl), ?_⟩
    simp only [Permission.isShared_iff, Permission.Covers] at *
    omega
  · rintro writing ⟨p, member, -, inside⟩
    apply clear
    refine ⟨p, member, .inr writing, ?_⟩
    simp only [Permission.isShared_iff, Permission.Covers] at *
    omega

end PFS
