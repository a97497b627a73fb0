import Mathlib.Data.List.Induction
import Mathlib.Logic.Function.Basic
import Mathlib.Data.List.Nodup

/-! # Intrusive doubly linked lists

The nodes of an intrusive list carry their own `prev` and `next` pointers; the
list itself is at most a pointer to its front and one to its back.  `Linked`
says that the pointers of the nodes `xs` string them together in this order.
The pointer operations below are the usual ones: link in at the front, unlink
from anywhere, take from the back.  Each comes with the list it leaves behind,
and with the nodes whose pointers it does not touch.
-/

namespace PFS.Lib

variable {ι : Type} [DecidableEq ι]

/-- The two pointers of a node. -/
structure Link (ι : Type) where
  prev : Option ι := none
  next : Option ι := none
  deriving DecidableEq

namespace Link

/-- Write the `prev` pointer of the node `at?`, if there is one. -/
def setPrev (link : ι → Link ι) (at? value : Option ι) : ι → Link ι :=
  match at? with
  | none => link
  | some n => Function.update link n { link n with prev := value }

/-- Write the `next` pointer of the node `at?`, if there is one. -/
def setNext (link : ι → Link ι) (at? value : Option ι) : ι → Link ι :=
  match at? with
  | none => link
  | some n => Function.update link n { link n with next := value }

/-- Clear both pointers of a node. -/
def reset (link : ι → Link ι) (n : ι) : ι → Link ι := Function.update link n {}

/-- Link `n` in before the node `head`.  The `prev` pointer of `n` is left as it
    is. -/
def push (link : ι → Link ι) (head : Option ι) (n : ι) : ι → Link ι :=
  setPrev (setNext link (some n) head) head (some n)

/-- Unlink `n` from its neighbours and clear its pointers. -/
def splice (link : ι → Link ι) (n : ι) : ι → Link ι :=
  reset (setPrev (setNext link (link n).prev (link n).next) (link n).next (link n).prev) n

theorem setPrev_ne {link : ι → Link ι} {at? value : Option ι} {m : ι} (other : at? ≠ some m) :
    setPrev link at? value m = link m := by
  cases at? with
  | none => rfl
  | some n => exact Function.update_of_ne (fun same => other (congrArg some same.symm)) _ _

theorem setNext_ne {link : ι → Link ι} {at? value : Option ι} {m : ι} (other : at? ≠ some m) :
    setNext link at? value m = link m := by
  cases at? with
  | none => rfl
  | some n => exact Function.update_of_ne (fun same => other (congrArg some same.symm)) _ _

theorem setPrev_next (link : ι → Link ι) (at? value : Option ι) (m : ι) :
    (setPrev link at? value m).next = (link m).next := by
  cases at? with
  | none => rfl
  | some n =>
      by_cases same : m = n
      · subst same
        simp [setPrev]
      · rw [setPrev_ne (by simpa using Ne.symm same)]

theorem setNext_prev (link : ι → Link ι) (at? value : Option ι) (m : ι) :
    (setNext link at? value m).prev = (link m).prev := by
  cases at? with
  | none => rfl
  | some n =>
      by_cases same : m = n
      · subst same
        simp [setNext]
      · rw [setNext_ne (by simpa using Ne.symm same)]

@[simp] theorem setPrev_self (link : ι → Link ι) (n : ι) (value : Option ι) :
    setPrev link (some n) value n = { link n with prev := value } := by simp [setPrev]

@[simp] theorem setNext_self (link : ι → Link ι) (n : ι) (value : Option ι) :
    setNext link (some n) value n = { link n with next := value } := by simp [setNext]

/-- Resetting a node without pointers does nothing. -/
theorem reset_idle {link : ι → Link ι} {n : ι} (idle : link n = {}) : reset link n = link := by
  rw [reset, ← idle]
  exact Function.update_eq_self n link

@[simp] theorem reset_self (link : ι → Link ι) (n : ι) : reset link n n = {} := by simp [reset]

theorem reset_ne {link : ι → Link ι} {n m : ι} (other : m ≠ n) : reset link n m = link m :=
  Function.update_of_ne other _ _

end Link

open Link

/-- The pointers string the nodes `xs` together, `before` standing in front of
    the first and `after` behind the last. -/
def Linked (link : ι → Link ι) : Option ι → List ι → Option ι → Prop
  | _, [], _ => True
  | before, n :: rest, after =>
      (link n).prev = before ∧ (link n).next = rest.head?.or after ∧ Linked link (some n) rest after

namespace Linked

omit [DecidableEq ι]

/-- Only the pointers of the nodes themselves matter. -/
theorem congr {link link' : ι → Link ι} {before after : Option ι} {xs : List ι}
    (same : ∀ n ∈ xs, link' n = link n) (h : Linked link before xs after) :
    Linked link' before xs after := by
  induction xs generalizing before with
  | nil => trivial
  | cons n rest ih =>
      obtain ⟨hp, hn, hr⟩ := h
      refine ⟨?_, ?_, ih (fun m member => same m (List.mem_cons_of_mem n member)) hr⟩
      · rw [same n (by simp)]; exact hp
      · rw [same n (by simp)]; exact hn

theorem append {link : ι → Link ι} {before after : Option ι} {xs ys : List ι} :
    Linked link before (xs ++ ys) after ↔
      Linked link before xs (ys.head?.or after) ∧ Linked link (xs.getLast?.or before) ys after := by
  induction xs generalizing before with
  | nil => simp [Linked]
  | cons n rest ih =>
      have nexts : (rest ++ ys).head?.or after = rest.head?.or (ys.head?.or after) := by
        cases rest <;> simp
      have lasts : (n :: rest).getLast?.or before = rest.getLast?.or (some n) := by
        cases rest with
        | nil => rfl
        | cons m rest => simp [List.getLast?_cons]
      simp only [List.cons_append, Linked, ih, nexts, lasts, and_assoc]

variable [DecidableEq ι]

theorem setPrev_head {link : ι → Link ι} {before after : Option ι} {xs : List ι} (distinct : xs.Nodup)
    (value : Option ι) (h : Linked link before xs after) :
    Linked (setPrev link xs.head? value) value xs after := by
  cases xs with
  | nil => trivial
  | cons n rest =>
      obtain ⟨-, hn, hr⟩ := h
      refine ⟨?_, ?_, hr.congr ?_⟩
      · simp
      · simpa using hn
      · intro m member
        apply setPrev_ne
        rintro same
        obtain rfl := Option.some.inj same
        exact (List.nodup_cons.mp distinct).1 member

theorem setNext_last {link : ι → Link ι} {before after : Option ι} {xs : List ι} (distinct : xs.Nodup)
    (value : Option ι) (h : Linked link before xs after) :
    Linked (setNext link xs.getLast? value) before xs value := by
  induction xs generalizing before with
  | nil => trivial
  | cons n rest ih =>
      obtain ⟨hp, hn, hr⟩ := h
      obtain ⟨absent, distinct⟩ := List.nodup_cons.mp distinct
      cases rest with
      | nil =>
          refine ⟨?_, ?_, trivial⟩
          · rw [setNext_prev]; exact hp
          · simp
      | cons m rest =>
          have last : (n :: m :: rest).getLast? = (m :: rest).getLast? := by simp [List.getLast?_cons]
          rw [last]
          refine ⟨?_, ?_, ih distinct hr⟩
          · rw [setNext_prev]; exact hp
          · rw [setNext_ne]
            · simpa using hn
            · intro same
              exact absent (List.mem_of_getLast? same)

end Linked

/-- Linking in at the front. -/
theorem push_linked {link : ι → Link ι} {xs : List ι} {n : ι} (distinct : xs.Nodup) (absent : n ∉ xs)
    (clear : (link n).prev = none) (h : Linked link none xs none) :
    Linked (push link xs.head? n) none (n :: xs) none := by
  have headOther : xs.head? ≠ some n := fun same => absent (List.mem_of_head? same)
  refine ⟨?_, ?_, ?_⟩
  · rw [push, setPrev_ne headOther, setNext_prev]; exact clear
  · rw [push, setPrev_next]; simp
  · apply Linked.setPrev_head distinct
    apply h.congr
    intro m member
    apply setNext_ne
    rintro same
    obtain rfl := Option.some.inj same
    exact absent member

theorem push_ne {link : ι → Link ι} {xs : List ι} {n m : ι} (other : m ≠ n) (outside : m ∉ xs) :
    push link xs.head? n m = link m := by
  rw [push, setPrev_ne (fun same => outside (List.mem_of_head? same)),
    setNext_ne (by simpa using Ne.symm other)]

omit [DecidableEq ι] in
/-- The neighbours of a linked node. -/
theorem linked_neighbours {link : ι → Link ι} {xs ys : List ι} {n : ι}
    (h : Linked link none (xs ++ n :: ys) none) :
    (link n).prev = xs.getLast? ∧ (link n).next = ys.head? := by
  obtain ⟨-, hp, hn, -⟩ := Linked.append.mp h
  exact ⟨by simpa using hp, by simpa using hn⟩

/-- Unlinking a node. -/
theorem splice_linked {link : ι → Link ι} {xs ys : List ι} {n : ι} (distinct : (xs ++ n :: ys).Nodup)
    (h : Linked link none (xs ++ n :: ys) none) : Linked (splice link n) none (xs ++ ys) none := by
  obtain ⟨prevEq, nextEq⟩ := linked_neighbours h
  obtain ⟨left, -, -, right⟩ := Linked.append.mp h
  obtain ⟨distinctX, distinctNY, apart⟩ := List.nodup_append'.mp distinct
  obtain ⟨absentY, distinctY⟩ := List.nodup_cons.mp distinctNY
  have absentX : n ∉ xs := fun member => apart member (by simp)
  have apartXY : ∀ m ∈ xs, m ∉ ys := fun m member held => apart member (List.mem_cons_of_mem n held)
  rw [splice, prevEq, nextEq]
  refine Linked.append.mpr ⟨?_, ?_⟩
  · refine Linked.congr ?_ (Linked.setNext_last distinctX (ys.head?.or none) left)
    intro m member
    have other : m ≠ n := fun same => absentX (same ▸ member)
    rw [reset_ne other, setPrev_ne, Option.or_none]
    intro same
    exact apartXY m member (List.mem_of_head? same)
  · have moved : Linked (setNext link xs.getLast? ys.head?) (some n) ys none := by
      apply right.congr
      intro m member
      apply setNext_ne
      intro same
      exact apartXY m (List.mem_of_getLast? same) member
    rw [Option.or_none]
    refine Linked.congr ?_ (Linked.setPrev_head distinctY xs.getLast? moved)
    intro m member
    exact reset_ne (fun same => absentY (same ▸ member))

theorem splice_self (link : ι → Link ι) (n : ι) : splice link n n = {} := by simp [splice]

theorem splice_ne {link : ι → Link ι} {xs ys : List ι} {n m : ι}
    (h : Linked link none (xs ++ n :: ys) none) (outside : m ∉ xs ++ n :: ys) :
    splice link n m = link m := by
  obtain ⟨prevEq, nextEq⟩ := linked_neighbours h
  simp only [List.mem_append, List.mem_cons, not_or] at outside
  rw [splice, prevEq, nextEq, reset_ne outside.2.1,
    setPrev_ne (fun same => outside.2.2 (List.mem_of_head? same)),
    setNext_ne (fun same => outside.1 (List.mem_of_getLast? same))]

/-! ## Lists with a front and a back pointer -/

/-- Pointers of all nodes, and the two ends. -/
structure IntrusiveList (ι : Type) where
  link : ι → Link ι := fun _ => {}
  front : Option ι := none
  back : Option ι := none

namespace IntrusiveList

def pushFront (l : IntrusiveList ι) (n : ι) : IntrusiveList ι where
  link := push l.link l.front n
  front := some n
  back := if l.back = none then some n else l.back

/-- The only node of a list is removed without clearing its pointers. -/
def unlink (l : IntrusiveList ι) (n : ι) : IntrusiveList ι :=
  if l.front = some n ∧ l.back = some n then { l with front := none, back := none }
  else {
    link := splice l.link n
    front := if l.front = some n then (l.link n).next else l.front
    back := if l.back = some n then (l.link n).prev else l.back }

def popBack (l : IntrusiveList ι) : Option (ι × IntrusiveList ι) :=
  match l.back with
  | none => none
  | some n =>
      if l.back = l.front then some (n, { link := reset l.link n, front := none, back := none })
      else some (n, { l with
        link := reset (setNext l.link (l.link n).prev (l.link n).next) n
        back := (l.link n).prev })

/-- `l` holds the nodes `xs`, front to back, and no other node has a pointer. -/
structure Holds (l : IntrusiveList ι) (xs : List ι) : Prop where
  distinct : xs.Nodup
  linked : Linked l.link none xs none
  front : l.front = xs.head?
  back : l.back = xs.getLast?
  outside : ∀ n, n ∉ xs → l.link n = {}

namespace Holds

omit [DecidableEq ι] in
theorem empty : Holds ({} : IntrusiveList ι) [] := ⟨List.nodup_nil, trivial, rfl, rfl, fun _ _ => rfl⟩

theorem pushFront {l : IntrusiveList ι} {xs : List ι} (h : l.Holds xs) {n : ι} (absent : n ∉ xs) :
    (l.pushFront n).Holds (n :: xs) where
  distinct := List.nodup_cons.mpr ⟨absent, h.distinct⟩
  linked := by
    simp only [IntrusiveList.pushFront, h.front]
    exact push_linked h.distinct absent (by rw [h.outside n absent]) h.linked
  front := rfl
  back := by
    simp only [IntrusiveList.pushFront, h.back]
    cases xs with
    | nil => rfl
    | cons m rest => simp [List.getLast?_cons]
  outside := by
    intro m away
    simp only [List.mem_cons, not_or] at away
    simp only [IntrusiveList.pushFront, h.front]
    rw [push_ne away.1 away.2]
    exact h.outside m away.2

omit [DecidableEq ι] in
/-- The branch for the only node. -/
theorem single {l : IntrusiveList ι} {xs : List ι} (h : l.Holds xs) {n : ι}
    (only : l.front = some n ∧ l.back = some n) : xs = [n] := by
  rw [h.front, h.back] at only
  match xs with
  | [] => cases only.1
  | [m] => obtain rfl := Option.some.inj only.1; rfl
  | m :: k :: rest =>
      obtain rfl := Option.some.inj only.1
      have last : m ∈ k :: rest := by
        apply List.mem_of_getLast?
        simpa [List.getLast?_cons] using only.2
      exact ((List.nodup_cons.mp h.distinct).1 last).elim

theorem unlink {l : IntrusiveList ι} {xs : List ι} (h : l.Holds xs) {n : ι} (member : n ∈ xs) :
    (l.unlink n).Holds (xs.erase n) := by
  unfold IntrusiveList.unlink
  split
  · next only =>
      obtain rfl := h.single only
      obtain ⟨prevNone, nextNone, -⟩ := h.linked
      rw [List.erase_cons_head]
      refine ⟨List.nodup_nil, trivial, rfl, rfl, fun m _ => ?_⟩
      by_cases same : m = n
      · subst same
        cases linkEq : l.link m with
        | mk p q =>
            rw [linkEq] at prevNone nextNone
            exact congrArg₂ Link.mk prevNone nextNone
      · exact h.outside m (by simpa using same)
  · next several =>
      obtain ⟨as, bs, rfl⟩ := List.append_of_mem member
      obtain ⟨prevEq, nextEq⟩ := linked_neighbours h.linked
      have absent : n ∉ as := by
        intro inside
        exact (List.nodup_append'.mp h.distinct).2.2 inside (by simp)
      rw [List.erase_append_right _ absent, List.erase_cons_head]
      have sub : (as ++ bs).Sublist (as ++ n :: bs) :=
        List.Sublist.append_left (List.sublist_cons_self n bs) as
      refine ⟨h.distinct.sublist sub, splice_linked h.distinct h.linked, ?_, ?_, ?_⟩
      · simp only [h.front, nextEq]
        cases as with
        | nil => simp
        | cons m rest =>
            have other : m ≠ n := fun same => absent (by simp [same])
            simp [other]
      · simp only [h.back, prevEq]
        cases bs using List.reverseRecOn with
        | nil => simp
        | append_singleton rest m _ =>
            have other : m ≠ n := by
              rintro rfl
              have := (List.nodup_append'.mp h.distinct).2.1
              simp at this
            have last : (as ++ n :: (rest ++ [m])).getLast? = some m := by
              rw [← List.cons_append, ← List.append_assoc, List.getLast?_concat]
            rw [last, ← List.append_assoc]
            simp [other]
      · intro m away
        by_cases same : m = n
        · subst same; exact splice_self _ _
        · have outside : m ∉ as ++ n :: bs := by
            simp only [List.mem_append, List.mem_cons, not_or] at away ⊢
            exact ⟨away.1, same, away.2⟩
          exact (splice_ne h.linked outside).trans (h.outside m outside)

theorem resetLink {l : IntrusiveList ι} {xs : List ι} (h : l.Holds xs) {n : ι} (absent : n ∉ xs) :
    Holds { l with link := Link.reset l.link n } xs := by
  rw [reset_idle (h.outside n absent)]
  exact h

theorem popBack_empty {l : IntrusiveList ι} (h : l.Holds []) : l.popBack = none := by
  have noBack : l.back = none := h.back
  simp [IntrusiveList.popBack, noBack]

/-- Taking from the back; the assertions the code makes on the way (the node
    has a `prev` and no `next` unless it is the only one) are part of it. -/
theorem popBack_concat {l : IntrusiveList ι} {xs : List ι} {n : ι} (h : l.Holds (xs ++ [n])) :
    ∃ l', l.popBack = some (n, l') ∧ l'.Holds xs ∧
      (xs ≠ [] → (l.link n).prev.isSome = true ∧ (l.link n).next = none) := by
  have backEq : l.back = some n := by simpa using h.back
  obtain ⟨prevEq, nextEq⟩ := linked_neighbours h.linked
  have absent : n ∉ xs := by
    intro inside
    exact (List.nodup_append'.mp h.distinct).2.2 inside (by simp)
  have distinct : xs.Nodup := (List.nodup_append'.mp h.distinct).1
  have linked : Linked l.link none xs (some n) := by simpa using (Linked.append.mp h.linked).1
  cases xs using List.reverseRecOn with
  | nil =>
      have frontEq : l.front = some n := h.front
      refine ⟨⟨reset l.link n, none, none⟩, ?_, ⟨List.nodup_nil, trivial, rfl, rfl, ?_⟩, fun h => absurd rfl h⟩
      · simp [IntrusiveList.popBack, backEq, frontEq]
      · intro m _
        by_cases same : m = n
        · subst same; simp
        · change reset l.link n m = {}
          rw [reset_ne same]
          exact h.outside m (by simpa using same)
  | append_singleton ys m _ =>
      have prevSome : (l.link n).prev = some m := by simpa using prevEq
      have frontOther : l.front ≠ some n := by
        rw [h.front]
        cases ys with
        | nil =>
            have other : m ≠ n := fun same => absent (by simp [same])
            simpa using other
        | cons k rest =>
            have other : k ≠ n := fun same => absent (by simp [same])
            simpa using other
      have several : ¬ l.back = l.front := by rw [backEq]; exact fun same => frontOther same.symm
      refine ⟨_, by simp only [IntrusiveList.popBack, backEq]; exact if_neg (by rwa [← backEq]), ?_, ?_⟩
      · refine ⟨distinct, ?_, ?_, by simpa using prevSome, ?_⟩
        · simp only [prevEq, nextEq]
          refine Linked.congr ?_ (Linked.setNext_last distinct none linked)
          intro k inside
          exact reset_ne (fun same => absent (same ▸ inside))
        · simp only [h.front]
          cases ys <;> simp
        · intro k away
          by_cases same : k = n
          · subst same; simp
          · change reset _ n k = {}
            rw [reset_ne same, prevEq, setNext_ne (fun eq => away (List.mem_of_getLast? eq))]
            exact h.outside k (by simp only [List.mem_append, List.mem_singleton, not_or]; exact ⟨by simpa using away, same⟩)
      · intro _
        exact ⟨by simp [prevSome], by simpa using nextEq⟩

end Holds

end IntrusiveList

end PFS.Lib
