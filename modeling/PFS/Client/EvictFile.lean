import PFS.Client.CacheContents

/-! # Evicting a file

`Cache::evictFile` goes through the dirty list and the recency list and gives the nodes
of a file to the free list.  Unlike `evictBlock` and the harvester it does not take them
out of their hash chains, so every block it evicts is still found: it does what evicting
the blocks one by one does only for a file without cached blocks.
-/

namespace PFS

open Lib

namespace Cache

/-- The loop over the dirty list, from a node on; it has at most `blockCount` nodes.
    Returns the flushed blocks too. -/
def evictFileDirty (fileDes : Nat) : Nat → Option NodeId → Cache → Cache × List CacheBlock
  | 0, _, c => (c, [])
  | _ + 1, none, c => (c, [])
  | fuel + 1, some node, c =>
      let dirtyNext := (c.dirtyList.link node).next
      if (c.block node).fdes = fileDes then
        let cleaned := { c with block := Function.update c.block node (c.block node).resetDirty }
        let r := evictFileDirty fileDes fuel dirtyNext ((cleaned.removeFromDirtyList node).addToFreeList node).1
        (r.1, c.block node :: r.2)
      else evictFileDirty fileDes fuel dirtyNext c

/-- The loop over the recency list. -/
def evictFileClean (fileDes : Nat) : Nat → Option NodeId → Cache → Cache
  | 0, _, c => c
  | _ + 1, none, c => c
  | fuel + 1, some node, c =>
      let recencyNext := (c.recencyList.link node).next
      if (c.block node).fdes = fileDes then
        evictFileClean fileDes fuel recencyNext ((c.removeFromRecencyList node).addToFreeList node).1
      else evictFileClean fileDes fuel recencyNext c

/-- `evictFile`. -/
def evictFile (c : Cache) (fileDes : Nat) : Cache × List CacheBlock :=
  let r := evictFileDirty fileDes blockCount c.dirtyList.front c
  (evictFileClean fileDes blockCount r.1.recencyList.front r.1, r.2)

/-- `evictBlock` for some blocks of a file. -/
def evictBlocks (fileDes : Nat) : List Nat → Cache → Cache × List CacheBlock
  | [], c => (c, [])
  | blockAddr :: rest, c =>
      let r := evictBlocks fileDes rest (c.evictBlock fileDes blockAddr).1
      (r.1, (c.evictBlock fileDes blockAddr).2.toList ++ r.2)

/-- What `evictFile` is to do to a cache laid out as `L`. -/
structure EvictsFile (c : Cache) (L : Layout) (fileDes : Nat) : Prop where
  gone : ∀ a, (c.evictFile fileDes).1.lookup fileDes a = none
  flushed : ∀ a block i, c.find fileDes a = some block → block.dirty i = true → block ∈ (c.evictFile fileDes).2
  others : ∀ fd a, fd ≠ fileDes → (c.evictFile fileDes).1.find fd a = c.find fd a
  rep : ∃ L', Rep (c.evictFile fileDes).1 L' ∧ L'.held = L.held ∧
    ∀ n, L.Cached n → (c.block n).fdes = fileDes → n ∈ L'.free
  agrees : ∀ blocks, (∀ a, a ∈ blocks ↔ (c.find fileDes a).isSome = true) →
    (c.evictFile fileDes).1.find = (evictBlocks fileDes blocks c).1.find ∧
      (c.evictFile fileDes).2.Perm (evictBlocks fileDes blocks c).2

/-! ## The chains are left alone -/

/-- The same keys in the same chains. -/
structure SameChains (c c' : Cache) : Prop where
  table : c'.hashTable = c.hashTable
  nodes : c'.bucketNode = c.bucketNode
  keys : ∀ n, (c'.block n).fdes = (c.block n).fdes ∧ (c'.block n).addr = (c.block n).addr

namespace SameChains

theorem refl (c : Cache) : SameChains c c := ⟨rfl, rfl, fun _ => ⟨rfl, rfl⟩⟩

theorem trans {c c₁ c₂ : Cache} (first : SameChains c c₁) (second : SameChains c₁ c₂) : SameChains c c₂ :=
  ⟨second.table.trans first.table, second.nodes.trans first.nodes,
    fun n => ⟨(second.keys n).1.trans (first.keys n).1, (second.keys n).2.trans (first.keys n).2⟩⟩

theorem lookupFrom_eq {c c' : Cache} (same : SameChains c c') (fileDes blockAddr fuel : Nat) (node : Option NodeId) :
    c'.lookupFrom fileDes blockAddr fuel node = c.lookupFrom fileDes blockAddr fuel node := by
  induction fuel generalizing node with
  | zero => rfl
  | succ fuel ih =>
      cases node with
      | none => rfl
      | some node => simp only [lookupFrom, (same.keys node).1, (same.keys node).2, same.nodes, ih]

theorem lookup_eq {c c' : Cache} (same : SameChains c c') (fileDes blockAddr : Nat) :
    c'.lookup fileDes blockAddr = c.lookup fileDes blockAddr := by
  rw [lookup, lookup, same.table]
  exact same.lookupFrom_eq _ _ _ _

end SameChains

theorem evictFileDirty_sameChains {fileDes fuel : Nat} {node : Option NodeId} {c : Cache} :
    SameChains c (evictFileDirty fileDes fuel node c).1 := by
  induction fuel generalizing node c with
  | zero => exact .refl c
  | succ fuel ih =>
      cases node with
      | none => exact .refl c
      | some node =>
          simp only [evictFileDirty]
          split
          · refine SameChains.trans ?_ ih
            refine ⟨rfl, rfl, fun n => ?_⟩
            by_cases same : n = node
            · subst same
              simp [addToFreeList, removeFromDirtyList, CacheBlock.resetDirty]
            · simp [addToFreeList, removeFromDirtyList, Function.update_of_ne same]
          · exact ih

theorem evictFileClean_sameChains {fileDes fuel : Nat} {node : Option NodeId} {c : Cache} :
    SameChains c (evictFileClean fileDes fuel node c) := by
  induction fuel generalizing node c with
  | zero => exact .refl c
  | succ fuel ih =>
      cases node with
      | none => exact .refl c
      | some node =>
          simp only [evictFileClean]
          split
          · refine SameChains.trans ?_ ih
            exact ⟨rfl, rfl, fun n => ⟨rfl, rfl⟩⟩
          · exact ih

/-- Every block is found after `evictFile` as before. -/
theorem evictFile_lookup (c : Cache) (fileDes fd a : Nat) :
    (c.evictFile fileDes).1.lookup fd a = c.lookup fd a :=
  (evictFileDirty_sameChains.trans evictFileClean_sameChains).lookup_eq fd a

/-! ## A file without blocks -/

theorem evictFileDirty_none {fileDes : Nat} {c : Cache} : ∀ {xs : List NodeId} {before : Option NodeId} {fuel : Nat},
    Linked c.dirtyList.link before xs none → (∀ n ∈ xs, (c.block n).fdes ≠ fileDes) →
    evictFileDirty fileDes fuel xs.head? c = (c, []) := by
  intro xs
  induction xs with
  | nil => intro before fuel _ _; cases fuel <;> rfl
  | cons n rest ih =>
      intro before fuel linked other
      obtain ⟨-, next, tail⟩ := linked
      rw [Option.or_none] at next
      cases fuel with
      | zero => rfl
      | succ fuel =>
          simp only [List.head?_cons, evictFileDirty, if_neg (other n List.mem_cons_self), next]
          exact ih tail fun m member => other m (List.mem_cons_of_mem n member)

theorem evictFileClean_none {fileDes : Nat} {c : Cache} : ∀ {xs : List NodeId} {before : Option NodeId} {fuel : Nat},
    Linked c.recencyList.link before xs none → (∀ n ∈ xs, (c.block n).fdes ≠ fileDes) →
    evictFileClean fileDes fuel xs.head? c = c := by
  intro xs
  induction xs with
  | nil => intro before fuel _ _; cases fuel <;> rfl
  | cons n rest ih =>
      intro before fuel linked other
      obtain ⟨-, next, tail⟩ := linked
      rw [Option.or_none] at next
      cases fuel with
      | zero => rfl
      | succ fuel =>
          simp only [List.head?_cons, evictFileClean, if_neg (other n List.mem_cons_self), next]
          exact ih tail fun m member => other m (List.mem_cons_of_mem n member)

theorem evictFile_none {c : Cache} {L : Layout} (rep : Rep c L) {fileDes : Nat}
    (none : ∀ n, L.Cached n → (c.block n).fdes ≠ fileDes) : c.evictFile fileDes = (c, []) := by
  have dirty : evictFileDirty fileDes blockCount c.dirtyList.front c = (c, []) := by
    rw [rep.dirty.front]
    exact evictFileDirty_none rep.dirty.linked fun n member => none n (.inr member)
  have clean : evictFileClean fileDes blockCount c.recencyList.front c = c := by
    rw [rep.recency.front]
    exact evictFileClean_none rep.recency.linked fun n member => none n (.inl member)
  simp only [evictFile, dirty, clean]

/-- `evictFile` does what it is to do exactly when the file has no block in the cache. -/
theorem evictsFile_iff {c : Cache} {L : Layout} (rep : Rep c L) (fileDes : Nat) :
    EvictsFile c L fileDes ↔ ∀ a, c.find fileDes a = none := by
  constructor
  · intro evicts a
    rw [find, Option.map_eq_none_iff, ← evictFile_lookup c fileDes]
    exact evicts.gone a
  · intro absent
    have none : ∀ n, L.Cached n → (c.block n).fdes ≠ fileDes := by
      rintro n cached rfl
      have found := rep.find_eq_some.mpr ⟨n, cached, rfl, rfl, rfl⟩
      rw [absent] at found
      cases found
    have same := evictFile_none rep none
    refine ⟨?_, ?_, ?_, ?_, ?_⟩
    · intro a
      rw [evictFile_lookup]
      exact Option.map_eq_none_iff.mp (absent a)
    · intro a block i found
      rw [absent] at found
      cases found
    · intro fd a _
      rw [same]
    · rw [same]
      exact ⟨L, rep, rfl, fun n cached mine => absurd mine (none n cached)⟩
    · intro blocks all
      have empty : blocks = [] := by
        apply List.eq_nil_iff_forall_not_mem.mpr
        intro a member
        have found := (all a).mp member
        rw [absent] at found
        cases found
      rw [same, empty]
      exact ⟨rfl, .nil⟩

/-- A cache with one block, of descriptor 3. -/
def oneBlock : Cache := (Cache.init.addBlock 3 0 (fun _ => 7)).get rfl

theorem oneBlock_spec : oneBlock.WF ∧ oneBlock.find = set Cache.init.find 3 0 (some (fetched 3 0 fun _ => 7)) := by
  have added : Cache.init.addBlock 3 0 (fun _ => 7) = some oneBlock := (Option.some_get _).symm
  obtain ⟨wf, -, contents⟩ := addBlock_spec init_wf (init_find 3 0) added
  exact ⟨wf, contents⟩

theorem evictsFile_iff_other : ∃ L, Rep oneBlock L ∧ EvictsFile oneBlock L 4 := by
  obtain ⟨⟨L, rep, -⟩, contents⟩ := oneBlock_spec
  refine ⟨L, rep, (evictsFile_iff rep 4).mpr fun a => ?_⟩
  rw [contents, set_of_ne (fun key => absurd key.1 (by decide)), init_find]

/-- The block of descriptor 3 is found after `evictFile`, and its node is the next one
    that `addBlock` takes. -/
theorem evictFile_still_finds : (∃ L, Rep oneBlock L) ∧ (oneBlock.evictFile 3).1.lookup 3 0 = some 2047 ∧
    (oneBlock.evictFile 3).1.freeListHead = some 2047 ∧ (oneBlock.evictBlock 3 0).1.lookup 3 0 = none := by
  obtain ⟨⟨L, rep, -⟩, -⟩ := oneBlock_spec
  exact ⟨⟨L, rep⟩, rfl, rfl, rfl⟩

end Cache

end PFS
