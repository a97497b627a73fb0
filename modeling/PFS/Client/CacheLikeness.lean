import PFS.Client.CacheContents
import PFS.FileServer.Server
import PFS.Lib.Lockstep

/-! # Caches that differ in unwritten bytes only

A file server that is asked for a block reads it into memory it has just
allocated, so a byte nobody has written is anything, and not the same thing every
time.  Here are two caches that do the same, where the blocks of the first may
have anything at the bytes that the second has never seen written.
-/

namespace PFS

open Lib

/-- What a file server takes as the address of a block. -/
def Fetchable (blockAddr : Nat) : Prop := blockAddr % pfsBlockSizeInBytes = 0 ∧ blockAddr + stripBytes ≤ intMax

/-- The bytes of a block, where those of the second that are unwritten do not matter. -/
def DataLike (unwritten : Nat → UInt8) (blockAddr : Nat) (data data' : Nat → UInt8) : Prop :=
  ∀ i < pfsBlockSizeInBytes, data i = data' i ∨ data' i = unwritten (blockAddr + i)

structure CacheBlock.Like (unwritten : Nat → UInt8) (b b' : CacheBlock) : Prop where
  fdes : b.fdes = b'.fdes
  addr : b.addr = b'.addr
  dirty : b.dirty = b'.dirty
  clean : b.clean = b'.clean
  valid : b.valid = b'.valid
  data : ∀ i < pfsBlockSizeInBytes, b.data i = b'.data i ∨
    (b'.dirty i = false ∧ b'.data i = unwritten (b'.addr + i))
  fetchable : Fetchable b'.addr

/-- The blocks that are flushed. -/
def FlushLike (unwritten : Nat → UInt8) : Option CacheBlock → Option CacheBlock → Prop :=
  Option.Rel fun b b' => b.Like unwritten b' ∧ b'.clean = false

namespace Cache

variable {unwritten : Nat → UInt8}

/-- The second cache with other blocks. -/
def Like (unwritten : Nat → UInt8) (c c' : Cache) : Prop :=
  ∃ block, c = { c' with block := block } ∧ ∀ n, (block n).Like unwritten (c'.block n)

variable {c c' : Cache}

theorem like_init : Like unwritten init init := by
  have fetchable : Fetchable 0 := by
    constructor <;> decide
  exact ⟨init.block, rfl, fun _ => ⟨rfl, rfl, rfl, rfl, rfl, fun _ _ => .inl rfl, fetchable⟩⟩

theorem lookupFrom_congr {block : NodeId → CacheBlock} (fdes : ∀ n, (block n).fdes = (c.block n).fdes)
    (addr : ∀ n, (block n).addr = (c.block n).addr) (fileDes blockAddr fuel : Nat) (start : Option NodeId) :
    lookupFrom { c with block := block } fileDes blockAddr fuel start = c.lookupFrom fileDes blockAddr fuel start := by
  induction fuel generalizing start with
  | zero => rfl
  | succ fuel ih =>
      cases start with
      | none => rfl
      | some node => simp only [lookupFrom, fdes, addr, ih]

theorem lookupFrom_key {fileDes blockAddr fuel : Nat} {start : Option NodeId} {n : NodeId}
    (found : c.lookupFrom fileDes blockAddr fuel start = some n) : (c.block n).addr = blockAddr := by
  induction fuel generalizing start with
  | zero => cases found
  | succ fuel ih =>
      cases start with
      | none => cases found
      | some node =>
          rw [lookupFrom] at found
          split at found
          · next key =>
              obtain rfl := Option.some.inj found
              exact key.2
          · exact ih found

theorem Like.lookup (h : c.Like unwritten c') (fileDes blockAddr : Nat) :
    c.lookup fileDes blockAddr = c'.lookup fileDes blockAddr := by
  obtain ⟨block, rfl, blocks⟩ := h
  exact lookupFrom_congr (fun n => (blocks n).fdes) (fun n => (blocks n).addr) _ _ _ _

theorem Like.find_isSome (h : c.Like unwritten c') (fileDes blockAddr : Nat) :
    (c.find fileDes blockAddr).isSome = (c'.find fileDes blockAddr).isSome := by
  rw [find, find, h.lookup, Option.isSome_map, Option.isSome_map]

/-- One block changes. -/
theorem like_update {block block' : NodeId → CacheBlock} (blocks : ∀ n, (block n).Like unwritten (block' n))
    {n : NodeId} {b b' : CacheBlock} (own : b.Like unwritten b') (m : NodeId) :
    (Function.update block n b m).Like unwritten (Function.update block' n b' m) := by
  by_cases here : m = n
  · subst here
    simp only [Function.update_self]
    exact own
  · simp only [Function.update_of_ne here]
    exact blocks m

theorem like_resetDirty {b b' : CacheBlock} (h : b.Like unwritten b') : b.resetDirty.Like unwritten b'.resetDirty where
  fdes := h.fdes
  addr := h.addr
  dirty := rfl
  clean := rfl
  valid := h.valid
  data i inside := (h.data i inside).imp id fun unwritten => ⟨rfl, unwritten.2⟩
  fetchable := h.fetchable

theorem Like.readBlock (h : c.Like unwritten c') (fileDes blockAddr : Nat) :
    (c.readBlock fileDes blockAddr).1.Like unwritten (c'.readBlock fileDes blockAddr).1 ∧
      Option.Rel (DataLike unwritten blockAddr) (c.readBlock fileDes blockAddr).2 (c'.readBlock fileDes blockAddr).2 := by
  have found := h.lookup fileDes blockAddr
  cases hit : c'.lookup fileDes blockAddr with
  | none =>
      rw [hit] at found
      simp only [Cache.readBlock, found, hit]
      exact ⟨h, .none⟩
  | some n =>
      rw [hit] at found
      obtain ⟨block, rfl, blocks⟩ := h
      simp only [Cache.readBlock, found, hit, (blocks n).clean]
      constructor
      · split
        · exact ⟨block, rfl, blocks⟩
        · exact ⟨block, rfl, blocks⟩
      · refine .some fun i inside => ?_
        rw [← lookupFrom_key hit]
        exact ((blocks n).data i inside).imp id And.right

theorem like_patch {b b' : CacheBlock} (h : b.Like unwritten b') (at_ size : Nat) (data : Nat → UInt8) :
    CacheBlock.Like unwritten { patch b at_ size data with clean := false }
      { patch b' at_ size data with clean := false } := by
  obtain ⟨fdes, addr, dirty, -, valid, bytes, fetchable⟩ := h
  refine ⟨fdes, addr, ?_, rfl, valid, fun i inside => ?_, fetchable⟩
  · simp only [patch, dirty]
  · by_cases here : at_ ≤ i ∧ i < at_ + size
    · left
      simp only [patch, if_pos here]
    · simp only [patch, if_neg here]
      exact bytes i inside

theorem Like.write (h : c.Like unwritten c') (fileDes offset size : Nat) (data : Nat → UInt8) :
    (c.write fileDes offset size data).1.Like unwritten (c'.write fileDes offset size data).1 ∧
      (c.write fileDes offset size data).2 = (c'.write fileDes offset size data).2 := by
  have found := h.lookup fileDes (blockOf offset)
  cases hit : c'.lookup fileDes (blockOf offset) with
  | none =>
      rw [hit] at found
      simp only [Cache.write, found, hit]
      exact ⟨h, trivial⟩
  | some n =>
      rw [hit] at found
      obtain ⟨block, rfl, blocks⟩ := h
      simp only [Cache.write, found, hit, (blocks n).clean, and_true]
      have blocks' := like_update blocks (n := n) (like_patch (blocks n) (offset % pfsBlockSizeInBytes) size data)
      split
      · exact ⟨_, rfl, blocks'⟩
      · exact ⟨_, rfl, blocks'⟩

theorem Like.waitFree (h : c.Like unwritten c') : Option.Rel (Like unwritten) c.waitFree c'.waitFree := by
  obtain ⟨block, rfl, blocks⟩ := h
  unfold Cache.waitFree
  dsimp only
  split
  · exact .none
  · exact .some ⟨block, rfl, blocks⟩

theorem Like.popFree (h : c.Like unwritten c') :
    Option.Rel (fun r r' => r.1 = r'.1 ∧ Like unwritten r.2 r'.2) c.popFree c'.popFree := by
  obtain ⟨block, rfl, blocks⟩ := h
  unfold Cache.popFree
  dsimp only
  refine rel_bind (rel_self fun _ _ => rfl) ?_
  rintro node _ rfl
  refine rel_bind (rel_self fun _ _ => rfl) ?_
  rintro next _ rfl
  exact .some ⟨rfl, block, rfl, blocks⟩

theorem Like.addBlock (h : c.Like unwritten c') {fileDes blockAddr : Nat} {data data' : Nat → UInt8}
    (fetchable : Fetchable blockAddr) (alike : DataLike unwritten blockAddr data data') :
    Option.Rel (Like unwritten) (c.addBlock fileDes blockAddr data) (c'.addBlock fileDes blockAddr data') := by
  simp only [Cache.addBlock, fetchable.1, ne_eq, not_true_eq_false, if_false]
  refine rel_bind h.waitFree fun c₁ c₁' h₁ => rel_bind h₁.waitFree fun c₂ c₂' h₂ => rel_bind h₂.popFree ?_
  rintro ⟨n, c₃⟩ ⟨n', c₃'⟩ ⟨same, alikes⟩
  obtain rfl : n = n' := same
  obtain ⟨block, is, blocks⟩ : c₃.Like unwritten c₃' := alikes
  subst is
  refine .some ⟨_, rfl, like_update blocks ?_⟩
  exact ⟨rfl, rfl, rfl, rfl, rfl, fun i inside => (alike i inside).imp id fun unwritten => ⟨rfl, unwritten⟩, fetchable⟩

/-! ## Operations that flush -/

theorem Like.evictBlock (h : c.Like unwritten c') (fileDes blockAddr : Nat) :
    (c.evictBlock fileDes blockAddr).1.Like unwritten (c'.evictBlock fileDes blockAddr).1 ∧
      FlushLike unwritten (c.evictBlock fileDes blockAddr).2 (c'.evictBlock fileDes blockAddr).2 := by
  have found := h.lookup fileDes blockAddr
  cases hit : c'.lookup fileDes blockAddr with
  | none =>
      rw [hit] at found
      simp only [Cache.evictBlock, Cache.unlinkBlock, found, hit, Option.map_none]
      exact ⟨h, .none⟩
  | some n =>
      rw [hit] at found
      obtain ⟨block, rfl, blocks⟩ := h
      simp only [Cache.evictBlock, Cache.unlinkBlock, found, hit, Option.map_some, (blocks n).clean]
      split
      · exact ⟨⟨block, rfl, blocks⟩, .none⟩
      · next unclean =>
          exact ⟨⟨_, rfl, like_update blocks (like_resetDirty (blocks n))⟩,
            .some ⟨blocks n, eq_false_of_ne_true unclean⟩⟩

/-- What a node is taken out of, and what is flushed for it. -/
def TakenLike (unwritten : Nat → UInt8) (t t' : Taken) : Prop :=
  t.node = t'.node ∧ t.cache.Like unwritten t'.cache ∧ FlushLike unwritten t.flushed t'.flushed

theorem Like.release (h : c.Like unwritten c') (n : NodeId) : TakenLike unwritten (c.release n) (c'.release n) := by
  obtain ⟨block, rfl, blocks⟩ := h
  simp only [Cache.release, (blocks n).clean]
  split
  · exact ⟨rfl, ⟨block, rfl, blocks⟩, .none⟩
  · next unclean =>
      exact ⟨rfl, ⟨_, rfl, like_update blocks (like_resetDirty (blocks n))⟩,
        .some ⟨blocks n, eq_false_of_ne_true unclean⟩⟩

theorem Like.harvest (h : c.Like unwritten c') : Option.Rel (TakenLike unwritten) c.harvest c'.harvest := by
  obtain ⟨block, rfl, blocks⟩ := h
  simp only [Cache.harvest, Cache.removeRecencyListLRU, Cache.removeDirtyListLRU]
  cases c'.recencyList.popBack with
  | none =>
      cases c'.dirtyList.popBack with
      | none => exact .none
      | some r =>
          have popped : Like unwritten { c' with block := block, dirtyList := r.2 } { c' with dirtyList := r.2 } :=
            ⟨block, rfl, blocks⟩
          exact .some (popped.release r.1)
  | some r =>
      have popped : Like unwritten { c' with block := block, recencyList := r.2 } { c' with recencyList := r.2 } :=
        ⟨block, rfl, blocks⟩
      exact .some (popped.release r.1)

theorem Like.harvestIteration (h : c.Like unwritten c') :
    Option.Rel (fun r r' => r.1.Like unwritten r'.1 ∧ FlushLike unwritten r.2 r'.2) c.harvestIteration
      c'.harvestIteration := by
  refine rel_map h.harvest fun t t' taken => ?_
  obtain ⟨node, cache, flushed⟩ := t
  obtain ⟨node', cache', flushed'⟩ := t'
  obtain ⟨same, ⟨block, is, blocks⟩, flushes⟩ := taken
  obtain rfl : node = node' := same
  subst is
  exact ⟨⟨block, rfl, blocks⟩, flushes⟩

/-- What the flusher takes from the dirty list is dirty. -/
theorem WF.dirty_last (wf : c.WF) {n : NodeId} {l : IntrusiveList NodeId} (popped : c.dirtyList.popBack = some (n, l)) :
    (c.block n).clean = false := by
  obtain ⟨L, rep, -⟩ := wf
  have holds := rep.dirty
  cases last : L.dirty.getLast? with
  | none =>
      rw [List.getLast?_eq_none_iff.mp last] at holds
      rw [holds.popBack_empty] at popped
      cases popped
  | some m =>
      obtain ⟨xs, cut⟩ := List.getLast?_eq_some_iff.mp last
      rw [cut] at holds
      obtain ⟨l', popped', -⟩ := holds.popBack_concat
      obtain ⟨rfl, -⟩ := Prod.mk.inj (Option.some.inj (popped'.symm.trans popped))
      exact (rep.blocks.unclean m (List.mem_of_getLast? last)).1

theorem Like.flushIteration (wf : c'.WF) (h : c.Like unwritten c') :
    c.flushIteration.1.Like unwritten c'.flushIteration.1 ∧
      FlushLike unwritten c.flushIteration.2 c'.flushIteration.2 := by
  obtain ⟨block, rfl, blocks⟩ := h
  simp only [Cache.flushIteration, Cache.removeDirtyListLRU]
  cases popped : c'.dirtyList.popBack with
  | none => exact ⟨⟨block, rfl, blocks⟩, .none⟩
  | some r =>
      obtain ⟨n, l⟩ := r
      exact ⟨⟨_, rfl, like_update blocks (like_resetDirty (blocks n))⟩, .some ⟨blocks n, wf.dirty_last popped⟩⟩

end Cache

end PFS
