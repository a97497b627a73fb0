import PFS.Client.FreeBlocks
import PFS.Client.ManyFiles
import PFS.System.Offsets

/-! # How much a client can fetch

`addBlock` waits for `freeBlockSemaphore` twice and nobody ever posts it.  So a
client adds at most half as many blocks to its cache as the cache has, however
long it runs and whatever is evicted in between; and a call whose range is larger
than half the cache never returns.
-/

namespace PFS

open Lib

namespace Cache

variable {c c' : Cache} {filedes : Nat} {blocks : List Nat}

/-- How many of these blocks of a file are not in the cache. -/
def missing (c : Cache) (filedes : Nat) (blocks : List Nat) : Nat := blocks.countP fun a => (c.find filedes a).isNone

/-- A well-formed cache with some units of `freeBlockSemaphore` less. -/
structure Spent (c c' : Cache) (units : Nat) : Prop where
  wf : c'.WF
  left : c'.freeBlockSemaphore + units = c.freeBlockSemaphore

/-- The file servers take the requests for those of these blocks that are not in the cache. -/
def Obtainable (c : Cache) (filedes : Nat) (takes : Nat → Bool) (blocks : List Nat) : Prop :=
  ∀ a ∈ blocks, (c.find filedes a).isNone = true → takes a = true

instance (c : Cache) (filedes : Nat) (takes : Nat → Bool) (blocks : List Nat) :
    Decidable (c.Obtainable filedes takes blocks) := inferInstanceAs (Decidable (∀ a ∈ blocks, _))

/-- A result of loading these blocks: the servers have to take the requests, and it takes two
    units for each block that is missing. -/
structure Loads (c : Cache) (filedes : Nat) (takes : Nat → Bool) (blocks : List Nat) (result : Option Cache) : Prop where
  returns : result.isSome = true ↔
    2 * c.missing filedes blocks ≤ c.freeBlockSemaphore ∧ c.Obtainable filedes takes blocks
  spent : ∀ c', result = some c' → c.Spent c' (2 * c.missing filedes blocks)
  present : ∀ c', result = some c' → ∀ a, (c'.find filedes a).isNone = ((c.find filedes a).isNone && !decide (a ∈ blocks))

variable {takes : Nat → Bool}

theorem obtainable_singleton {a : Nat} :
    c.Obtainable filedes takes [a] ↔ ((c.find filedes a).isNone = true → takes a = true) := List.forall_mem_singleton

theorem Loads.nil (wf : c.WF) : Loads c filedes takes [] (some c) := by
  refine ⟨?_, ?_, ?_⟩
  · simp [missing, Obtainable]
  · rintro _ ⟨⟩
    exact ⟨wf, rfl⟩
  · rintro _ ⟨⟩ a
    simp

/-- One block and then the others. -/
theorem Loads.cons {α : Type} {a : Nat} {x : Option α} (cache : α → Cache) {g : α → Option Cache}
    (absent : a ∉ blocks) (first : Loads c filedes takes [a] (x.map cache))
    (rest : ∀ r, (cache r).WF → Loads (cache r) filedes takes blocks (g r)) :
    Loads c filedes takes (a :: blocks) (x.bind g) := by
  have after : ∀ r, x = some r → c.Spent (cache r) (2 * c.missing filedes [a]) := by
    intro r here
    exact first.spent (cache r) (by rw [here, Option.map_some])
  have split : c.missing filedes (a :: blocks) = c.missing filedes [a] + c.missing filedes blocks := by
    simp only [missing, List.countP_cons, List.countP_nil]
    omega
  have both : c.Obtainable filedes takes (a :: blocks) ↔
      c.Obtainable filedes takes [a] ∧ c.Obtainable filedes takes blocks := by
    rw [obtainable_singleton]
    exact List.forall_mem_cons
  have same : ∀ r, x = some r → ∀ b ∈ blocks, ((cache r).find filedes b).isNone = (c.find filedes b).isNone := by
    intro r here b member
    have other : b ∉ [a] := by
      rw [List.mem_singleton]
      rintro rfl
      exact absent member
    rw [first.present (cache r) (by rw [here, Option.map_some]) b, decide_eq_false other, Bool.not_false, Bool.and_true]
  have later : ∀ r, x = some r → (cache r).missing filedes blocks = c.missing filedes blocks :=
    fun r here => List.countP_congr fun b member => by rw [same r here b member]
  refine ⟨?_, ?_, ?_⟩
  · cases here : x with
    | none =>
        have stuck := first.returns
        rw [here, Option.map_none, Option.isSome_none] at stuck
        rw [Option.bind_none, Option.isSome_none, split, both]
        refine ⟨fun returns => (Bool.false_ne_true returns).elim, ?_⟩
        rintro ⟨enough, obtainable, -⟩
        exact stuck.mpr ⟨by omega, obtainable⟩
    | some r =>
        obtain ⟨wf, spent⟩ := after r here
        have started := first.returns
        rw [here, Option.map_some, Option.isSome_some] at started
        obtain ⟨enough, obtainable⟩ := started.mp rfl
        have others : (cache r).Obtainable filedes takes blocks ↔ c.Obtainable filedes takes blocks :=
          forall₂_congr fun b member => by rw [same r here b member]
        rw [Option.bind_some, (rest r wf).returns, later r here, split, both, others]
        constructor
        · rintro ⟨room, served⟩
          exact ⟨by omega, obtainable, served⟩
        · rintro ⟨room, -, served⟩
          exact ⟨by omega, served⟩
  · intro c' done
    obtain ⟨r, here, done⟩ := Option.bind_eq_some_iff.mp done
    obtain ⟨wf, spent⟩ := after r here
    obtain ⟨wf', spent'⟩ := (rest r wf).spent c' done
    rw [later r here] at spent'
    exact ⟨wf', by omega⟩
  · intro c' done b
    obtain ⟨r, here, done⟩ := Option.bind_eq_some_iff.mp done
    rw [(rest r (after r here).wf).present c' done b, first.present (cache r) (by rw [here, Option.map_some]) b]
    simp only [List.mem_cons, List.not_mem_nil, or_false, Bool.decide_or, Bool.not_or, Bool.and_assoc]

/-- A block that is there. -/
theorem Loads.found {a : Nat} {block : CacheBlock} (found : c.find filedes a = some block) (wf' : c'.WF)
    (units : c'.freeBlockSemaphore = c.freeBlockSemaphore)
    (same : ∀ b, (c'.find filedes b).isNone = (c.find filedes b).isNone) : Loads c filedes takes [a] (some c') := by
  have none : c.missing filedes [a] = 0 := by simp [missing, found]
  refine ⟨?_, ?_, ?_⟩
  · simp [none, obtainable_singleton, found]
  · rintro _ ⟨⟩
    exact ⟨wf', by rw [none, units, Nat.mul_zero, Nat.add_zero]⟩
  · rintro _ ⟨⟩ b
    rw [same]
    by_cases here : b = a
    · subst here
      simp [found]
    · simp [here]

/-- A block that the servers do not give. -/
theorem Loads.refused {a : Nat} (absent : c.find filedes a = none) (rejected : takes a = false) :
    Loads c filedes takes [a] none := by
  refine ⟨?_, ?_, ?_⟩
  · simp [obtainable_singleton, absent, rejected]
  · rintro _ ⟨⟩
  · rintro _ ⟨⟩

theorem addBlock_short (short : c.freeBlockSemaphore < 2) (fileDes blockAddr : Nat) (data : Nat → UInt8) :
    c.addBlock fileDes blockAddr data = none := by
  cases added : c.addBlock fileDes blockAddr data with
  | none => rfl
  | some c' =>
      obtain ⟨-, added⟩ := Option.ite_none_left_eq_some.mp added
      obtain ⟨c₁, first, added⟩ := Option.bind_eq_some_iff.mp added
      obtain ⟨c₂, second, -⟩ := Option.bind_eq_some_iff.mp added
      obtain ⟨one, first⟩ := Option.ite_none_left_eq_some.mp first
      obtain rfl := Option.some.inj first
      obtain ⟨two, -⟩ := Option.ite_none_left_eq_some.mp second
      simp only at two
      omega

/-- A block that has to be fetched. -/
theorem Loads.fetched {a : Nat} (wf : c.WF) (absent : c.find filedes a = none)
    (aligned : a % pfsBlockSizeInBytes = 0) (taken : takes a = true) (data : Nat → UInt8) {after : Cache → Cache}
    (keeps : ∀ c', c'.WF → (after c').WF ∧ (after c').freeBlockSemaphore = c'.freeBlockSemaphore ∧
      ∀ b, ((after c').find filedes b).isNone = (c'.find filedes b).isNone) :
    Loads c filedes takes [a] ((c.addBlock filedes a data).map after) := by
  have one : c.missing filedes [a] = 1 := by simp [missing, absent]
  refine ⟨?_, ?_, ?_⟩
  · rw [one, Option.isSome_map]
    constructor
    · intro returns
      refine ⟨?_, obtainable_singleton.mpr fun _ => taken⟩
      by_contra short
      rw [addBlock_short (by omega)] at returns
      cases returns
    · rintro ⟨enough, -⟩
      obtain ⟨c', added, -⟩ := CacheThreads.addBlock_counts wf filedes aligned enough data
      rw [added, Option.isSome_some]
  · intro c' done
    obtain ⟨c₁, added, rfl⟩ := Option.map_eq_some_iff.mp done
    obtain ⟨wf₁, -, -⟩ := addBlock_spec wf absent added
    have enough : 2 ≤ c.freeBlockSemaphore := by
      by_contra short
      rw [addBlock_short (by omega)] at added
      cases added
    obtain ⟨c₂, added₂, units, -⟩ := CacheThreads.addBlock_counts wf filedes aligned enough data
    obtain rfl := Option.some.inj (added₂.symm.trans added)
    obtain ⟨wf', kept, -⟩ := keeps _ wf₁
    exact ⟨wf', by rw [one, kept, ← units]⟩
  · intro c' done b
    obtain ⟨c₁, added, rfl⟩ := Option.map_eq_some_iff.mp done
    obtain ⟨wf₁, -, contents⟩ := addBlock_spec wf absent added
    rw [(keeps _ wf₁).2.2, contents, Cache.set]
    by_cases here : b = a
    · subst here
      simp
    · simp [here]

/-- At most half of the blocks of the cache are ever in use. -/
theorem WF.found_le (wf : c.WF) (filedes : Nat) (distinct : blocks.Nodup) :
    2 * blocks.countP (fun a => (c.find filedes a).isSome) + c.freeBlockSemaphore ≤ blockCount := by
  obtain ⟨L, rep, held, units⟩ := wf
  have inside : blocks.filter (fun a => (c.find filedes a).isSome) ⊆
      (L.recency ++ L.dirty).map fun n => (c.block n).addr := by
    intro a member
    obtain ⟨-, found⟩ := List.mem_filter.mp member
    obtain ⟨block, found⟩ := Option.isSome_iff_exists.mp found
    obtain ⟨n, cached, rfl, -, rfl⟩ := rep.find_eq_some.mp found
    exact List.mem_map.mpr ⟨n, List.mem_append.mpr cached, rfl⟩
  have few := ((distinct.filter _).subperm inside).length_le
  have whole := rep.partition.length_eq
  rw [List.length_map, List.length_append] at few
  rw [held, List.length_nil] at whole
  rw [List.countP_eq_length_filter]
  omega

theorem found_add_missing (c : Cache) (filedes : Nat) (blocks : List Nat) :
    blocks.countP (fun a => (c.find filedes a).isSome) + c.missing filedes blocks = blocks.length := by
  rw [List.length_eq_countP_add_countP fun a => (c.find filedes a).isSome, missing]
  congr 1
  refine List.countP_congr fun a _ => ?_
  simp

end Cache

namespace PFSClient

variable {c : Cache} {filedes : Nat} {bytes : FileBytes}

/-- The blocks of the pieces of a call. -/
def blocksOf (ps : List (Nat × Nat)) : List Nat := ps.map fun piece => blockOf piece.1

theorem readLoop_loads {ps : List (Nat × Nat)} (wf : c.WF) (distinct : (blocksOf ps).Nodup) (buffer : Nat → UInt8) :
    c.Loads filedes (fun _ => true) (blocksOf ps) ((readLoop filedes bytes ps c buffer).map Prod.fst) := by
  induction ps generalizing c buffer with
  | nil => exact Cache.Loads.nil wf
  | cons piece rest ih =>
      obtain ⟨offset, size⟩ := piece
      obtain ⟨absent, distinct⟩ := List.nodup_cons.mp distinct
      rw [readLoop_cons, Option.map_bind]
      refine Cache.Loads.cons Prod.fst absent ?_ fun r wf₁ => ih wf₁ distinct _
      obtain ⟨wf₁, contents, answer⟩ := Cache.readBlock_spec wf filedes (blockOf offset)
      cases found : c.find filedes (blockOf offset) with
      | some block =>
          rw [found, Option.map_some] at answer
          rw [show c.readBlock filedes (blockOf offset) = (_, some block.data) from Prod.ext rfl answer]
          exact Cache.Loads.found found wf₁ (c.readBlock_sameFree filedes (blockOf offset)).2
            fun b => by rw [contents]
      | none =>
          rw [Cache.readBlock_missing found, Option.map_map]
          exact Cache.Loads.fetched wf found (blockOf_aligned offset) rfl _ fun c' wf' => ⟨wf', rfl, fun _ => rfl⟩

/-- `write` moves no block in or out. -/
theorem write_keeps (wf : c.WF) (filedes : Nat) {offset size : Nat} (one : OneBlock (offset, size))
    (data : Nat → UInt8) :
    (c.write filedes offset size data).1.WF ∧
      (c.write filedes offset size data).1.freeBlockSemaphore = c.freeBlockSemaphore ∧
      ∀ b, ((c.write filedes offset size data).1.find filedes b).isNone = (c.find filedes b).isNone := by
  obtain ⟨wf₁, -, contents⟩ := Cache.write_spec wf filedes offset data one.1
  refine ⟨wf₁, (c.write_sameFree filedes offset size data).2, fun b => ?_⟩
  rw [contents, Cache.set]
  split
  · next key => rw [key.2, Option.isNone_map]
  · rfl

theorem writeLoop_loads {ps : List (Nat × Nat)} (wf : c.WF) (one : ∀ piece ∈ ps, OneBlock piece)
    (distinct : (blocksOf ps).Nodup) (data : Nat → UInt8) :
    c.Loads filedes (fun _ => true) (blocksOf ps) (writeLoop filedes bytes data ps c) := by
  induction ps generalizing c with
  | nil => exact Cache.Loads.nil wf
  | cons piece rest ih =>
      obtain ⟨offset, size⟩ := piece
      obtain ⟨absent, distinct⟩ := List.nodup_cons.mp distinct
      have here := one (offset, size) List.mem_cons_self
      rw [writeLoop_cons]
      refine Cache.Loads.cons id absent ?_ fun r wf₁ =>
        ih wf₁ (fun piece member => one piece (List.mem_cons_of_mem _ member)) distinct
      rw [Option.map_id]
      cases found : c.find filedes (blockOf offset) with
      | some block =>
          obtain ⟨-, answer, -⟩ := Cache.write_spec wf filedes offset (fun i => data (offset + i)) here.1
          obtain ⟨wf₁, units, same⟩ := write_keeps wf filedes here (fun i => data (offset + i))
          rw [found, Option.isSome_some] at answer
          rw [show c.write filedes offset size (fun i => data (offset + i)) = (_, true) from Prod.ext rfl answer]
          exact Cache.Loads.found found wf₁ units same
      | none =>
          rw [Cache.write_missing found]
          exact Cache.Loads.fetched wf found (blockOf_aligned offset) rfl _ fun c' wf' => write_keeps wf' filedes here _

theorem piecesFrom_zero (fuel offset : Nat) : piecesFrom fuel offset 0 = [] := by
  cases fuel with
  | zero => rfl
  | succ fuel => rw [piecesFrom, if_pos rfl]

/-- The pieces of a range are in blocks of their own. -/
theorem piecesFrom_blocks {fuel : Nat} (offset nbyte : Nat) (enough : nbyte ≤ fuel) :
    (blocksOf (piecesFrom fuel offset nbyte)).Nodup ∧
      (∀ a ∈ blocksOf (piecesFrom fuel offset nbyte), blockOf offset ≤ a) ∧
      nbyte ≤ (piecesFrom fuel offset nbyte).length * pfsBlockSizeInBytes := by
  induction fuel generalizing offset nbyte with
  | zero => exact ⟨List.nodup_nil, fun a member => (List.not_mem_nil member).elim, by omega⟩
  | succ fuel ih =>
      unfold piecesFrom
      split
      · next empty => exact ⟨List.nodup_nil, fun a member => (List.not_mem_nil member).elim, by omega⟩
      · next some =>
          have small : offset % pfsBlockSizeInBytes < pfsBlockSizeInBytes := Nat.mod_lt _ (by decide)
          obtain ⟨size, here⟩ : ∃ size, size = min (pfsBlockSizeInBytes - offset % pfsBlockSizeInBytes) nbyte := ⟨_, rfl⟩
          obtain ⟨distinct, later, count⟩ := ih (offset + size) (nbyte - size) (by omega)
          simp only [← here]
          have above : ∀ a ∈ blocksOf (piecesFrom fuel (offset + size) (nbyte - size)), blockOf offset < a := by
            intro a member
            by_cases last : nbyte - size = 0
            · rw [last, piecesFrom_zero] at member
              exact (List.not_mem_nil member).elim
            · have next : blockOf offset < blockOf (offset + size) := by
                simp only [blockOf, pfsBlockSizeInBytes] at here small last ⊢
                omega
              exact Nat.lt_of_lt_of_le next (later a member)
          refine ⟨List.nodup_cons.mpr ⟨fun member => Nat.lt_irrefl _ (above _ member), distinct⟩, ?_, ?_⟩
          · intro a member
            rcases List.mem_cons.mp member with rfl | member
            · exact Nat.le_refl _
            · exact Nat.le_of_lt (above a member)
          · rw [List.length_cons, Nat.succ_mul]
            omega

theorem pieces_nodup (offset nbyte : Nat) : (blocksOf (pieces offset nbyte)).Nodup :=
  (piecesFrom_blocks offset nbyte (Nat.le_refl nbyte)).1

theorem le_pieces (offset nbyte : Nat) : nbyte ≤ (pieces offset nbyte).length * pfsBlockSizeInBytes :=
  (piecesFrom_blocks offset nbyte (Nat.le_refl nbyte)).2.2

/-! ## What a client does to its cache -/

theorem evictBlocks_spent {client : PFSClient} {c' : Cache} {bytes' : FileBytes} {blocks : List Nat} (wf : c.WF)
    (done : client.evictBlocks filedes blocks c bytes = some (c', bytes')) : c.Spent c' 0 := by
  induction blocks generalizing c bytes with
  | nil =>
      obtain ⟨rfl, rfl⟩ := Prod.mk.inj (Option.some.inj done)
      exact ⟨wf, rfl⟩
  | cons first rest ih =>
      simp only [evictBlocks, Option.bind_eq_bind] at done
      obtain ⟨bytes₁, -, done⟩ := Option.bind_eq_some_iff.mp done
      obtain ⟨wf', left⟩ := ih (Cache.evictBlock_spec wf filedes first).1 done
      obtain ⟨L, rep, -⟩ := wf
      obtain ⟨-, -, -, -, units, -⟩ := Cache.evictBlock_rep rep filedes first
      exact ⟨wf', left.trans units⟩

theorem revokePermission_spent {client client' : PFSClient} {bytes' : FileBytes} {filename : String} {start stop : Nat}
    (wf : client.cache.WF) (done : client.revokePermission bytes filename start stop = some (client', bytes')) :
    client.cache.Spent client'.cache 0 := by
  unfold PFSClient.revokePermission at done
  split at done
  · obtain ⟨rfl, -⟩ := Prod.mk.inj (Option.some.inj done)
    exact ⟨wf, rfl⟩
  · simp only [Option.bind_eq_bind] at done
    obtain ⟨file, -, done⟩ := Option.bind_eq_some_iff.mp done
    obtain ⟨-, done⟩ := Option.ite_none_left_eq_some.mp done
    obtain ⟨⟨cache, bytes₁⟩, evicted, done⟩ := Option.bind_eq_some_iff.mp done
    obtain ⟨rfl, -⟩ := Prod.mk.inj (Option.some.inj done)
    exact evictBlocks_spent wf evicted

end PFSClient

namespace Cache

variable {c : Cache}

theorem flushIteration_spent (wf : c.WF) : c.Spent c.flushIteration.1 0 :=
  ⟨(flushIteration_spec wf).1, c.flushIteration_sameFree.2⟩

theorem harvestIteration_spent {c' : Cache} {flushed : Option CacheBlock} (wf : c.WF)
    (harvested : c.harvestIteration = some (c', flushed)) : c.Spent c' 0 := by
  refine ⟨(harvestIteration_spec wf harvested).1, ?_⟩
  obtain ⟨t, taken, same⟩ := Option.map_eq_some_iff.mp harvested
  obtain ⟨rfl, -⟩ := Prod.mk.inj same
  exact (harvest_sameFree taken).2

theorem Spent.trans {c₁ c₂ : Cache} {m n : Nat} (first : c.Spent c₁ m) (second : c₁.Spent c₂ n) : c.Spent c₂ (m + n) := by
  obtain ⟨-, left⟩ := first
  obtain ⟨wf, left'⟩ := second
  exact ⟨wf, by omega⟩

end Cache

/-! ## Runs of the system -/

namespace World

variable {Peer : Type} [DecidableEq Peer] {w w' : World Peer}

/-- The blocks a call has to fetch for a client. -/
def fetches (w : World Peer) (q : Peer) : Call Peer → Nat
  | .readFile peer filedes offset nbyte _ | .writeFile peer filedes offset nbyte _ _ =>
      if peer = q ∧ ((w.clients q).foundAt filedes).isSome = true then
        (w.clients q).cache.missing filedes (PFSClient.blocksOf (pieces offset nbyte))
      else 0
  | _ => 0

/-- The blocks a client has fetched in a run. -/
def fetchedIn (q : Peer) : World Peer → List (Call Peer) → Nat
  | _, [] => 0
  | w, call :: rest => w.fetches q call + (w.exec call).elim 0 fun w' => fetchedIn q w' rest

/-- Every client's cache is well-formed, and its tokens are the manager's. -/
structure Stocked (w : World Peer) : Prop where
  agree : w.Agree
  wf : ∀ q, (w.clients q).cache.WF

theorem revokeAll_spent {start stop : Nat} {order : List Peer} (wf : ∀ q, (w.clients q).cache.WF)
    (done : revokeAll start stop order w = some w') :
    (∀ q, (w.clients q).cache.Spent (w'.clients q).cache 0) ∧ ∀ q, q ∉ order → w'.clients q = w.clients q := by
  induction order generalizing w with
  | nil =>
      obtain rfl := Option.some.inj done
      exact ⟨fun q => ⟨wf q, rfl⟩, fun _ _ => rfl⟩
  | cons peer rest ih =>
      simp only [revokeAll, Option.bind_eq_bind] at done
      obtain ⟨⟨c, bytes⟩, revoked, done⟩ := Option.bind_eq_some_iff.mp done
      have first := PFSClient.revokePermission_spent (wf peer) revoked
      have spent : ∀ q, (w.clients q).cache.Spent ((setClient { w with bytes := bytes } peer c).clients q).cache 0 := by
        intro q
        by_cases same : q = peer
        · subst same
          rw [setClient_self]
          exact first
        · rw [setClient_other _ c same]
          exact ⟨wf q, rfl⟩
      obtain ⟨spent', spared⟩ := ih (fun q => (spent q).wf) done
      refine ⟨fun q => (spent q).trans (spent' q), fun q outside => ?_⟩
      rw [List.mem_cons, not_or] at outside
      rw [spared q outside.2, setClient_other _ c outside.1]

/-- Getting a token fetches nothing, and evicts only at other clients. -/
theorem acquirePermission_spent (h : w.Stocked) {peer : Peer} {filedes start stop : Nat} {write : Bool}
    {order : List Peer} {result : Option Nat}
    (done : w.acquirePermission peer filedes start stop write order = some (w', result)) :
    (∀ q, (w.clients q).cache.Spent (w'.clients q).cache 0) ∧ (w'.clients peer).cache = (w.clients peer).cache ∧
      result = (w.clients peer).foundAt filedes := by
  have same : ∀ q, (w.clients q).cache.Spent (w.clients q).cache 0 := fun q => ⟨h.wf q, rfl⟩
  rcases acquirePermission_cases done with ⟨rfl, rfl⟩ | ⟨i, file, rfl, found, -, ⟨-, rfl⟩ | slow⟩
  · exact ⟨same, rfl, (acquirePermission_refused h.agree done).symm⟩
  · exact ⟨same, rfl, found.symm⟩
  · obtain ⟨-, manager, grant, w₂, file₂, permissions, asked, perm, revoked, -, -, rfl⟩ := slow
    obtain ⟨spent, spared⟩ := revokeAll_spent (w := { w with manager := manager }) h.wf revoked
    have outside : peer ∉ order := by
      obtain ⟨-, others, -⟩ := MMFile.waitAndGetPermissionFor_spec asked
      rw [perm.mem_iff, others, MMFile.mem_conflicting]
      exact fun clash => clash.1 rfl
    have own : ((w₂.setClient peer ((w₂.clients peer).setFile i { file₂ with permissions := permissions })).clients peer).cache =
        (w.clients peer).cache := by
      rw [setClient_self, PFSClient.setFile, spared peer outside]
    refine ⟨fun q => ?_, own, found.symm⟩
    by_cases here : q = peer
    · subst here
      rw [own]
      exact same q
    · rw [setClient_other _ _ here]
      exact spent q

/-- A read or a write that has its token. -/
theorem loaded_spent {w₁ : World Peer} {peer : Peer} {filedes offset nbyte i : Nat} {c : PFSClient}
    (before : ∀ q, (w.clients q).cache.Spent (w₁.clients q).cache 0)
    (own : (w₁.clients peer).cache = (w.clients peer).cache) (found : some i = (w.clients peer).foundAt filedes)
    (loaded : (w₁.clients peer).cache.Spent c.cache
      (2 * (w₁.clients peer).cache.missing filedes (PFSClient.blocksOf (pieces offset nbyte)))) (q : Peer) :
    (w.clients q).cache.Spent ((w₁.setClient peer c).clients q).cache
      (2 * if peer = q ∧ ((w.clients q).foundAt filedes).isSome = true then
        (w.clients q).cache.missing filedes (PFSClient.blocksOf (pieces offset nbyte)) else 0) := by
  by_cases here : q = peer
  · subst here
    rw [setClient_self, if_pos ⟨rfl, by rw [← found, Option.isSome_some]⟩, ← own]
    exact loaded
  · rw [setClient_other _ c here, if_neg fun both => here both.1.symm]
    exact before q

theorem readFile_spent (h : w.Stocked) {peer : Peer} {filedes offset nbyte : Nat} {order : List Peer}
    {result : Option (Nat → UInt8)} (done : w.readFile peer filedes offset nbyte order = some (w', result)) (q : Peer) :
    (w.clients q).cache.Spent (w'.clients q).cache (2 * w.fetches q (.readFile peer filedes offset nbyte order)) := by
  obtain ⟨w₁, acquired, acquiring, shape⟩ := readFile_cases done
  obtain ⟨before, own, found⟩ := acquirePermission_spent h acquiring
  rcases shape with ⟨rfl, rfl, -⟩ | ⟨i, c, buffer, rfl, read, rfl, -⟩
  · rw [fetches, if_neg]
    · exact before q
    · rintro ⟨rfl, opened⟩
      rw [← found] at opened
      cases opened
  · refine loaded_spent before own found ?_ q
    simp only [PFSClient.readBytes, Option.bind_eq_bind] at read
    obtain ⟨⟨cache, buffer'⟩, looped, read⟩ := Option.bind_eq_some_iff.mp read
    obtain ⟨file, -, read⟩ := Option.bind_eq_some_iff.mp read
    obtain ⟨rfl, -⟩ := Prod.mk.inj (Option.some.inj read)
    exact (PFSClient.readLoop_loads (before peer).wf (PFSClient.pieces_nodup offset nbyte) _).spent cache
      (congrArg (Option.map Prod.fst) looped)

theorem writeFile_spent (h : w.Stocked) {peer : Peer} {filedes offset nbyte : Nat} {data : Nat → UInt8}
    {order : List Peer} {wrote : Bool} (done : w.writeFile peer filedes offset nbyte data order = some (w', wrote))
    (q : Peer) : (w.clients q).cache.Spent (w'.clients q).cache
      (2 * w.fetches q (.writeFile peer filedes offset nbyte data order)) := by
  obtain ⟨w₁, acquired, acquiring, shape⟩ := writeFile_cases done
  obtain ⟨before, own, found⟩ := acquirePermission_spent h acquiring
  rcases shape with ⟨rfl, rfl, -⟩ | ⟨i, c, rfl, written, rfl, -⟩
  · rw [fetches, if_neg]
    · exact before q
    · rintro ⟨rfl, opened⟩
      rw [← found] at opened
      cases opened
  · refine loaded_spent before own found ?_ q
    simp only [PFSClient.writeBytes, Option.bind_eq_bind] at written
    obtain ⟨cache, looped, written⟩ := Option.bind_eq_some_iff.mp written
    obtain ⟨file, -, written⟩ := Option.bind_eq_some_iff.mp written
    obtain rfl := Option.some.inj written
    exact (PFSClient.writeLoop_loads (before peer).wf (PFSClient.pieces_oneBlock offset nbyte)
      (PFSClient.pieces_nodup offset nbyte) _).spent cache looped

/-- One client's cache changes and nothing is fetched. -/
theorem setClient_spent {v : World Peer} (wf : ∀ q, (w.clients q).cache.WF) (clients : v.clients = w.clients) {peer : Peer}
    {c : PFSClient} (own : (w.clients peer).cache.Spent c.cache 0) (q : Peer) :
    (w.clients q).cache.Spent ((v.setClient peer c).clients q).cache 0 := by
  by_cases here : q = peer
  · subst here
    rw [setClient_self]
    exact own
  · rw [setClient_other _ c here, clients]
    exact ⟨wf q, rfl⟩

theorem openFile_spent (h : w.Stocked) (peer q : Peer) :
    (w.clients q).cache.Spent ((w.openFile peer).1.clients q).cache 0 := by
  simp only [openFile]
  split
  · exact ⟨h.wf q, rfl⟩
  · refine setClient_spent h.wf ?_ ?_ q
    · rfl
    · exact ⟨h.wf peer, rfl⟩

/-- A step takes two units of a client's semaphore for each block it fetches there. -/
theorem exec_spent (h : w.Stocked) {call : Call Peer} (ran : w.exec call = some w') (q : Peer) :
    (w.clients q).cache.Spent (w'.clients q).cache (2 * w.fetches q call) := by
  cases call with
  | openFile peer =>
      obtain rfl := Option.some.inj ran
      exact openFile_spent h peer q
  | readFile peer filedes offset nbyte order =>
      obtain ⟨⟨_, result⟩, done, rfl⟩ := Option.map_eq_some_iff.mp ran
      exact readFile_spent h done q
  | writeFile peer filedes offset nbyte data order =>
      obtain ⟨⟨_, wrote⟩, done, rfl⟩ := Option.map_eq_some_iff.mp ran
      exact writeFile_spent h done q
  | closeFile peer filedes now =>
      obtain ⟨i, file, cache, bytes, manager, -, evicted, -, -, rfl⟩ := closeFile_cases ran
      rw [PFSClient.evictTokens_eq] at evicted
      exact setClient_spent h.wf rfl (PFSClient.evictBlocks_spent (h.wf peer) evicted) q
  | flush peer =>
      obtain ⟨bytes, -, rfl⟩ := flush_cases ran
      exact setClient_spent h.wf rfl (Cache.flushIteration_spent (h.wf peer)) q
  | harvest peer =>
      obtain ⟨cache, block, bytes, harvested, -, rfl⟩ := harvest_cases ran
      exact setClient_spent h.wf rfl (Cache.harvestIteration_spent (h.wf peer) harvested) q

theorem Stocked.step (h : w.Stocked) (step : machine.Step w w') : w'.Stocked := by
  refine ⟨step_agree h.agree step, fun q => ?_⟩
  obtain ⟨call, -, ran⟩ := step
  exact (exec_spent h ran q).wf

theorem Stocked.initial (start : w.Initial) : w.Stocked := by
  refine ⟨initial_agree start, fun q => ?_⟩
  rw [start.2 q]
  exact Cache.init_wf

theorem Stocked.run (h : w.Stocked) {calls : List (Call Peer)} (ran : machine.run w calls = some w') (q : Peer) :
    w'.Stocked ∧ (w.clients q).cache.Spent (w'.clients q).cache (2 * fetchedIn q w calls) := by
  induction calls generalizing w with
  | nil =>
      obtain rfl := Option.some.inj ran
      exact ⟨h, h.wf q, rfl⟩
  | cons call rest ih =>
      obtain ⟨allowed, w₁, first, ran⟩ := machine.run_cons.mp ran
      obtain ⟨after, spent⟩ := ih (h.step ⟨call, allowed, first⟩) ran
      refine ⟨after, ?_⟩
      rw [fetchedIn, show w.exec call = some w₁ from first, Option.elim_some, Nat.mul_add]
      exact (exec_spent h first q).trans spent

/-- In every run a client fetches at most half as many blocks as its cache has, whatever is
    evicted in between; a call that would need more does not return. -/
theorem fetched_le_half {w w' : World Peer} (start : w.Initial) {calls : List (Call Peer)}
    (ran : machine.run w calls = some w') (q : Peer) :
    fetchedIn q w calls ≤ blockCount / 2 ∧
      ∀ call, blockCount / 2 < fetchedIn q w calls + w'.fetches q call → w'.exec call = none := by
  obtain ⟨after, spent⟩ := (Stocked.initial start).run ran q
  have first : (w.clients q).cache.freeBlockSemaphore = blockCount := by
    rw [start.2 q]
    rfl
  have large : blockCount = 2048 := rfl
  have left := spent.left
  refine ⟨by omega, fun call more => ?_⟩
  cases next : w'.exec call with
  | none => rfl
  | some w'' =>
      have left' := (exec_spent after next q).left
      omega

theorem fetched_le_half_writerAndReader : ∃ w' : World Nat,
    machine.run blank [.openFile 1, .openFile 2, .writeFile 1 1 0 2 (fun _ => 7) [], .readFile 2 1 1 1 [1]] = some w' ∧
      fetchedIn 2 blank [.openFile 1, .openFile 2, .writeFile 1 1 0 2 (fun _ => 7) [], .readFile 2 1 1 1 [1]] ≤ 1024 :=
  ⟨_, rfl, (fetched_le_half ⟨rfl, fun _ => rfl⟩ rfl 2).1⟩

/-- A read or a write of more bytes than half the cache holds never returns. -/
theorem large_never_returns {w : World Peer} (reach : Reachable Initial machine.Step w) {peer : Peer}
    {filedes offset nbyte : Nat} (opened : ((w.clients peer).foundAt filedes).isSome = true)
    (large : blockCount / 2 * pfsBlockSizeInBytes < nbyte) (order : List Peer) :
    w.readFile peer filedes offset nbyte order = none ∧
      ∀ data, w.writeFile peer filedes offset nbyte data order = none := by
  have h : w.Stocked := reach.invariant Stocked (fun _ => Stocked.initial) (fun _ _ h => h.step)
  have few := (h.wf peer).found_le filedes (PFSClient.pieces_nodup offset nbyte)
  have whole := (w.clients peer).cache.found_add_missing filedes (PFSClient.blocksOf (pieces offset nbyte))
  have count := PFSClient.le_pieces offset nbyte
  have blocks : (PFSClient.blocksOf (pieces offset nbyte)).length = (pieces offset nbyte).length := List.length_map _
  have size : blockCount = 2048 := rfl
  have many : blockCount / 2 < (pieces offset nbyte).length := by
    by_contra less
    have := Nat.mul_le_mul_right pfsBlockSizeInBytes (Nat.not_lt.mp less)
    omega
  constructor
  · cases done : w.readFile peer filedes offset nbyte order with
    | none => rfl
    | some r =>
        obtain ⟨w', result⟩ := r
        have left := (readFile_spent h done peer).left
        rw [fetches, if_pos ⟨rfl, opened⟩] at left
        omega
  · intro data
    cases done : w.writeFile peer filedes offset nbyte data order with
    | none => rfl
    | some r =>
        obtain ⟨w', wrote⟩ := r
        have left := (writeFile_spent h done peer).left
        rw [fetches, if_pos ⟨rfl, opened⟩] at left
        omega

theorem large_never_returns_opened : (blank.openFile 1).1.readFile 1 1 0 (1024 * pfsBlockSizeInBytes + 1) [] = none := by
  have reach : Reachable Initial machine.Step (blank.openFile 1).1 :=
    (Reachable.init ⟨rfl, fun _ => rfl⟩).tail ⟨.openFile 1, trivial, rfl⟩
  exact (large_never_returns reach rfl (by decide) []).1

end World

end PFS
