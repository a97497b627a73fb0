import PFS.Client.Revocation

/-! # The block walks

The loops of `PFSClient::revokePermission` and `PFSClient::closeFile` step the
`uint32_t` `blockAddr` by a block while it is not past the end of a range.  A range that
ends in the last block of the address space has no address past its end: `blockAddr`
goes from the last block to address 0 and the loop does not end.
-/

namespace PFS

/-- `blocks` are the addresses of the blocks from the one of `start` up to `stop`, each
    once. -/
structure Visits (start stop : Nat) (blocks : List Nat) : Prop where
  once : blocks.Nodup
  exactly : ∀ a, a ∈ blocks ↔ a % pfsBlockSizeInBytes = 0 ∧ blockOf start ≤ a ∧ a ≤ stop

/-- The loop of `closeFile` over the tokens of the file, one walk a token. -/
def tokenWalks (fuel : Nat) : List Permission → Option (List (List Nat))
  | [] => some []
  | p :: rest => do
      let blocks ← blockWalk p.stop fuel (blockOf p.start)
      let walks ← tokenWalks fuel rest
      some (blocks :: walks)

theorem blocksFrom_visits (start stop : Nat) : Visits start stop (blocksFrom start stop) := by
  constructor
  · apply List.Nodup.map _ List.nodup_range
    intro i j same
    simp only [pfsBlockSizeInBytes] at same
    omega
  · intro a
    rw [mem_blocksFrom]
    simp only [blockOf, pfsBlockSizeInBytes]
    omega

/-- In the last block of the address space every address of a block is at most `stop`. -/
theorem blockWalk_wraps {stop blockAddr : Nat} (top : uint32Size ≤ stop + pfsBlockSizeInBytes)
    (aligned : blockAddr % pfsBlockSizeInBytes = 0) (wide : blockAddr < uint32Size) (fuel : Nat) :
    blockWalk stop fuel blockAddr = none := by
  induction fuel generalizing blockAddr with
  | zero => rfl
  | succ fuel ih =>
      have here : blockAddr ≤ stop := by
        simp only [uint32Size, pfsBlockSizeInBytes] at *
        omega
      have next : blockWalk stop fuel ((blockAddr + pfsBlockSizeInBytes) % uint32Size) = none := by
        apply ih
        · simp only [uint32Size, pfsBlockSizeInBytes] at *
          omega
        · exact Nat.mod_lt _ (by decide)
      rw [blockWalk, if_pos here, next]
      rfl

theorem blockOf_wide {start : Nat} (wide : start < uint32Size) : blockOf start < uint32Size :=
  Nat.lt_of_le_of_lt (blockOf_le start) wide

/-- The walk of one range ends exactly when the range ends before the last block. -/
theorem blockWalk_ends_iff {start stop : Nat} (wide : start < uint32Size) :
    (∃ fuel blocks, blockWalk stop fuel (blockOf start) = some blocks) ↔ stop + pfsBlockSizeInBytes < uint32Size := by
  constructor
  · rintro ⟨fuel, blocks, ended⟩
    by_contra top
    rw [blockWalk_wraps (Nat.le_of_not_lt top) (blockOf_aligned start) (blockOf_wide wide)] at ended
    cases ended
  · intro small
    exact ⟨_, _, blockWalk_blocksFrom small⟩

/-- The fuel `revokePermission` has is enough: a walk that does not end with it never
    does. -/
theorem blockWalk_fuel {start stop : Nat} (wide : start < uint32Size)
    (stuck : blockWalk stop (blockAddresses + 1) (blockOf start) = none) (fuel : Nat) :
    blockWalk stop fuel (blockOf start) = none := by
  apply blockWalk_wraps _ (blockOf_aligned start) (blockOf_wide wide)
  by_contra small
  rw [blockWalk_blocksFrom (Nat.lt_of_not_le small)] at stuck
  cases stuck

/-- Below the last block the walks of the tokens are the lists of their blocks. -/
theorem tokenWalks_blocksFrom {l : List Permission} (small : ∀ p ∈ l, p.stop + pfsBlockSizeInBytes < uint32Size) :
    tokenWalks (blockAddresses + 1) l = some (l.map fun p => blocksFrom p.start p.stop) := by
  induction l with
  | nil => rfl
  | cons p rest ih =>
      have first : blockWalk p.stop (blockAddresses + 1) (blockOf p.start) = some (blocksFrom p.start p.stop) :=
        blockWalk_blocksFrom (small p List.mem_cons_self)
      have others := ih fun q member => small q (List.mem_cons_of_mem p member)
      simp only [tokenWalks, first, others, Option.bind_eq_bind, Option.bind_some, List.map_cons]

/-- `closeFile` evicts what the walks pass to `evictBlock`. -/
theorem tokenWalks_tokenBlocks {l : List Permission} (small : ∀ p ∈ l, p.stop + pfsBlockSizeInBytes < uint32Size) :
    (tokenWalks (blockAddresses + 1) l).map List.flatten = some (PFSClient.tokenBlocks l) := by
  rw [tokenWalks_blocksFrom small, Option.map_some, PFSClient.tokenBlocks, List.flatMap_def]

theorem tokenWalks_walk {fuel : Nat} {l : List Permission} {walks : List (List Nat)}
    (ended : tokenWalks fuel l = some walks) {p : Permission} (member : p ∈ l) :
    ∃ blocks, blockWalk p.stop fuel (blockOf p.start) = some blocks := by
  induction l generalizing walks with
  | nil => cases member
  | cons q rest ih =>
      simp only [tokenWalks, Option.bind_eq_bind] at ended
      obtain ⟨blocks, first, ended⟩ := Option.bind_eq_some_iff.mp ended
      obtain ⟨others, last, -⟩ := Option.bind_eq_some_iff.mp ended
      rcases List.mem_cons.mp member with rfl | member
      · exact ⟨blocks, first⟩
      · exact ih last member

/-- Both loops end, having passed each block of each range to `evictBlock` once, exactly
    when no range reaches into the last block of the address space. -/
theorem blockWalks_exact {start stop : Nat} (ordered : start ≤ stop) (wide : stop < uint32Size) {l : List Permission}
    (ranges : ∀ p ∈ l, p.start ≤ p.stop ∧ p.stop < uint32Size) :
    ((∃ fuel blocks, blockWalk stop fuel (blockOf start) = some blocks ∧ Visits start stop blocks) ↔
        stop + pfsBlockSizeInBytes < uint32Size) ∧
      ((∃ fuel walks, tokenWalks fuel l = some walks ∧
          List.Forall₂ (fun p blocks => Visits p.start p.stop blocks) l walks) ↔
        ∀ p ∈ l, p.stop + pfsBlockSizeInBytes < uint32Size) := by
  refine ⟨⟨?_, ?_⟩, ⟨?_, ?_⟩⟩
  · rintro ⟨fuel, blocks, ended, -⟩
    exact (blockWalk_ends_iff (Nat.lt_of_le_of_lt ordered wide)).mp ⟨fuel, blocks, ended⟩
  · intro small
    exact ⟨_, _, blockWalk_blocksFrom small, blocksFrom_visits start stop⟩
  · rintro ⟨fuel, walks, ended, -⟩ p member
    obtain ⟨blocks, walk⟩ := tokenWalks_walk ended member
    obtain ⟨low, high⟩ := ranges p member
    exact (blockWalk_ends_iff (Nat.lt_of_le_of_lt low high)).mp ⟨fuel, blocks, walk⟩
  · intro small
    refine ⟨_, _, tokenWalks_blocksFrom small, ?_⟩
    rw [List.forall₂_map_right_iff, List.forall₂_same]
    exact fun p _ => blocksFrom_visits p.start p.stop

/-- Two tokens of one block each, and a range over two blocks. -/
theorem blockWalks_exact_small :
    (∃ fuel blocks, blockWalk 1024 fuel (blockOf 100) = some blocks ∧ Visits 100 1024 blocks) ∧
      ∃ fuel walks, tokenWalks fuel [⟨0, 10, true, false, []⟩, ⟨10, 20, false, false, []⟩] = some walks ∧
        List.Forall₂ (fun (p : Permission) blocks => Visits p.start p.stop blocks)
          [⟨0, 10, true, false, []⟩, ⟨10, 20, false, false, []⟩] walks := by
  have ordered : 100 ≤ 1024 := by decide
  have ranges : ∀ p ∈ [(⟨0, 10, true, false, []⟩ : Permission), ⟨10, 20, false, false, []⟩],
      p.start ≤ p.stop ∧ p.stop < uint32Size := by decide
  obtain ⟨one, tokens⟩ := blockWalks_exact ordered (by decide) ranges
  exact ⟨one.mpr (by decide), tokens.mpr (by decide)⟩

/-- The token a second client gets for a read of 100 bytes in the last block: the walk of
    `closeFile` over it, and that of a revocation of the range, do not end. -/
theorem blockWalks_lastBlock :
    addPermission 4294967000 4294967100 false [] true = some [⟨4294967000, 4294967100, false, true, []⟩] ∧
      ∀ fuel, tokenWalks fuel [⟨4294967000, 4294967100, false, false, []⟩] = none ∧
        blockWalk 4294967100 fuel (blockOf 4294967000) = none := by
  refine ⟨by decide, fun fuel => ?_⟩
  have walk : blockWalk 4294967100 fuel (blockOf 4294967000) = none :=
    blockWalk_wraps (by decide) (by decide) (by decide) fuel
  exact ⟨by rw [tokenWalks, walk]; rfl, walk⟩

/-- A revocation that reaches into the last block is not answered. -/
theorem Revocation.revokePermission_lastBlock {s : ManyFiles} {file : ClientFile} (opened : file ∈ s.client.openedFiles)
    {start stop : Nat} (wide : start < uint32Size) (top : uint32Size ≤ stop + pfsBlockSizeInBytes) :
    Revocation.revokePermission s file.name start stop = none := by
  rw [Revocation.revokePermission]
  split
  · next missing =>
      rw [List.findIdx?_eq_none_iff] at missing
      exact absurd (missing file opened) (by simp)
  · next i found =>
      rw [blockWalk_wraps top (blockOf_aligned start) (blockOf_wide wide)]
      cases s.client.openedFiles[i]? with
      | none => rfl
      | some file' => simp only [Option.bind_eq_bind, Option.bind_some, Option.bind_none, ite_self]

end PFS
