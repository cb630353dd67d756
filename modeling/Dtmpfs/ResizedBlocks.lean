import Dtmpfs.PlacedBlocks
import Dtmpfs.HandleContent

/-! What `set_attr` does to the blocks of a file it makes smaller. The cut is computed in
blocks of 2^20 bytes, whatever size the clients write in. -/
namespace Dtmpfs
open MetaService MetaState OrderedMap FlatFile Cluster

/-- The number of blocks of a file of `n` bytes, rounded up. -/
def blockCount (n : Nat) : Nat := (n + truncateBlockSize - 1) / truncateBlockSize

theorem lt_blockCount (idx n : Nat) : idx < blockCount n ↔ idx * truncateBlockSize < n := by
  have positive : 0 < truncateBlockSize := by decide
  unfold blockCount
  generalize truncateBlockSize = size at *
  rw [Nat.lt_iff_add_one_le,Nat.le_div_iff_mul_le positive,Nat.succ_mul]
  omega

/-- The blocks after the last one kept. -/
theorem lastIdx_lt (n idx : Nat) : lastIdx n < idx ↔ 0 < idx ∧ n ≤ idx * truncateBlockSize := by
  have positive : 0 < truncateBlockSize := by decide
  unfold lastIdx
  split
  next empty =>
    rw [empty]
    exact (and_iff_left (Nat.zero_le _)).symm
  next some =>
    rw [Nat.div_lt_iff_lt_mul positive]
    constructor
    · intro past
      refine ⟨Nat.pos_of_ne_zero ?_,by omega⟩
      intro zero
      rw [zero,Nat.zero_mul] at past
      cases past
    · intro past
      omega

section Cut

variable {host : Host} {r : SetAttrReq} {n : Nat} {s : MetaState} {inode : Inode} {attr : Attr}

theorem setAttr_sized (host : Host) (found : s.inodes[r.ino]? = some inode) (size : r.size = some n)
    (answered : (setAttr host r s).reply = .ok attr) :
    ∃ after, (setAttr host r s).state.inodes[r.ino]? = some after ∧ after.blocks = (resize (some n) inode).1.blocks ∧
      (setAttr host r s).deletes = fireDeleteBlocks s r.ino (resize (some n) inode).2 := by
  rcases setAttr_cases host r s with ⟨missing,_⟩ | ⟨old,after,found',_,_,state,outcome⟩
  · rw [found] at missing
    cases missing
  · cases found.symm.trans found'
    rcases outcome with ⟨panicked,_⟩ | ⟨_,_,blocks,deletes⟩
    · rw [panicked] at answered
      cases answered
    · rw [size] at blocks deletes
      refine ⟨after,?_,blocks,deletes⟩
      rw [state]
      simp only [putInode,get_insert,if_true]

theorem kept_block (n : Nat) (inode : Inode) (idx : BlockIdx) :
    (resize (some n) inode).1.blocks[idx]? = if drops inode.size n idx = true then none else inode.blocks[idx]? := by
  simp only [resize,get_filter]
  cases drops inode.size n idx <;> cases inode.blocks[idx]? <;> rfl

theorem dropped_block (n : Nat) (inode : Inode) (idx : BlockIdx) (placement : BlockPlacement) :
    (idx,placement) ∈ (resize (some n) inode).2 ↔ inode.blocks[idx]? = some placement ∧ drops inode.size n idx = true := by
  simp only [resize,Std.ExtTreeMap.mem_toList_iff_getElem?_eq_some,get_filter,Option.filter_eq_some_iff]

theorem drops_iff (size n idx : Nat) : drops size n idx = true ↔ n < size ∧ 0 < idx ∧ n ≤ idx * truncateBlockSize := by
  rw [drops,Bool.and_eq_true,decide_eq_true_iff,decide_eq_true_iff,lastIdx_lt]

/-- Where block 0 is not in question, the blocks dropped are those past the new end. -/
theorem drops_past_iff (smaller : n < inode.size) (uncut : 0 < n ∨ inode.blocks[(0 : BlockIdx)]? = none) {idx : BlockIdx}
    {placement : BlockPlacement} (placed : inode.blocks[idx]? = some placement) :
    drops inode.size n idx = true ↔ blockCount n ≤ idx := by
  have past_iff : blockCount n ≤ idx ↔ n ≤ idx * truncateBlockSize := by
    rw [← Nat.not_lt,lt_blockCount,Nat.not_lt]
  rw [drops_iff,past_iff]
  constructor
  · intro past
    exact past.2.2
  · intro past
    refine ⟨smaller,Nat.pos_of_ne_zero ?_,past⟩
    intro first
    subst first
    rcases uncut with some | unplaced
    · rw [Nat.zero_mul] at past
      exact Nat.not_lt_of_le past some
    · rw [unplaced] at placed
      cases placed

/-- The blocks past the new end, and only they, lose their placement and are deleted on
every registered node of it. -/
def CutsPastEnd (host : Host) (r : SetAttrReq) (n : Nat) (s : MetaState) (inode : Inode) : Prop :=
  (∃ after, (setAttr host r s).state.inodes[r.ino]? = some after ∧
    ∀ idx : BlockIdx, after.blocks[idx]? = if idx < blockCount n then inode.blocks[idx]? else none) ∧
  ∀ d, d ∈ (setAttr host r s).deletes ↔ ∃ idx placement node info, blockCount n ≤ idx ∧ inode.blocks[idx]? = some placement ∧
    node ∈ placement.nodes ∧ s.nodes[node]? = some info ∧ d = ⟨node,"http://" ++ info.addr,⟨r.ino,idx,0⟩⟩

/-- Block 0 is never cut off, not even of a file that is left without any bytes. -/
theorem cuts_past_end_iff (found : s.inodes[r.ino]? = some inode) (size : r.size = some n) (smaller : n < inode.size)
    (answered : (setAttr host r s).reply = .ok attr) :
    CutsPastEnd host r n s inode ↔ 0 < n ∨ inode.blocks[(0 : BlockIdx)]? = none := by
  obtain ⟨after,stored,blocks,deletes⟩ := setAttr_sized host found size answered
  have zero : ¬ drops inode.size n 0 = true := fun dropped => Nat.lt_irrefl 0 ((drops_iff _ _ _).mp dropped).2.1
  constructor
  · intro cuts
    rcases Nat.eq_zero_or_pos n with empty | some
    · right
      obtain ⟨⟨after',stored',cut⟩,_⟩ := cuts
      cases stored.symm.trans stored'
      have first := cut 0
      rw [blocks,kept_block,if_neg zero,if_neg] at first
      · exact first
      · rw [lt_blockCount,empty]
        exact Nat.not_lt_zero _
    · exact .inl some
  · intro uncut
    have dropped (idx : BlockIdx) (placement : BlockPlacement) (placed : inode.blocks[idx]? = some placement) :=
      drops_past_iff smaller uncut placed
    refine ⟨⟨after,stored,?_⟩,?_⟩
    · intro idx
      rw [blocks,kept_block]
      cases placed : inode.blocks[idx]? with
      | none => simp only [ite_self]
      | some placement =>
        rcases Nat.lt_or_ge idx (blockCount n) with inside | past
        · rw [if_pos inside,if_neg (fun cut => Nat.not_le_of_lt inside ((dropped idx placement placed).mp cut))]
        · rw [if_neg (Nat.not_lt_of_le past),if_pos ((dropped idx placement placed).mpr past)]
    · intro d
      rw [deletes,mem_fireDeleteBlocks]
      constructor
      · intro sent
        obtain ⟨idx,placement,node,info,member,listed,registered,same⟩ := sent
        obtain ⟨placed,past⟩ := (dropped_block n inode idx placement).mp member
        exact ⟨idx,placement,node,info,(dropped idx placement placed).mp past,placed,listed,registered,same⟩
      · intro due
        obtain ⟨idx,placement,node,info,past,placed,listed,registered,same⟩ := due
        exact ⟨idx,placement,node,info,(dropped_block n inode idx placement).mpr ⟨placed,(dropped idx placement placed).mpr past⟩,
          listed,registered,same⟩

end Cut

/-- A file of `size` bytes with blocks 0 and 1 on the node `n`. -/
def twoBlockFile (size : Nat) : MetaState :=
  run [(Host.still,Call.heartbeatNode 0 ⟨"n","a",0,0,0⟩),(Host.still,Call.create ⟨ROOT,"f",0,0,0⟩),
    (Host.still,Call.allocateBlocks 2 [0,1]),(Host.still,Call.close ⟨1,2,0,size,0,0,[0,1]⟩)] (new 0 1)

def sizeTo (n : Nat) : SetAttrReq := ⟨2,some n,none,none,none,none,none,none,none⟩

theorem cuts_past_end_iff_boundary : ∃ inode, (twoBlockFile (2^20 + 1)).inodes[(2 : InodeId)]? = some inode ∧
    CutsPastEnd Host.still (sizeTo (2^20)) (2^20) (twoBlockFile (2^20 + 1)) inode :=
  ⟨_,rfl,(cuts_past_end_iff rfl rfl (by decide) rfl).mpr (.inl (by decide))⟩

theorem empty_file_keeps_block : ∃ inode, (twoBlockFile 1).inodes[(2 : InodeId)]? = some inode ∧ 0 < inode.size ∧
    placementOf (setAttr Host.still (sizeTo 0) (twoBlockFile 1)).state (sizeTo 0).ino 0 = some ⟨"n",[]⟩ ∧
    ¬ CutsPastEnd Host.still (sizeTo 0) 0 (twoBlockFile 1) inode := by
  have found : (twoBlockFile 1).inodes[(sizeTo 0).ino]? = some _ := rfl
  obtain ⟨after,stored,blocks,_⟩ := setAttr_sized Host.still found rfl rfl
  have kept : placementOf (setAttr Host.still (sizeTo 0) (twoBlockFile 1)).state (sizeTo 0).ino 0 = some ⟨"n",[]⟩ := by
    rw [placementOf_of stored,blocks,kept_block,if_neg (by decide)]
    rfl
  refine ⟨_,found,by decide,kept,?_⟩
  intro cuts
  obtain ⟨⟨after,stored,cut⟩,_⟩ := cuts
  have none := cut 0
  rw [if_neg (by decide),← placementOf_of stored] at none
  exact nomatch kept.symm.trans none

section Blocks

variable {bs n : Nat} {host : Host} {r : SetAttrReq} {s : MetaState} {inode : Inode} {attr : Attr}

/-- Blocks with bytes below the new size keep their placement and are not deleted, and a
file opened before and one opened afterwards read the same bytes there. -/
structure KeepsBelow (bs n : Nat) (host : Host) (r : SetAttrReq) (s : MetaState) (inode : Inode) : Prop where
  blocks : ∀ (idx : BlockIdx) (placement : BlockPlacement), inode.blocks[idx]? = some placement → idx * bs < n →
    placementOf (setAttr host r s).state r.ino idx = some placement ∧ ∀ d ∈ (setAttr host r s).deletes, d.key.blockIdx ≠ idx
  bytes : ∀ (o : OpenReq) before after, o.ino = r.ino → openRead o s = .ok before → openRead o (setAttr host r s).state = .ok after →
    ∀ stored answer answer' cache cache' off size told told', off + size ≤ min n inode.size →
      OpenFile.Steady bs stored answer (snapshotFile before) cache → OpenFile.Steady bs stored answer' (snapshotFile after) cache' →
      (OpenFile.read bs answer (snapshotFile before) off size cache).1 = .ok told →
      (OpenFile.read bs answer' (snapshotFile after) off size cache').1 = .ok told' → told' = told

/-- Handles on the same dirty blocks read the same bytes, where every block that begins
before the end of the read is placed alike. -/
theorem OpenFile.read_agrees (positive : 0 < bs) {file file' : OpenFile} {stored : BlockIdx → Bytes}
    {answer answer' : BlockIdx → NodeId → NodeAnswer} {cache cache' : BlockCache} {off size : Nat} {told told' : Bytes}
    (dirty : file'.dirty = file.dirty) (placed : ∀ idx : Nat, idx * bs < off + size → file'.blockMap[idx]? = file.blockMap[idx]?)
    (steady : Steady bs stored answer file cache) (steady' : Steady bs stored answer' file' cache')
    (done : (read bs answer file off size cache).1 = .ok told) (done' : (read bs answer' file' off size cache').1 = .ok told') :
    told' = told := by
  rw [read_flat positive steady done,read_flat positive steady' done']
  unfold Flat.slice
  apply List.map_congr_left
  intro k member
  have low := List.mem_range.mp member
  obtain ⟨below,_⟩ := block_bounds positive (off + k)
  have place := placed ((off + k) / bs) (Nat.lt_of_le_of_lt below (Nat.add_lt_add_left low off))
  simp only [flat,content,dirty,Std.ExtTreeMap.contains_eq_isSome_getElem?,place]

/-- Nothing is lost exactly when no block that begins before the new end counts as one
after it in blocks of 2^20 bytes. -/
theorem keeps_below_iff (positive : 0 < bs) (found : s.inodes[r.ino]? = some inode) (size : r.size = some n)
    (answered : (setAttr host r s).reply = .ok attr) : KeepsBelow bs n host r s inode ↔
      inode.size ≤ n ∨ ∀ (idx : BlockIdx) (placement : BlockPlacement), inode.blocks[idx]? = some placement → idx * bs < n →
        idx * truncateBlockSize < n := by
  obtain ⟨after,stored,blocks,deletes⟩ := setAttr_sized host found size answered
  have entry (idx : BlockIdx) : placementOf (setAttr host r s).state r.ino idx =
      if drops inode.size n idx = true then none else inode.blocks[idx]? := by
    rw [placementOf_of stored,blocks,kept_block]
  constructor
  · intro keeps
    rcases Nat.lt_or_ge n inode.size with smaller | larger
    · right
      intro idx placement placed below
      have kept := (keeps.blocks idx placement placed below).1
      rw [entry] at kept
      split at kept
      next => cases kept
      next uncut =>
        rw [drops_iff] at uncut
        rcases Nat.lt_or_ge (idx * truncateBlockSize) n with here | past
        · exact here
        · have first : idx = 0 := by
            by_contra later
            exact uncut ⟨smaller,Nat.pos_of_ne_zero later,past⟩
          rw [first,Nat.zero_mul] at below ⊢
          exact below
    · exact .inl larger
  · intro uncut
    have kept (idx : BlockIdx) (placement : BlockPlacement) (placed : inode.blocks[idx]? = some placement) (below : idx * bs < n) :
        ¬ drops inode.size n idx = true := by
      intro cut
      obtain ⟨smaller,_,past⟩ := (drops_iff _ _ _).mp cut
      rcases uncut with larger | inside
      · exact Nat.not_lt_of_le larger smaller
      · exact Nat.not_lt_of_le past (inside idx placement placed below)
    refine ⟨?_,?_⟩
    · intro idx placement placed below
      refine ⟨by rw [entry,if_neg (kept idx placement placed below),placed],?_⟩
      intro d sent same
      rw [deletes,mem_fireDeleteBlocks] at sent
      obtain ⟨other,place,_,_,member,_,_,rfl⟩ := sent
      obtain ⟨found',cut⟩ := (dropped_block n inode other place).mp member
      subst same
      exact kept other place found' (by rw [found'] at placed; exact below) cut
    · intro o before after' ino read read' contents answer answer' cache cache' off want told told' inside steady steady' done done'
      have clean : (snapshotFile after').dirty = (snapshotFile before).dirty := rfl
      refine OpenFile.read_agrees positive clean ?_ steady steady' done done'
      intro idx reached
      have reach : idx * bs < n := by omega
      have first : (snapshotFile before).blockMap[idx]? = inode.blocks[idx]? := by
        rw [← placementOf_of found,← ino]
        exact (openRead_placed read).2 _
      have second : (snapshotFile after').blockMap[idx]? = placementOf (setAttr host r s).state r.ino idx := by
        rw [← ino]
        exact (openRead_placed read').2 _
      rw [first,second,entry]
      cases placed : inode.blocks[idx]? with
      | none => exact ite_self _
      | some placement => exact if_neg (kept idx placement placed reach)

end Blocks

/-- With blocks of 2^20 bytes the cut keeps what begins before it. -/
theorem keeps_below_iff_default : ∃ inode, (twoBlockFile (2^20 + 2)).inodes[(2 : InodeId)]? = some inode ∧
    KeepsBelow (2^20) (2^20 + 1) Host.still (sizeTo (2^20 + 1)) (twoBlockFile (2^20 + 2)) inode :=
  ⟨_,rfl,(keeps_below_iff (by decide) rfl rfl rfl).mpr (.inr (fun _ _ _ below => below))⟩

/-- In blocks of 64 KiB the first byte of block 1 is dropped although it stays in the file. -/
theorem small_block_dropped : ∃ inode, (twoBlockFile 131072).inodes[(2 : InodeId)]? = some inode ∧
    inode.blocks[(1 : BlockIdx)]? = some ⟨"n",[]⟩ ∧ 1 * 65536 < 65537 ∧ 65537 < inode.size ∧
    placementOf (setAttr Host.still (sizeTo 65537) (twoBlockFile 131072)).state (sizeTo 65537).ino 1 = none ∧
    ¬ KeepsBelow 65536 65537 Host.still (sizeTo 65537) (twoBlockFile 131072) inode := by
  have found : (twoBlockFile 131072).inodes[(sizeTo 65537).ino]? = some _ := rfl
  obtain ⟨after,stored,blocks,_⟩ := setAttr_sized Host.still found rfl rfl
  have lost : placementOf (setAttr Host.still (sizeTo 65537) (twoBlockFile 131072)).state (sizeTo 65537).ino 1 = none := by
    rw [placementOf_of stored,blocks,kept_block,if_pos (by decide)]
  refine ⟨_,found,rfl,by decide,by decide,lost,?_⟩
  intro keeps
  exact nomatch lost.symm.trans (keeps.blocks 1 ⟨"n",[]⟩ rfl (by decide)).1

end Dtmpfs
