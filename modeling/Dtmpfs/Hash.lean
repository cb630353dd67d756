import Dtmpfs.Id
import Mathlib.Data.List.Sort

/-! Rendezvous placement, `dtmpfs-common::hash`. -/
namespace Dtmpfs

/-- `xxh3_64_with_seed`, a function of the hashed bytes and the seed. -/
abbrev Xxh3 := List UInt8 → UInt64 → UInt64

/-- Combined score of one node for one block key. -/
def score (xxh3 : Xxh3) (key : BlockKey) (node : NodeId) : UInt64 :=
  let lo := UInt64.ofNat key.placementKey
  let hi := UInt64.ofNat (key.placementKey >>> 64)
  let bytes := node.toUTF8.toList
  xxh3 bytes lo ^^^ xxh3 bytes hi

/-- `pick_nodes`: the `r` best nodes, best first. `sort_unstable_by` runs an
insertion sort on slices as short as a node list; the order it leaves equal
scores in is that of the input. -/
def pickNodes (xxh3 : Xxh3) (key : BlockKey) (nodes : List NodeId) (r : Nat) : List NodeId :=
  let scored := nodes.map (fun node => (score xxh3 key node,node))
  let sorted := scored.insertionSort (fun a b => b.1 ≤ a.1)
  (sorted.take (min r nodes.length)).map (·.2)

private theorem sorted_nodes_perm (xxh3 : Xxh3) (key : BlockKey) (nodes : List NodeId) :
    (((nodes.map (fun node => (score xxh3 key node,node))).insertionSort
      (fun a b => b.1 ≤ a.1)).map (·.2)).Perm nodes := by
  have sorted := List.perm_insertionSort (fun (a b : UInt64 × NodeId) => b.1 ≤ a.1)
    (nodes.map (fun node => (score xxh3 key node,node)))
  simpa [Function.comp_def] using sorted.map (·.2)

theorem pickNodes_length (xxh3 : Xxh3) (key : BlockKey) (nodes : List NodeId) (r : Nat) :
    (pickNodes xxh3 key nodes r).length = min r nodes.length := by
  simp [pickNodes,List.length_insertionSort]

theorem pickNodes_subset (xxh3 : Xxh3) (key : BlockKey) (nodes : List NodeId) (r : Nat)
    (node : NodeId) (picked : node ∈ pickNodes xxh3 key nodes r) : node ∈ nodes := by
  rw [pickNodes,List.map_take] at picked
  exact (sorted_nodes_perm xxh3 key nodes).mem_iff.mp (List.mem_of_mem_take picked)

theorem pickNodes_nodup (xxh3 : Xxh3) (key : BlockKey) (nodes : List NodeId) (r : Nat)
    (distinct : nodes.Nodup) : (pickNodes xxh3 key nodes r).Nodup := by
  rw [pickNodes,List.map_take]
  exact ((sorted_nodes_perm xxh3 key nodes).nodup_iff.mpr distinct).sublist (List.take_sublist _ _)

section Order

variable {xxh3 : Xxh3} {key : BlockKey} {nodes : List NodeId} {r : Nat}

/-- Under two different seeds, no two of the nodes have the same combined score. -/
def Spreads (xxh3 : Xxh3) (key : BlockKey) (nodes : List NodeId) : Prop :=
  UInt64.ofNat key.placementKey ≠ UInt64.ofNat (key.placementKey >>> 64) →
    ∀ a ∈ nodes, ∀ b ∈ nodes, a ≠ b → score xxh3 key a ≠ score xxh3 key b

/-- Both words of the placement key come back as the seeds. -/
theorem seeds (idx : key.blockIdx < 2^64) :
    UInt64.ofNat key.placementKey = UInt64.ofNat key.blockIdx ∧
      UInt64.ofNat (key.placementKey >>> 64) = UInt64.ofNat key.ino := by
  have sum : key.placementKey = 2^64 * key.ino + key.blockIdx := by
    rw [BlockKey.placementKey,← Nat.shiftLeft_add_eq_or_of_lt idx,Nat.shiftLeft_eq,Nat.mul_comm]
  have low : key.placementKey % 2^64 = key.blockIdx := by
    rw [sum,Nat.mul_add_mod,Nat.mod_eq_of_lt idx]
  have high : key.placementKey >>> 64 = key.ino := by
    rw [Nat.shiftRight_eq_div_pow,sum,Nat.mul_add_div (by decide),Nat.div_eq_of_lt idx,Nat.add_zero]
  refine ⟨?_,by rw [high]⟩
  apply UInt64.toNat_inj.mp
  rw [UInt64.toNat_ofNat',UInt64.toNat_ofNat',low,Nat.mod_eq_of_lt idx]

theorem seeds_differ (ino : key.ino < 2^64) (idx : key.blockIdx < 2^64) :
    UInt64.ofNat key.placementKey ≠ UInt64.ofNat (key.placementKey >>> 64) ↔ key.ino ≠ key.blockIdx := by
  obtain ⟨low,high⟩ := seeds idx
  rw [low,high]
  constructor
  · intro differ same
    exact differ (by rw [same])
  · intro differ same
    have words := congrArg UInt64.toNat same
    rw [UInt64.toNat_ofNat',UInt64.toNat_ofNat',Nat.mod_eq_of_lt idx,Nat.mod_eq_of_lt ino] at words
    exact differ words.symm

/-- With one seed twice, the two hashes of a node cancel. -/
theorem score_cancelled (same : UInt64.ofNat key.placementKey = UInt64.ofNat (key.placementKey >>> 64)) (node : NodeId) :
    score xxh3 key node = 0 := by
  rw [score,same]
  exact UInt64.xor_self

theorem pickNodes_cancelled (same : UInt64.ofNat key.placementKey = UInt64.ofNat (key.placementKey >>> 64)) :
    pickNodes xxh3 key nodes r = nodes.take r := by
  have ordered : (nodes.map (fun node => (score xxh3 key node,node))).Pairwise (fun a b => b.1 ≤ a.1) := by
    apply List.pairwise_map.mpr
    apply List.pairwise_of_forall
    intro a b
    rw [score_cancelled same,score_cancelled same]
    exact UInt64.le_refl 0
  rw [pickNodes,ordered.insertionSort_eq,List.map_take,List.map_map]
  have back : ((fun scored : UInt64 × NodeId => scored.2) ∘ fun node => (score xxh3 key node,node)) = id := rfl
  rw [back,List.map_id,List.take_eq_take_iff]
  omega

theorem pickNodes_spread {other : List NodeId} (spread : Spreads xxh3 key nodes)
    (differ : UInt64.ofNat key.placementKey ≠ UInt64.ofNat (key.placementKey >>> 64)) (perm : other.Perm nodes) :
    pickNodes xxh3 key other r = pickNodes xxh3 key nodes r := by
  have total : Std.Total (fun a b : UInt64 × NodeId => b.1 ≤ a.1) := ⟨fun a b => UInt64.le_total b.1 a.1⟩
  have transitive : IsTrans (UInt64 × NodeId) (fun a b => b.1 ≤ a.1) := ⟨fun a b c first second => UInt64.le_trans second first⟩
  have sorted : (other.map (fun node => (score xxh3 key node,node))).insertionSort (fun a b => b.1 ≤ a.1) =
      (nodes.map (fun node => (score xxh3 key node,node))).insertionSort (fun a b => b.1 ≤ a.1) := by
    refine List.Perm.eq_of_pairwise ?_ (List.pairwise_insertionSort _ _) (List.pairwise_insertionSort _ _) ?_
    · intro a b left right above below
      have left' := (List.perm_insertionSort _ _).mem_iff.mp left
      have right' := (List.perm_insertionSort _ _).mem_iff.mp right
      obtain ⟨m,inOther,rfl⟩ := List.mem_map.mp left'
      obtain ⟨n,inNodes,rfl⟩ := List.mem_map.mp right'
      have equal : score xxh3 key m = score xxh3 key n := UInt64.le_antisymm below above
      by_cases same : m = n
      · rw [same]
      · exact absurd equal (spread differ m (perm.mem_iff.mp inOther) n inNodes same)
    · exact ((List.perm_insertionSort _ _).trans (perm.map _)).trans (List.perm_insertionSort _ _).symm
  rw [pickNodes,pickNodes,sorted,perm.length_eq]

/-- The nodes picked depend on the order the nodes come in exactly when the two
seeds, the inode number and the block index, are the same number and there is
something to choose. -/
theorem pickNodes_order_free (ino : key.ino < 2^64) (idx : key.blockIdx < 2^64) (spread : Spreads xxh3 key nodes)
    (distinct : nodes.Nodup) :
    (∀ first second : List NodeId, first.Perm nodes → second.Perm nodes →
      pickNodes xxh3 key first r = pickNodes xxh3 key second r) ↔
    key.ino ≠ key.blockIdx ∨ r = 0 ∨ nodes.length ≤ 1 := by
  constructor
  · intro same
    by_contra clash
    obtain ⟨equal,positive,many⟩ : key.ino = key.blockIdx ∧ 0 < r ∧ 1 < nodes.length := by
      refine ⟨?_,?_,?_⟩
      · by_contra differ
        exact clash (.inl differ)
      · by_contra zero
        exact clash (.inr (.inl (Nat.eq_zero_of_not_pos zero)))
      · by_contra few
        exact clash (.inr (.inr (Nat.le_of_not_lt few)))
    have cancelled : UInt64.ofNat key.placementKey = UInt64.ofNat (key.placementKey >>> 64) := by
      by_contra differ
      exact (seeds_differ ino idx).mp differ equal
    match nodes,many,distinct with
    | a::b::rest,_,distinct =>
      have picked := same (a::b::rest) (b::a::rest) (.refl _) (.swap a b rest)
      rw [pickNodes_cancelled cancelled,pickNodes_cancelled cancelled] at picked
      obtain ⟨n,rfl⟩ := Nat.exists_eq_succ_of_ne_zero (Nat.pos_iff_ne_zero.mp positive)
      have apart : a ≠ b := by
        intro equal
        exact (List.nodup_cons.mp distinct).1 (equal ▸ List.mem_cons_self)
      exact apart (List.cons.inj picked).1
  · intro condition first second left right
    rcases condition with differ | zero | short
    · have seeded := (seeds_differ ino idx).mpr differ
      exact (pickNodes_spread spread seeded left).trans (pickNodes_spread spread seeded right).symm
    · rw [zero,pickNodes,pickNodes,Nat.zero_min,Nat.zero_min,List.take_zero,List.take_zero]
    · have lists : first = second := by
        match nodes,short,left,right with
        | [],_,left,right => rw [List.perm_nil.mp left,List.perm_nil.mp right]
        | [a],_,left,right => rw [List.perm_singleton.mp left,List.perm_singleton.mp right]
      rw [lists]

/-- `xxh3_64_with_seed` on a single byte. -/
def xxh3OneByte : Xxh3 := fun bytes seed =>
  let byte := (bytes.headD 0).toUInt64
  let combined := (byte <<< 16) ||| (byte <<< 24) ||| byte ||| 0x100
  let keyed := combined ^^^ (0x87275a9b + seed)
  let first := (keyed ^^^ (keyed >>> 33)) * 0xC2B2AE3D27D4EB4F
  let second := (first ^^^ (first >>> 29)) * 0x165667B19E3779F9
  second ^^^ (second >>> 32)

theorem pickNodes_order_free_two : pickNodes xxh3OneByte ⟨2,1,0⟩ ["a","b"] 1 = ["a"] ∧
    pickNodes xxh3OneByte ⟨2,1,0⟩ ["a","b"] 1 = pickNodes xxh3OneByte ⟨2,1,0⟩ ["b","a"] 1 := by
  have spread : Spreads xxh3OneByte ⟨2,1,0⟩ ["a","b"] := by
    unfold Spreads
    decide +kernel
  have same := (pickNodes_order_free (r := 1) (by decide) (by decide) spread (by decide)).mpr (.inl (by decide))
  exact ⟨by decide +kernel,same ["a","b"] ["b","a"] (.refl _) (.swap "a" "b" [])⟩

/-- For block 2 of inode 2 no hash function helps: the first node listed is picked. -/
theorem pickNodes_listed_first : ¬ ∃ xxh3 : Xxh3, pickNodes xxh3 ⟨2,2,0⟩ ["a","b"] 1 = pickNodes xxh3 ⟨2,2,0⟩ ["b","a"] 1 := by
  intro lucky
  obtain ⟨xxh3,same⟩ := lucky
  have cancelled : UInt64.ofNat (BlockKey.placementKey ⟨2,2,0⟩) = UInt64.ofNat (BlockKey.placementKey ⟨2,2,0⟩ >>> 64) := by decide
  rw [pickNodes_cancelled cancelled,pickNodes_cancelled cancelled] at same
  exact absurd same (by decide)

end Order

end Dtmpfs
