import Mathlib.Tactic

/-! Identifiers, block keys and placements of `dtmpfs-common::id`, with the map
type every later module uses. Machine words are naturals: a plain Rust `+` is
the sum whenever it returns, and the wrapping atomics say so where they occur. -/
namespace Dtmpfs

/-- `BTreeMap` and `HashMap`. Iteration is in key order; where Rust iterates a
`HashMap`, the order is an explicit argument of the call. -/
abbrev Map (α β : Type) [Ord α] := Std.ExtTreeMap α β

abbrev Bytes := List UInt8

/-- Nanoseconds since the Unix epoch. -/
abbrev SystemTime := Int

abbrev InodeId := Nat
abbrev Generation := Nat
abbrev BlockIdx := Nat
abbrev NodeId := String
abbrev Fh := Nat

def ROOT : InodeId := 1

def Generation.bump (generation : Generation) : Generation := generation + 1

structure BlockKey where
  ino : InodeId
  blockIdx : BlockIdx
  generation : Generation
deriving DecidableEq, Repr

/-- The pair `(ino, block_idx)` under which a store keeps its high-water mark. -/
structure LogicalKey where
  ino : InodeId
  blockIdx : BlockIdx
deriving DecidableEq, Repr

def BlockKey.logical (key : BlockKey) : LogicalKey := ⟨key.ino,key.blockIdx⟩

/-- `placement_key`: a `u128` that leaves the generation out. -/
def BlockKey.placementKey (key : BlockKey) : Nat := (key.ino <<< 64) ||| key.blockIdx

structure BlockPlacement where
  primary : NodeId
  replicas : List NodeId
deriving DecidableEq, Repr

def BlockPlacement.nodes (placement : BlockPlacement) : List NodeId :=
  placement.primary::placement.replicas

inductive InodeKind where
  | file
  | dir
  | symlink
deriving DecidableEq, Repr

def BlockKey.order : BlockKey → BlockKey → Ordering :=
  compareLex (compareOn BlockKey.ino) (compareLex (compareOn BlockKey.blockIdx) (compareOn BlockKey.generation))

instance : Ord BlockKey := ⟨BlockKey.order⟩

instance : Std.TransOrd BlockKey :=
  inferInstanceAs (Std.TransCmp (compareLex (compareOn BlockKey.ino)
    (compareLex (compareOn BlockKey.blockIdx) (compareOn BlockKey.generation))))

instance : Std.LawfulEqOrd BlockKey where
  eq_of_compare {first second} equal := by
    rcases first with ⟨ino,idx,generation⟩
    rcases second with ⟨ino',idx',generation'⟩
    simp only [compare,BlockKey.order,compareLex_eq_eq,compareOn] at equal
    simp_all [compareOfLessAndEq_eq_eq]

def LogicalKey.order : LogicalKey → LogicalKey → Ordering :=
  compareLex (compareOn LogicalKey.ino) (compareOn LogicalKey.blockIdx)

instance : Ord LogicalKey := ⟨LogicalKey.order⟩

instance : Std.TransOrd LogicalKey :=
  inferInstanceAs (Std.TransCmp (compareLex (compareOn LogicalKey.ino) (compareOn LogicalKey.blockIdx)))

instance : Std.LawfulEqOrd LogicalKey where
  eq_of_compare {first second} equal := by
    rcases first with ⟨ino,idx⟩
    rcases second with ⟨ino',idx'⟩
    simp only [compare,LogicalKey.order,compareLex_eq_eq,compareOn] at equal
    simp_all [compareOfLessAndEq_eq_eq]

end Dtmpfs
