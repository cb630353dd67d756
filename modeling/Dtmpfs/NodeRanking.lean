import Dtmpfs.Hash
import Dtmpfs.Semantics.Ranking

/-! Placement when nodes join and leave: `pick_nodes` takes the best nodes of a ranking,
so that one node more or less changes it by one node at most. -/
namespace Dtmpfs
open Ranking

variable {xxh3 : Xxh3} {key : BlockKey} {nodes : List NodeId} {r : Nat}

/-- The combined scores of the nodes are pairwise distinct. -/
def DistinctScores (xxh3 : Xxh3) (key : BlockKey) (nodes : List NodeId) : Prop :=
  ∀ a ∈ nodes, ∀ b ∈ nodes, a ≠ b → score xxh3 key a ≠ score xxh3 key b

instance (xxh3 : Xxh3) (key : BlockKey) (nodes : List NodeId) : Decidable (DistinctScores xxh3 key nodes) :=
  inferInstanceAs (Decidable (∀ a ∈ nodes, ∀ b ∈ nodes, a ≠ b → score xxh3 key a ≠ score xxh3 key b))

/-- The combined score as a number. -/
def nodeRank (xxh3 : Xxh3) (key : BlockKey) (node : NodeId) : Nat := (score xxh3 key node).toNat

theorem pickNodes_best (xxh3 : Xxh3) (key : BlockKey) (nodes : List NodeId) (r : Nat) :
    pickNodes xxh3 key nodes r = best (nodeRank xxh3 key) nodes r := by
  have sorted : (nodes.map (fun node => (score xxh3 key node,node))).insertionSort (fun a b => b.1 ≤ a.1) =
      (ranked (nodeRank xxh3 key) nodes).map (fun node => (score xxh3 key node,node)) := by
    symm
    apply List.map_insertionSort
    intro a _ b _
    exact Iff.rfl
  have back : ((fun scored : UInt64 × NodeId => scored.2) ∘ fun node => (score xxh3 key node,node)) = id := rfl
  rw [pickNodes,sorted,List.map_take,List.map_map,back,List.map_id,best,List.take_eq_take_iff,(ranked_perm _ nodes).length_eq]
  omega

theorem DistinctScores.ranks (distinct : DistinctScores xxh3 key nodes) : Distinct (nodeRank xxh3 key) nodes := by
  intro a first b second same
  by_contra differ
  exact distinct a first b second differ (UInt64.toNat_inj.mp same)

theorem rank_lt_iff (a b : NodeId) : nodeRank xxh3 key a < nodeRank xxh3 key b ↔ score xxh3 key a < score xxh3 key b :=
  UInt64.lt_iff_toNat_lt.symm

/-- The nodes picked are the best ones, best first, whatever `r` is. With a node less,
the others stay in order and the next one in rank takes its place; a node more
takes its place among them and drives out the last one at most. -/
theorem pickNodes_minimal (distinct : DistinctScores xxh3 key nodes) (nodup : nodes.Nodup) :
    ((pickNodes xxh3 key nodes r).length = min r nodes.length ∧ (pickNodes xxh3 key nodes r).Nodup ∧
      (∀ a ∈ pickNodes xxh3 key nodes r, a ∈ nodes) ∧
      (pickNodes xxh3 key nodes r).Pairwise (fun a b => score xxh3 key b < score xxh3 key a) ∧
      ∀ a ∈ pickNodes xxh3 key nodes r, ∀ b ∈ nodes, b ∉ pickNodes xxh3 key nodes r → score xxh3 key b < score xxh3 key a) ∧
    pickNodes xxh3 key nodes r <+: pickNodes xxh3 key nodes (r + 1) ∧
    (∀ x, x ∉ pickNodes xxh3 key nodes r → pickNodes xxh3 key (nodes.erase x) r = pickNodes xxh3 key nodes r) ∧
    (∀ x ∈ pickNodes xxh3 key nodes r, ∃ next, next.length ≤ 1 ∧
      pickNodes xxh3 key (nodes.erase x) r = (pickNodes xxh3 key nodes r).erase x ++ next ∧
      pickNodes xxh3 key nodes (r + 1) = pickNodes xxh3 key nodes r ++ next) ∧
    ∀ x larger, x ∉ nodes → larger.Perm (x::nodes) → DistinctScores xxh3 key larger →
      pickNodes xxh3 key larger r = pickNodes xxh3 key nodes r ∨
        ∃ front back last, last.length ≤ 1 ∧ pickNodes xxh3 key nodes r = front ++ back ++ last ∧
          pickNodes xxh3 key larger r = front ++ x::back := by
  have ranks := distinct.ranks
  simp only [pickNodes_best,← rank_lt_iff]
  refine ⟨⟨best_length _ _ _,best_nodup nodup,fun a => best_subset,best_descending ranks nodup,?_⟩,
    best_prefix _ _ _,fun x => best_erase_other ranks,?_,?_⟩
  · intro a chosen b left out
    exact best_above ranks nodup chosen left out
  · intro x chosen
    exact ⟨_,List.length_take_le _ _,best_erase_chosen ranks chosen,List.take_add⟩
  · intro x larger new perm more
    exact best_insert more.ranks (perm.nodup_iff.mpr (List.nodup_cons.mpr ⟨new,nodup⟩)) perm

theorem pickNodes_minimal_three : pickNodes xxh3OneByte ⟨2,1,0⟩ ["c","a","b"] 2 = ["a","c"] ∧
    ∃ next, pickNodes xxh3OneByte ⟨2,1,0⟩ (["c","a","b"].erase "a") 2 = ["a","c"].erase "a" ++ next := by
  have picked : pickNodes xxh3OneByte ⟨2,1,0⟩ ["c","a","b"] 2 = ["a","c"] := by decide +kernel
  have distinct : DistinctScores xxh3OneByte ⟨2,1,0⟩ ["c","a","b"] := by decide +kernel
  have minimal := (pickNodes_minimal (r := 2) distinct (by decide)).2.2.2.1
  rw [picked] at minimal
  obtain ⟨next,_,gone,_⟩ := minimal "a" List.mem_cons_self
  exact ⟨picked,next,gone⟩

end Dtmpfs
