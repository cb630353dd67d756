import Mathlib.Tactic

/-! Cutting a stretch of positions along the edges of blocks of one size. -/
namespace Tiling

/-- Some positions of one block: how far into the block they start and how many they are. -/
structure Piece where
  idx : Nat
  inBlock : Nat
  len : Nat

def Piece.start (size : Nat) (p : Piece) : Nat := p.idx * size + p.inBlock

def Piece.stop (size : Nat) (p : Piece) : Nat := p.start size + p.len

/-- What block `cur / size` has of the stretch from `cur` to `stop`. -/
def pieceAt (size stop cur : Nat) : Piece :=
  ⟨cur / size,cur - cur / size * size,min (cur / size * size + size) stop - cur⟩

/-- The pieces from `cur` to `stop`; every one moves on, so `stop - cur` of them are enough. -/
def pieces (size stop : Nat) : Nat → Nat → List Piece
  | 0,_ => []
  | fuel + 1,cur => if cur < stop then pieceAt size stop cur :: pieces size stop fuel (cur + (pieceAt size stop cur).len) else []

/-- The pieces cut the stretch from `start` to `stop`. -/
structure Cuts (size start stop : Nat) (ps : List Piece) : Prop where
  nonempty : ∀ p ∈ ps, 0 < p.len
  inside : ∀ p ∈ ps, p.inBlock + p.len ≤ size
  first : ∀ p, ps.head? = some p → p.start size = start
  adjacent : ps.IsChain (fun p q => q.start size = p.stop size)
  increasing : ps.Pairwise (fun p q => p.idx < q.idx)
  disjoint : ps.Pairwise (fun p q => p.stop size ≤ q.start size)
  covers : ∀ o, (∃ p ∈ ps, p.start size ≤ o ∧ o < p.stop size) ↔ start ≤ o ∧ o < stop
  total : (ps.map Piece.len).sum = stop - start

variable {size start stop cur fuel : Nat}

theorem Cuts.nil (empty : stop ≤ start) : Cuts size start stop [] where
  nonempty := by simp
  inside := by simp
  first := by simp
  adjacent := .nil
  increasing := .nil
  disjoint := .nil
  covers o := by
    simp only [List.not_mem_nil,false_and,exists_false,false_iff]
    omega
  total := by
    rw [Nat.sub_eq_zero_of_le empty]
    rfl

/-- A piece in front that ends at the edge of its block, unless it is the last one. -/
theorem Cuts.cons {mid : Nat} {p : Piece} {rest : List Piece} (cut : Cuts size mid stop rest) (nonempty : 0 < p.len)
    (inside : p.inBlock + p.len ≤ size) (starts : p.start size = start) (stops : p.stop size = mid) (before : mid ≤ stop)
    (edge : mid < stop → mid = (p.idx + 1) * size) : Cuts size start stop (p::rest) := by
  have behind (q : Piece) (later : q ∈ rest) : mid ≤ q.start size ∧ mid < stop := by
    have some_ := cut.nonempty q later
    have own : q.start size ≤ q.start size ∧ q.start size < q.stop size := ⟨Nat.le_refl _,by unfold Piece.stop; omega⟩
    obtain ⟨low,high⟩ := (cut.covers (q.start size)).mp ⟨q,later,own⟩
    exact ⟨low,Nat.lt_of_le_of_lt low high⟩
  have length : p.stop size = p.start size + p.len := rfl
  refine ⟨?_,?_,?_,?_,?_,?_,?_,?_⟩
  · exact List.forall_mem_cons.mpr ⟨nonempty,cut.nonempty⟩
  · exact List.forall_mem_cons.mpr ⟨inside,cut.inside⟩
  · intro q head
    cases head
    exact starts
  · refine List.isChain_cons.mpr ⟨?_,cut.adjacent⟩
    intro q head
    rw [cut.first q head,stops]
  · refine List.pairwise_cons.mpr ⟨?_,cut.increasing⟩
    intro q later
    obtain ⟨low,more⟩ := behind q later
    have room := cut.inside q later
    have some_ := cut.nonempty q later
    rw [edge more] at low
    unfold Piece.start at low
    by_contra smaller
    have bound : (q.idx + 1) * size ≤ (p.idx + 1) * size := Nat.mul_le_mul_right size (by omega)
    rw [Nat.add_mul q.idx,Nat.one_mul] at bound
    omega
  · refine List.pairwise_cons.mpr ⟨?_,cut.disjoint⟩
    intro q later
    rw [stops]
    exact (behind q later).1
  · intro o
    rw [List.exists_mem_cons_iff,cut.covers o,starts,stops]
    omega
  · rw [List.map_cons,List.sum_cons,cut.total]
    omega

/-- A piece is not empty, stays in its block, and ends with the stretch or the block. -/
theorem pieceAt_spec (positive : 0 < size) (more : cur < stop) :
    0 < (pieceAt size stop cur).len ∧ (pieceAt size stop cur).inBlock + (pieceAt size stop cur).len ≤ size ∧
      (pieceAt size stop cur).start size = cur ∧ cur + (pieceAt size stop cur).len ≤ stop ∧
      (cur + (pieceAt size stop cur).len < stop → cur + (pieceAt size stop cur).len = ((pieceAt size stop cur).idx + 1) * size) := by
  have division := Nat.div_add_mod' cur size
  have remainder := Nat.mod_lt cur positive
  simp only [Piece.start,pieceAt,Nat.add_mul,Nat.one_mul]
  omega

theorem pieces_past (past : ¬ cur < stop) : pieces size stop fuel cur = [] := by
  cases fuel with
  | zero => rfl
  | succ fuel => rw [pieces,if_neg past]

theorem pieces_cuts (positive : 0 < size) (bounded : cur ≤ stop) (enough : stop - cur ≤ fuel) :
    Cuts size cur stop (pieces size stop fuel cur) := by
  induction fuel generalizing cur with
  | zero => exact .nil (by omega)
  | succ fuel ih =>
    unfold pieces
    split
    next more =>
      obtain ⟨nonempty,inside,starts,before,edge⟩ := pieceAt_spec positive more
      have rest := ih before (by omega)
      have stops : (pieceAt size stop cur).stop size = cur + (pieceAt size stop cur).len := by rw [Piece.stop,starts]
      exact rest.cons nonempty inside starts stops before edge
    next finished => exact .nil (Nat.le_of_not_lt finished)

end Tiling
