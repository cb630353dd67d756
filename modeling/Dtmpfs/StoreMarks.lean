import Dtmpfs.Semantics.Runs
import Dtmpfs.StoreRace

/-! The high-water marks of a store. A mark is kept for a pair of inode and block index,
a block for every generation of it: which requests keep the two together, and what the
second way into the store, `replicate`, leaves out. -/
namespace Dtmpfs
open OrderedMap

namespace StoreState

/-- The requests of the store, one at a time. -/
def perform (s : StoreState) : StoreCall → StoreState
  | .write key data => (s.writeBlock key data).2
  | .delete key => s.deleteBlock key
  | .read _ => s

def performAll (calls : List StoreCall) (s : StoreState) : StoreState := calls.foldl perform s

/-- Every stored block has a mark, and the mark is no older than the block. -/
def Marked (s : StoreState) : Prop :=
  ∀ (key : BlockKey) (data : Bytes), s.blocks[key]? = some data →
    ∃ mark, s.highWater[key.logical]? = some mark ∧ key.generation ≤ mark

/-- A write is refused as stale where a newer generation of its block is stored. -/
def RefusesStale (s : StoreState) : Prop :=
  ∀ (key newer : BlockKey) (data stored : Bytes), s.blocks[newer]? = some stored → newer.logical = key.logical →
    key.generation < newer.generation → s.writeBlock key data = (.error ⟨.failedPrecondition,"stale generation"⟩,s)

/-- No other generation of the block is stored. -/
def Sole (key : BlockKey) (s : StoreState) : Prop :=
  ∀ (other : BlockKey) (data : Bytes), s.blocks[other]? = some data → other.logical = key.logical → other = key

/-- The request, if it is a delete, names the only stored generation of its block. -/
def SoleDelete (call : StoreCall) (s : StoreState) : Prop :=
  match call with
  | .delete key => s.Sole key
  | _ => True

def SoleDeletes : List StoreCall → StoreState → Prop
  | [],_ => True
  | call::rest,s => SoleDelete call s ∧ SoleDeletes rest (s.perform call)

variable {s : StoreState}

theorem Marked.refuses (h : Marked s) : RefusesStale s := by
  intro key newer data stored present logical older
  obtain ⟨mark,kept,newest⟩ := h newer stored present
  rw [logical] at kept
  have stale : s.highWater[key.logical]?.any (fun mark => decide (key.generation < mark)) = true := by
    rw [kept,Option.any_some,decide_eq_true_iff]
    exact Nat.lt_of_lt_of_le older newest
  rw [writeBlock,if_pos stale]

theorem marked_insertBlock (h : Marked s) (key : BlockKey) (data : Bytes) : Marked (s.insertBlock key data) := by
  intro other stored present
  simp only [insertBlock,get_insert] at present ⊢
  by_cases logical : key.logical = other.logical
  · rw [if_pos logical]
    refine ⟨_,rfl,?_⟩
    split at present
    next same =>
      subst same
      split
      · split
        · exact Nat.le_refl _
        next newest => exact Nat.le_of_not_lt newest
      · exact Nat.le_refl _
    next =>
      obtain ⟨mark,kept,newest⟩ := h other stored present
      rw [logical,kept]
      simp only
      split
      next raised => exact Nat.le_trans newest (Nat.le_of_lt raised)
      next => exact newest
  · rw [if_neg logical]
    have apart : key ≠ other := fun same => logical (congrArg BlockKey.logical same)
    rw [if_neg apart] at present
    exact h other stored present

theorem marked_deleteBlock (h : Marked s) (key : BlockKey) : Marked (s.deleteBlock key) ↔ s.Sole key := by
  constructor
  · intro after other data present logical
    by_contra apart
    have kept : (s.deleteBlock key).blocks[other]? = some data := by
      simp only [deleteBlock,get_erase,if_neg (Ne.symm apart)]
      exact present
    obtain ⟨mark,found,_⟩ := after other data kept
    simp only [deleteBlock,get_erase,logical,if_true] at found
    cases found
  · intro sole other data present
    simp only [deleteBlock,get_erase] at present ⊢
    split at present
    · cases present
    next apart =>
      have elsewhere : key.logical ≠ other.logical := by
        intro logical
        exact apart (sole other data present logical.symm).symm
      rw [if_neg elsewhere]
      exact h other data present

theorem marked_perform (h : Marked s) (call : StoreCall) : Marked (s.perform call) ↔ SoleDelete call s := by
  cases call with
  | write key data =>
    refine ⟨fun _ => trivial,fun _ => ?_⟩
    simp only [perform,writeBlock]
    split
    · exact h
    split
    · exact h
    · exact marked_insertBlock h key data
  | delete key => exact marked_deleteBlock h key
  | read key => exact ⟨fun _ => trivial,fun _ => h⟩

theorem marked_performAll (calls : List StoreCall) (s : StoreState) (h : Marked s) :
    (∀ before after, calls = before ++ after → Marked (s.performAll before)) ↔ SoleDeletes calls s := by
  refine Runs.folds_iff (fun _ => trivial) ?_ calls h
  intro call rest s marked
  have kept : Marked (s.perform call) ↔ SoleDelete call s := marked_perform marked call
  rw [kept]
  exact Iff.rfl

theorem marked_new (nodeId : NodeId) (budget : Nat) : Marked (new nodeId budget) := by
  intro key data present
  simp [new] at present

/-- In a run of requests, the marks cover the stored blocks and stale writes are refused
in every state exactly when every delete names the only stored generation of its
block: any other delete takes the mark of the ones that stay. -/
theorem stale_refused_iff (nodeId : NodeId) (budget : Nat) (calls : List StoreCall) :
    (∀ before after, calls = before ++ after →
      Marked ((new nodeId budget).performAll before) ∧ RefusesStale ((new nodeId budget).performAll before)) ↔
    SoleDeletes calls (new nodeId budget) := by
  rw [← marked_performAll calls _ (marked_new nodeId budget)]
  constructor
  · intro both before after split
    exact (both before after split).1
  · intro marked before after split
    have covered := marked before after split
    exact ⟨covered,covered.refuses⟩

/-- Generations 1 and 2 of a block are stored and generation 1 is deleted: it can be
written again, under generation 2. -/
theorem stale_write_accepted :
    let s := (new "n" 10).performAll [.write ⟨5,0,1⟩ [1],.write ⟨5,0,2⟩ [2],.delete ⟨5,0,1⟩]
    s.blocks[(⟨5,0,2⟩ : BlockKey)]? = some [2] ∧ (s.writeBlock ⟨5,0,1⟩ [1]).1.toOption = some 1 ∧
      ¬ RefusesStale s ∧ ¬ Marked s := by
  intro s
  have stored : s.blocks[(⟨5,0,2⟩ : BlockKey)]? = some [2] := by decide
  have accepted : (s.writeBlock ⟨5,0,1⟩ [1]).1.toOption = some 1 := by decide
  have open_ : ¬ RefusesStale s := by
    intro refuses
    rw [refuses ⟨5,0,1⟩ ⟨5,0,2⟩ [1] [2] stored rfl (by decide)] at accepted
    cases accepted
  exact ⟨stored,accepted,open_,fun marked => open_ marked.refuses⟩

end StoreState

section Replicate

open StoreState

variable {token : String} {source s : StoreState} {key : BlockKey} {data : Bytes}

theorem writeBlock_cases (key : BlockKey) (data : Bytes) (s : StoreState) :
    (s.writeBlock key data = (.error ⟨.failedPrecondition,"stale generation"⟩,s) ∧
      ∃ mark, s.highWater[key.logical]? = some mark ∧ key.generation < mark) ∨
    (s.writeBlock key data = (.error ⟨.resourceExhausted,"ram budget exceeded"⟩,s) ∧ s.ramBudget < s.ramUsed + data.length) ∨
    (s.writeBlock key data = (.ok data.length,s.insertBlock key data) ∧ s.ramUsed + data.length ≤ s.ramBudget ∧
      ∀ mark, s.highWater[key.logical]? = some mark → mark ≤ key.generation) := by
  unfold writeBlock
  split
  next stale =>
    cases kept : s.highWater[key.logical]? with
    | none =>
      rw [kept] at stale
      cases stale
    | some mark =>
      rw [kept,Option.any_some,decide_eq_true_iff] at stale
      exact .inl ⟨rfl,mark,rfl,stale⟩
  next fresh =>
    split
    next excess => exact .inr (.inl ⟨rfl,excess⟩)
    next within =>
      refine .inr (.inr ⟨rfl,Nat.le_of_not_lt within,?_⟩)
      intro mark kept
      rw [kept,Option.any_some,decide_eq_true_iff] at fresh
      exact Nat.le_of_not_lt fresh

end Replicate

end Dtmpfs
