import Mathlib.Tactic
import Mathlib.Logic.Relation

/-! Namespaces of named slots over arbitrary node and name types: which nodes
live, which are folders, which own a table of slots, and what each slot names.
Two invariants are kept by attaching, detaching and rehanging a node: referential
integrity, and reachability of every live node from a root. -/

@[ext]
structure Namespace (I N : Type) where
  live : I → Prop
  folder : I → Prop
  table : I → Prop
  entry : I → N → Option I

namespace Namespace
open Relation

variable {I N : Type}

/-- `b` is named by some slot of `a`. -/
def edge (T : Namespace I N) (a b : I) : Prop := ∃ n, T.entry a n = some b

/-- `b` is `a` or lies below it. -/
def Below (T : Namespace I N) (a b : I) : Prop := ReflTransGen T.edge a b

section Reachability

variable {edge edge' : I → I → Prop} {root p q x y i : I}

/-- Losing edges into a node without children leaves every other node reachable. -/
theorem reachable_prune (leaf : ∀ b, ¬ edge y b)
    (kept : ∀ a b, b ≠ y → edge a b → edge' a b) (other : i ≠ y)
    (path : ReflTransGen edge root i) : ReflTransGen edge' root i := by
  induction path with
  | refl => exact .refl
  | @tail a b before step ih =>
    have inner : a ≠ y := by
      rintro rfl
      exact leaf b step
    exact (ih inner).tail (kept a b other step)

/-- A path to a node outside the subtree of `x` uses no edge into `x`. -/
theorem reachable_outside (kept : ∀ a b, b ≠ x → edge a b → edge' a b)
    (rootOther : root ≠ x) (outside : ¬ ReflTransGen edge x i)
    (path : ReflTransGen edge root i) : ReflTransGen edge' root i := by
  induction path with
  | refl => exact .refl
  | @tail a b before step ih =>
    have above : ¬ ReflTransGen edge x a := fun below => outside (below.tail step)
    have target : b ≠ x := by
      rintro rfl
      exact outside .refl
    exact (ih above).tail (kept a b target step)

theorem reachable_rehang (kept : ∀ a b, b ≠ x → edge a b → edge' a b)
    (linked : edge' q x) (rootOther : root ≠ x) (outside : ¬ ReflTransGen edge x q)
    (target : ReflTransGen edge root q) (path : ReflTransGen edge root i) :
    ReflTransGen edge' root i := by
  have moved : ReflTransGen edge' root x :=
    (reachable_outside kept rootOther outside target).tail linked
  induction path with
  | refl => exact .refl
  | @tail a b before step ih =>
    by_cases same : b = x
    · exact same ▸ moved
    · exact ih.tail (kept a b same step)

end Reachability

variable [DecidableEq I] [DecidableEq N]

def setEntry (T : Namespace I N) (p : I) (n : N) (target : Option I) : Namespace I N :=
  {T with entry := fun a b => if a = p ∧ b = n then target else T.entry a b}

/-- A new node `i` under slot `(p,n)`, with an empty table when it is a folder. -/
def attach (T : Namespace I N) (p : I) (n : N) (i : I) (isFolder : Prop) : Namespace I N where
  live j := j = i ∨ T.live j
  folder j := (j = i ∧ isFolder) ∨ (j ≠ i ∧ T.folder j)
  table j := (j = i ∧ isFolder) ∨ T.table j
  entry a b := if a = p ∧ b = n then some i else T.entry a b

/-- Node `i` and its slot `(p,n)` disappear, together with its table. -/
def detach (T : Namespace I N) (p : I) (n : N) (i : I) : Namespace I N where
  live j := j ≠ i ∧ T.live j
  folder j := j ≠ i ∧ T.folder j
  table j := j ≠ i ∧ T.table j
  entry a b := if a = i ∨ (a = p ∧ b = n) then none else T.entry a b

/-- What slot `(p,n)` names moves to slot `(q,m)`. -/
def rehang (T : Namespace I N) (p : I) (n : N) (q : I) (m : N) (x : I) : Namespace I N :=
  (T.setEntry p n none).setEntry q m (some x)

/-- Facts that hold of the view of any pair of maps. -/
structure Wellformed (T : Namespace I N) : Prop where
  folderLive : ∀ i, T.folder i → T.live i
  entryTable : ∀ p n i, T.entry p n = some i → T.table p

/-- No two slots name the same node, and none names the root. -/
structure Slots (T : Namespace I N) (root : I) : Prop where
  unique : ∀ p n q m i, T.entry p n = some i → T.entry q m = some i → p = q ∧ n = m
  rootFree : ∀ p n, T.entry p n ≠ some root

/-- Referential integrity: tables are exactly the live folders, slots name live
nodes, and every live node but the root has exactly one slot. -/
structure Integrity (T : Namespace I N) (root : I) : Prop extends T.Slots root where
  tables : ∀ i, T.table i ↔ T.folder i
  target : ∀ p n i, T.entry p n = some i → T.live i
  named : ∀ i, T.live i → i ≠ root → ∃ p n, T.entry p n = some i
  rootLive : T.live root

/-- What reachability alone needs; slots may dangle. -/
structure Rooted (T : Namespace I N) (root : I) : Prop extends T.Slots root where
  tables : ∀ i, T.table i → T.folder i
  reach : ∀ i, T.live i → T.Below root i

/-- A node nothing mentions yet. -/
structure Unused (T : Namespace I N) (root i : I) : Prop where
  dead : ¬ T.live i
  tableless : ¬ T.table i
  untargeted : ∀ p n, T.entry p n ≠ some i
  notRoot : i ≠ root

variable {T : Namespace I N} {root p q i x y : I} {n m : N} {isFolder : Prop}

theorem setEntry_self {target : Option I} (slot : T.entry p n = target) : T.setEntry p n target = T := by
  ext a b j
  · rfl
  · rfl
  · rfl
  · simp only [setEntry]
    split
    next here => rw [here.1,here.2,slot]
    next => rfl

theorem Slots.clear (h : T.Slots root) : (T.setEntry p n none).Slots root where
  unique a b a' b' j first second := by
    simp only [setEntry] at first second
    split at first <;> split at second
    all_goals first | cases first | cases second | exact h.unique a b a' b' j first second
  rootFree a b named := by
    simp only [setEntry] at named
    split at named
    · cases named
    · exact h.rootFree a b named

theorem Slots.fill (h : T.Slots root) (untargeted : ∀ a b, T.entry a b ≠ some x) (notRoot : x ≠ root) :
    (T.setEntry p n (some x)).Slots root where
  unique a b a' b' j first second := by
    simp only [setEntry] at first second
    split at first <;> split at second
    next here there => exact ⟨here.1.trans there.1.symm,here.2.trans there.2.symm⟩
    next => exact absurd second ((Option.some.inj first) ▸ untargeted a' b')
    next => exact absurd first ((Option.some.inj second) ▸ untargeted a b)
    next => exact h.unique a b a' b' j first second
  rootFree a b named := by
    simp only [setEntry] at named
    split at named
    · exact notRoot (Option.some.inj named)
    · exact h.rootFree a b named

theorem Slots.attach (h : T.Slots root) (fresh : T.Unused root i) : (T.attach p n i isFolder).Slots root :=
  let filled := h.fill (p := p) (n := n) fresh.untargeted fresh.notRoot
  ⟨filled.unique,filled.rootFree⟩

theorem Slots.detach (h : T.Slots root) : (T.detach p n i).Slots root where
  unique a b a' b' j first second := by
    simp only [Namespace.detach] at first second
    split at first <;> split at second
    all_goals first | cases first | cases second | exact h.unique a b a' b' j first second
  rootFree a b named := by
    simp only [Namespace.detach] at named
    split at named
    · cases named
    · exact h.rootFree a b named

theorem Slots.rehang (h : T.Slots root) (slot : T.entry p n = some x) : (T.rehang p n q m x).Slots root := by
  refine h.clear.fill ?_ ?_
  · intro a b named
    simp only [setEntry] at named
    split at named
    · cases named
    next away => exact away (h.unique a b p n x named slot)
  · rintro rfl
    exact h.rootFree p n slot

theorem Integrity.attach (h : T.Integrity root) (vacant : T.entry p n = none)
    (fresh : T.Unused root i) : (T.attach p n i isFolder).Integrity root where
  toSlots := h.toSlots.attach fresh
  tables j := by
    by_cases same : j = i
    · subst j
      simp [Namespace.attach,fresh.tableless]
    · simp [Namespace.attach,same,h.tables j]
  target a b j named := by
    simp only [Namespace.attach] at named ⊢
    split at named
    · exact .inl (Option.some.inj named).symm
    · exact .inr (h.target a b j named)
  named j alive other := by
    rcases alive with rfl | alive
    · exact ⟨p,n,by simp [Namespace.attach]⟩
    · obtain ⟨a,b,named⟩ := h.named j alive other
      refine ⟨a,b,?_⟩
      have away : ¬ (a = p ∧ b = n) := by
        rintro ⟨rfl,rfl⟩
        simp [vacant] at named
      simp [Namespace.attach,away,named]
  rootLive := .inr h.rootLive

theorem Integrity.detach (h : T.Integrity root) (slot : T.entry p n = some i)
    (childless : ∀ b, T.entry i b = none) : (T.detach p n i).Integrity root where
  toSlots := h.toSlots.detach
  tables j := by simp [Namespace.detach,h.tables j]
  target a b j named := by
    simp only [Namespace.detach] at named ⊢
    split at named
    next => cases named
    next away =>
      refine ⟨?_,h.target a b j named⟩
      rintro rfl
      obtain ⟨rfl,rfl⟩ := h.unique a b p n j named slot
      exact away (.inr ⟨rfl,rfl⟩)
  named j alive other := by
    obtain ⟨a,b,named⟩ := h.named j alive.2 other
    refine ⟨a,b,?_⟩
    have away : ¬ (a = i ∨ (a = p ∧ b = n)) := by
      rintro (rfl | ⟨rfl,rfl⟩)
      · simp [childless] at named
      · exact alive.1 (Option.some.inj (named.symm.trans slot))
    simp [Namespace.detach,away,named]
  rootLive := by
    refine ⟨?_,h.rootLive⟩
    rintro rfl
    exact h.rootFree p n slot

theorem Integrity.rehang (h : T.Integrity root) (slot : T.entry p n = some x)
    (vacant : T.entry q m = none) : (T.rehang p n q m x).Integrity root where
  toSlots := h.toSlots.rehang slot
  tables := h.tables
  target a b j named := by
    simp only [Namespace.rehang,setEntry] at named ⊢
    split at named
    · exact (Option.some.inj named) ▸ h.target p n x slot
    · split at named
      · cases named
      · exact h.target a b j named
  named j alive other := by
    obtain ⟨a,b,named⟩ := h.named j alive other
    by_cases here : a = p ∧ b = n
    · obtain ⟨rfl,rfl⟩ := here
      exact ⟨q,m,by simp [Namespace.rehang,setEntry,← named,slot]⟩
    · have away : ¬ (a = q ∧ b = m) := by
        rintro ⟨rfl,rfl⟩
        simp [vacant] at named
      exact ⟨a,b,by simp [Namespace.rehang,setEntry,here,away,named]⟩
  rootLive := h.rootLive

theorem Rooted.attach (wf : T.Wellformed) (h : T.Rooted root) (parent : T.table p)
    (vacant : T.entry p n = none) (fresh : T.Unused root i) : (T.attach p n i isFolder).Rooted root where
  toSlots := h.toSlots.attach fresh
  tables j owns := by
    rcases owns with ⟨rfl,yes⟩ | owns
    · exact .inl ⟨rfl,yes⟩
    · refine .inr ⟨?_,h.tables j owns⟩
      rintro rfl
      exact fresh.tableless owns
  reach j alive := by
    have kept (a b : I) (step : T.edge a b) : (T.attach p n i isFolder).edge a b := by
      obtain ⟨c,named⟩ := step
      refine ⟨c,?_⟩
      have away : ¬ (a = p ∧ c = n) := by
        rintro ⟨rfl,rfl⟩
        simp [vacant] at named
      simp [Namespace.attach,away,named]
    have old (k : I) (alive : T.live k) : (T.attach p n i isFolder).Below root k :=
      ReflTransGen.mono kept _ _ (h.reach k alive)
    rcases alive with rfl | alive
    · exact (old p (wf.folderLive p (h.tables p parent))).tail ⟨n,by simp [Namespace.attach]⟩
    · exact old j alive

theorem Wellformed.detach (wf : T.Wellformed) : (T.detach p n i).Wellformed where
  folderLive j isFolder := ⟨isFolder.1,wf.folderLive j isFolder.2⟩
  entryTable a b j named := by
    simp only [Namespace.detach] at named
    split at named
    · cases named
    next away => exact ⟨fun same => away (.inl same),wf.entryTable a b j named⟩

theorem Below.of_detach {a b : I} (path : (T.detach p n i).Below a b) : T.Below a b := by
  refine ReflTransGen.mono ?_ a b path
  intro x y step
  obtain ⟨c,named⟩ := step
  simp only [Namespace.detach] at named
  split at named
  · cases named
  · exact ⟨c,named⟩

theorem Rooted.detach (h : T.Rooted root) (slot : T.entry p n = some i)
    (childless : ∀ b, T.entry i b = none) : (T.detach p n i).Rooted root where
  toSlots := h.toSlots.detach
  tables j owns := ⟨owns.1,h.tables j owns.2⟩
  reach j alive := by
    have leaf (b : I) : ¬ T.edge i b := by
      rintro ⟨c,named⟩
      simp [childless] at named
    have kept (a b : I) (other : b ≠ i) (step : T.edge a b) : (T.detach p n i).edge a b := by
      obtain ⟨c,named⟩ := step
      refine ⟨c,?_⟩
      have away : ¬ (a = i ∨ (a = p ∧ c = n)) := by
        rintro (rfl | ⟨rfl,rfl⟩)
        · simp [childless] at named
        · exact other (Option.some.inj (named.symm.trans slot))
      simp [Namespace.detach,away,named]
    exact reachable_prune leaf kept alive.1 (h.reach j alive.2)

theorem Rooted.rehang (wf : T.Wellformed) (h : T.Rooted root) (slot : T.entry p n = some x)
    (vacant : T.entry q m = none) (parent : T.table q) (outside : ¬ T.Below x q) :
    (T.rehang p n q m x).Rooted root where
  toSlots := h.toSlots.rehang slot
  tables := h.tables
  reach j alive := by
    have kept (a b : I) (other : b ≠ x) (step : T.edge a b) : (T.rehang p n q m x).edge a b := by
      obtain ⟨c,named⟩ := step
      refine ⟨c,?_⟩
      have here : ¬ (a = p ∧ c = n) := by
        rintro ⟨rfl,rfl⟩
        exact other (Option.some.inj (named.symm.trans slot))
      have there : ¬ (a = q ∧ c = m) := by
        rintro ⟨rfl,rfl⟩
        simp [vacant] at named
      simp [Namespace.rehang,setEntry,here,there,named]
    have linked : (T.rehang p n q m x).edge q x := ⟨m,by simp [Namespace.rehang,setEntry]⟩
    have rootOther : root ≠ x := by
      rintro rfl
      exact h.rootFree p n slot
    exact reachable_rehang kept linked rootOther outside
      (h.reach q (wf.folderLive q (h.tables q parent))) (h.reach j alive)

/-- Clearing the slot of a dead node without children. -/
theorem Rooted.clear (h : T.Rooted root) (slot : T.entry p n = some x) (dead : ¬ T.live x)
    (childless : ∀ b, T.entry x b = none) : (T.setEntry p n none).Rooted root where
  toSlots := h.toSlots.clear
  tables := h.tables
  reach j alive := by
    have leaf (b : I) : ¬ T.edge x b := by
      intro step
      obtain ⟨c,named⟩ := step
      simp [childless] at named
    have kept (a b : I) (other : b ≠ x) (step : T.edge a b) : (T.setEntry p n none).edge a b := by
      obtain ⟨c,named⟩ := step
      refine ⟨c,?_⟩
      have away : ¬ (a = p ∧ c = n) := by
        intro here
        obtain ⟨rfl,rfl⟩ := here
        exact other (Option.some.inj (named.symm.trans slot))
      simp [setEntry,away,named]
    have other : j ≠ x := fun same => dead (same ▸ alive)
    exact reachable_prune leaf kept other (h.reach j alive)

/-- Filling a vacant slot with a node that no other slot names. -/
theorem Rooted.dangle (h : T.Rooted root) (vacant : T.entry p n = none)
    (untargeted : ∀ a b, T.entry a b ≠ some x) (notRoot : x ≠ root) :
    (T.setEntry p n (some x)).Rooted root where
  toSlots := h.toSlots.fill untargeted notRoot
  tables := h.tables
  reach j alive := by
    refine ReflTransGen.mono ?_ _ _ (h.reach j alive)
    rintro a b ⟨c,named⟩
    refine ⟨c,?_⟩
    have away : ¬ (a = p ∧ c = n) := by
      rintro ⟨rfl,rfl⟩
      simp [vacant] at named
    simp [setEntry,away,named]

end Namespace
