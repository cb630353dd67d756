import Dtmpfs.Semantics.Namespace

/-! Paths of names from a root, where no node has two names: what attaching, removing and
moving one name does to the nodes that paths lead to. -/
namespace Walks

variable {I N : Type}

/-- Where a path of names leads to. -/
def walk (entry : I → N → Option I) (root : I) (path : List N) : Option I := path.foldlM entry root

/-- A new leaf at `path`. -/
def grafted [DecidableEq N] (path : List N) (leaf : I) (tree : List N → Option I) : List N → Option I :=
  fun other => if other = path then some leaf else tree other

/-- Nothing at `path` any more. -/
def dropped [DecidableEq N] (path : List N) (tree : List N → Option I) : List N → Option I :=
  fun other => if other = path then none else tree other

/-- Everything at and below `source` is found at and below `target`. -/
def moved [DecidableEq N] (source target : List N) (tree : List N → Option I) : List N → Option I :=
  fun other => if target <+: other then tree (source ++ other.drop target.length) else if source <+: other then none else tree other

section Paths

variable {entry : I → N → Option I} {root i j : I} {path other : List N} {n : N}

@[simp] theorem walk_nil : walk entry root [] = some root := rfl

theorem walk_snoc (path : List N) (n : N) : walk entry root (path ++ [n]) = (walk entry root path).bind (fun j => entry j n) := by
  simp only [walk,List.foldlM_append,List.foldlM_cons,List.foldlM_nil,bind_pure]
  rfl

theorem walk_snoc_some (led : walk entry root (path ++ [n]) = some i) : ∃ j, walk entry root path = some j ∧ entry j n = some i := by
  rw [walk_snoc] at led
  exact Option.bind_eq_some_iff.mp led

theorem walk_below {T : Namespace I N} (below : T.Below root i) : ∃ path, walk T.entry root path = some i := by
  induction below with
  | refl => exact ⟨[],rfl⟩
  | tail _ step ih =>
    obtain ⟨path,led⟩ := ih
    obtain ⟨n,named⟩ := step
    exact ⟨path ++ [n],by rw [walk_snoc,led]; exact named⟩

theorem below_of_walk {T : Namespace I N} (led : walk T.entry i path = some j) : T.Below i j := by
  induction path using List.reverseRecOn generalizing j with
  | nil =>
    cases led
    exact .refl
  | append_singleton before n ih =>
    obtain ⟨k,led,named⟩ := walk_snoc_some led
    exact (ih led).tail ⟨n,named⟩

theorem walk_append (path other : List N) :
    walk entry root (path ++ other) = (walk entry root path).bind (fun i => walk entry i other) := List.foldlM_append

variable {T : Namespace I N}

/-- No two paths lead to one node. -/
theorem walk_unique (slots : T.Slots root) (first : walk T.entry root path = some i) (second : walk T.entry root other = some i) :
    path = other := by
  induction path using List.reverseRecOn generalizing other i with
  | nil =>
    cases first
    rcases List.eq_nil_or_concat' other with rfl | ⟨before,n,rfl⟩
    · rfl
    · obtain ⟨j,_,named⟩ := walk_snoc_some second
      exact absurd named (slots.rootFree j n)
  | append_singleton before n ih =>
    obtain ⟨j,led,named⟩ := walk_snoc_some first
    rcases List.eq_nil_or_concat' other with rfl | ⟨before',m,rfl⟩
    · cases second
      exact absurd named (slots.rootFree j n)
    · obtain ⟨k,led',named'⟩ := walk_snoc_some second
      obtain ⟨rfl,rfl⟩ := slots.unique j n k m i named named'
      rw [ih led led']

/-- A slot and the path that goes through it last name each other. -/
theorem walk_slot (slots : T.Slots root) (at_ : walk T.entry root path = some i) (led : walk T.entry root other = some j) {m : N} :
    other ++ [m] = path ++ [n] ↔ j = i ∧ m = n := by
  constructor
  · intro same
    obtain ⟨rfl,last⟩ := List.append_inj' same rfl
    cases last
    exact ⟨Option.some.inj (led.symm.trans at_),rfl⟩
  · intro both
    obtain ⟨rfl,rfl⟩ := both
    rw [walk_unique slots led at_]

end Paths

section Changes

variable [DecidableEq N] {T : Namespace I N} {entry : I → N → Option I} {root p q i x : I} {path parent target : List N} {n m : N}

/-- The paths when slot `(p,n)`, which was free, names the new node `i`. -/
theorem walk_grafted (slots : T.Slots root) (at_ : walk T.entry root parent = some p) (vacant : T.entry p n = none)
    (childless : ∀ b, entry i b = none) (filled : entry p n = some i) (others : ∀ a b, ¬ (a = p ∧ b = n) → entry a b = T.entry a b) :
    walk entry root = grafted (parent ++ [n]) i (walk T.entry root) := by
  funext path
  induction path using List.reverseRecOn with
  | nil => simp [grafted]
  | append_singleton before b ih =>
    rw [walk_snoc,ih]
    unfold grafted
    by_cases here : before = parent ++ [n]
    · have longer : before ++ [b] ≠ parent ++ [n] := by simp [here]
      rw [if_pos here,if_neg longer,Option.bind_some,childless,here,walk_snoc,walk_snoc,at_,Option.bind_some,vacant]
      rfl
    · rw [if_neg here]
      cases led : walk T.entry root before with
      | none =>
        have elsewhere : before ++ [b] ≠ parent ++ [n] := by
          intro same
          rw [(List.append_inj' same rfl).1,at_] at led
          cases led
        rw [if_neg elsewhere,walk_snoc,led]
        rfl
      | some j =>
        rw [walk_snoc,led,Option.bind_some,Option.bind_some]
        by_cases slot : j = p ∧ b = n
        · rw [if_pos ((walk_slot slots at_ led).mpr slot),slot.1,slot.2,filled]
        · rw [if_neg (fun same => slot ((walk_slot slots at_ led).mp same)),others j b slot]

/-- The paths when slot `(p,n)` and the childless node it named are gone. -/
theorem walk_dropped (slots : T.Slots root) (at_ : walk T.entry root parent = some p) (named : T.entry p n = some i)
    (childless : ∀ b, T.entry i b = none) (cleared : entry p n = none)
    (others : ∀ a b, a ≠ i → ¬ (a = p ∧ b = n) → entry a b = T.entry a b) :
    walk entry root = dropped (parent ++ [n]) (walk T.entry root) := by
  have gone : walk T.entry root (parent ++ [n]) = some i := by rw [walk_snoc,at_,Option.bind_some,named]
  funext path
  induction path using List.reverseRecOn with
  | nil => simp [dropped]
  | append_singleton before b ih =>
    rw [walk_snoc,ih]
    unfold dropped
    by_cases here : before = parent ++ [n]
    · have longer : before ++ [b] ≠ parent ++ [n] := by simp [here]
      rw [if_pos here,if_neg longer,here,walk_snoc,gone,Option.bind_some,childless]
      rfl
    · rw [if_neg here]
      cases led : walk T.entry root before with
      | none =>
        rw [walk_snoc,led]
        simp
      | some j =>
        have apart : j ≠ i := by
          rintro rfl
          exact here (walk_unique slots led gone)
        rw [walk_snoc,led,Option.bind_some,Option.bind_some]
        by_cases slot : j = p ∧ b = n
        · rw [if_pos ((walk_slot slots at_ led).mpr slot),slot.1,slot.2,cleared]
        · rw [if_neg (fun same => slot ((walk_slot slots at_ led).mp same)),others j b apart slot]

/-- The paths when what slot `(p,n)` named is named by slot `(q,m)` instead, outside of it. -/
theorem walk_moved (slots : T.Slots root) (at_ : walk T.entry root parent = some p) (there : walk T.entry root target = some q)
    (named : T.entry p n = some x) (outside : ¬ parent ++ [n] <+: target) (arrived : entry q m = some x) (left : entry p n = none)
    (others : ∀ a b, ¬ (a = p ∧ b = n) → ¬ (a = q ∧ b = m) → entry a b = T.entry a b) :
    walk entry root = moved (parent ++ [n]) (target ++ [m]) (walk T.entry root) := by
  funext path
  induction path using List.reverseRecOn with
  | nil => simp [moved]
  | append_singleton before b ih =>
    rw [walk_snoc,ih]
    unfold moved
    by_cases inside : target ++ [m] <+: before
    -- Below the new place the walk goes on as it did below the old one.
    · obtain ⟨rest,rfl⟩ := inside
      have longer : target ++ [m] <+: target ++ [m] ++ rest ++ [b] := ⟨rest ++ [b],by simp⟩
      have here : target ++ [m] <+: target ++ [m] ++ rest := ⟨rest,rfl⟩
      have after : (target ++ [m] ++ rest ++ [b]).drop (target ++ [m]).length = rest ++ [b] := by
        rw [List.append_assoc,List.drop_left]
      rw [if_pos here,if_pos longer,List.drop_left,after,← List.append_assoc,walk_snoc]
      cases led : walk T.entry root (parent ++ [n] ++ rest) with
      | none => rfl
      | some j =>
        have notSource : ¬ (j = p ∧ b = n) := by
          intro slot
          rw [slot.1] at led
          have same := congrArg List.length (walk_unique slots led at_)
          simp at same
        have notTarget : ¬ (j = q ∧ b = m) := by
          intro slot
          rw [slot.1] at led
          exact outside ⟨rest,walk_unique slots led there⟩
        exact others j b notSource notTarget
    · rw [if_neg inside]
      by_cases lands : before ++ [b] = target ++ [m]
      · obtain ⟨rfl,last⟩ := List.append_inj' lands rfl
        cases last
        rw [if_neg outside,if_pos (List.prefix_refl _),there,Option.bind_some,arrived,List.drop_length,List.append_nil,walk_snoc,at_,
          Option.bind_some,named]
      · have elsewhere : ¬ target ++ [m] <+: before ++ [b] := by
          intro further
          rcases List.prefix_concat_iff.mp further with same | within
          · exact lands same.symm
          · exact inside within
        rw [if_neg elsewhere]
        by_cases below : parent ++ [n] <+: before
        · rw [if_pos below,if_pos (below.trans (List.prefix_append _ _))]
          rfl
        · rw [if_neg below]
          by_cases source : before ++ [b] = parent ++ [n]
          · obtain ⟨rfl,last⟩ := List.append_inj' source rfl
            cases last
            rw [if_pos (List.prefix_refl _),at_,Option.bind_some,left]
          · have apart : ¬ parent ++ [n] <+: before ++ [b] := by
              intro further
              rcases List.prefix_concat_iff.mp further with same | within
              · exact source same.symm
              · exact below within
            rw [if_neg apart,walk_snoc]
            cases led : walk T.entry root before with
            | none => rfl
            | some j => exact others j b (fun slot => source ((walk_slot slots at_ led).mpr slot)) (fun slot => lands ((walk_slot slots there led).mpr slot))

end Changes

end Walks
