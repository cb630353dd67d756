import Mathlib.Tactic

/-! Lookup rules of finite ordered maps, stated with equality of keys in place of
the comparison of `Std.ExtTreeMap`. -/
namespace OrderedMap

variable {α β : Type} [Ord α] [Std.TransOrd α]

theorem contains_iff (map : Std.ExtTreeMap α β) (key : α) :
    map.contains key = true ↔ ∃ value, map[key]? = some value := by
  rw [Std.ExtTreeMap.contains_eq_isSome_getElem?,Option.isSome_iff_exists]

theorem vacant_iff (map : Std.ExtTreeMap α β) (key : α) : map.contains key = false ↔ map[key]? = none := by
  rw [Std.ExtTreeMap.contains_eq_isSome_getElem?,Option.isSome_eq_false_iff,Option.isNone_iff_eq_none]

/-- The sum of a measure over the values of a map. -/
def total (measure : β → Nat) (map : Std.ExtTreeMap α β) : Nat := (map.toList.map (fun entry => measure entry.2)).sum

@[simp] theorem total_empty (measure : β → Nat) : total measure (∅ : Std.ExtTreeMap α β) = 0 := by
  have none : (∅ : Std.ExtTreeMap α β).toList = [] := by
    apply List.eq_nil_iff_forall_not_mem.mpr
    intro entry member
    simpa using Std.ExtTreeMap.mem_toList_iff_getKey?_eq_some_and_getElem?_eq_some.mp member
  rw [total,none]
  rfl

/-- Only the measures of the values that are there matter. -/
theorem total_mono {first second : β → Nat} {map : Std.ExtTreeMap α β}
    (smaller : ∀ (key : α) (value : β), map[key]? = some value → first value ≤ second value) [Std.LawfulEqOrd α] :
    total first map ≤ total second map := by
  apply List.sum_le_sum
  intro entry member
  exact smaller entry.1 entry.2 (Std.ExtTreeMap.mem_toList_iff_getElem?_eq_some.mp member)

theorem total_congr {first second : β → Nat} {map : Std.ExtTreeMap α β}
    (same : ∀ (key : α) (value : β), map[key]? = some value → first value = second value) [Std.LawfulEqOrd α] :
    total first map = total second map := by
  apply Nat.le_antisymm
  · exact total_mono (fun key value found => Nat.le_of_eq (same key value found))
  · exact total_mono (fun key value found => Nat.le_of_eq (same key value found).symm)

theorem toList_nodup (map : Std.ExtTreeMap α β) : map.toList.Nodup := by
  apply List.Nodup.of_map Prod.fst
  rw [Std.ExtTreeMap.map_fst_toList_eq_keys]
  exact Std.ExtTreeMap.nodup_keys

variable [Std.LawfulEqOrd α]

theorem get_insert [DecidableEq α] (map : Std.ExtTreeMap α β) (key other : α) (value : β) :
    (map.insert key value)[other]? = if key = other then some value else map[other]? := by
  simp [Std.ExtTreeMap.getElem?_insert]

theorem insert_some [DecidableEq α] {map : Std.ExtTreeMap α β} {key other : α} {value found : β}
    (held : (map.insert key value)[other]? = some found) :
    (other = key ∧ found = value) ∨ (other ≠ key ∧ map[other]? = some found) := by
  rw [get_insert] at held
  split at held
  next same =>
    cases held
    exact .inl ⟨same.symm,rfl⟩
  next apart => exact .inr ⟨Ne.symm apart,held⟩

theorem get_erase [DecidableEq α] (map : Std.ExtTreeMap α β) (key other : α) :
    (map.erase key)[other]? = if key = other then none else map[other]? := by
  simp [Std.ExtTreeMap.getElem?_erase]

theorem get_filter (map : Std.ExtTreeMap α β) (keep : α → β → Bool) (key : α) :
    (map.filter keep)[key]? = map[key]?.filter (keep key) := by
  simp [Std.ExtTreeMap.getElem?_filter]

theorem isEmpty_iff (map : Std.ExtTreeMap α β) : map.isEmpty = true ↔ ∀ key : α, map[key]? = none := by
  rw [Std.ExtTreeMap.isEmpty_iff]
  constructor
  · rintro rfl key
    simp
  · intro absent
    ext key value
    simp [absent]

theorem insert_get [DecidableEq α] (map : Std.ExtTreeMap α β) (key : α) (value : β)
    (present : map[key]? = some value) : map.insert key value = map := by
  ext other found
  rw [get_insert]
  split
  next same => rw [← same,present]
  next => rfl

theorem insert_insert [DecidableEq α] (map : Std.ExtTreeMap α β) (key : α) (first second : β) :
    (map.insert key first).insert key second = map.insert key second := by
  ext other found
  simp only [get_insert]
  split <;> rfl

theorem insert_erase [DecidableEq α] {map : Std.ExtTreeMap α β} {key : α} (vacant : map[key]? = none) (value : β) :
    (map.insert key value).erase key = map := by
  ext other found
  rw [get_erase,get_insert]
  split
  next same => rw [← same,vacant]
  next => rfl

theorem toList_insert_vacant [DecidableEq α] {map : Std.ExtTreeMap α β} {key : α} (vacant : map[key]? = none) (value : β) :
    (map.insert key value).toList.Perm ((key,value)::map.toList) := by
  have fresh : (key,value) ∉ map.toList := by
    intro member
    rw [Std.ExtTreeMap.mem_toList_iff_getElem?_eq_some,vacant] at member
    cases member
  apply (List.perm_ext_iff_of_nodup (toList_nodup _) (List.nodup_cons.mpr ⟨fresh,toList_nodup _⟩)).mpr
  intro entry
  obtain ⟨other,found⟩ := entry
  rw [Std.ExtTreeMap.mem_toList_iff_getElem?_eq_some,get_insert,List.mem_cons,Std.ExtTreeMap.mem_toList_iff_getElem?_eq_some]
  by_cases same : key = other
  · subst same
    simp [vacant,eq_comm]
  · simp [same,Ne.symm same]

theorem total_insert_vacant [DecidableEq α] (measure : β → Nat) {map : Std.ExtTreeMap α β} {key : α} (vacant : map[key]? = none)
    (value : β) : total measure (map.insert key value) = measure value + total measure map := by
  have perm := (toList_insert_vacant vacant value).map (fun entry => measure entry.2)
  rw [total,perm.sum_eq,List.map_cons,List.sum_cons]
  rfl

theorem total_erase [DecidableEq α] (measure : β → Nat) (map : Std.ExtTreeMap α β) (key : α) :
    total measure (map.erase key) + (map[key]?.map measure).getD 0 = total measure map := by
  have vacant : (map.erase key)[key]? = none := by rw [get_erase,if_pos rfl]
  cases found : map[key]? with
  | none =>
    have same : map.erase key = map := by
      ext other value
      rw [get_erase]
      split
      next equal => rw [← equal,found]
      next => rfl
    rw [same]
    rfl
  | some value =>
    have restored : (map.erase key).insert key value = map := by
      ext other value'
      rw [get_insert,get_erase]
      split
      next equal => rw [← equal,found]
      next => rfl
    have sum := total_insert_vacant measure vacant value
    rw [restored] at sum
    rw [sum]
    exact Nat.add_comm _ _

theorem total_insert [DecidableEq α] (measure : β → Nat) (map : Std.ExtTreeMap α β) (key : α) (value : β) :
    total measure (map.insert key value) + (map[key]?.map measure).getD 0 = total measure map + measure value := by
  have vacant : (map.erase key)[key]? = none := by rw [get_erase,if_pos rfl]
  have replaced : (map.erase key).insert key value = map.insert key value := by
    ext other value'
    rw [get_insert,get_insert,get_erase]
    split <;> rfl
  have sum := total_insert_vacant measure vacant value
  rw [replaced] at sum
  have erased := total_erase measure map key
  omega

end OrderedMap
