import Mathlib.Tactic

/-! Paging through a sorted listing by its keys, where the listing may change between
the pages: the next page starts behind the last key of the one before. And walking
through a listing by position, which goes wrong once keys already seen disappear. -/
namespace Paging

variable {κ : Type} [LT κ] [DecidableLT κ]

/-- The keys behind the cursor. -/
def behind (cursor : Option κ) (keys : List κ) : List κ := keys.filter (fun key => cursor.all (fun last => last < key))

def page (max : Nat) (cursor : Option κ) (keys : List κ) : List κ := (behind cursor keys).take max

/-- The pages taken from the listings met one after the other, up to the first page
that is not full. -/
def collect (max : Nat) : Option κ → List (List κ) → List (List κ)
  | _,[] => []
  | cursor,keys::later =>
    page max cursor keys ::
      if (page max cursor keys).length < max then [] else collect max (page max cursor keys).getLast? later

/-- The last page is not full. -/
def Ended (max : Nat) (pages : List (List κ)) : Prop := ∃ last, pages.getLast? = some last ∧ last.length < max

omit [LT κ] [DecidableLT κ] in
theorem ended_cons {max : Nat} {first : List κ} {rest : List (List κ)} (more : rest ≠ []) :
    Ended max (first::rest) ↔ Ended max rest := by
  rw [Ended,List.getLast?_cons,Ended]
  cases last : rest.getLast? with
  | none => exact absurd (List.getLast?_eq_none_iff.mp last) more
  | some page => rfl

section Pages

variable {max : Nat} {cursor : Option κ} {keys : List κ}

theorem mem_behind {key : κ} : key ∈ behind cursor keys ↔ key ∈ keys ∧ ∀ last, cursor = some last → last < key := by
  rw [behind,List.mem_filter]
  cases cursor with
  | none => simp
  | some last => simp

theorem behind_sorted (sorted : keys.Pairwise (· < ·)) (cursor : Option κ) : (behind cursor keys).Pairwise (· < ·) :=
  sorted.filter _

theorem page_sorted (sorted : keys.Pairwise (· < ·)) (max : Nat) (cursor : Option κ) : (page max cursor keys).Pairwise (· < ·) :=
  (behind_sorted sorted cursor).sublist (List.take_sublist _ _)

theorem page_subset {key : κ} (member : key ∈ page max cursor keys) : key ∈ keys ∧ ∀ last, cursor = some last → last < key :=
  mem_behind.mp (List.mem_of_mem_take member)

/-- A key behind the cursor is on the page, or the page is full and the key is behind
every key of it. -/
theorem page_covers (sorted : keys.Pairwise (· < ·)) {key : κ} (member : key ∈ behind cursor keys) :
    key ∈ page max cursor keys ∨ ((page max cursor keys).length = max ∧ ∀ other ∈ page max cursor keys, other < key) := by
  have parts := List.take_append_drop max (behind cursor keys)
  rw [← parts] at member
  rcases List.mem_append.mp member with shown | later
  · exact .inl shown
  · refine .inr ⟨?_,?_⟩
    · have some_left := List.length_pos_of_mem later
      rw [List.length_drop] at some_left
      rw [page,List.length_take]
      omega
    · intro other before
      have whole := behind_sorted sorted cursor
      rw [← parts] at whole
      exact (List.pairwise_append.mp whole).2.2 other before key later

omit [LT κ] [DecidableLT κ] in
theorem getLast_of_full {page : List κ} (positive : 0 < max) (full : ¬ page.length < max) :
    ∃ last, page.getLast? = some last ∧ last ∈ page := by
  have some_ : page ≠ [] := by
    intro none
    rw [none] at full
    exact full positive
  exact ⟨page.getLast some_,List.getLast?_eq_getLast_of_ne_nil some_,List.getLast_mem some_⟩

end Pages

section Collect

variable {max : Nat} {cursor : Option κ} {listings : List (List κ)}

theorem collect_after (trans : ∀ a b c : κ, a < b → b < c → a < c) (positive : 0 < max) {key last : κ}
    (shown : key ∈ (collect max cursor listings).flatten) (start : cursor = some last) : last < key := by
  induction listings generalizing cursor last with
  | nil => cases shown
  | cons keys later ih =>
    rw [collect,List.flatten_cons,List.mem_append] at shown
    rcases shown with here | behind_
    · exact (page_subset here).2 last start
    · split at behind_
      · cases behind_
      next full =>
        obtain ⟨final,found,onPage⟩ := getLast_of_full positive full
        exact trans _ _ _ ((page_subset onPage).2 last start) (ih behind_ found)

omit [DecidableLT κ] in
theorem last_of_sorted {page : List κ} {last : κ} (sorted : page.Pairwise (· < ·)) (found : page.getLast? = some last)
    {key : κ} (member : key ∈ page) : key = last ∨ key < last := by
  obtain ⟨init,rfl⟩ := List.getLast?_eq_some_iff.mp found
  rcases List.mem_append.mp member with before | same
  · exact .inr ((List.pairwise_append.mp sorted).2.2 key before last List.mem_cons_self)
  · exact .inl (List.mem_singleton.mp same)

/-- Whatever the listings are, the pages are strictly increasing. -/
theorem collect_sorted (trans : ∀ a b c : κ, a < b → b < c → a < c) (positive : 0 < max)
    (sorted : ∀ keys ∈ listings, keys.Pairwise (· < ·)) : (collect max cursor listings).flatten.Pairwise (· < ·) := by
  induction listings generalizing cursor with
  | nil => exact List.Pairwise.nil
  | cons keys later ih =>
    have head := page_sorted (sorted keys List.mem_cons_self) max cursor
    rw [collect,List.flatten_cons]
    split
    · simpa using head
    next full =>
      obtain ⟨last,found,_⟩ := getLast_of_full positive full
      refine List.pairwise_append.mpr ⟨head,ih (fun keys member => sorted keys (List.mem_cons_of_mem _ member)),?_⟩
      intro key here other there
      have next := collect_after trans positive there found
      rcases last_of_sorted head found here with same | before
      · rw [same]
        exact next
      · exact trans _ _ _ before next

/-- Once the pages have ended, a key that was in every listing met has been shown. -/
theorem collect_complete (positive : 0 < max) (sorted : ∀ keys ∈ listings, keys.Pairwise (· < ·))
    (length : listings.length = (collect max cursor listings).length) (ended : Ended max (collect max cursor listings)) {key : κ}
    (ahead : ∀ last, cursor = some last → last < key) (always : ∀ keys ∈ listings, key ∈ keys) :
    key ∈ (collect max cursor listings).flatten := by
  induction listings generalizing cursor with
  | nil =>
    obtain ⟨last,none,_⟩ := ended
    cases none
  | cons keys later ih =>
    have present : key ∈ behind cursor keys := mem_behind.mpr ⟨always keys List.mem_cons_self,ahead⟩
    rw [collect] at length ended ⊢
    rw [List.flatten_cons,List.mem_append]
    rcases page_covers (sorted keys List.mem_cons_self) present with shown | ⟨full,beyond⟩
    · exact .inl shown
    · refine .inr ?_
      have more : ¬ (page max cursor keys).length < max := by omega
      rw [if_neg more] at length ended ⊢
      obtain ⟨last,found,onPage⟩ := getLast_of_full positive more
      apply ih (fun keys member => sorted keys (List.mem_cons_of_mem _ member)) (Nat.succ.inj length)
      · refine (ended_cons ?_).mp ended
        intro none
        obtain ⟨final,only,short⟩ := ended
        rw [none] at only
        cases only
        exact more short
      · intro final same
        rw [found] at same
        cases same
        exact beyond last onPage
      · exact fun keys member => always keys (List.mem_cons_of_mem _ member)

theorem collect_subset {key : κ} (shown : key ∈ (collect max cursor listings).flatten) : ∃ keys ∈ listings, key ∈ keys := by
  induction listings generalizing cursor with
  | nil => cases shown
  | cons keys later ih =>
    rw [collect,List.flatten_cons,List.mem_append] at shown
    rcases shown with here | there
    · exact ⟨keys,List.mem_cons_self,(page_subset here).1⟩
    · split at there
      · cases there
      · obtain ⟨other,member,listed⟩ := ih there
        exact ⟨other,List.mem_cons_of_mem _ member,listed⟩

/-- Every page is full but for the last, and that one too if the pages have not ended. -/
theorem collect_full (max : Nat) (cursor : Option κ) (listings : List (List κ)) :
    max * (collect max cursor listings).length ≤ (collect max cursor listings).flatten.length + max ∧
      (¬ Ended max (collect max cursor listings) →
        max * (collect max cursor listings).length ≤ (collect max cursor listings).flatten.length) := by
  induction listings generalizing cursor with
  | nil => simp [collect]
  | cons keys later ih =>
    rw [collect]
    split
    next short =>
      refine ⟨by simp,?_⟩
      intro going
      exact absurd ⟨_,rfl,short⟩ going
    next full =>
      obtain ⟨most,all⟩ := ih (page max cursor keys).getLast?
      rw [List.flatten_cons,List.length_append,List.length_cons,Nat.mul_succ]
      refine ⟨by omega,?_⟩
      intro going
      cases rest : collect max (page max cursor keys).getLast? later with
      | nil => simpa using full
      | cons second others =>
        have open_ : ¬ Ended max (collect max (page max cursor keys).getLast? later) := by
          intro ended
          exact going ((ended_cons (by simp [rest])).mpr ended)
        have filled := all open_
        rw [rest] at filled
        omega

/-- In a listing that does not change, a full page leaves what comes behind it. -/
theorem behind_page {keys : List κ} (trans : ∀ a b c : κ, a < b → b < c → a < c) (irrefl : ∀ a : κ, ¬ a < a)
    (sorted : keys.Pairwise (· < ·)) {last : κ} (found : (page max cursor keys).getLast? = some last) :
    behind (some last) keys = (behind cursor keys).drop max := by
  have onPage : last ∈ page max cursor keys := List.mem_of_getLast? found
  have ahead := (page_subset onPage).2
  have inner : behind (some last) keys = (behind cursor keys).filter (fun key => last < key) := by
    rw [behind,behind,List.filter_filter]
    apply List.filter_congr
    intro key _
    cases cursor with
    | none => simp
    | some first =>
      have next := ahead first rfl
      by_cases later : last < key
      · simp [later,trans _ _ _ next later]
      · simp [later]
  have parts := List.take_append_drop max (behind cursor keys)
  have whole := behind_sorted sorted cursor
  rw [inner]
  nth_rewrite 1 [← parts]
  rw [List.filter_append]
  have gone : ((behind cursor keys).take max).filter (fun key => last < key) = [] := by
    apply List.filter_eq_nil_iff.mpr
    intro key member
    rw [decide_eq_true_iff]
    intro later
    rcases last_of_sorted (page_sorted sorted max cursor) found member with same | before
    · exact irrefl _ (same ▸ later)
    · exact irrefl _ (trans _ _ _ later before)
  have kept : ((behind cursor keys).drop max).filter (fun key => last < key) = (behind cursor keys).drop max := by
    apply List.filter_eq_self.mpr
    intro key member
    rw [decide_eq_true_iff]
    rw [← parts] at whole
    exact (List.pairwise_append.mp whole).2.2 last onPage key member
  rw [gone,kept,List.nil_append]

/-- A listing that does not change is shown as it is, and enough pages end. -/
theorem collect_unchanged {keys : List κ} (trans : ∀ a b c : κ, a < b → b < c → a < c) (irrefl : ∀ a : κ, ¬ a < a)
    (positive : 0 < max) (sorted : keys.Pairwise (· < ·)) (same : ∀ listing ∈ listings, listing = keys)
    (ended : Ended max (collect max cursor listings)) : (collect max cursor listings).flatten = behind cursor keys := by
  induction listings generalizing cursor with
  | nil =>
    obtain ⟨last,none,_⟩ := ended
    cases none
  | cons listing later ih =>
    have first := same listing List.mem_cons_self
    subst first
    rw [collect] at ended ⊢
    rw [List.flatten_cons]
    by_cases short : (page max cursor listing).length < max
    · rw [if_pos short,List.flatten_nil,List.append_nil,page,List.take_of_length_le]
      rw [page,List.length_take] at short
      omega
    · rw [if_neg short] at ended ⊢
      obtain ⟨last,found,_⟩ := getLast_of_full positive short
      have more : collect max (page max cursor listing).getLast? later ≠ [] := by
        intro none
        obtain ⟨final,only,full⟩ := ended
        rw [none] at only
        cases only
        exact short full
      rw [ih (fun keys member => same keys (List.mem_cons_of_mem _ member)) ((ended_cons more).mp ended),found,
        behind_page trans irrefl sorted found]
      exact List.take_append_drop max _

end Collect

/-- A walk through a listing that is resumed by position. -/
structure Walk (κ : Type) where
  keys : List κ
  offset : Nat
  returned : List κ

namespace Walk

variable {κ : Type} [DecidableEq κ]

/-- The next keys, at most `room` of them. -/
def shown (room : Nat) (w : Walk κ) : List κ := (w.keys.drop w.offset).take room

def read (room : Nat) (w : Walk κ) : Walk κ := ⟨w.keys,w.offset + (w.shown room).length,w.returned ++ w.shown room⟩

def remove (key : κ) (w : Walk κ) : Walk κ := {w with keys := w.keys.filter (· ≠ key)}

/-- Nothing has been removed from `all` so far. -/
structure Fresh (all : List κ) (w : Walk κ) : Prop where
  keys : w.keys = all
  returned : w.returned = all.take w.offset
  within : w.offset ≤ all.length

/-- Everything there was has been returned. -/
structure Done (all : List κ) (w : Walk κ) : Prop where
  keys : w.keys.Sublist all
  returned : w.returned = all
  past : w.keys.length ≤ w.offset

/-- The walk has gone past `key` without returning it. -/
structure Missed (key : κ) (w : Walk κ) : Prop where
  distinct : w.keys.Nodup
  behind : key ∈ w.keys.take w.offset
  unseen : key ∉ w.returned

variable {all : List κ} {w : Walk κ} {key : κ}

omit [DecidableEq κ] in
theorem Fresh.read (h : Fresh all w) (room : Nat) : Fresh all (w.read room) := by
  obtain ⟨keys,returned,within⟩ := h
  have length : (w.shown room).length = min room (all.length - w.offset) := by
    rw [shown,keys,List.length_take,List.length_drop]
  refine ⟨keys,?_,?_⟩
  · simp only [Walk.read,length]
    rw [returned,List.take_add,shown,keys]
    congr 1
    rw [List.take_eq_take_iff,List.length_drop]
    omega
  · simp only [Walk.read,length]
    omega

omit [DecidableEq κ] in
/-- A walk in which nothing was removed has returned everything once it shows no more. -/
theorem Fresh.done (h : Fresh all w) (past : all.length ≤ w.offset) : Done all w := by
  refine ⟨h.keys ▸ List.Sublist.refl _,?_,h.keys ▸ past⟩
  rw [h.returned,List.take_of_length_le past]

omit [DecidableEq κ] in
theorem Done.read (h : Done all w) (room : Nat) : Done all (w.read room) := by
  have nothing : w.shown room = [] := by
    rw [shown,List.drop_eq_nil_of_le h.past,List.take_nil]
  refine ⟨h.keys,?_,?_⟩
  · simp only [Walk.read,nothing,List.append_nil]
    exact h.returned
  · simp only [Walk.read,nothing]
    exact h.past

theorem Done.remove (h : Done all w) (key : κ) : Done all (w.remove key) := by
  refine ⟨List.filter_sublist.trans h.keys,h.returned,?_⟩
  exact Nat.le_trans (List.length_filter_le _ _) h.past

omit [DecidableEq κ] in
theorem mem_take_append {first second : List κ} {n : Nat} (short : first.length ≤ n) (member : key ∈ first) :
    key ∈ (first ++ second).take n := by
  rw [List.take_append,List.take_of_length_le short]
  exact List.mem_append_left _ member

/-- Removing a key already returned moves the next one out of reach. -/
theorem Fresh.remove (h : Fresh all w) (distinct : all.Nodup) (more : w.offset < all.length) (seen : key ∈ w.returned) :
    ∃ next, Missed next (w.remove key) := by
  obtain ⟨keys,returned,_⟩ := h
  have split : all = all.take w.offset ++ [all[w.offset]] ++ all.drop (w.offset + 1) := by simp
  have apart : (all.take w.offset ++ [all[w.offset]]).Nodup := (split ▸ distinct).of_append_left
  obtain ⟨_,_,disjoint⟩ := List.nodup_append.mp apart
  have inside : key ∈ all.take w.offset := returned ▸ seen
  have other : all[w.offset] ≠ key := by
    intro same
    exact disjoint key inside all[w.offset] List.mem_cons_self same.symm
  have fewer : ((all.take w.offset).filter (· ≠ key)).length < (all.take w.offset).length := by
    apply List.length_filter_lt_length_iff_exists.mpr
    exact ⟨key,inside,by simp⟩
  refine ⟨all[w.offset],?_,?_,?_⟩
  · rw [Walk.remove,keys]
    exact distinct.filter _
  · have kept := congrArg (List.filter (· ≠ key)) split
    rw [List.filter_append,List.filter_append] at kept
    simp only [Walk.remove,keys,kept]
    apply mem_take_append
    · rw [List.length_append]
      have one : ([all[w.offset]].filter (· ≠ key)).length ≤ 1 := List.length_filter_le _ _
      rw [List.length_take] at fewer
      omega
    · apply List.mem_append_right
      apply List.mem_filter.mpr
      exact ⟨List.mem_cons_self,by simpa using other⟩
  · intro member
    simp only [Walk.remove] at member
    rw [returned] at member
    exact disjoint _ member _ List.mem_cons_self rfl

omit [DecidableEq κ] in
theorem Missed.read (h : Missed key w) (room : Nat) : Missed key (w.read room) := by
  obtain ⟨distinct,behind,unseen⟩ := h
  have parts : (w.keys.take w.offset ++ w.keys.drop w.offset).Nodup := by
    rw [List.take_append_drop]
    exact distinct
  obtain ⟨_,_,disjoint⟩ := List.nodup_append.mp parts
  refine ⟨distinct,?_,?_⟩
  · exact (List.take_prefix_take_left (Nat.le_add_right _ _)).subset behind
  · intro member
    rcases List.mem_append.mp member with before | now
    · exact unseen before
    · exact disjoint key behind key (List.mem_of_mem_take now) rfl

theorem Missed.remove (h : Missed key w) {other : κ} (seen : other ∈ w.returned) : Missed key (w.remove other) := by
  obtain ⟨distinct,behind,unseen⟩ := h
  have apart : key ≠ other := by
    intro same
    exact unseen (same ▸ seen)
  refine ⟨distinct.filter _,?_,unseen⟩
  have parts := List.take_append_drop w.offset w.keys
  simp only [Walk.remove]
  nth_rewrite 1 [← parts]
  rw [List.filter_append]
  apply mem_take_append
  · exact Nat.le_trans (List.length_filter_le _ _) (List.length_take_le _ _)
  · apply List.mem_filter.mpr
    exact ⟨behind,by simpa using apart⟩

end Walk

end Paging
