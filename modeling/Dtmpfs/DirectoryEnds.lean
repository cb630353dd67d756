import Dtmpfs.DirectoryPages

/-! The fetch loop of `readdir` comes to its end whatever happens to the directory in
between, as long as it does not keep getting names it has not had before. -/
namespace Dtmpfs
open MetaService MetaState OrderedMap Paging

/-- A fetch loop that is still going has used up its batches and seen no `eof`. -/
theorem fetchEntries_going {ino : InodeId} (batches : List (List (Host × Call))) (cookie : ByteArray) (entries : List DirEntry) (s : MetaState)
    (going : fetchEntries ino batches cookie entries s = none) :
    (readPages ino 256 batches cookie s).length = batches.length ∧
      ∀ request ∈ readPages ino 256 batches cookie s, request.2.eof = false := by
  induction batches generalizing cookie entries s with
  | nil => exact ⟨rfl,List.forall_mem_nil _⟩
  | cons calls later ih =>
    cases read : readDir ⟨ino,cookie,256⟩ (run calls s) with
    | error fault =>
      simp only [fetchEntries,read] at going
      cases going
    | ok resp =>
      rw [readPages_cons calls later cookie s read]
      simp only [fetchEntries,read] at going
      cases eof : resp.eof with
      | true =>
        rw [eof] at going
        cases going
      | false =>
        rw [eof,if_neg Bool.false_ne_true] at going
        obtain ⟨length,open_⟩ := ih resp.nextCookie (entries ++ resp.entries) (run calls s) going
        refine ⟨by simp only [Bool.false_eq_true,if_false,List.length_cons,length],?_⟩
        exact List.forall_mem_cons.mpr ⟨eof,open_⟩

section Ends

variable {ino : InodeId} {batches : List (List (Host × Call))} {s : MetaState} {pool : List String}

/-- All the names shown are different, and the directory has had each of them. -/
theorem shown_few (filled : ∀ calls ∈ batches, ∀ request ∈ calls, NonEmptyName request.2) (named : Named s)
    (met : ∀ n, n ≤ batches.length → ∀ name ∈ listing ino (run (batches.take n).flatten s), name ∈ pool) :
    ((readPages ino 256 batches ByteArray.empty s).map (·.2.names)).flatten.length ≤ pool.length := by
  have paged := (readPages_start ino 256 (by decide) batches filled s named rfl).1
  have sorted : ((readPages ino 256 batches ByteArray.empty s).map (·.2.names)).flatten.Pairwise (· < ·) := by
    rw [paged]
    apply collect_sorted name_trans (by decide)
    intro keys member
    obtain ⟨request,_,rfl⟩ := List.mem_map.mp member
    exact listing_sorted ino request.1
  have different : ((readPages ino 256 batches ByteArray.empty s).map (·.2.names)).flatten.Nodup := by
    refine sorted.imp ?_
    rintro a _ less rfl
    exact name_irrefl a less
  apply (List.subperm_of_subset different ?_).length_le
  intro name shown
  rw [paged] at shown
  obtain ⟨keys,member,listed⟩ := collect_subset shown
  obtain ⟨request,asked,rfl⟩ := List.mem_map.mp member
  obtain ⟨n,small,state⟩ := readPages_states batches ByteArray.empty s asked
  rw [state] at listed
  exact met n small name listed

end Ends

/-- `readdir` ends: with `pool` the names the directory has while it goes on, it gets at
most one page for every 256 of them and one more, whatever is served between its requests. -/
theorem readdir_ends (now : SystemTime) (replicationFactor : Nat) (before : List (Host × Call)) (ino : InodeId)
    (batches : List (List (Host × Call))) (proper : ∀ request ∈ before, NonEmptyName request.2)
    (filled : ∀ calls ∈ batches, ∀ request ∈ calls, NonEmptyName request.2) (pool : List String)
    (met : ∀ n, n ≤ batches.length →
      ∀ name ∈ listing ino (run (before ++ (batches.take n).flatten) (new now replicationFactor)), name ∈ pool) :
    (readPages ino 256 batches ByteArray.empty (run before (new now replicationFactor))).length ≤ pool.length / 256 + 1 ∧
      (pool.length / 256 < batches.length →
        ∃ reply, fetchEntries ino batches ByteArray.empty [] (run before (new now replicationFactor)) = some reply) := by
  have named := run_named before _ (named_new now replicationFactor) proper
  have few : ((readPages ino 256 batches ByteArray.empty (run before (new now replicationFactor))).map (·.2.names)).flatten.length ≤
      pool.length := by
    apply shown_few filled named
    intro n small
    rw [← run_append]
    exact met n small
  obtain ⟨paged,answers⟩ := readPages_start ino 256 (by decide) batches filled _ named rfl
  generalize read : readPages ino 256 batches ByteArray.empty (run before (new now replicationFactor)) = pages at few paged answers ⊢
  obtain ⟨most,all⟩ := collect_full 256 none (pages.map (fun request => listing ino request.1))
  rw [← paged,List.length_map] at most all
  refine ⟨by omega,?_⟩
  intro enough
  cases ended : fetchEntries ino batches ByteArray.empty [] (run before (new now replicationFactor)) with
  | some reply => exact ⟨reply,rfl⟩
  | none =>
    obtain ⟨length,open_⟩ := fetchEntries_going batches ByteArray.empty [] _ ended
    rw [read] at length open_
    have going : ¬ Ended 256 (pages.map (·.2.names)) := by
      rintro ⟨last,found,short⟩
      rw [List.getLast?_map,Option.map_eq_some_iff] at found
      obtain ⟨request,final,rfl⟩ := found
      have member := List.mem_of_getLast? final
      have eof := (answers request member).2
      rw [open_ request member,decide_eq_true short] at eof
      cases eof
    have full := all going
    omega

/-- The names of a directory were given to it by some request. -/
theorem listing_given {now : SystemTime} {replicationFactor : Nat} {requests : List (Host × Call)} {ino : InodeId} {name : String}
    (listed : name ∈ listing ino (run requests (new now replicationFactor))) : ∃ request ∈ requests, nameGiven request.2 = some name := by
  by_contra never
  have lacks := run_lacks requests _ (lacks_new name now replicationFactor) (fun request member gives => never ⟨request,member,gives⟩)
  obtain ⟨child,named⟩ := mem_listing.mp listed
  obtain ⟨dir,found,present⟩ := dir_of_resolve named
  rw [lacks ino dir found] at present
  cases present

/-- More names than one page takes. -/
def crowd : List (Host × Call) :=
  (List.range 257).map (fun n => (Host.still,.create ⟨ROOT,String.ofList [Char.ofNat (97 + n / 26),Char.ofNat (97 + n % 26)],0,0,0⟩))

/-- Between the two requests a name of the first page goes and another one comes. -/
def namesChange : List (List (Host × Call)) := [[],[(Host.still,.unlink ROOT "aa"),(Host.still,.create ⟨ROOT,"zz",0,0,0⟩)]]

set_option maxRecDepth 100000 in
theorem readdir_ends_changing :
    (readPages ROOT 256 namesChange ByteArray.empty (run crowd (new 0 1))).map (·.2.names.length) = [256,2] ∧
      ∃ reply, fetchEntries ROOT namesChange ByteArray.empty [] (run crowd (new 0 1)) = some reply := by
  refine ⟨by decide +kernel,?_⟩
  refine (readdir_ends 0 1 crowd ROOT namesChange ?_ (by decide) ((crowd ++ namesChange.flatten).filterMap (nameGiven ·.2)) ?_).2
    (by decide +kernel)
  · intro request member
    obtain ⟨n,_,rfl⟩ := List.mem_map.mp member
    simp [NonEmptyName]
  · intro n _ name listed
    obtain ⟨request,asked,gives⟩ := listing_given listed
    refine List.mem_filterMap.mpr ⟨request,?_,gives⟩
    rcases List.mem_append.mp asked with before | later
    · exact List.mem_append_left _ before
    · obtain ⟨calls,batch,member⟩ := List.mem_flatten.mp later
      exact List.mem_append_right _ (List.mem_flatten.mpr ⟨calls,List.mem_of_mem_take batch,member⟩)

end Dtmpfs
