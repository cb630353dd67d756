import Dtmpfs.NamespaceView
import Dtmpfs.Semantics.Paging

/-! `ReadDir` page by page, with other requests served in between. -/
namespace Dtmpfs
open MetaService MetaState OrderedMap Paging

/-- The name a request puts into a directory is not empty. -/
def NonEmptyName : Call → Prop
  | .create r | .mkdir r => r.name ≠ ""
  | .rename r => r.dstName ≠ ""
  | _ => True

instance (call : Call) : Decidable (NonEmptyName call) :=
  match call with
  | .create r => inferInstanceAs (Decidable (r.name ≠ ""))
  | .mkdir r => inferInstanceAs (Decidable (r.name ≠ ""))
  | .rename r => inferInstanceAs (Decidable (r.dstName ≠ ""))
  | .lookup .. | .getAttr _ | .setAttr _ | .unlink .. | .rmdir .. | .readDir _ | .open _ | .openInsert _ | .close _
  | .allocateBlocks .. | .heartbeatNode .. | .listNodes | .watcherTick .. => isTrue trivial

/-- The pages a client gets that passes each cookie back until `eof`, with the state
each request finds. Before each request the server has run the next batch of calls. -/
def readPages (ino : InodeId) (max : Nat) : List (List (Host × Call)) → ByteArray → MetaState → List (MetaState × ReadDirResp)
  | [],_,_ => []
  | calls::later,cookie,s =>
    match readDir ⟨ino,cookie,max⟩ (run calls s) with
    | .error _ => []
    | .ok resp => (run calls s,resp) :: if resp.eof then [] else readPages ino max later resp.nextCookie (run calls s)

/-- The fetch loop of the client's `readdir`, which asks for 256 entries at a time;
`none` when the batches run out before `eof`. -/
def fetchEntries (ino : InodeId) : List (List (Host × Call)) → ByteArray → List DirEntry → MetaState →
    Option (Except Fault (List DirEntry))
  | [],_,_,_ => none
  | calls::later,cookie,entries,s =>
    match readDir ⟨ino,cookie,256⟩ (run calls s) with
    | .error fault => some (.error fault)
    | .ok resp =>
      if resp.eof then some (.ok (entries ++ resp.entries))
      else fetchEntries ino later resp.nextCookie (entries ++ resp.entries) (run calls s)

/-- The last page came with `eof`. -/
def Finished (pages : List (MetaState × ReadDirResp)) : Prop := ∃ last, pages.getLast? = some last ∧ last.2.eof = true

/-- The names in a directory, in order. -/
def listing (ino : InodeId) (s : MetaState) : List String := (s.dirs[ino]?.map (·.keys)).getD []

/-- The names on a page. -/
def ReadDirResp.names (resp : ReadDirResp) : List String := resp.entries.map (·.name)

section Names

/-- No directory has an entry of that name. -/
def Lacks (n : String) (s : MetaState) : Prop :=
  ∀ (p : InodeId) (dir : Map String InodeId), s.dirs[p]? = some dir → dir[n]? = none

/-- No directory has an entry with the empty name. -/
abbrev Named (s : MetaState) : Prop := Lacks "" s

/-- The name a request gives to something. -/
def nameGiven : Call → Option String
  | .create r | .mkdir r => some r.name
  | .rename r => some r.dstName
  | _ => none

theorem NonEmptyName.nameGiven {call : Call} (filled : NonEmptyName call) : nameGiven call ≠ some "" := by
  cases call with
  | create r => exact fun blank => filled (Option.some.inj blank)
  | mkdir r => exact fun blank => filled (Option.some.inj blank)
  | rename r => exact fun blank => filled (Option.some.inj blank)
  | _ => exact nofun

variable {s t : MetaState} {n : String}

theorem Lacks.congr (h : Lacks n s) (dirs : t.dirs = s.dirs) : Lacks n t := by
  unfold Lacks
  rw [dirs]
  exact h

theorem Lacks.insert (h : Lacks n s) {p : InodeId} {dir : Map String InodeId} (absent : dir[n]? = none)
    (dirs : t.dirs = s.dirs.insert p dir) : Lacks n t := by
  intro q found present
  rw [dirs,get_insert] at present
  split at present
  · cases present
    exact absent
  · exact h q found present

theorem Lacks.erase (h : Lacks n s) {p : InodeId} (dirs : t.dirs = s.dirs.erase p) : Lacks n t := by
  intro q found present
  rw [dirs,get_erase] at present
  split at present
  · cases present
  · exact h q found present

theorem absent_erase {dir : Map String InodeId} (absent : dir[n]? = none) (name : String) : (dir.erase name)[n]? = none := by
  rw [get_erase]
  split
  · rfl
  · exact absent

theorem absent_insert {dir : Map String InodeId} (absent : dir[n]? = none) {name : String} (other : name ≠ n)
    (child : InodeId) : (dir.insert name child)[n]? = none := by
  rw [get_insert,if_neg other]
  exact absent

theorem lacks_removeDestination (h : Lacks n s) {r : RenameReq} {cleared : MetaState}
    {replaced : Option (InodeId × List (BlockIdx × BlockPlacement))}
    (removed : removeDestination r s = (.ok replaced,cleared)) : Lacks n cleared := by
  rcases removeDestination_cases r s with ⟨_,failed⟩ | ⟨_,same⟩ | ⟨dir,dst,inode,found,_,_,⟨_,result⟩ | ⟨_,_,_,result⟩⟩
  · rw [failed] at removed
    cases removed
  · rw [same] at removed
    cases removed
    exact h
  · rw [result] at removed
    cases removed
    exact h.insert (absent_erase (h _ dir found) _) rfl
  · rw [result] at removed
    cases removed
    have erased : Lacks n {s with dirs := s.dirs.erase dst} := h.erase rfl
    refine erased.insert (p := r.dstParentIno) (absent_erase (h _ dir found) r.dstName) ?_
    simp only [replacedDir,putDir,dirs_editNlink]

theorem lacks_rename (h : Lacks n s) {r : RenameReq} (other : r.dstName ≠ n) : Lacks n (rename r s).state := by
  rcases rename_cases r s with ⟨_,failed⟩ | ⟨dir,_,found,_,_,lost⟩ | ⟨src,_,cleared,srcDir,dstDir,_,removed,owns,target,_,state⟩
  · rw [failed]
    exact h
  · rw [lost]
    exact h.insert (absent_erase (h _ dir found) _) rfl
  · have clear := lacks_removeDestination h removed
    have taken : Lacks n (cleared.putDir r.srcParentIno (srcDir.erase r.srcName)) :=
      clear.insert (absent_erase (clear _ srcDir owns) _) rfl
    have hung : Lacks n ((cleared.putDir r.srcParentIno (srcDir.erase r.srcName)).putDir r.dstParentIno
        (dstDir.insert r.dstName src)) :=
      taken.insert (absent_insert (taken _ dstDir target) other src) rfl
    rw [state]
    refine hung.congr ?_
    unfold adjustLinks
    split
    · rw [dirs_editNlink,dirs_editNlink]
    · rfl

theorem serve_lacks (h : Lacks n s) (host : Host) (call : Call) (other : nameGiven call ≠ some n) : Lacks n (serve host call s) := by
  have apart {name : String} (gives : nameGiven call = some name) : name ≠ n := by
    rintro rfl
    exact other gives
  cases call with
  | lookup parent name => exact h
  | getAttr i => exact h
  | readDir r => exact h
  | listNodes => exact h
  | heartbeatNode instant r => exact h
  | watcherTick now deadAfter => exact h
  | openInsert snapshot => exact h
  | «open» r =>
    simp only [serve]
    split
    · exact h
    · exact h
  | setAttr r => exact h.congr (setAttr_names host r s).dirs
  | close r => exact h.congr (close_names host r s).dirs
  | allocateBlocks i idxs => exact h.congr (allocateBlocks_names host i idxs s).dirs
  | rename r => exact lacks_rename h (apart rfl)
  | create r =>
    rcases create_cases host r s with ⟨_,_,failed⟩ | ⟨dir,found,_,made⟩
    · simp only [serve,failed]
      exact h
    · simp only [serve,made]
      exact h.insert (absent_insert (h _ dir found) (apart rfl) s.nextIno) rfl
  | mkdir r =>
    rcases mkdir_cases host r s with ⟨_,_,failed⟩ | ⟨dir,placed,_,_,target,made⟩
    · simp only [serve,failed]
      exact h
    · have fresh : Lacks n {s with dirs := s.dirs.insert s.nextIno ∅} := h.insert (by simp) rfl
      simp only [serve,made,madeDir]
      refine fresh.insert (p := r.parentIno) (absent_insert (fresh _ placed target) (apart rfl) s.nextIno) ?_
      exact dirs_editNlink _ _ _
  | unlink parent name =>
    rcases unlink_cases parent name s with ⟨_,failed⟩ | ⟨dir,_,_,found,_,_,_,gone⟩
    · simp only [serve,failed]
      exact h
    · simp only [serve,gone]
      exact h.insert (absent_erase (h _ dir found) name) rfl
  | rmdir parent name =>
    rcases rmdir_cases parent name s with ⟨_,failed⟩ | ⟨dir,child,_,found,_,_,_,_,gone⟩
    · simp only [serve,failed]
      exact h
    · have erased : Lacks n {s with dirs := s.dirs.erase child} := h.erase rfl
      simp only [serve,gone,removedDir]
      refine erased.insert (p := parent) (absent_erase (h _ dir found) name) ?_
      exact dirs_editNlink _ _ _

theorem run_lacks (calls : List (Host × Call)) (s : MetaState) (h : Lacks n s) (other : ∀ request ∈ calls, nameGiven request.2 ≠ some n) :
    Lacks n (run calls s) := by
  induction calls generalizing s with
  | nil => exact h
  | cons head rest ih =>
    obtain ⟨host,call⟩ := head
    have first := serve_lacks h host call (other (host,call) List.mem_cons_self)
    exact ih (serve host call s) first (fun request member => other request (List.mem_cons_of_mem _ member))

theorem lacks_new (n : String) (now : SystemTime) (replicationFactor : Nat) : Lacks n (new now replicationFactor) := by
  intro p dir found
  simp only [new,get_insert] at found
  split at found
  · cases found
    simp
  · simp at found

theorem serve_named (h : Named s) (host : Host) (call : Call) (filled : NonEmptyName call) : Named (serve host call s) :=
  serve_lacks h host call filled.nameGiven

theorem run_named (calls : List (Host × Call)) (s : MetaState) (h : Named s) (filled : ∀ request ∈ calls, NonEmptyName request.2) :
    Named (run calls s) :=
  run_lacks calls s h (fun request member => (filled request member).nameGiven)

theorem named_new (now : SystemTime) (replicationFactor : Nat) : Named (new now replicationFactor) := lacks_new "" now replicationFactor

end Names

section Page

/-- The cookie that stands for a cursor. -/
def cookieOf : Option String → ByteArray
  | none => ByteArray.empty
  | some name => name.toUTF8

theorem cookieOf_decoded (cursor : Option String) : (String.fromUTF8? (cookieOf cursor)).getD "" = cursor.getD "" := by
  cases cursor with
  | none => rfl
  | some name =>
    have valid : String.fromUTF8? name.toUTF8 = some name := by
      simp [String.fromUTF8?,String.fromUTF8,name.isValidUTF8]
    rw [cookieOf,valid]

theorem name_lt_iff (a b : String) : a < b ↔ compare a b = .lt := compareOfLessAndEq_eq_lt.symm

theorem name_trans (a b c : String) (first : a < b) (second : b < c) : a < c := by
  rw [name_lt_iff] at first second ⊢
  exact Std.TransCmp.lt_trans first second

theorem name_irrefl (a : String) : ¬ a < a := by
  rw [name_lt_iff,Std.ReflOrd.compare_self]
  exact nofun

theorem keys_sorted (dir : Map String InodeId) : dir.keys.Pairwise (· < ·) := by
  refine List.Pairwise.imp ?_ Std.ExtTreeMap.ordered_keys
  intro a b less
  exact (name_lt_iff a b).mpr less

/-- What one `ReadDir` request answers. -/
structure Answers (max : Nat) (cursor : Option String) (dir : Map String InodeId) (resp : ReadDirResp) : Prop where
  names : resp.names = page max cursor dir.keys
  entries : ∀ e ∈ resp.entries, dir[e.name]? = some e.ino
  eof : resp.eof = decide ((page max cursor dir.keys).length < max)
  nextCookie : resp.nextCookie = cookieOf (page max cursor dir.keys).getLast?

theorem readDir_answers {ino : InodeId} {max : Nat} {cursor : Option String} {s : MetaState} {dir : Map String InodeId}
    (positive : 0 < max) (filled : cursor ≠ some "") (found : s.dirs[ino]? = some dir) :
    ∃ resp, readDir ⟨ino,cookieOf cursor,max⟩ s = .ok resp ∧ Answers max cursor dir resp := by
  have rest : (if cursor.getD "" = "" then dir.toList else dir.toList.filter (fun e => cursor.getD "" < e.1)) =
      dir.toList.filter (fun e => cursor.all (fun last => last < e.1)) := by
    cases cursor with
    | none => simp
    | some name =>
      have named : name ≠ "" := fun same => filled (by rw [same])
      simp [named]
  have behind_ : (dir.toList.filter (fun e => cursor.all (fun last => last < e.1))).map Prod.fst = behind cursor dir.keys := by
    rw [behind,← Std.ExtTreeMap.map_fst_toList_eq_keys,List.filter_map]
    rfl
  have whole : ¬ max = 0 := Nat.pos_iff_ne_zero.mp positive
  unfold readDir
  simp only [found,cookieOf_decoded,rest,if_neg whole]
  generalize shown : (dir.toList.filter (fun e => cursor.all (fun last => last < e.1))).take max = taken
  have names : taken.map Prod.fst = page max cursor dir.keys := by rw [← shown,List.map_take,behind_,page]
  refine ⟨_,rfl,?_,?_,?_,?_⟩
  · rw [ReadDirResp.names,List.map_map,← names]
    rfl
  · intro e member
    obtain ⟨⟨name,child⟩,entry,rfl⟩ := List.mem_map.mp member
    rw [← shown] at entry
    exact Std.ExtTreeMap.mem_toList_iff_getElem?_eq_some.mp (List.mem_of_mem_filter (List.mem_of_mem_take entry))
  · rw [← names]
    simp [whole]
  · rw [← names,List.getLast?_map,List.getLast?_map]
    cases taken.getLast? with
    | none => rfl
    | some last => rfl

end Page

section Pages

variable {ino : InodeId} {max : Nat}

theorem readPages_cons (calls : List (Host × Call)) (later : List (List (Host × Call))) (cookie : ByteArray) (s : MetaState)
    {resp : ReadDirResp} (read : readDir ⟨ino,cookie,max⟩ (run calls s) = .ok resp) :
    readPages ino max (calls::later) cookie s =
      (run calls s,resp) :: if resp.eof then [] else readPages ino max later resp.nextCookie (run calls s) := by
  simp only [readPages,read]

/-- The pages are those of the library, taken from the listings the requests meet, and
every entry on them is an entry of the directory at that moment. -/
theorem readPages_collect (ino : InodeId) (max : Nat) (positive : 0 < max) (batches : List (List (Host × Call)))
    (filled : ∀ calls ∈ batches, ∀ request ∈ calls, NonEmptyName request.2) (s : MetaState) (named : Named s)
    (cursor : Option String) (proper : cursor ≠ some "") :
    (readPages ino max batches (cookieOf cursor) s).map (·.2.names) =
        collect max cursor ((readPages ino max batches (cookieOf cursor) s).map (fun request => listing ino request.1)) ∧
      (∀ request ∈ readPages ino max batches (cookieOf cursor) s,
        (∀ e ∈ request.2.entries, request.1.resolve ino e.name = some e.ino) ∧
        request.2.eof = decide (request.2.names.length < max)) := by
  induction batches generalizing s cursor with
  | nil => exact ⟨rfl,nofun⟩
  | cons calls later ih =>
    have still : Named (run calls s) := run_named calls s named (filled calls List.mem_cons_self)
    cases found : (run calls s).dirs[ino]? with
    | none =>
      have lost : readPages ino max (calls::later) (cookieOf cursor) s = [] := by
        simp only [readPages,readDir,found]
        rfl
      rw [lost]
      exact ⟨rfl,nofun⟩
    | some dir =>
      obtain ⟨resp,read,answers⟩ := readDir_answers positive proper found
      have keys : listing ino (run calls s) = dir.keys := by
        rw [listing,found]
        rfl
      have resolved : ∀ e ∈ resp.entries, (run calls s).resolve ino e.name = some e.ino := by
        intro e member
        rw [resolve,found]
        exact answers.entries e member
      have full : resp.eof = decide (resp.names.length < max) := by rw [answers.eof,answers.names]
      rw [readPages_cons calls later _ s read]
      by_cases short : (page max cursor dir.keys).length < max
      · have eof : resp.eof = true := by
          rw [answers.eof]
          exact decide_eq_true short
        rw [eof,if_pos rfl]
        refine ⟨?_,?_⟩
        · simp only [List.map_cons,List.map_nil,collect,keys,if_pos short,answers.names]
        · intro request member
          rw [List.mem_singleton.mp member]
          exact ⟨resolved,full⟩
      · have more : resp.eof = false := by
          rw [answers.eof]
          exact decide_eq_false short
        have next : (page max cursor dir.keys).getLast? ≠ some "" := by
          intro blank
          have onPage := (page_subset (List.mem_of_getLast? blank)).1
          have present := Std.ExtTreeMap.mem_keys.mp onPage
          rw [Std.ExtTreeMap.mem_iff_isSome_getElem?,still ino dir found] at present
          cases present
        obtain ⟨pages,each⟩ := ih (fun calls member => filled calls (List.mem_cons_of_mem _ member)) (run calls s) still _ next
        rw [more,if_neg (by decide),answers.nextCookie]
        refine ⟨?_,?_⟩
        · simp only [List.map_cons,collect,keys,if_neg short,answers.names,pages]
        · intro request member
          rcases List.mem_cons.mp member with same | tail
          · rw [same]
            exact ⟨resolved,full⟩
          · exact each request tail

theorem listing_sorted (ino : InodeId) (s : MetaState) : (listing ino s).Pairwise (· < ·) := by
  unfold listing
  cases s.dirs[ino]? with
  | none => exact List.Pairwise.nil
  | some dir => exact keys_sorted dir

theorem mem_listing {ino : InodeId} {s : MetaState} {name : String} : name ∈ listing ino s ↔ ∃ child, s.resolve ino name = some child := by
  unfold listing resolve
  cases s.dirs[ino]? with
  | none => simp
  | some dir =>
    simp only [Option.map_some,Option.getD_some,Option.bind_some,Std.ExtTreeMap.mem_keys]
    rw [Std.ExtTreeMap.mem_iff_isSome_getElem?,Option.isSome_iff_exists]

theorem readPages_states (batches : List (List (Host × Call))) (cookie : ByteArray) (s : MetaState)
    {request : MetaState × ReadDirResp} (member : request ∈ readPages ino max batches cookie s) :
    ∃ n, n ≤ batches.length ∧ request.1 = run (batches.take n).flatten s := by
  induction batches generalizing cookie s with
  | nil => cases member
  | cons calls later ih =>
    rw [readPages] at member
    split at member
    · cases member
    next resp _ =>
      rcases List.mem_cons.mp member with same | tail
      · refine ⟨1,by simp,?_⟩
        rw [same]
        simp
      · split at tail
        · cases tail
        · obtain ⟨n,small,state⟩ := ih _ _ tail
          refine ⟨n + 1,Nat.succ_le_succ small,?_⟩
          rw [state,List.take_succ_cons,List.flatten_cons,run_append]

theorem finished_cons {request : MetaState × ReadDirResp} {rest : List (MetaState × ReadDirResp)} (more : Finished rest) :
    Finished (request::rest) := by
  obtain ⟨last,found,eof⟩ := more
  refine ⟨last,?_,eof⟩
  rw [List.getLast?_cons,found]
  rfl

/-- While the directory does not change, the pages come to their end. -/
theorem readPages_finished (positive : 0 < max) {dir : Map String InodeId} (blankless : dir[""]? = none)
    (batches : List (List (Host × Call))) (s : MetaState)
    (unchanged : ∀ n, n ≤ batches.length → (run (batches.take n).flatten s).dirs[ino]? = some dir) (cursor : Option String)
    (proper : cursor ≠ some "") (enough : (behind cursor dir.keys).length < max * batches.length) :
    Finished (readPages ino max batches (cookieOf cursor) s) := by
  induction batches generalizing s cursor with
  | nil => exact absurd enough (Nat.not_lt_zero _)
  | cons calls later ih =>
    have found : (run calls s).dirs[ino]? = some dir := by simpa using unchanged 1 (by simp)
    obtain ⟨resp,read,answers⟩ := readDir_answers positive proper found
    rw [readPages_cons calls later _ s read]
    by_cases short : (page max cursor dir.keys).length < max
    · have eof : resp.eof = true := by
        rw [answers.eof]
        exact decide_eq_true short
      rw [eof,if_pos rfl]
      exact ⟨_,rfl,eof⟩
    · have more : resp.eof = false := by
        rw [answers.eof]
        exact decide_eq_false short
      obtain ⟨last,cut,onPage⟩ := getLast_of_full positive short
      rw [more,if_neg (by decide),answers.nextCookie,cut]
      refine finished_cons (ih (run calls s) ?_ (some last) ?_ ?_)
      · intro n small
        have later_ := unchanged (n + 1) (Nat.succ_le_succ small)
        rw [List.take_succ_cons,List.flatten_cons,run_append] at later_
        exact later_
      · intro blank
        have present := Std.ExtTreeMap.mem_keys.mp (page_subset onPage).1
        rw [Std.ExtTreeMap.mem_iff_isSome_getElem?,Option.some.inj blank,blankless] at present
        cases present
      · rw [behind_page name_trans name_irrefl (keys_sorted dir) cut,List.length_drop]
        rw [page,List.length_take] at short
        rw [List.length_cons,Nat.mul_succ] at enough
        omega

theorem fetchEntries_finished (batches : List (List (Host × Call))) (cookie : ByteArray) (entries : List DirEntry) (s : MetaState)
    (finished : Finished (readPages ino 256 batches cookie s)) :
    fetchEntries ino batches cookie entries s =
      some (.ok (entries ++ (readPages ino 256 batches cookie s).flatMap (·.2.entries))) := by
  induction batches generalizing cookie entries s with
  | nil =>
    obtain ⟨last,none,_⟩ := finished
    cases none
  | cons calls later ih =>
    cases read : readDir ⟨ino,cookie,256⟩ (run calls s) with
    | error fault =>
      simp only [readPages,read] at finished
      obtain ⟨last,none,_⟩ := finished
      cases none
    | ok resp =>
      rw [readPages_cons calls later cookie s read] at finished ⊢
      simp only [fetchEntries,read]
      cases eof : resp.eof with
      | true => simp
      | false =>
        rw [eof] at finished
        have tail : Finished (readPages ino 256 later resp.nextCookie (run calls s)) := by
          obtain ⟨last,found,ends⟩ := finished
          simp only [Bool.false_eq_true,if_false,List.getLast?_cons] at found
          cases rest : (readPages ino 256 later resp.nextCookie (run calls s)).getLast? with
          | none =>
            rw [rest] at found
            cases found
            have last : resp.eof = true := ends
            rw [eof] at last
            cases last
          | some final =>
            rw [rest] at found
            cases found
            exact ⟨final,rest,ends⟩
        simp only [Bool.false_eq_true,if_false,ih _ (entries ++ resp.entries) _ tail,List.flatMap_cons,List.append_assoc]

/-- The same from the first page on, which is asked for with an empty cookie. -/
theorem readPages_start (ino : InodeId) (max : Nat) (positive : 0 < max) (batches : List (List (Host × Call)))
    (filled : ∀ calls ∈ batches, ∀ request ∈ calls, NonEmptyName request.2) (s : MetaState) (named : Named s)
    {pages : List (MetaState × ReadDirResp)} (read : readPages ino max batches ByteArray.empty s = pages) :
    pages.map (·.2.names) = collect max none (pages.map (fun request => listing ino request.1)) ∧
      ∀ request ∈ pages, (∀ e ∈ request.2.entries, request.1.resolve ino e.name = some e.ino) ∧
        request.2.eof = decide (request.2.names.length < max) := by
  subst read
  exact readPages_collect ino max positive batches filled s named none nofun

theorem readPages_names (pages : List (MetaState × ReadDirResp)) :
    (pages.flatMap (·.2.entries)).map (·.name) = (pages.map (·.2.names)).flatten := by
  rw [List.map_flatMap,List.flatMap_def]
  rfl

theorem listings_sorted (ino : InodeId) (pages : List (MetaState × ReadDirResp)) :
    ∀ keys ∈ pages.map (fun request => listing ino request.1), keys.Pairwise (· < ·) := by
  intro keys member
  obtain ⟨request,_,rfl⟩ := List.mem_map.mp member
  exact listing_sorted ino request.1

theorem ended_of_finished {pages : List (MetaState × ReadDirResp)}
    (short : ∀ request ∈ pages, request.2.eof = decide (request.2.names.length < max)) (finished : Finished pages) :
    Ended max (pages.map (·.2.names)) := by
  obtain ⟨last,found,eof⟩ := finished
  refine ⟨last.2.names,?_,?_⟩
  · rw [List.getLast?_map,found]
    rfl
  · rw [short last (List.mem_of_getLast? found)] at eof
    exact of_decide_eq_true eof

theorem behind_none (keys : List String) : behind none keys = keys := by
  apply List.filter_eq_self.mpr
  intro key _
  rfl

/-- A list of pairs out of a map is determined by its keys. -/
theorem pairs_eq (dir : Map String InodeId) {first second : List (String × InodeId)}
    (keys : first.map Prod.fst = second.map Prod.fst) (left : ∀ e ∈ first, dir[e.1]? = some e.2)
    (right : ∀ e ∈ second, dir[e.1]? = some e.2) : first = second := by
  induction first generalizing second with
  | nil => exact (List.map_eq_nil_iff.mp keys.symm).symm
  | cons e rest ih =>
    cases second with
    | nil => cases keys
    | cons e' rest' =>
      obtain ⟨name,names⟩ := List.cons.inj keys
      have mine := left e List.mem_cons_self
      have other := right e' List.mem_cons_self
      rw [← name,mine] at other
      have head : e = e' := Prod.ext name (Option.some.inj other)
      rw [head,ih names (fun e member => left e (List.mem_cons_of_mem _ member))
        (fun e member => right e (List.mem_cons_of_mem _ member))]

/-- In a directory that does not change, the client's loop ends and lists it. -/
theorem fetchEntries_unchanged (ino : InodeId) (dir : Map String InodeId) (batches : List (List (Host × Call)))
    (filled : ∀ calls ∈ batches, ∀ request ∈ calls, NonEmptyName request.2) (s : MetaState) (named : Named s)
    (unchanged : ∀ n, n ≤ batches.length → (run (batches.take n).flatten s).dirs[ino]? = some dir)
    (enough : dir.size < 256 * batches.length) :
    ∃ listed, fetchEntries ino batches ByteArray.empty [] s = some (.ok listed) ∧
      listed.map (fun e => (e.name,e.ino)) = dir.toList := by
  have blankless : dir[""]? = none := named ino dir (unchanged 0 (Nat.zero_le _))
  have room : (behind none dir.keys).length < 256 * batches.length := by
    rw [behind_none,Std.ExtTreeMap.length_keys]
    exact enough
  have finished := readPages_finished (by decide) blankless batches s unchanged none nofun room
  have state : ∀ request ∈ readPages ino 256 batches ByteArray.empty s, request.1.dirs[ino]? = some dir := by
    intro request member
    obtain ⟨n,small,same⟩ := readPages_states batches _ s member
    rw [same]
    exact unchanged n small
  obtain ⟨collected,each⟩ := readPages_start ino 256 (by decide) batches filled s named rfl
  have ended := ended_of_finished (fun request member => (each request member).2) finished
  refine ⟨_,fetchEntries_finished batches _ [] s finished,?_⟩
  rw [List.nil_append]
  refine pairs_eq dir ?_ ?_ ?_
  · have same : ∀ keys ∈ (readPages ino 256 batches ByteArray.empty s).map (fun request => listing ino request.1),
        keys = dir.keys := by
      intro keys member
      obtain ⟨request,asked,rfl⟩ := List.mem_map.mp member
      rw [listing,state request asked]
      rfl
    rw [collected] at ended
    rw [List.map_map,Std.ExtTreeMap.map_fst_toList_eq_keys]
    refine Eq.trans (readPages_names _) ?_
    refine Eq.trans (congrArg List.flatten collected) ?_
    rw [collect_unchanged name_trans name_irrefl (by decide) (keys_sorted dir) same ended]
    exact behind_none dir.keys
  · intro pair member
    obtain ⟨e,listed,rfl⟩ := List.mem_map.mp member
    obtain ⟨request,asked,entry⟩ := List.mem_flatMap.mp listed
    have resolved := (each request asked).1 e entry
    rw [resolve,state request asked] at resolved
    exact resolved
  · intro pair member
    exact Std.ExtTreeMap.mem_toList_iff_getElem?_eq_some.mp member

end Pages

/-- Paging neither loses nor repeats a name. Whatever is served between the pages, the
names come in strictly increasing order, each entry was there when its page was read,
and when `eof` is reached every name that was there at every request has come; and
in a directory that does not change the client's loop ends and lists it. -/
theorem pages_faithful (now : SystemTime) (replicationFactor : Nat) (before : List (Host × Call))
    (batches : List (List (Host × Call))) (ino : InodeId) (max : Nat) (positive : 1 ≤ max)
    (filled : ∀ request ∈ before ++ batches.flatten, NonEmptyName request.2) :
    let s := run before (new now replicationFactor)
    let pages := readPages ino max batches ByteArray.empty s
    ((pages.flatMap (·.2.entries)).map (·.name)).Pairwise (· < ·) ∧
    (∀ request ∈ pages, ∀ e ∈ request.2.entries, request.1.resolve ino e.name = some e.ino) ∧
    (Finished pages → ∀ name, (∀ request ∈ pages, ∃ child, request.1.resolve ino name = some child) →
      name ∈ (pages.flatMap (·.2.entries)).map (·.name)) ∧
    ∀ dir, (∀ n, n ≤ batches.length → (run (batches.take n).flatten s).dirs[ino]? = some dir) →
      dir.size < 256 * batches.length →
      ∃ listed, fetchEntries ino batches ByteArray.empty [] s = some (.ok listed) ∧
        listed.map (fun e => (e.name,e.ino)) = dir.toList := by
  intro s pages
  have named : Named s := run_named before _ (named_new now replicationFactor)
    (fun request member => filled request (List.mem_append_left _ member))
  have between : ∀ calls ∈ batches, ∀ request ∈ calls, NonEmptyName request.2 := by
    intro calls batch request member
    exact filled request (List.mem_append_right _ (List.mem_flatten.mpr ⟨calls,batch,member⟩))
  obtain ⟨collected,each⟩ := readPages_start ino max positive batches between s named (show _ = pages from rfl)
  refine ⟨?_,fun request member => (each request member).1,?_,?_⟩
  · rw [readPages_names,collected]
    exact collect_sorted name_trans positive (listings_sorted ino pages)
  · intro finished name always
    have ended := ended_of_finished (fun request member => (each request member).2) finished
    have lengths := congrArg List.length collected
    rw [List.length_map] at lengths
    rw [collected] at ended
    rw [readPages_names,collected]
    refine collect_complete positive (listings_sorted ino pages) ?_ ended nofun ?_
    · rw [List.length_map]
      exact lengths
    · intro keys member
      obtain ⟨request,asked,rfl⟩ := List.mem_map.mp member
      exact mem_listing.mpr (always request asked)
  · intro dir unchanged enough
    exact fetchEntries_unchanged ino dir batches between s named unchanged enough

/-- Two files in the root directory. -/
def twoFiles : List (Host × Call) := [(Host.still,Call.create ⟨ROOT,"a",0,0,0⟩),(Host.still,Call.create ⟨ROOT,"c",0,0,0⟩)]

/-- Between the first two pages the first file goes and another one comes. -/
def changedBetween : List (List (Host × Call)) :=
  [[],[(Host.still,Call.unlink ROOT "a"),(Host.still,Call.create ⟨ROOT,"b",0,0,0⟩)],[],[]]

theorem pages_faithful_changed :
    let pages := readPages ROOT 1 changedBetween ByteArray.empty (run twoFiles (new 0 1))
    pages.length = 4 ∧ (pages.getLast?.map (·.2.eof)) = some true ∧
      ((pages.flatMap (·.2.entries)).map (·.name)).Pairwise (· < ·) ∧ "c" ∈ (pages.flatMap (·.2.entries)).map (·.name) := by
  intro pages
  have filled : ∀ request ∈ twoFiles ++ changedBetween.flatten, NonEmptyName request.2 := by decide
  have eof : (pages.getLast?.map (·.2.eof)) = some true := by decide +kernel
  obtain ⟨sorted,_,complete,_⟩ := pages_faithful 0 1 twoFiles changedBetween ROOT 1 (by decide) filled
  obtain ⟨last,found,ended⟩ := Option.map_eq_some_iff.mp eof
  refine ⟨by decide +kernel,eof,sorted,complete ⟨last,found,ended⟩ "c" ?_⟩
  have present : ∀ n ≤ changedBetween.length, (run (changedBetween.take n).flatten (run twoFiles (new 0 1))).resolve ROOT "c" = some 3 := by
    decide +kernel
  intro request member
  obtain ⟨n,small,same⟩ := readPages_states changedBetween _ _ member
  exact ⟨3,by rw [same]; exact present n small⟩

end Dtmpfs
