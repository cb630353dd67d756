import Dtmpfs.NamespaceTree
import Dtmpfs.RenameEffects
import Dtmpfs.Semantics.Walks

/-! The metadata server as a file system of paths. It keeps parents and names; what a
request does to its slots is what the operation of the same name does to paths. -/
namespace Dtmpfs
open MetaService MetaState OrderedMap Walks

/-- The inode a path leads to from the root. -/
def MetaState.atPath (s : MetaState) (path : List String) : Option InodeId := walk s.resolve ROOT path

/-- What a request does to the paths, by its reply. Parents are given by their inodes,
and each is found under a path. -/
def PathStep (host : Host) (call : Call) (s t : MetaState) : Prop :=
  match call with
  | .create r =>
    match (create host r s).reply with
    | .ok resp => ∃ parent, s.atPath parent = some r.parentIno ∧ s.atPath (parent ++ [r.name]) = none ∧
        t.atPath = grafted (parent ++ [r.name]) resp.attr.ino s.atPath
    | .error _ => t.atPath = s.atPath
  | .mkdir r =>
    match (mkdir host r s).reply with
    | .ok attr => ∃ parent, s.atPath parent = some r.parentIno ∧ s.atPath (parent ++ [r.name]) = none ∧
        t.atPath = grafted (parent ++ [r.name]) attr.ino s.atPath
    | .error _ => t.atPath = s.atPath
  | .unlink parentIno name =>
    match (unlink parentIno name s).reply with
    | .ok _ => ∃ parent child, s.atPath parent = some parentIno ∧ s.atPath (parent ++ [name]) = some child ∧
        t.atPath = dropped (parent ++ [name]) s.atPath
    | .error _ => t.atPath = s.atPath
  | .rmdir parentIno name =>
    match (rmdir parentIno name s).reply with
    | .ok _ => ∃ parent child, s.atPath parent = some parentIno ∧ s.atPath (parent ++ [name]) = some child ∧
        t.atPath = dropped (parent ++ [name]) s.atPath
    | .error _ => t.atPath = s.atPath
  | .rename r =>
    match (rename r s).reply with
    | .ok _ => ∃ source target src, s.atPath source = some r.srcParentIno ∧ s.atPath target = some r.dstParentIno ∧
        s.atPath (source ++ [r.srcName]) = some src ∧ ¬ source ++ [r.srcName] <+: target ∧
        t.atPath = moved (source ++ [r.srcName]) (target ++ [r.dstName]) s.atPath
    | .error _ => t.atPath = s.atPath
  | _ => t.atPath = s.atPath

/-- A rename names two different slots, and detaches nothing. -/
def OrderlyRename (call : Call) (s : MetaState) : Prop :=
  ∀ r, call = .rename r → (r.srcParentIno,r.srcName) ≠ (r.dstParentIno,r.dstName) ∧ ¬ Detaches r s

/-- Names, numbers and paths are in order. -/
structure Ordered (s : MetaState) : Prop where
  sound : Sound s
  rooted : s.view.Rooted ROOT

section Refinement

variable {s t : MetaState} {host : Host} {call : Call}

theorem atPath_congr (dirs : t.dirs = s.dirs) : t.atPath = s.atPath := by
  have same : t.resolve = s.resolve := by
    funext p n
    simp only [resolve,dirs]
  funext path
  simp only [atPath,same]

/-- A directory is found under a path. -/
theorem Ordered.parent (ordered : Ordered s) {p : InodeId} {dir : Map String InodeId} (found : s.dirs[p]? = some dir) :
    ∃ path, s.atPath path = some p := by
  have alive : s.view.live p := (view_wellformed s).folderLive p (ordered.rooted.tables p ⟨dir,found⟩)
  exact walk_below (ordered.rooted.reach p alive)

/-- A rename into a directory that is not there changes nothing, unless it detaches. -/
theorem Ordered.rename_stays (ordered : Ordered s) {r : RenameReq} (safe : ¬ Detaches r s) (missing : s.dirs[r.dstParentIno]? = none) :
    (rename r s).state = s := by
  rcases rename_view ordered.sound.tidy r with same | ⟨src,named,_,_⟩ | ⟨_,T,_,destination,owns,_⟩
  · exact same
  · obtain ⟨inode,alive⟩ := (live_iff s src).mp (ordered.sound.names.target _ _ _ named)
    exact absurd ⟨src,inode,named,alive,⟨none,s,by simp [removeDestination,resolve,missing]⟩,.inl missing⟩ safe
  · have table : s.view.table r.dstParentIno := by
      rcases destination with ⟨_,rfl⟩ | ⟨_,_,_,rfl⟩
      · exact owns
      · exact owns.2
    obtain ⟨dir,found⟩ := table
    rw [missing] at found
    cases found

theorem Ordered.serve (ordered : Ordered s) (host : Host) (orderly : OrderlyRename call s) (room : s.nextIno + (draws call s).toNat < 2^64) :
    Ordered (serve host call s) ∧ (serve host call s).nextIno = s.nextIno + (draws call s).toNat := by
  have keeps : KeepsTree call s := ⟨fun _ => ordered.sound.unused,fun r named => (orderly r named).2⟩
  have rooted := serve_rooted ordered.rooted host call keeps
  by_cases proper : ProperRename call s
  · obtain ⟨sound,number⟩ := serve_sound ordered.sound host call proper room
    exact ⟨⟨sound,rooted⟩,number⟩
  · have renames : ∃ r, call = .rename r ∧ ¬ ∃ inode : Inode, s.inodes[r.dstParentIno]? = some inode ∧ inode.kind = .dir := by
      cases call with
      | rename r => exact ⟨r,rfl,fun folder => proper ⟨(orderly r rfl).1,folder⟩⟩
      | _ => exact absurd trivial proper
    obtain ⟨r,rfl,homeless⟩ := renames
    have missing : s.dirs[r.dstParentIno]? = none := by
      cases found : s.dirs[r.dstParentIno]? with
      | none => rfl
      | some dir => exact absurd ((folder_iff s _).mp (ordered.rooted.tables _ ⟨dir,found⟩)) homeless
    have same := ordered.rename_stays (orderly r rfl).2 missing
    have stays : MetaService.serve host (.rename r) s = s := same
    rw [stays]
    exact ⟨ordered,rfl⟩

theorem Ordered.attached (ordered : Ordered s) {p : InodeId} {name : String} {dir : Map String InodeId} {isFolder : Prop}
    (found : s.dirs[p]? = some dir) (vacant : dir[name]? = none) (view : t.view = s.view.attach p name s.nextIno isFolder) :
    ∃ parent, s.atPath parent = some p ∧ s.atPath (parent ++ [name]) = none ∧
      t.atPath = grafted (parent ++ [name]) s.nextIno s.atPath := by
  obtain ⟨parent,led⟩ := ordered.parent found
  have free : s.resolve p name = none := (resolve_of_dir found name).trans vacant
  have unused := ordered.sound.unused
  have entry (a : InodeId) (b : String) : t.resolve a b = if a = p ∧ b = name then some s.nextIno else s.resolve a b :=
    congrFun (congrFun (congrArg Namespace.entry view) a) b
  have apart : s.nextIno ≠ p := fun same => unused.tableless (same ▸ ⟨dir,found⟩)
  refine ⟨parent,led,?_,walk_grafted (T := s.view) ordered.rooted.toSlots led free ?_ ?_ ?_⟩
  · have led : walk s.resolve ROOT parent = some p := led
    rw [atPath,walk_snoc,led]
    exact free
  · intro b
    rw [entry,if_neg (fun slot => apart slot.1)]
    exact resolve_of_table unused.tableless b
  · rw [entry]
    exact if_pos ⟨rfl,rfl⟩
  · intro a b away
    rw [entry]
    exact if_neg away

theorem Ordered.detached (ordered : Ordered s) {p child : InodeId} {name : String} {dir : Map String InodeId}
    (found : s.dirs[p]? = some dir) (slot : dir[name]? = some child) (childless : ∀ b, s.resolve child b = none)
    (view : t.view = s.view.detach p name child) : ∃ parent i, s.atPath parent = some p ∧
      s.atPath (parent ++ [name]) = some i ∧ t.atPath = dropped (parent ++ [name]) s.atPath := by
  obtain ⟨parent,led⟩ := ordered.parent found
  have named : s.resolve p name = some child := (resolve_of_dir found name).trans slot
  have entry (a : InodeId) (b : String) : t.resolve a b = if a = child ∨ (a = p ∧ b = name) then none else s.resolve a b :=
    congrFun (congrFun (congrArg Namespace.entry view) a) b
  refine ⟨parent,child,led,?_,walk_dropped (T := s.view) ordered.rooted.toSlots led named childless ?_ ?_⟩
  · have led : walk s.resolve ROOT parent = some p := led
    rw [atPath,walk_snoc,led]
    exact named
  · rw [entry]
    exact if_pos (.inr ⟨rfl,rfl⟩)
  · intro a b other away
    rw [entry]
    exact if_neg (fun either => either.elim other away)

theorem Ordered.renamed (ordered : Ordered s) {r : RenameReq} (orderly : OrderlyRename (.rename r) s) :
    PathStep host (.rename r) s (rename r s).state := by
  obtain ⟨apart,safe⟩ := orderly r rfl
  simp only [PathStep]
  cases reply : (rename r s).reply with
  | error fault =>
    rcases rename_cases r s with ⟨_,failed⟩ | ⟨_,_,_,_,missing,_⟩ | ⟨_,_,_,_,_,_,_,_,_,ok,_⟩
    · rw [failed]
    · rw [ordered.rename_stays safe missing]
    · rw [ok] at reply
      cases reply
  | ok done =>
    obtain ⟨src,replaced,cleared,dirs,named,removed,state,view⟩ := rename_ok reply
    obtain ⟨srcDir,foundSource,_⟩ := dir_of_resolve named
    have slots := rename_slots ordered.sound.tidy removed view
    obtain ⟨inode,alive⟩ := (live_iff s src).mp (ordered.sound.names.target _ _ _ named)
    have home : ∃ dstDir, s.dirs[r.dstParentIno]? = some dstDir := by
      cases found : s.dirs[r.dstParentIno]? with
      | some dstDir => exact ⟨dstDir,rfl⟩
      | none => exact absurd ⟨src,inode,named,alive,⟨replaced,cleared,removed⟩,.inl found⟩ safe
    obtain ⟨dstDir,foundTarget⟩ := home
    obtain ⟨source,ledSource⟩ := ordered.parent foundSource
    obtain ⟨target,ledTarget⟩ := ordered.parent foundTarget
    have reached : walk s.resolve ROOT (source ++ [r.srcName]) = some src := by
      have led : walk s.resolve ROOT source = some r.srcParentIno := ledSource
      rw [walk_snoc,led]
      exact named
    have outside : ¬ source ++ [r.srcName] <+: target := by
      intro inside
      obtain ⟨rest,rfl⟩ := inside
      have led : walk s.resolve ROOT (source ++ [r.srcName] ++ rest) = some r.dstParentIno := ledTarget
      rw [walk_append,reached] at led
      have below : s.view.Below src r.dstParentIno := below_of_walk (T := s.view) led
      exact safe ⟨src,inode,named,alive,⟨replaced,cleared,removed⟩,.inr below⟩
    refine ⟨source,target,src,ledSource,ledTarget,reached,outside,
      walk_moved (T := s.view) ordered.rooted.toSlots ledSource ledTarget named outside ?_ ?_ ?_⟩
    · rw [slots]
      exact if_pos ⟨rfl,rfl⟩
    · rw [slots,if_neg (fun same => apart (Prod.ext same.1 same.2))]
      exact if_pos ⟨rfl,rfl⟩
    · intro a b notSource notTarget
      rw [slots,if_neg notTarget,if_neg notSource]
      rfl

/-- One request, from any state in order. -/
theorem Ordered.paths (ordered : Ordered s) (host : Host) (orderly : OrderlyRename call s) :
    PathStep host call s (MetaService.serve host call s) := by
  have unused := ordered.sound.unused
  cases call with
  | create r =>
    simp only [PathStep,MetaService.serve]
    rcases create_cases host r s with ⟨_,_,failed⟩ | ⟨dir,found,vacant,made⟩
    · rw [failed]
    · rw [made]
      exact ordered.attached found vacant (created_view host r dir s found)
  | mkdir r =>
    simp only [PathStep,MetaService.serve]
    rcases mkdir_cases host r s with ⟨_,_,failed⟩ | ⟨dir,placed,found,vacant,kept,made⟩
    · rw [failed]
    · rw [made]
      exact ordered.attached found vacant (madeDir_view host r dir placed s found unused.tableless kept)
  | unlink parentIno name =>
    simp only [PathStep,MetaService.serve]
    rcases unlink_cases parentIno name s with ⟨_,failed⟩ | ⟨dir,child,inode,found,slot,alive,kind,gone⟩
    · rw [failed]
    · rw [gone]
      refine ordered.detached found slot ?_ (unlinked_view ordered.sound.tidy found alive kind)
      intro b
      simp only [resolve,tableless_of_kind ordered.sound.tidy alive kind,Option.bind_none]
  | rmdir parentIno name =>
    simp only [PathStep,MetaService.serve]
    rcases rmdir_cases parentIno name s with ⟨_,failed⟩ | ⟨dir,child,childDir,found,slot,owns,empty,other,gone⟩
    · rw [failed]
    · rw [gone]
      refine ordered.detached found slot ?_ (removedDir_view found other)
      intro b
      exact (resolve_of_dir owns b).trans ((isEmpty_iff childDir).mp empty b)
  | rename r => exact ordered.renamed orderly
  | setAttr r => exact atPath_congr (setAttr_names host r s).dirs
  | close r => exact atPath_congr (close_names host r s).dirs
  | allocateBlocks i idxs => exact atPath_congr (allocateBlocks_names host i idxs s).dirs
  | «open» r =>
    simp only [PathStep,MetaService.serve]
    split <;> rfl
  | _ => rfl

theorem run_ordered (calls : List (Host × Call)) (ordered : Ordered s) (orderly : Along OrderlyRename calls s)
    (room : s.nextIno + drawn calls s < 2^64) : Ordered (run calls s) := by
  induction calls generalizing s with
  | nil => exact ordered
  | cons head rest ih =>
    obtain ⟨host,call⟩ := head
    have drew : drawn ((host,call)::rest) s = (draws call s).toNat + drawn rest (MetaService.serve host call s) := rfl
    obtain ⟨next,number⟩ := ordered.serve host orderly.1 (by omega)
    have later : Ordered (run rest (MetaService.serve host call s)) := ih next orderly.2 (by omega)
    exact later

theorem Ordered.leads_iff (ordered : Ordered s) (i : InodeId) :
    (∃ inode, s.inodes[i]? = some inode) ↔ ∃ path, s.atPath path = some i := by
  rw [← live_iff]
  constructor
  · intro alive
    exact walk_below (ordered.rooted.reach i alive)
  · intro led
    obtain ⟨path,led⟩ := led
    rcases List.eq_nil_or_concat' path with rfl | ⟨before,name,rfl⟩
    · cases led
      exact ordered.sound.names.rootLive
    · obtain ⟨j,_,named⟩ := walk_snoc_some led
      exact ordered.sound.names.target j name i named

end Refinement

/-- The server refines a file system of paths: in every state of a run whose renames are in
order, each live inode has exactly one path, and the next request does to the paths what
its operation means. -/
theorem paths_refine (now : SystemTime) (replicationFactor : Nat) (calls : List (Host × Call))
    (orderly : Along OrderlyRename calls (new now replicationFactor)) (few : drawn calls (new now replicationFactor) < 2^64 - 2)
    (before after : List (Host × Call)) (host : Host) (call : Call) (split : calls = before ++ (host,call)::after) :
    let s := run before (new now replicationFactor)
    (∀ i, (∃ inode, s.inodes[i]? = some inode) ↔ ∃ path, s.atPath path = some i) ∧
      (∀ path other i, s.atPath path = some i → s.atPath other = some i → path = other) ∧
      PathStep host call s (serve host call s) := by
  subst split
  have start : (new now replicationFactor).nextIno = 2 := rfl
  obtain ⟨earlier,next⟩ := (along_append before _ _).mp orderly
  rw [drawn_append] at few
  have ordered := run_ordered before ⟨sound_new now replicationFactor,rooted_new now replicationFactor⟩ earlier (by omega)
  refine ⟨ordered.leads_iff,?_,ordered.paths host next.1⟩
  intro path other i first second
  exact walk_unique (T := (run before (new now replicationFactor)).view) ordered.rooted.toSlots first second

/-- `/d/e/f`, before `/d` becomes `/g`. -/
def nestedFile : List (Host × Call) :=
  [(Host.still,.mkdir ⟨ROOT,"d",0,0,0⟩),(Host.still,.mkdir ⟨2,"e",0,0,0⟩),(Host.still,.create ⟨3,"f",0,0,0⟩)]

theorem paths_refine_moved : let s := run nestedFile (new 0 1)
    s.atPath ["d","e","f"] = some 4 ∧ (rename ⟨ROOT,"d",ROOT,"g"⟩ s).state.atPath ["g","e","f"] = some 4 ∧
      (rename ⟨ROOT,"d",ROOT,"g"⟩ s).state.atPath ["d","e","f"] = none ∧
      PathStep Host.still (.rename ⟨ROOT,"d",ROOT,"g"⟩) s (rename ⟨ROOT,"d",ROOT,"g"⟩ s).state := by
  have orderly : Along OrderlyRename (nestedFile ++ [(Host.still,.rename ⟨ROOT,"d",ROOT,"g"⟩)]) (new 0 1) := by
    refine ⟨?_,?_,?_,?_,trivial⟩
    · intro r other
      cases other
    · intro r other
      cases other
    · intro r other
      cases other
    · intro r same
      cases same
      refine ⟨by decide,?_⟩
      intro detaches
      obtain ⟨src,inode,named,_,_,missing | below⟩ := detaches
      · cases missing
      · have consistent := run_consistent 0 1 nestedFile ⟨trivial,trivial,trivial,trivial⟩ (by decide +kernel)
        rcases Relation.ReflTransGen.cases_tail below with same | ⟨parent,_,name,entry⟩
        · subst same
          exact consistent.rootFree ROOT "d" named
        · exact consistent.rootFree parent name entry
  exact ⟨by decide,by decide,by decide,(paths_refine 0 1 _ orderly (by decide +kernel) nestedFile [] Host.still _ rfl).2.2⟩

end Dtmpfs
