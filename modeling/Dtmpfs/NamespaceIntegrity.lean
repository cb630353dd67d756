import Dtmpfs.NamespaceView

/-! Referential integrity of the metadata server over whole runs: directories,
entries, slots and inode numbers agree after every sequence of calls, for as long
as the inode counter has not wrapped. -/
namespace Dtmpfs
open MetaService MetaState OrderedMap

structure Consistent (s : MetaState) : Prop where
  directories : ∀ i : InodeId, (∃ dir, s.dirs[i]? = some dir) ↔ ∃ inode : Inode, s.inodes[i]? = some inode ∧ inode.kind = .dir
  targets : ∀ p n i, s.resolve p n = some i → ∃ inode, s.inodes[i]? = some inode
  named : ∀ (i : InodeId) (inode : Inode), s.inodes[i]? = some inode → i ≠ ROOT →
    ∃! slot : InodeId × String, s.resolve slot.1 slot.2 = some i
  rootLive : ∃ inode, s.inodes[ROOT]? = some inode
  rootFree : ∀ p n, s.resolve p n ≠ some ROOT
  numbers : ∀ (i : InodeId) (inode : Inode), s.inodes[i]? = some inode → inode.ino = i ∧ i < s.nextIno

/-- `p` holds of every call of the run, in the state it is served in. -/
def Along (p : Call → MetaState → Prop) : List (Host × Call) → MetaState → Prop
  | [],_ => True
  | (host,call)::rest,s => p call s ∧ Along p rest (serve host call s)

/-- A rename, if the call is one, names two different slots and a live directory. -/
def ProperRename (call : Call) (s : MetaState) : Prop :=
  match call with
  | .rename r => (r.srcParentIno,r.srcName) ≠ (r.dstParentIno,r.dstName) ∧
      ∃ inode : Inode, s.inodes[r.dstParentIno]? = some inode ∧ inode.kind = .dir
  | _ => True

/-- How many inode numbers a run draws. -/
def drawn : List (Host × Call) → MetaState → Nat
  | [],_ => 0
  | (host,call)::rest,s => (draws call s).toNat + drawn rest (serve host call s)

theorem along_append {p : Call → MetaState → Prop} (first second : List (Host × Call)) (s : MetaState) :
    Along p (first ++ second) s ↔ Along p first s ∧ Along p second (run first s) := by
  induction first generalizing s with
  | nil => exact (iff_of_eq (true_and _)).symm
  | cons head rest ih => exact (and_congr_right fun _ => ih _).trans and_assoc.symm

theorem drawn_append (first second : List (Host × Call)) (s : MetaState) :
    drawn (first ++ second) s = drawn first s + drawn second (run first s) := by
  induction first generalizing s with
  | nil => exact (Nat.zero_add _).symm
  | cons head rest ih =>
    obtain ⟨host,call⟩ := head
    have tail := ih (serve host call s)
    simp only [List.cons_append,drawn,tail]
    exact (Nat.add_assoc _ _ _).symm

/-- The inductive form of `Consistent`. -/
structure Sound (s : MetaState) : Prop where
  names : s.view.Integrity ROOT
  stamped : s.Stamped
  below : ∀ i, s.view.live i → i < s.nextIno

theorem folder_iff (s : MetaState) (i : InodeId) :
    s.view.folder i ↔ ∃ inode : Inode, s.inodes[i]? = some inode ∧ inode.kind = .dir := by
  simp [view,kindOf,Option.map_eq_some_iff]

theorem Sound.consistent {s : MetaState} (h : Sound s) : Consistent s where
  directories i := (h.names.tables i).trans (folder_iff s i)
  targets p n i named := (live_iff s i).mp (h.names.target p n i named)
  named i inode found other := by
    obtain ⟨p,n,slot⟩ := h.names.named i ((live_iff s i).mpr ⟨inode,found⟩) other
    refine ⟨(p,n),slot,?_⟩
    intro slot' named
    obtain ⟨parent,name⟩ := h.names.unique slot'.1 slot'.2 p n i named slot
    exact Prod.ext parent name
  rootLive := (live_iff s ROOT).mp h.names.rootLive
  rootFree := h.names.rootFree
  numbers i inode found := ⟨h.stamped i inode found,h.below i ((live_iff s i).mpr ⟨inode,found⟩)⟩

theorem Sound.tidy {s : MetaState} (h : Sound s) : s.Tidy := fun i owns => (h.names.tables i).mp owns

theorem Sound.unused {s : MetaState} (h : Sound s) : s.view.Unused ROOT s.nextIno := by
  have dead : ¬ s.view.live s.nextIno := fun alive => absurd (h.below _ alive) (Nat.lt_irrefl _)
  refine ⟨dead,?_,?_,?_⟩
  · intro owns
    exact dead ((view_wellformed s).folderLive _ (h.tidy _ owns))
  · intro p n named
    exact dead (h.names.target p n _ named)
  · intro same
    exact dead (same ▸ h.names.rootLive)

theorem removeDestination_stamped {s cleared : MetaState} (h : s.Stamped) (r : RenameReq)
    (replaced : Option (InodeId × List (BlockIdx × BlockPlacement)))
    (removed : removeDestination r s = (.ok replaced,cleared)) : cleared.Stamped := by
  rcases removeDestination_cases r s with ⟨_,failed⟩ | ⟨_,same⟩ | ⟨_,_,_,_,_,_,⟨_,result⟩ | ⟨_,_,_,result⟩⟩
  · rw [failed] at removed
    cases removed
  · rw [same] at removed
    cases removed
    exact h
  · rw [result] at removed
    cases removed
    exact h.erase rfl
  · rw [result] at removed
    cases removed
    refine Stamped.erase (Stamped.editNlink ?_ (· - 1) r.dstParentIno) rfl
    exact h.congr rfl

theorem serve_stamped {s : MetaState} (h : s.Stamped) (host : Host) (call : Call) :
    (serve host call s).Stamped := by
  cases call with
  | lookup parent name => exact h
  | getAttr i => exact h
  | readDir r => exact h
  | listNodes => exact h
  | setAttr r => exact (setAttr_names host r s).stamps h
  | close r => exact (close_names host r s).stamps h
  | allocateBlocks i idxs => exact (allocateBlocks_names host i idxs s).stamps h
  | heartbeatNode instant r => exact h.congr rfl
  | watcherTick now deadAfter => exact h.congr rfl
  | openInsert snapshot => exact h.congr rfl
  | «open» r =>
    simp only [serve]
    split
    · exact h.congr rfl
    · exact h
  | create r =>
    rcases create_cases host r s with ⟨_,_,failed⟩ | ⟨dir,_,_,made⟩
    · simpa only [serve,failed] using h
    · simp only [serve,made]
      have fresh : (s.putInode s.nextIno (freshInode host r .file s.nextIno)).Stamped := h.putInode rfl
      exact fresh.congr rfl
  | mkdir r =>
    rcases mkdir_cases host r s with ⟨_,_,failed⟩ | ⟨dir,placed,_,_,_,made⟩
    · simpa only [serve,failed] using h
    · simp only [serve,made,madeDir]
      have fresh : (s.putInode s.nextIno (freshInode host r .dir s.nextIno)).Stamped := h.putInode rfl
      refine Stamped.editNlink ?_ _ _
      exact fresh.congr rfl
  | unlink parent name =>
    rcases unlink_cases parent name s with ⟨_,failed⟩ | ⟨_,_,_,_,_,_,_,gone⟩
    · simpa only [serve,failed] using h
    · simp only [serve,gone]
      exact h.erase rfl
  | rmdir parent name =>
    rcases rmdir_cases parent name s with ⟨_,failed⟩ | ⟨_,child,_,_,_,_,_,_,gone⟩
    · simpa only [serve,failed] using h
    · simp only [serve,gone,removedDir]
      refine Stamped.editNlink ?_ _ _
      exact h.erase (i := child) rfl
  | rename r =>
    rcases rename_cases r s with ⟨_,failed⟩ | ⟨_,_,_,_,_,lost⟩ | ⟨_,replaced,cleared,_,_,_,removed,_,_,_,state⟩
    · simpa only [serve,failed] using h
    · simp only [serve,lost]
      exact h.congr rfl
    · have kept := removeDestination_stamped h r replaced removed
      simp only [serve,state,adjustLinks]
      split
      · refine Stamped.editNlink (Stamped.editNlink ?_ _ _) _ _
        exact kept.congr rfl
      · exact kept.congr rfl

/-- A proper rename keeps integrity: the replaced destination has no children and
its slot is another one, so the source slot survives the removal. -/
theorem rename_integrity {s : MetaState} (h : Sound s) (r : RenameReq) (proper : ProperRename (.rename r) s) :
    (rename r s).state.view.Integrity ROOT ∧ (∀ i, (rename r s).state.view.live i → s.view.live i) ∧
      (rename r s).state.nextIno = s.nextIno := by
  obtain ⟨apart,target⟩ := proper
  rcases rename_view h.tidy r with same | ⟨_,_,missing,_⟩ | ⟨src,T,named,destination,_,_,moved,number⟩
  · rw [same]
    exact ⟨h.names,fun _ alive => alive,rfl⟩
  · obtain ⟨table,owns⟩ := (h.names.tables r.dstParentIno).mpr ((folder_iff s _).mpr target)
    rw [missing] at owns
    cases owns
  · refine ⟨?_,?_,number⟩
    · rw [moved]
      rcases destination with ⟨vacant,rfl⟩ | ⟨dst,slot,childless,rfl⟩
      · exact h.names.rehang named vacant
      · have away : ¬ (r.srcParentIno = dst ∨ (r.srcParentIno = r.dstParentIno ∧ r.srcName = r.dstName)) := by
          intro overlap
          rcases overlap with same | ⟨parent,name⟩
          · rw [same,childless] at named
            cases named
          · exact apart (Prod.ext parent name)
        refine (h.names.detach slot childless).rehang ?_ ?_
        · simp only [Namespace.detach,away,if_false]
          exact named
        · simp [Namespace.detach]
    · intro i alive
      rw [moved] at alive
      rcases destination with ⟨_,rfl⟩ | ⟨dst,_,_,rfl⟩
      · exact alive
      · exact alive.2

theorem serve_sound {s : MetaState} (h : Sound s) (host : Host) (call : Call) (proper : ProperRename call s)
    (room : s.nextIno + (draws call s).toNat < 2^64) :
    Sound (serve host call s) ∧ (serve host call s).nextIno = s.nextIno + (draws call s).toNat := by
  have stamped := serve_stamped h.stamped host call
  rcases serve_view h.tidy host call (fun _ => h.unused.tableless) with ⟨quiet,same⟩ |
    ⟨drew,p,n,isFolder,owns,vacant,view,number⟩ | ⟨quiet,p,n,i,slot,childless,view,number⟩ | ⟨r,rfl⟩
  · have view := view_congr same.kinds same.dirs
    refine ⟨⟨view ▸ h.names,stamped,?_⟩,by simp [quiet,same.nextIno]⟩
    intro i alive
    rw [view] at alive
    exact same.nextIno ▸ h.below i alive
  · simp only [drew,Bool.toNat_true] at room ⊢
    rw [Nat.mod_eq_of_lt room] at number
    refine ⟨⟨view ▸ h.names.attach vacant h.unused,stamped,?_⟩,number⟩
    intro i alive
    rw [view] at alive
    rw [number]
    rcases alive with rfl | alive
    · exact Nat.lt_succ_self _
    · exact Nat.lt_succ_of_lt (h.below i alive)
  · refine ⟨⟨view ▸ h.names.detach slot childless,stamped,?_⟩,by simp [quiet,number]⟩
    intro j alive
    rw [view] at alive
    exact number ▸ h.below j alive.2
  · obtain ⟨names,live,number⟩ := rename_integrity h r proper
    refine ⟨⟨names,stamped,?_⟩,number⟩
    intro i alive
    have bound := h.below i (live i alive)
    exact lt_of_lt_of_eq bound number.symm

theorem sound_new (now : SystemTime) (replicationFactor : Nat) : Sound (new now replicationFactor) := by
  have live (i : InodeId) : (new now replicationFactor).view.live i ↔ i = ROOT := by
    simp [view,kindOf,new,get_insert,eq_comm]
  have vacant (p : InodeId) (n : String) : (new now replicationFactor).resolve p n = none := by
    simp only [resolve,new,get_insert]
    split <;> simp
  refine ⟨⟨⟨?_,?_⟩,?_,?_,?_,?_⟩,?_,?_⟩
  · intro p n q m i named
    simp [view,vacant] at named
  · intro p n named
    simp [view,vacant] at named
  · intro i
    simp only [view,kindOf,new,get_insert]
    split <;> simp [rootInode]
  · intro p n i named
    simp [view,vacant] at named
  · intro i alive other
    exact absurd ((live i).mp alive) other
  · exact (live ROOT).mpr rfl
  · intro i inode found
    simp only [new,get_insert] at found
    split at found
    next same =>
      cases found
      exact same
    next => simp at found
  · intro i alive
    rw [(live i).mp alive]
    exact Nat.lt_succ_self 1

theorem run_sound (calls : List (Host × Call)) (s : MetaState) (h : Sound s)
    (proper : Along ProperRename calls s) (room : s.nextIno + drawn calls s < 2^64) :
    Sound (run calls s) := by
  induction calls generalizing s with
  | nil => exact h
  | cons head rest ih =>
    obtain ⟨host,call⟩ := head
    have drew : drawn ((host,call)::rest) s = (draws call s).toNat + drawn rest (serve host call s) := rfl
    have step := serve_sound h host call proper.1 (by omega)
    exact ih (serve host call s) step.1 proper.2 (by omega)

/-- From the initial state, runs of proper renames keep referential integrity for
as long as fewer than `2^64 - 2` inode numbers have been drawn. -/
theorem run_consistent (now : SystemTime) (replicationFactor : Nat) (calls : List (Host × Call))
    (proper : Along ProperRename calls (new now replicationFactor))
    (few : drawn calls (new now replicationFactor) < 2^64 - 2) :
    Consistent (run calls (new now replicationFactor)) := by
  have start : (new now replicationFactor).nextIno = 2 := rfl
  exact (run_sound calls _ (sound_new now replicationFactor) proper (by omega)).consistent

theorem run_consistent_moved :
    let calls := [(Host.still,Call.mkdir ⟨ROOT,"d",0,0,0⟩),(Host.still,Call.create ⟨2,"f",0,0,0⟩),
      (Host.still,Call.rename ⟨2,"f",ROOT,"g"⟩)]
    Consistent (run calls (new 0 1)) ∧ (run calls (new 0 1)).resolve ROOT "g" = some 3 := by
  refine ⟨run_consistent 0 1 _ ⟨trivial,trivial,⟨by decide,_,rfl,rfl⟩,trivial⟩ (by decide),by decide⟩

/-- Files created and unlinked again, `n` times over. -/
def createUnlink (n : Nat) : List (Host × Call) :=
  (List.replicate n [(Host.still,Call.create ⟨ROOT,"f",0,0,0⟩),(Host.still,Call.unlink ROOT "f")]).flatten

theorem createUnlink_succ (n : Nat) : createUnlink (n + 1) =
    (Host.still,Call.create ⟨ROOT,"f",0,0,0⟩)::(Host.still,Call.unlink ROOT "f")::createUnlink n := rfl

theorem createUnlink_along {p : Call → MetaState → Prop} (creates : ∀ s, p (.create ⟨ROOT,"f",0,0,0⟩) s)
    (unlinks : ∀ s, p (.unlink ROOT "f") s) (n : Nat) (s : MetaState) : Along p (createUnlink n) s := by
  induction n generalizing s with
  | zero => trivial
  | succ n ih => exact ⟨creates _,unlinks _,ih _⟩

theorem createUnlink_proper (n : Nat) (s : MetaState) : Along ProperRename (createUnlink n) s :=
  createUnlink_along (fun _ => trivial) (fun _ => trivial) n s

theorem createUnlink_round (s : MetaState) (dir : Map String InodeId) (found : s.dirs[ROOT]? = some dir) (vacant : dir["f"]? = none) :
    let t := serve Host.still (.unlink ROOT "f") (serve Host.still (.create ⟨ROOT,"f",0,0,0⟩) s)
    t.dirs[ROOT]? = some dir ∧ t.nextIno = (s.nextIno + 1) % 2^64 ∧
      ∀ i : InodeId, s.nextIno ≠ i → t.inodes[i]? = s.inodes[i]? := by
  rcases create_cases Host.still ⟨ROOT,"f",0,0,0⟩ s with ⟨taken,_⟩ | ⟨dir',found',_,made⟩
  · have present := (contains_iff dir "f").mp (taken dir found)
    simp [vacant] at present
  · have same : dir = dir' := Option.some.inj (found.symm.trans found')
    subst dir'
    simp only [serve,made]
    have entry : (created Host.still ⟨ROOT,"f",0,0,0⟩ dir s).dirs[ROOT]? = some (dir.insert "f" s.nextIno) := by
      simp [created]
    have child : (created Host.still ⟨ROOT,"f",0,0,0⟩ dir s).inodes[s.nextIno]? =
        some (freshInode Host.still ⟨ROOT,"f",0,0,0⟩ .file s.nextIno) := by
      simp [created]
    have others (i : InodeId) (other : s.nextIno ≠ i) :
        (created Host.still ⟨ROOT,"f",0,0,0⟩ dir s).inodes[i]? = s.inodes[i]? := by
      simp [created,get_insert,other]
    have gone : unlink ROOT "f" (created Host.still ⟨ROOT,"f",0,0,0⟩ dir s) = ⟨.ok (),
        (created Host.still ⟨ROOT,"f",0,0,0⟩ dir s).unlinked ROOT "f" (dir.insert "f" s.nextIno) s.nextIno,
        fireDeleteBlocks (created Host.still ⟨ROOT,"f",0,0,0⟩ dir s) s.nextIno []⟩ := by
      unfold unlink
      simp [resolve,entry,child,freshInode,putDir,unlinked]
      rfl
    rw [gone]
    refine ⟨?_,rfl,?_⟩
    · simp only [unlinked,get_insert,if_true,insert_erase vacant]
    · intro i other
      simp only [unlinked,get_erase,if_neg other]
      exact others i other

/-- The rounds leave every inode alone whose number does not come up. -/
theorem createUnlink_run (n : Nat) (s : MetaState) (dir : Map String InodeId) (found : s.dirs[ROOT]? = some dir)
    (vacant : dir["f"]? = none) (word : s.nextIno < 2^64) :
    (run (createUnlink n) s).dirs[ROOT]? = some dir ∧ (run (createUnlink n) s).nextIno = (s.nextIno + n) % 2^64 ∧
      ∀ i : InodeId, (∀ k < n, (s.nextIno + k) % 2^64 ≠ i) → (run (createUnlink n) s).inodes[i]? = s.inodes[i]? := by
  induction n generalizing s with
  | zero => exact ⟨found,(Nat.mod_eq_of_lt word).symm,fun _ _ => rfl⟩
  | succ n ih =>
    obtain ⟨table,number,kept⟩ := createUnlink_round s dir found vacant
    rw [createUnlink_succ]
    simp only [run,List.foldl_cons] at *
    obtain ⟨still,counted,later⟩ := ih _ table (by rw [number]; exact Nat.mod_lt _ (by decide))
    refine ⟨still,?_,?_⟩
    · rw [counted,number,Nat.mod_add_mod,Nat.add_assoc,Nat.add_comm 1]
    · intro i away
      have here : s.nextIno ≠ i := by
        have first := away 0 (Nat.succ_pos n)
        rwa [Nat.add_zero,Nat.mod_eq_of_lt word] at first
      rw [later i,kept i here]
      intro k low
      have next := away (k + 1) (Nat.succ_lt_succ low)
      rw [number,Nat.mod_add_mod,Nat.add_assoc,Nat.add_comm 1]
      exact next

theorem createUnlink_wraps (n : Nat) (s : MetaState) (low : 2 ≤ s.nextIno) (room : s.nextIno + n ≤ 2^64) (k : Nat) (below : k < n) :
    (s.nextIno + k) % 2^64 ≠ ROOT := by
  rw [Nat.mod_eq_of_lt (by omega)]
  intro same
  have one : s.nextIno + k = 1 := same
  omega

/-- The claim that every finite run keeps integrity fails once the counter wraps. -/
theorem run_wrapped_inconsistent :
    Along ProperRename (createUnlink (2^64 - 2)) (new 0 1) ∧
      ¬ Consistent (run (createUnlink (2^64 - 2)) (new 0 1)) := by
  refine ⟨createUnlink_proper _ _,?_⟩
  intro consistent
  obtain ⟨_,wrapped,kept⟩ := createUnlink_run (2^64 - 2) (new 0 1) ∅ (by simp [new]) (by simp) (by decide)
  have alive : (run (createUnlink (2^64 - 2)) (new 0 1)).inodes[ROOT]? = some (rootInode 0) := by
    rw [kept ROOT (createUnlink_wraps (2^64 - 2) (new 0 1) (by decide) (by decide))]
    simp [new]
  have below := (consistent.numbers ROOT (rootInode 0) alive).2
  rw [wrapped] at below
  exact absurd below (by decide)

end Dtmpfs
