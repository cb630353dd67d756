import Dtmpfs.NamespaceIntegrity

/-! Reachability from the root over whole runs. `rename` checks neither that the
destination's parent exists nor that it lies outside the moved subtree; runs that
avoid both keep every live inode reachable. -/
namespace Dtmpfs
open MetaService MetaState OrderedMap

/-- Every live inode lies on a finite path of directory entries from the root. -/
def Reachable (s : MetaState) : Prop :=
  ∀ (i : InodeId) (inode : Inode), s.inodes[i]? = some inode → s.view.Below ROOT i

/-- The rename takes a live source, its destination is not refused, and the
destination's parent has no directory or lies in the subtree that moves. -/
def Detaches (r : RenameReq) (s : MetaState) : Prop :=
  ∃ src inode, s.resolve r.srcParentIno r.srcName = some src ∧ s.inodes[src]? = some inode ∧
    (∃ replaced cleared, removeDestination r s = (.ok replaced,cleared)) ∧
    (s.dirs[r.dstParentIno]? = none ∨ s.view.Below src r.dstParentIno)

/-- What a call must respect: a drawn number is not in use, a rename detaches nothing. -/
def KeepsTree (call : Call) (s : MetaState) : Prop :=
  (draws call s = true → s.view.Unused ROOT s.nextIno) ∧
    ∀ r, call = .rename r → ¬ Detaches r s

section Rename

variable {s : MetaState} (h : s.view.Rooted ROOT) {r : RenameReq} {src : InodeId}
include h

theorem childless_of_dead {i : InodeId} (dead : ¬ s.view.live i) (b : String) : s.resolve i b = none := by
  refine resolve_of_table ?_ b
  intro owns
  exact dead ((view_wellformed s).folderLive i (h.tables i owns))

/-- A parent that owns a table is not below a dead source, and not below a live
one unless the rename detaches. -/
theorem outside_of_kept (named : s.resolve r.srcParentIno r.srcName = some src)
    (removed : ∃ replaced cleared, removeDestination r s = (.ok replaced,cleared))
    (owns : s.view.table r.dstParentIno) (safe : ¬ Detaches r s) : ¬ s.view.Below src r.dstParentIno := by
  intro below
  rcases Classical.em (s.view.live src) with alive | dead
  · obtain ⟨inode,found⟩ := (live_iff s src).mp alive
    exact safe ⟨src,inode,named,found,removed,.inr below⟩
  · rcases Relation.ReflTransGen.cases_head below with same | ⟨child,⟨b,step⟩,_⟩
    · exact dead (same ▸ (view_wellformed s).folderLive _ (h.tables _ owns))
    · have vacant := childless_of_dead h dead b
      exact absurd (step.symm.trans vacant) (by simp)

theorem rename_rooted (safe : ¬ Detaches r s) : (rename r s).state.view.Rooted ROOT := by
  rcases rename_view h.tables r with same | ⟨src,named,missing,lost,_⟩ |
    ⟨src,T,named,destination,owns,removed,moved,_⟩
  · rw [same]
    exact h
  · have dead : ¬ s.view.live src := by
      intro alive
      obtain ⟨inode,found⟩ := (live_iff s src).mp alive
      refine safe ⟨src,inode,named,found,⟨none,s,?_⟩,.inl missing⟩
      simp [removeDestination,resolve,missing]
    rw [lost]
    exact h.clear named dead (childless_of_dead h dead)
  · rw [moved]
    rcases destination with ⟨vacant,rfl⟩ | ⟨dst,slot,childless,rfl⟩
    · exact h.rehang (view_wellformed s) named vacant owns (outside_of_kept h named removed owns safe)
    · have outside := outside_of_kept h named removed owns.2 safe
      have detached : (s.view.detach r.dstParentIno r.dstName dst).Rooted ROOT := h.detach slot childless
      have vacant : (s.view.detach r.dstParentIno r.dstName dst).entry r.dstParentIno r.dstName = none := by
        simp [Namespace.detach]
      have sourceKept : r.srcParentIno ≠ dst := by
        intro same
        rw [same] at named
        exact absurd (named.symm.trans (childless _)) (by simp)
      by_cases same : r.srcParentIno = r.dstParentIno ∧ r.srcName = r.dstName
      -- Renaming a slot to itself removes the inode and leaves the slot dangling.
      · have target : src = dst := by
          rw [same.1,same.2] at named
          exact Option.some.inj (named.symm.trans slot)
        subst target
        rw [same.1,same.2,Namespace.rehang,Namespace.setEntry_self vacant]
        refine detached.dangle vacant ?_ ?_
        · intro a b entry
          simp only [Namespace.detach] at entry
          split at entry
          · cases entry
          next away => exact away (.inr (h.unique a b _ _ src entry slot))
        · intro root
          exact h.rootFree _ _ (root ▸ slot)
      · refine detached.rehang (view_wellformed s).detach ?_ vacant owns (fun below => outside below.of_detach)
        have away : ¬ (r.srcParentIno = dst ∨ (r.srcParentIno = r.dstParentIno ∧ r.srcName = r.dstName)) :=
          fun overlap => overlap.elim sourceKept same
        simp only [Namespace.detach,away,if_false]
        exact named

end Rename

theorem serve_rooted {s : MetaState} (h : s.view.Rooted ROOT) (host : Host) (call : Call)
    (safe : KeepsTree call s) : (serve host call s).view.Rooted ROOT := by
  obtain ⟨fresh,kept⟩ := safe
  rcases serve_view h.tables host call (fun drew => (fresh drew).tableless) with ⟨_,same⟩ |
    ⟨drew,p,n,isFolder,owns,vacant,view,_⟩ | ⟨_,p,n,i,slot,childless,view,_⟩ | ⟨r,rfl⟩
  · exact view_congr same.kinds same.dirs ▸ h
  · exact view ▸ h.attach (view_wellformed s) owns vacant (fresh drew)
  · exact view ▸ h.detach slot childless
  · exact rename_rooted h (kept r rfl)

theorem run_rooted (calls : List (Host × Call)) (s : MetaState) (h : s.view.Rooted ROOT)
    (safe : Along KeepsTree calls s) : (run calls s).view.Rooted ROOT := by
  induction calls generalizing s with
  | nil => exact h
  | cons head rest ih => exact ih (serve head.1 head.2 s) (serve_rooted h head.1 head.2 safe.1) safe.2

theorem rooted_new (now : SystemTime) (replicationFactor : Nat) : (new now replicationFactor).view.Rooted ROOT := by
  have initial := (sound_new now replicationFactor).names
  refine ⟨initial.toSlots,fun i owns => (initial.tables i).mp owns,?_⟩
  intro i alive
  have root : i = ROOT := by
    rcases Classical.em (i = ROOT) with same | other
    · exact same
    · obtain ⟨p,n,named⟩ := initial.named i alive other
      simp only [view,resolve,new,get_insert] at named
      split at named <;> simp at named
  exact root ▸ .refl

/-- In a run that never reuses a number and never detaches by a rename, every
state reached is a tree under the root. -/
theorem run_reachable (now : SystemTime) (replicationFactor : Nat) (calls : List (Host × Call))
    (safe : Along KeepsTree calls (new now replicationFactor)) (before after : List (Host × Call))
    (split : calls = before ++ after) : Reachable (run before (new now replicationFactor)) := by
  subst split
  have rooted := run_rooted before _ (rooted_new now replicationFactor) ((along_append before after _).mp safe).1
  intro i inode found
  exact rooted.reach i ((live_iff _ i).mpr ⟨inode,found⟩)

/-- Numbers in use, also those only a dangling entry mentions, lie below the counter. -/
structure Numbered (s : MetaState) : Prop where
  live : ∀ i, s.view.live i → i < s.nextIno
  entries : ∀ p n i, s.view.entry p n = some i → i < s.nextIno
  root : ROOT < s.nextIno

theorem Numbered.unused {s : MetaState} (h : Numbered s) (tidy : s.Tidy) : s.view.Unused ROOT s.nextIno where
  dead alive := absurd (h.live _ alive) (Nat.lt_irrefl _)
  tableless owns := absurd (h.live _ ((view_wellformed s).folderLive _ (tidy _ owns))) (Nat.lt_irrefl _)
  untargeted p n named := absurd (h.entries p n _ named) (Nat.lt_irrefl _)
  notRoot same := absurd (lt_of_lt_of_eq h.root same) (Nat.lt_irrefl _)

theorem Numbered.shrink {s t : MetaState} (h : Numbered s) (number : t.nextIno = s.nextIno)
    (live : ∀ i, t.view.live i → s.view.live i)
    (entries : ∀ p n i, t.view.entry p n = some i → ∃ q m, s.view.entry q m = some i) : Numbered t where
  live i alive := number ▸ h.live i (live i alive)
  entries p n i named := by
    obtain ⟨q,m,old⟩ := entries p n i named
    exact number ▸ h.entries q m i old
  root := number ▸ h.root

theorem rename_numbered {s : MetaState} (h : Numbered s) (tidy : s.Tidy) (r : RenameReq) :
    Numbered (rename r s).state ∧ (rename r s).state.nextIno = s.nextIno := by
  rcases rename_view tidy r with same | ⟨src,_,_,lost,number⟩ | ⟨src,T,named,destination,_,_,moved,number⟩
  · rw [same]
    exact ⟨h,rfl⟩
  · refine ⟨h.shrink number (fun i alive => by rw [lost] at alive; exact alive) ?_,number⟩
    intro p n i entry
    rw [lost] at entry
    simp only [Namespace.setEntry] at entry
    split at entry
    · cases entry
    · exact ⟨p,n,entry⟩
  · have inner (p : InodeId) (n : String) (i : InodeId) (entry : T.entry p n = some i) :
        s.view.entry p n = some i := by
      rcases destination with ⟨_,rfl⟩ | ⟨dst,_,_,rfl⟩
      · exact entry
      · simp only [Namespace.detach] at entry
        split at entry
        · cases entry
        · exact entry
    refine ⟨h.shrink number ?_ ?_,number⟩
    · intro i alive
      rw [moved] at alive
      rcases destination with ⟨_,rfl⟩ | ⟨dst,_,_,rfl⟩
      · exact alive
      · exact alive.2
    · intro p n i entry
      rw [moved] at entry
      simp only [Namespace.rehang,Namespace.setEntry] at entry
      split at entry
      · exact ⟨_,_,(Option.some.inj entry) ▸ named⟩
      · split at entry
        · cases entry
        · exact ⟨p,n,inner p n i entry⟩

theorem serve_numbered {s : MetaState} (h : Numbered s) (tidy : s.Tidy) (host : Host) (call : Call)
    (room : s.nextIno + (draws call s).toNat < 2^64) :
    Numbered (serve host call s) ∧ (serve host call s).nextIno = s.nextIno + (draws call s).toNat := by
  rcases serve_view tidy host call (fun _ => (h.unused tidy).tableless) with ⟨quiet,same⟩ |
    ⟨drew,p,n,isFolder,_,_,view,number⟩ | ⟨quiet,p,n,i,_,_,view,number⟩ | ⟨r,rfl⟩
  · have view := view_congr same.kinds same.dirs
    refine ⟨h.shrink same.nextIno (fun i alive => view ▸ alive) ?_,by simp [quiet,same.nextIno]⟩
    intro p n i named
    exact ⟨p,n,view ▸ named⟩
  · simp only [drew,Bool.toNat_true] at room ⊢
    rw [Nat.mod_eq_of_lt room] at number
    refine ⟨⟨?_,?_,?_⟩,number⟩
    · intro i alive
      rw [view] at alive
      rw [number]
      rcases alive with rfl | alive
      · exact Nat.lt_succ_self _
      · exact Nat.lt_succ_of_lt (h.live i alive)
    · intro q m i named
      rw [view] at named
      rw [number]
      simp only [Namespace.attach] at named
      split at named
      · exact (Option.some.inj named) ▸ Nat.lt_succ_self _
      · exact Nat.lt_succ_of_lt (h.entries q m i named)
    · rw [number]
      exact Nat.lt_succ_of_lt h.root
  · refine ⟨h.shrink number (fun j alive => (view ▸ alive : (s.view.detach p n i).live j).2) ?_,
      by simp [quiet,number]⟩
    intro q m j named
    rw [view] at named
    simp only [Namespace.detach] at named
    split at named
    · cases named
    · exact ⟨q,m,named⟩
  · exact rename_numbered h tidy r

/-- Until the counter wraps, only renames can break the tree. -/
theorem keepsTree_of_few (calls : List (Host × Call)) (s : MetaState) (h : s.view.Rooted ROOT)
    (numbered : Numbered s) (room : s.nextIno + drawn calls s < 2^64)
    (safe : Along (fun call s => ∀ r, call = .rename r → ¬ Detaches r s) calls s) :
    Along KeepsTree calls s := by
  induction calls generalizing s with
  | nil => trivial
  | cons head rest ih =>
    obtain ⟨host,call⟩ := head
    have drew : drawn ((host,call)::rest) s = (draws call s).toNat + drawn rest (serve host call s) := rfl
    have keeps : KeepsTree call s := ⟨fun _ => numbered.unused h.tables,safe.1⟩
    have step := serve_numbered numbered h.tables host call (by omega)
    exact ⟨keeps,ih _ (serve_rooted h host call keeps) step.1 (by omega) safe.2⟩

theorem keepsTree_new (now : SystemTime) (replicationFactor : Nat) (calls : List (Host × Call))
    (few : drawn calls (new now replicationFactor) < 2^64 - 2)
    (safe : Along (fun call s => ∀ r, call = .rename r → ¬ Detaches r s) calls (new now replicationFactor)) :
    Along KeepsTree calls (new now replicationFactor) := by
  have start : (new now replicationFactor).nextIno = 2 := rfl
  have sound := sound_new now replicationFactor
  refine keepsTree_of_few calls _ (rooted_new now replicationFactor) ⟨sound.below,?_,?_⟩ (by omega) safe
  · intro p n i named
    exact sound.below i (sound.names.target p n i named)
  · exact sound.below ROOT sound.names.rootLive

theorem edgeless {s : MetaState} {a : InodeId} (empty : s.dirs[a]?.map (·.isEmpty) = some true) (b : InodeId) :
    ¬ s.view.edge a b := by
  intro step
  obtain ⟨n,named⟩ := step
  obtain ⟨dir,found,named⟩ := dir_of_resolve named
  rw [found] at empty
  have vacant := (isEmpty_iff dir).mp (Option.some.inj empty) n
  rw [vacant] at named
  cases named

theorem below_self {s : MetaState} {a b : InodeId} (empty : s.dirs[a]?.map (·.isEmpty) = some true)
    (path : s.view.Below a b) : a = b := by
  rcases Relation.ReflTransGen.cases_head path with same | ⟨child,step,_⟩
  · exact same
  · exact absurd step (edgeless empty child)

theorem run_reachable_moved :
    let calls := [(Host.still,Call.mkdir ⟨ROOT,"a",0,0,0⟩),(Host.still,Call.mkdir ⟨ROOT,"b",0,0,0⟩),
      (Host.still,Call.rename ⟨ROOT,"a",3,"c"⟩)]
    Along KeepsTree calls (new 0 1) ∧ Reachable (run calls (new 0 1)) ∧
      (run calls (new 0 1)).resolve 3 "c" = some 2 := by
  intro calls
  have keeps : Along KeepsTree calls (new 0 1) := by
    refine keepsTree_new 0 1 calls (by decide) ⟨nofun,nofun,?_,trivial⟩
    intro r same detaches
    cases same
    obtain ⟨src,inode,named,found,_,missing | below⟩ := detaches
    · exact absurd missing (by decide)
    · have source : src = 2 := by
        have two : (serve Host.still (.mkdir ⟨ROOT,"b",0,0,0⟩)
            (serve Host.still (.mkdir ⟨ROOT,"a",0,0,0⟩) (new 0 1))).resolve ROOT "a" = some 2 := by decide
        exact Option.some.inj (named.symm.trans two)
      subst source
      exact absurd (below_self (by decide) below) (by decide)
  exact ⟨keeps,run_reachable 0 1 calls keeps calls [] (by simp),by decide⟩

/-- A directory renamed below itself: `a` moves into its own child `b`. -/
theorem rename_below_itself :
    ¬ Reachable (run [(Host.still,.mkdir ⟨ROOT,"a",0,0,0⟩),(Host.still,.mkdir ⟨2,"b",0,0,0⟩),
      (Host.still,.rename ⟨ROOT,"a",3,"c"⟩)] (new 0 1)) := by
  intro reachable
  have path := reachable 2 _ rfl
  exact absurd (below_self (by decide) path) (by decide)

end Dtmpfs
